import OsLabs.Mm.Runs

/-! @src lab5_mm/ll-mm.c | name:find | scheme:tiling

    Which pointers `find_block` accepts: on any heap that operations reach, the data pointers of the
    blocks that are in the chain now. A pointer into a block, or to the data of a block that a merge
    has swallowed, is turned into the address of no header, and the loop runs into the break.

        [ hdr | data ........ ][ hdr | data ..... ] brk        the data pointers  4112 and 4144
        4096    4112            4128   4144
        [ hdr | data ............................ ] brk        merged: only       4112           -/

namespace OsLabs.Mm
open Schemes

section find
variable {h : Heap} {b p : ℕ}

/-- A block of the chain lies above 0 and below 2^63. -/
theorem Inv.inChain_bounds (hi : Inv h) (hb : h.InChain b) : 0 < b ∧ b + 16 < 2 ^ 63 := by
  obtain ⟨l, c, r, hc, rfl⟩ := hi.inChain hb
  have hcb := hc.bounds (c := c) (by simp)
  omega

/-- Where `b` and its header do not wrap, `p` belongs to `b` exactly when it is the data pointer. -/
theorem dataToBlock_eq_iff (h0 : 0 < b) (hb : b + 16 < 2 ^ 63) (hp : p < 2 ^ 64) :
    dataToBlock p = b ↔ p = blockToData b := by
  have hdata : blockToData b = b + 16 := by
    rw [blockToData, if_neg (Nat.ne_of_gt h0)]
    exact Nat.mod_eq_of_lt (show b + 16 < 2 ^ 64 by omega)
  have hwrap : (p + (2 ^ 64 - metaSize)) % 2 ^ 64 = (p + (2 ^ 64 - 16)) % 2 ^ 64 := rfl
  rw [hdata, dataToBlock, hwrap]
  split
  case isTrue hnull =>
    have hp0 : p = 0 := hnull
    omega
  case isFalse => omega

theorem findBlock_mono {n n' r : ℕ} (hn : n ≤ n') (hrun : findBlock n p h = some r) :
    findBlock n' p h = some r := by
  rw [findBlock] at hrun ⊢
  exact ite_iter_mono hn hrun

/-- `find_block` terminates, and returns the block that the pointer would belong to, if that is in
    the chain. -/
theorem Inv.findBlock (hi : Inv h) (p : ℕ) : ∃ n r,
    (∀ fuel, n ≤ fuel → findBlock fuel p h = some r) ∧
      (h.InChain (dataToBlock p) → r = dataToBlock p) ∧
      (¬h.InChain (dataToBlock p) → r = null) := by
  rcases eq_or_ne h.first null with hnull | hfirst
  · exact ⟨0, null, fun _ _ => if_pos hnull, fun hin => absurd hnull hin.1, fun _ => rfl⟩
  · obtain ⟨-, cs, hc⟩ := hi.chain hfirst
    obtain ⟨r, hr⟩ : ∃ r, r = if dataToBlock p ∈ cs.map Cell.lo then dataToBlock p else null :=
      ⟨_, rfl⟩
    have hrun := hc.linked.findBlock_eq (by decide) p
    rw [← hr] at hrun
    refine ⟨cs.length + 1, r, fun fuel hn => findBlock_mono hn hrun, fun hin => ?_, fun hout => ?_⟩
    · obtain ⟨-, bs, hbs, hmem⟩ := hin
      rw [hbs.unique hc.walk] at hmem
      exact hr.trans (if_pos hmem)
    · exact hr.trans (if_neg fun hmem => hout ⟨hfirst, _, hc.walk, hmem⟩)

/-- CORRECT (find_block): on every heap that operations reach, `find_block` terminates for every
    pointer, and returns a block exactly when that is in the chain and the pointer is its data
    pointer; and every block of the chain is found from its data pointer. -/
theorem findBlock_live (hr : Reach h) : (∀ p < 2 ^ 64, ∃ n r,
      (∀ fuel, n ≤ fuel → findBlock fuel p h = some r) ∧
        (∀ b, r = b ∧ b ≠ null ↔ h.InChain b ∧ p = blockToData b) ∧
        ((∀ b, h.InChain b → p ≠ blockToData b) → r = null)) ∧
    ∀ b, h.InChain b → dataToBlock (blockToData b) = b := by
  have hi := hr.inv
  refine ⟨fun p hp => ?_, fun b hb => ?_⟩
  · have hiff : ∀ b, h.InChain b → (dataToBlock p = b ↔ p = blockToData b) := by
      intro b hb
      have hbounds := hi.inChain_bounds hb
      exact dataToBlock_eq_iff hbounds.1 hbounds.2 hp
    obtain ⟨n, r, hrun, hin, hout⟩ := hi.findBlock p
    refine ⟨n, r, hrun, fun b => ?_, fun hnone => hout fun hmem => ?_⟩
    · constructor
      · rintro ⟨rfl, hne⟩
        have hmem : h.InChain (dataToBlock p) := by
          by_contra hno
          exact hne (hout hno)
        rw [hin hmem]
        exact ⟨hmem, (hiff _ hmem).mp rfl⟩
      · rintro ⟨hb, hpb⟩
        have heq := (hiff b hb).mpr hpb
        have hne : b ≠ 0 := Nat.ne_of_gt (hi.inChain_bounds hb).1
        rw [← heq] at hb
        exact ⟨(hin hb).trans heq, hne⟩
    · exact hnone _ hmem ((hiff _ hmem).mp rfl)
  · have hbounds := hi.inChain_bounds hb
    have hlt : blockToData b < 2 ^ 64 := by
      rw [blockToData]
      split
      · decide
      · exact Nat.mod_lt _ (by decide)
    exact (dataToBlock_eq_iff hbounds.1 hbounds.2 hlt).mpr rfl

end find

/-- The block of `oneBlock`, freed and cut in two. -/
def cutBlock : Heap := (splitBlock 4096 16 (oneBlock.setFree 4096 true)).1

/-- The two halves are one block again. -/
def mendedBlock : Heap := (mergeBlocks 3 4096 cutBlock).get (by decide +kernel)

/-- The data pointer 4144 is found until the merge, and 4112 ever after. -/
theorem findBlock_live_mended : findBlock 3 4144 cutBlock = some 4128 ∧
    findBlock 3 4144 mendedBlock = some null ∧ findBlock 3 4112 mendedBlock = some 4096 ∧
    ∃ n r, (∀ fuel, n ≤ fuel → findBlock fuel 4144 mendedBlock = some r) ∧
      (∀ b, r = b ∧ b ≠ null ↔ mendedBlock.InChain b ∧ 4144 = blockToData b) ∧
      ((∀ b, mendedBlock.InChain b → 4144 ≠ blockToData b) → r = null) :=
  have hone : (Op.newBlock true 100).exec 0 emptyHeap = some oneBlock := rfl
  have hsize : (Op.newBlock true 100).Allowed emptyHeap := show 100 ≤ 2 ^ 62 by decide
  have hset : (Op.setFree 4096 true).exec 0 oneBlock = some (oneBlock.setFree 4096 true) := rfl
  have hin : (Op.setFree 4096 true).Allowed oneBlock :=
    ⟨by decide +kernel, [4096], by decide +kernel, by decide⟩
  have hcut : (Op.splitBlock 4096 16).exec 0 (oneBlock.setFree 4096 true) = some cutBlock := rfl
  have hfree : (Op.splitBlock 4096 16).Allowed (oneBlock.setFree 4096 true) :=
    ⟨⟨by decide +kernel, [4096], by decide +kernel, by decide⟩, by decide +kernel⟩
  have hmend : (Op.mergeBlocks 4096).exec 3 cutBlock = some mendedBlock := (Option.some_get _).symm
  have htwo : (Op.mergeBlocks 4096).Allowed cutBlock :=
    ⟨by decide +kernel, [4096, 4128], by decide +kernel, by decide⟩
  have hr : Reach oneBlock := .step (.start rfl rfl rfl (by decide)) hsize hone
  ⟨by decide +kernel, by decide +kernel, by decide +kernel,
    (findBlock_live (((hr.step hin hset).step hfree hcut).step htwo hmend)).1 4144 (by decide)⟩

end OsLabs.Mm

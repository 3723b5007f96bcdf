import OsLabs.Ssfs.Alloc

/-! @src lab4_fs/fs_support.c, lab4_fs/ssfs.c | name:release | scheme:stock

    The loop that `do_truncate` is meant to run over the blocks of a file: `freeBlock` on the first
    block and then on each block that it returns. A call overwrites the link of its block, and has
    read it before.

        0 → f → ..          b1 → b2 → b3 → EOF          freeBlock(b1) = b2
        0 → b1 → f → ..          b2 → b3 → EOF          freeBlock(b2) = b3
        0 → b3 → b2 → b1 → f → ..                       freeBlock(b3) = EOF         -/

namespace OsLabs.Ssfs
open Schemes

/-- `freeBlock` until it returns `EOF_BLOCK`: the map, and the blocks it was called on in order. -/
def release : ℕ → Block → ℕ → Option (Block × List ℕ)
  | 0, _, _ => none
  | fuel + 1, blocks, x =>
    let r := freeBlock blocks x
    if r.2 = eofBlock then some (r.1, [x])
    else (release fuel r.1 r.2).map fun q => (q.1, x :: q.2)

section release
variable {b b' : Block} {x y fuel : ℕ} {bs fl calls : List ℕ}

/-- A block of a chain is a block of the map. -/
theorem lt_of_chain (hc : Walk b.blockmap eofBlock x (x :: bs)) (hids : ∀ y ∈ bs, 2 ≤ y) :
    x < 256 := by
  by_contra hx
  have hnext : b.blockmap x = bs.headD eofBlock := Walk.next_eq (l := []) hc
  rw [Block.blockmap_out b (Nat.le_of_not_lt hx)] at hnext
  cases bs with
  | nil => cases hnext
  | cons y bs =>
    have hy : 2 ≤ y := hids y (List.mem_cons_self ..)
    rw [List.headD_cons] at hnext
    omega

/-- One call puts the first block of the chain in front of the free list, and keeps the rest of the
    chain and the other entries. -/
theorem freeBlock_step (hf : Walk b.blockmap 0 (b.blockmap 0) fl) (hfl : ∀ y ∈ fl, 2 ≤ y)
    (hc : Walk b.blockmap eofBlock x (x :: bs)) (hids : ∀ y ∈ x :: bs, 2 ≤ y)
    (hxbs : x ∉ bs) (hxfl : x ∉ fl) :
    Walk (freeBlock b x).1.blockmap 0 ((freeBlock b x).1.blockmap 0) (x :: fl) ∧
      Walk (freeBlock b x).1.blockmap eofBlock (b.blockmap x) bs ∧
      ∀ y, y ≠ 0 → y ≠ x → (freeBlock b x).1.blockmap y = b.blockmap y := by
  have hx : 2 ≤ x := hids x (List.mem_cons_self ..)
  have hbs : ∀ y ∈ bs, 2 ≤ y := fun y hy => hids y (List.mem_cons_of_mem _ hy)
  have hzero : ∀ l : List ℕ, (∀ y ∈ l, 2 ≤ y) → 0 ∉ l := by
    intro l hl h0
    have h2 := hl 0 h0
    omega
  rw [freeBlock_blockmap (lt_of_chain hc hbs)]
  refine ⟨push_free hf (hzero fl hfl) ?_ (by omega), push_rest hc (hzero bs hbs) hxbs,
    fun y hy hyx => push_out hy hyx⟩
  rw [List.mem_cons, not_or]
  exact ⟨by omega, hxfl⟩

theorem release_last (h : b.blockmap x = eofBlock) :
    release (fuel + 1) b x = some ((freeBlock b x).1, [x]) := if_pos h

theorem release_next (h : b.blockmap x ≠ eofBlock)
    (hr : release fuel (freeBlock b x).1 (b.blockmap x) = some (b', calls)) :
    release (fuel + 1) b x = some (b', x :: calls) := by
  have hstep : release (fuel + 1) b x = (release fuel (freeBlock b x).1 (b.blockmap x)).map
      fun q => (q.1, x :: q.2) := if_neg h
  rw [hstep, hr]
  rfl

/-- CORRECT (release): over a chain of any number of blocks, beside a free list, the calls are those
    on the blocks of the chain in order; then the chain stands backwards in front of the free list,
    and no other entry but 0 has changed. -/
theorem release_chain (hf : Walk b.blockmap 0 (b.blockmap 0) fl) (hfl : ∀ y ∈ fl, 2 ≤ y)
    (hc : Walk b.blockmap eofBlock x (x :: bs)) (hids : ∀ y ∈ x :: bs, 2 ≤ y)
    (hn : (x :: bs ++ fl).Nodup) : ∃ b',
      (∀ fuel, bs.length < fuel → release fuel b x = some (b', x :: bs)) ∧
        Walk b'.blockmap 0 (b'.blockmap 0) ((x :: bs).reverse ++ fl) ∧
        ((x :: bs).reverse ++ fl).Nodup ∧
        ∀ y, y ≠ 0 → y ∉ x :: bs → b'.blockmap y = b.blockmap y := by
  induction bs generalizing b x fl with
  | nil =>
    obtain ⟨hxfl, -⟩ := List.nodup_cons.mp hn
    obtain ⟨hfree, -, hout⟩ := freeBlock_step hf hfl hc hids List.not_mem_nil hxfl
    refine ⟨(freeBlock b x).1, fun fuel hfuel => ?_, hfree, hn, fun y hy hyx => ?_⟩
    · obtain ⟨fuel, rfl⟩ := Nat.exists_eq_add_of_lt hfuel
      exact release_last hc.tail
    · exact hout y hy (List.ne_of_not_mem_cons hyx)
  | cons y bs ih =>
    -- the free list has grown by `x`, and the chain is what the call returned
    obtain ⟨hx, hn'⟩ := List.nodup_cons.mp hn
    have hxbs : x ∉ y :: bs := fun hmem => hx (List.mem_append_left _ hmem)
    have hxfl : x ∉ fl := fun hmem => hx (List.mem_append_right _ hmem)
    obtain ⟨hfree, hrest, hout⟩ := freeBlock_step hf hfl hc hids hxbs hxfl
    have hy : b.blockmap x = y := hrest.head_eq
    rw [hy] at hrest
    have hfl' : ∀ z ∈ x :: fl, 2 ≤ z := List.forall_mem_cons.mpr
      ⟨hids x (List.mem_cons_self ..), hfl⟩
    have hperm : (y :: bs ++ x :: fl).Nodup := List.perm_middle.nodup_iff.mpr hn
    obtain ⟨b', hrun, hfree', hnodup, hout'⟩ := ih hfree hfl' hrest
      (fun z hz => hids z (List.mem_cons_of_mem _ hz)) hperm
    have hlist : (x :: y :: bs).reverse ++ fl = (y :: bs).reverse ++ x :: fl := by
      rw [List.reverse_cons (a := x), List.append_assoc, List.singleton_append]
    rw [hlist]
    refine ⟨b', fun fuel hfuel => ?_, hfree', hnodup, fun z hz hzx => ?_⟩
    · obtain ⟨fuel, rfl⟩ := Nat.exists_eq_add_of_lt hfuel
      refine release_next ?_ ?_
      · rw [hy]
        exact hrest.2.1
      · rw [hy]
        exact hrun _ (Nat.lt_of_succ_lt_succ hfuel)
    · rw [List.mem_cons, not_or] at hzx
      rw [hout' z hz hzx.2, hout z hz hzx.1]

end release

/-- A map of ten blocks with a file of blocks 2 and 3, and 4 to 9 free. -/
def twoBlockFile : Block :=
  let taken := (allocateBlock (allocateBlock (formatMap 10 (Buf.zero 512))).1).1
  taken.setBlockmap 2 3

theorem release_chain_two : ∃ b',
    (∀ fuel, 1 < fuel → release fuel twoBlockFile 2 = some (b', [2, 3])) ∧
      Walk b'.blockmap 0 (b'.blockmap 0) [3, 2, 4, 5, 6, 7, 8, 9] ∧
      [3, 2, 4, 5, 6, 7, 8, 9].Nodup ∧
      ∀ y, y ≠ 0 → y ∉ [2, 3] → b'.blockmap y = twoBlockFile.blockmap y :=
  have hf : Walk twoBlockFile.blockmap 0 (twoBlockFile.blockmap 0) [4, 5, 6, 7, 8, 9] := by
    decide +kernel
  have hc : Walk twoBlockFile.blockmap eofBlock 2 [2, 3] := by decide +kernel
  release_chain hf (by decide) hc (by decide) (by decide)

end OsLabs.Ssfs

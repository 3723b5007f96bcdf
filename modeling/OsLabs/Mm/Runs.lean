import OsLabs.Mm.Chain

/-! @src lab5_mm/ll-mm.c | name:runs | scheme:tiling

    Any sequence of the list operations, on an `sbrk` that may fail at any time and that nobody else
    calls, keeps the chain of blocks exact to the byte. Hence every traversal stops at the break,
    and used bytes, unused bytes and headers add up to the heap. -/

namespace OsLabs.Mm
open Schemes

/-- `pb` is a block of the chain. -/
def Heap.InChain (h : Heap) (pb : ℕ) : Prop :=
  h.first ≠ null ∧ ∃ bs, Walk h.next h.brk h.first bs ∧ pb ∈ bs

/-- Following `next` from `first` gives aligned blocks at increasing addresses, each with room for
    its header, and ends at the break. -/
def WellFormed (h : Heap) : Prop :=
  h.first = null ∨ ∃ bs, Walk h.next h.brk h.first bs ∧ (bs ++ [h.brk]).Pairwise (· < ·) ∧
    ∀ b ∈ bs, b % alignment = 0 ∧ metaSize ≤ h.blockTotalSize b

inductive Op where
  | newBlock (ok : Bool) (size : ℕ)
  | setFree (pb : ℕ) (free : Bool)
  | splitBlock (pb size : ℕ)
  | mergeBlocks (pb : ℕ)
  | reset (ok : Bool)

namespace Op

def Allowed (h : Heap) : Op → Prop
  | newBlock _ size => size ≤ 2 ^ 62
  | setFree pb _ => h.InChain pb
  | splitBlock pb size => h.InChain pb ∧ size < h.blockDataSize pb
  | mergeBlocks pb => h.InChain pb
  | reset _ => True

/-- The result of `new_block` is stored in `first` when that is NULL. -/
def exec (fuel : ℕ) (h : Heap) : Op → Option Heap
  | newBlock ok size =>
    let r := Mm.newBlock ok size h
    some (if r.1.first = null then { r.1 with first := r.2 } else r.1)
  | setFree pb free => some (h.setFree pb free)
  | splitBlock pb size => some (Mm.splitBlock pb size h).1
  | mergeBlocks pb => Mm.mergeBlocks fuel pb h
  | reset ok => some (Mm.reset ok h)

end Op

/-- The heaps that operations reach from an empty one, whose break is aligned and above 0. -/
inductive Reach : Heap → Prop
  | start {h : Heap} (hfirst : h.first = null) (hbrk : h.brk = h.base)
      (ha : h.base % alignment = 0) (hpos : 0 < h.base) : Reach h
  | step {h h' : Heap} {op : Op} {fuel : ℕ} (hr : Reach h) (ha : op.Allowed h)
      (hx : op.exec fuel h = some h') : Reach h'

/-! ### What each call does to the break and the blocks -/

section calls
variable {h : Heap} {ok : Bool} {size : ℕ} {c : Cell} {cs l r : List Cell}

theorem newBlock_cases (ok : Bool) (hsize : size ≤ 2 ^ 62) :
    newBlock ok size h = (h, null) ∨ ∃ t, 16 ≤ t ∧ t % 16 = 0 ∧ h.brk + t < 2 ^ 63 ∧
      newBlock ok size h = (Chain.grow h t, h.brk) := by
  have hwrap : (size + metaSize) % 2 ^ 64 = size + 16 := Linked.size_wrap (by omega)
  obtain ⟨t, ht⟩ : ∃ t, t = (size + 16 + 15) / 16 * 16 := ⟨_, rfl⟩
  have hbmod : (t : ℤ).bmod (2 ^ 64) = t := Int.bmod_eq_of_le (by omega) (by omega)
  rw [newBlock, hwrap, alignedSize_eq (by omega), ← ht]
  simp only [hbmod, sbrk]
  by_cases hgo : ok = true ∧ (h.base : ℤ) ≤ h.brk + t ∧ (h.brk : ℤ) + t < 2 ^ 63
  · have hlt : h.brk + t < 2 ^ 63 := by omega
    have hnat : ((h.brk : ℤ) + t).toNat = h.brk + t := by omega
    refine Or.inr ⟨t, by omega, by omega, hlt, ?_⟩
    rw [if_pos hgo]
    simp only [hnat]
    have hne : h.brk ≠ 2 ^ 64 - 1 := by omega
    exact if_neg hne
  · rw [if_neg hgo]
    exact Or.inl (if_pos rfl)

theorem splitBlock_cases (hc : Chain h (l ++ c :: r)) (hsize : size < h.blockDataSize c.lo) :
    (splitBlock c.lo size h).1 = h ∨ ∃ pn, pn % 16 = 0 ∧ c.lo + 16 ≤ pn ∧ pn + 16 ≤ c.hi ∧
      (splitBlock c.lo size h).1 = h.cutAt c.lo pn := by
  have ha := hc.aligned c (by simp)
  obtain ⟨t, ht, -, hneg, hpos⟩ := hc.linked.splitBlock_eq ha hsize
  rcases lt_or_ge (splitBlock c.lo size h).2 0 with hlt | hge
  · exact Or.inl (hneg hlt)
  · obtain ⟨hroom, hcut⟩ := hpos hge
    exact Or.inr ⟨c.lo + t, by omega, by omega, hroom, hcut⟩

theorem sbrk_cases (ok : Bool) (n : ℤ) : (sbrk ok n h).1 = h ∨
    ∃ b : ℕ, (b : ℤ) = h.brk + n ∧ h.base ≤ b ∧ (sbrk ok n h).1 = { h with brk := b } := by
  rw [sbrk]
  split
  case isTrue hgo => exact Or.inr ⟨(h.brk + n).toNat, by omega, by omega, rfl⟩
  case isFalse => exact Or.inl rfl

theorem mergeBlocks_det {fuel fuel' pb : ℕ} {h₁ h₂ : Heap} (h₁' : mergeBlocks fuel pb h = some h₁)
    (h₂' : mergeBlocks fuel' pb h = some h₂) : h₁ = h₂ := by
  rw [mergeBlocks] at h₁' h₂'
  split at h₁'
  case isTrue hend =>
    rw [if_pos hend] at h₂'
    exact Option.some.inj (h₁'.symm.trans h₂')
  case isFalse hgo =>
    rw [if_neg hgo] at h₂'
    exact iter_det h₁' h₂'

end calls

/-! ### The invariant -/

structure Inv (h : Heap) : Prop where
  brk_aligned : h.brk % 16 = 0
  base_pos : 0 < h.base
  base_le : h.base ≤ h.brk
  chain : h.first ≠ null → h.base ≤ h.first ∧ ∃ cs, Chain h cs

section inv
variable {h h' : Heap} {op : Op}

/-- A block of the chain, with the blocks before and after it. -/
theorem Inv.inChain (hi : Inv h) {pb : ℕ} (hpb : h.InChain pb) :
    ∃ l c r, Chain h (l ++ c :: r) ∧ c.lo = pb := by
  obtain ⟨hfirst, bs, hwalk, hmem⟩ := hpb
  obtain ⟨-, cs, hc⟩ := hi.chain hfirst
  rw [hwalk.unique hc.walk] at hmem
  obtain ⟨c, hcs, hlo⟩ := List.mem_map.mp hmem
  obtain ⟨l, r, rfl⟩ := List.append_of_mem hcs
  exact ⟨l, c, r, hc, hlo⟩

/-- The first block starts at an aligned address. -/
theorem Inv.first_aligned (hi : Inv h) (hfirst : h.first ≠ null) : h.first % 16 = 0 := by
  obtain ⟨-, cs, hc⟩ := hi.chain hfirst
  cases cs with
  | nil =>
    have hend : h.first = h.brk := hc.tiles
    rw [hend]
    exact hi.brk_aligned
  | cons c cs => rw [← hc.tiles.1]; exact hc.aligned c (List.mem_cons_self ..)

/-- An operation that changes the blocks only. -/
theorem Inv.of_chain (hi : Inv h) {mem : Mem} {cs : List Cell} (hfirst : h.base ≤ h.first)
    (hc : Chain { h with mem := mem } cs) : Inv { h with mem := mem } :=
  ⟨hi.brk_aligned, hi.base_pos, hi.base_le, fun _ => ⟨hfirst, cs, hc⟩⟩

theorem Inv.newBlock (hi : Inv h) {ok : Bool} {size fuel : ℕ} (hsize : size ≤ 2 ^ 62)
    (hx : (Op.newBlock ok size).exec fuel h = some h') : Inv h' := by
  obtain rfl := Option.some.inj hx
  rcases newBlock_cases (h := h) ok hsize with hfail | ⟨t, hm, hta, hlt, hgrow⟩
  · rw [hfail]
    split
    · exact ⟨hi.brk_aligned, hi.base_pos, hi.base_le, fun hne => absurd rfl hne⟩
    · exact hi
  · have hpos := hi.base_pos
    have hle := hi.base_le
    have hba := hi.brk_aligned
    have hstep : ∀ {f : ℕ} {cs : List Cell}, h.base ≤ f →
        Chain { Chain.grow h t with first := f } cs → Inv { Chain.grow h t with first := f } := by
      intro f cs hf hc
      have hta' : (h.brk + t) % 16 = 0 := by omega
      exact ⟨hta', hpos, hle.trans (Nat.le_add_right ..), fun _ => ⟨hf, cs, hc⟩⟩
    rw [hgrow]
    split
    · -- the first block of the heap
      have hnone : Tiles 16 h.brk h.brk ([] : List Cell) := rfl
      exact hstep hle (Chain.of_grow hnone (by simp) (by simp) (by omega) hba hm hlt)
    · rename_i hfirst
      obtain ⟨hf, cs, hc⟩ := hi.chain hfirst
      exact hstep hf (Chain.of_grow hc.tiles hc.aligned hc.header hc.first_pos hba hm hlt)

theorem Inv.reset (hi : Inv h) (ok : Bool) : Inv (reset ok h) := by
  rw [Mm.reset]
  split
  case isFalse => exact hi
  case isTrue hfirst =>
    obtain ⟨hf, -⟩ := hi.chain hfirst
    have hfa := hi.first_aligned hfirst
    rcases sbrk_cases (h := h) ok ((h.first : ℤ) - h.brk) with hsame | ⟨b, hb, hbase, hmove⟩
    · rw [hsame]
      exact ⟨hi.brk_aligned, hi.base_pos, hi.base_le, fun hne => absurd rfl hne⟩
    · rw [hmove]
      obtain rfl : b = h.first := by omega
      exact ⟨hfa, hi.base_pos, hbase, fun hne => absurd rfl hne⟩

/-- Every allowed operation terminates, and whatever it leaves satisfies the invariant. -/
theorem Inv.exec (hi : Inv h) (ha : op.Allowed h) : (∃ fuel h', op.exec fuel h = some h') ∧
    ∀ fuel h', op.exec fuel h = some h' → Inv h' := by
  cases op with
  | newBlock ok size => exact ⟨⟨0, _, rfl⟩, fun _ _ hx => hi.newBlock ha hx⟩
  | reset ok =>
    refine ⟨⟨0, _, rfl⟩, fun _ _ hx => ?_⟩
    obtain rfl := Option.some.inj hx
    exact hi.reset ok
  | setFree pb free =>
    refine ⟨⟨0, _, rfl⟩, fun _ _ hx => ?_⟩
    obtain rfl := Option.some.inj hx
    obtain ⟨l, c, r, hc, rfl⟩ := hi.inChain ha
    exact hi.of_chain (hi.chain ha.1).1 (hc.setFree free)
  | splitBlock pb size =>
    refine ⟨⟨0, _, rfl⟩, fun _ _ hx => ?_⟩
    obtain rfl := Option.some.inj hx
    obtain ⟨l, c, r, hc, rfl⟩ := hi.inChain ha.1
    rcases splitBlock_cases hc ha.2 with hsame | ⟨pn, hpa, hlo, hhi, hcut⟩
    · rw [hsame]; exact hi
    · rw [hcut]; exact hi.of_chain (hi.chain ha.1.1).1 (hc.cutAt hpa hlo hhi)
  | mergeBlocks pb =>
    obtain ⟨l, c, r, hc, rfl⟩ := hi.inChain ha
    obtain ⟨fuel, mem, hrun, hchain⟩ := hc.mergeBlocks
    refine ⟨⟨fuel, _, hrun⟩, fun fuel' h' hx => ?_⟩
    obtain rfl := mergeBlocks_det hrun hx
    exact hi.of_chain (hi.chain ha.1).1 hchain

theorem Reach.inv (hr : Reach h) : Inv h := by
  induction hr with
  | start hfirst hbrk ha hpos =>
    exact ⟨by rw [hbrk]; exact ha, hpos, hbrk.ge, fun hne => absurd hfirst hne⟩
  | step _ ha hx ih => exact (ih.exec ha).2 _ _ hx

end inv

/-! ### Well-formedness and conservation -/

section main
variable {h : Heap} {cs : List Cell}

theorem Chain.wellFormed (hc : Chain h cs) : WellFormed h := by
  refine Or.inr ⟨cs.map Cell.lo, hc.walk, ?_, fun b hb => ?_⟩
  · rw [List.pairwise_append]
    refine ⟨?_, List.pairwise_singleton _ _, fun a ha b hb => ?_⟩
    · rw [List.pairwise_map]
      refine hc.tiles.sorted.imp_of_mem (fun hx _ hxy => ?_)
      have := hc.bounds hx
      omega
    · obtain ⟨c, hcs, rfl⟩ := List.mem_map.mp ha
      rw [List.mem_singleton.mp hb]
      have := hc.tiles.bounds hcs
      omega
  · obtain ⟨c, hcs, rfl⟩ := List.mem_map.mp hb
    have hb := hc.bounds hcs
    have hn := (hc.header c hcs).1
    have htotal : 16 ≤ c.hi - c.lo := by omega
    refine ⟨hc.aligned c hcs, ?_⟩
    rw [Heap.blockTotalSize_eq (by omega) (by omega) (by omega), hn]
    exact htotal

/-- The payloads of free and occupied blocks and the headers make up the heap. -/
theorem Chain.conserved (hc : Chain h cs) : ∃ used unused,
    usedSize (cs.length + 1) h = some used ∧ unusedSize (cs.length + 1) h = some unused ∧
      used + unused + metaSize * cs.length = h.brk - h.first := by
  have hsum := hc.tiles.payload_sum (fun c => c.free == false)
  have hnot : (fun c : Cell => !(c.free == false)) = fun c => c.free == true := by
    funext c; cases c.free <;> rfl
  rw [hnot] at hsum
  exact ⟨_, _, hc.linked.sizeWhere_eq false, hc.linked.sizeWhere_eq true, hsum⟩

/-- CORRECT (chain, conservation): every heap that operations reach is well-formed, every traversal
    and every further operation on it terminates, and no byte is lost. -/
theorem chain_invariant (hr : Reach h) : WellFormed h ∧
    (∀ p, ∃ fuel b, findBlock fuel p h = some b) ∧
    (∃ fuel used unused, usedSize fuel h = some used ∧ unusedSize fuel h = some unused ∧
      if h.first = null then used + unused = 0
      else ∃ bs, Walk h.next h.brk h.first bs ∧
        used + unused + metaSize * bs.length = h.brk - h.first) ∧
    ∀ op : Op, op.Allowed h → ∃ fuel h', op.exec fuel h = some h' := by
  have hi := hr.inv
  refine ⟨?_, fun p => ?_, ?_, fun op ha => (hi.exec ha).1⟩
  · rcases eq_or_ne h.first null with hnull | hfirst
    · exact Or.inl hnull
    · obtain ⟨-, cs, hc⟩ := hi.chain hfirst
      exact hc.wellFormed
  · rcases eq_or_ne h.first null with hnull | hfirst
    · exact ⟨0, null, if_pos hnull⟩
    · obtain ⟨-, cs, hc⟩ := hi.chain hfirst
      exact ⟨_, _, hc.linked.findBlock_eq (by decide) p⟩
  · rcases eq_or_ne h.first null with hnull | hfirst
    · exact ⟨0, 0, 0, if_pos hnull, if_pos hnull, by rw [if_pos hnull]⟩
    · obtain ⟨-, cs, hc⟩ := hi.chain hfirst
      obtain ⟨used, unused, hu, hf, hsum⟩ := hc.conserved
      refine ⟨_, used, unused, hu, hf, ?_⟩
      rw [if_neg hfirst]
      exact ⟨cs.map Cell.lo, hc.walk, by rw [List.length_map]; exact hsum⟩

end main

/-- An empty heap at 4096. -/
def emptyHeap : Heap := ⟨fun _ => 0, 4096, 4096, null⟩

/-- A heap with one block, for 100 bytes. -/
def oneBlock : Heap := ((Op.newBlock true 100).exec 0 emptyHeap).getD emptyHeap

/-- The heap after one more operation. -/
def Heap.andThen (h : Heap) (op : Op) : Heap := (op.exec 9 h).getD h

theorem Reach.andThen {h : Heap} {op : Op} (hr : Reach h) (ha : op.Allowed h)
    (hsome : (op.exec 9 h).isSome) : Reach (h.andThen op) := by
  obtain ⟨h', hx⟩ := Option.isSome_iff_exists.mp hsome
  rw [Heap.andThen, hx]
  exact hr.step ha hx

/-- Two blocks. -/
def twoHeap : Heap := (emptyHeap.andThen (.newBlock true 300)).andThen (.newBlock true 100)

/-- The first one is cut, and both parts of it are free. -/
def cutHeap : Heap := (twoHeap.andThen (.splitBlock 4096 16)).andThen (.setFree 4096 true)

/-- The parts are merged, and the block is cut elsewhere. -/
def mergedHeap : Heap := (cutHeap.andThen (.mergeBlocks 4096)).andThen (.splitBlock 4096 100)

theorem reach_cutHeap : Reach cutHeap := by
  have hone : Reach (emptyHeap.andThen (.newBlock true 300)) :=
    (Reach.start rfl rfl rfl (by decide)).andThen (show 300 ≤ 2 ^ 62 by decide) rfl
  have htwo : Reach twoHeap := hone.andThen (show 100 ≤ 2 ^ 62 by decide) rfl
  have hsplit : (Op.splitBlock 4096 16).Allowed twoHeap :=
    ⟨⟨by decide +kernel, [4096, 4416], by decide +kernel, by decide⟩, by decide +kernel⟩
  have hfree : (Op.setFree 4096 true).Allowed (twoHeap.andThen (.splitBlock 4096 16)) :=
    ⟨by decide +kernel, [4096, 4128, 4416], by decide +kernel, by decide⟩
  exact (htwo.andThen hsplit rfl).andThen hfree rfl

theorem chain_invariant_mergedHeap : WellFormed mergedHeap ∧
    Walk mergedHeap.next mergedHeap.brk mergedHeap.first [4096, 4224, 4416] ∧
    usedSize 4 mergedHeap = some 112 ∧ unusedSize 4 mergedHeap = some 288 := by
  have hmerge : (Op.mergeBlocks 4096).Allowed cutHeap :=
    ⟨by decide +kernel, [4096, 4128, 4416], by decide +kernel, by decide⟩
  have hsplit : (Op.splitBlock 4096 100).Allowed (cutHeap.andThen (.mergeBlocks 4096)) :=
    ⟨⟨by decide +kernel, [4096, 4416], by decide +kernel, by decide⟩, by decide +kernel⟩
  have hr : Reach mergedHeap :=
    (reach_cutHeap.andThen hmerge (by decide +kernel)).andThen hsplit rfl
  exact ⟨(chain_invariant hr).1, by decide +kernel, by decide +kernel, by decide +kernel⟩

end OsLabs.Mm

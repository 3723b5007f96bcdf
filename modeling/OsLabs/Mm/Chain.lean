import OsLabs.Mm.Linked

/-! @src lab5_mm/ll-mm.c | name:chain | scheme:tiling

    The list of blocks as `new_block` builds it: every block aligned and with room for its header,
    all of them below 2^63. Each operation keeps that, and `new_block` adds a block at the end.

        new_block    cs            ──▶  cs ++ [new] -/

namespace OsLabs.Mm
open Schemes

/-- The blocks of the heap are `cs`. -/
structure Chain (h : Heap) (cs : List Cell) : Prop where
  tiles : Tiles 16 h.first h.brk cs
  aligned : ∀ c ∈ cs, c.lo % 16 = 0
  header : ∀ c ∈ cs, h.next c.lo = c.hi ∧ h.isFree c.lo = c.free
  first_pos : 0 < h.first
  brk_lt : h.brk < 2 ^ 63

namespace Chain
variable {h h' : Heap} {c : Cell} {cs l r : List Cell}

theorem linked (hc : Chain h cs) : Linked 16 h cs := by
  have hlt := hc.brk_lt
  exact ⟨hc.tiles, hc.header, hc.first_pos, by omega⟩

/-- Following `next` from `first` visits the blocks in order. -/
theorem walk (hc : Chain h cs) : Walk h.next h.brk h.first (cs.map Cell.lo) :=
  hc.linked.walk (Nat.zero_lt_succ 15)

/-- Blocks that start where a chain has blocks are aligned like these. -/
theorem of_linked {ds : List Cell} (hc : Chain h cs) (hl : Linked 16 h' ds) (hbrk : h'.brk = h.brk)
    (hlo : ∀ d ∈ ds, d.lo % 16 = 0) : Chain h' ds :=
  ⟨hl.tiles, hlo, hl.header, hl.first_pos, by rw [hbrk]; exact hc.brk_lt⟩

theorem bounds (hc : Chain h cs) (hmem : c ∈ cs) : 0 < c.lo ∧ c.lo + 16 ≤ c.hi ∧ c.hi < 2 ^ 63 := by
  have hb := hc.linked.bounds hmem
  have hlt := hc.brk_lt
  exact ⟨hb.1, hb.2.1, by omega⟩

/-! ### The operations -/

theorem setFree (hc : Chain h (l ++ c :: r)) (free : Bool) :
    Chain (h.setFree c.lo free) (l ++ { c with free := free } :: r) := by
  refine hc.of_linked (hc.linked.setFree hc.linked.apart free) rfl fun d hd => ?_
  rw [List.mem_append, List.mem_cons] at hd
  rcases hd with hd | rfl | hd
  · exact hc.aligned d (by simp [hd])
  · exact hc.aligned c (by simp)
  · exact hc.aligned d (by simp [hd])

theorem cutAt (hc : Chain h (l ++ c :: r)) {pn : ℕ} (ha : pn % 16 = 0) (hlo : c.lo + 16 ≤ pn)
    (hhi : pn + 16 ≤ c.hi) :
    Chain (h.cutAt c.lo pn) (l ++ { c with hi := pn } :: { lo := pn, hi := c.hi, free := true } ::
      r) := by
  refine hc.of_linked (hc.linked.cutAt _ hlo hhi) rfl fun d hd => ?_
  rw [List.mem_append, List.mem_cons, List.mem_cons] at hd
  rcases hd with hd | rfl | rfl | hd
  · exact hc.aligned d (by simp [hd])
  · exact hc.aligned c (by simp)
  · exact ha
  · exact hc.aligned d (by simp [hd])

theorem mergeBlocks (hc : Chain h (l ++ c :: r)) : ∃ fuel mem,
    mergeBlocks fuel c.lo h = some { h with mem := mem } ∧
      Chain { h with mem := mem } (l ++ coalesce c r) := by
  obtain ⟨mem, hrun, hlinked, -⟩ := hc.linked.mergeBlocks (by decide) hc.linked.apart
  refine ⟨r.length + 1, mem, hrun, hc.of_linked hlinked rfl fun d hd => ?_⟩
  -- merging keeps some of the addresses
  have hmem : d.lo ∈ (l ++ c :: r).map Cell.lo := by
    rw [List.map_append]
    rcases List.mem_append.mp hd with hd | hd
    · exact List.mem_append_left _ (List.mem_map_of_mem hd)
    · exact List.mem_append_right _ ((coalesce_lo_sublist r c).subset (List.mem_map_of_mem hd))
  obtain ⟨x, hx, hxd⟩ := List.mem_map.mp hmem
  rw [← hxd]
  exact hc.aligned x hx

/-- The heap after a block of `t` bytes has been added at the break. -/
def grow (h : Heap) (t : ℕ) : Heap :=
  ({ h with brk := h.brk + t }.setFree h.brk false).setNext h.brk (h.brk + t)

/-- A block added at the break extends any tiling up to there. -/
theorem of_grow {f t : ℕ} (ht : Tiles 16 f h.brk cs) (ha : ∀ c ∈ cs, c.lo % 16 = 0)
    (hh : ∀ c ∈ cs, h.next c.lo = c.hi ∧ h.isFree c.lo = c.free) (hf : 0 < f)
    (hbrk : h.brk % 16 = 0) (hm : 16 ≤ t) (hlt : h.brk + t < 2 ^ 63) :
    Chain { grow h t with first := f }
      (cs ++ [{ lo := h.brk, hi := h.brk + t, free := false }]) := by
  have hread : ∀ x, x % 16 = 0 →
      (grow h t).next x = (if x = h.brk then h.brk + t else h.next x) ∧
      (grow h t).isFree x = if x = h.brk then false else h.isFree x := by
    intro x hx
    have hclear := Heap.clear_of_aligned hbrk hx
    rw [grow, Heap.next_setNext hclear (by omega), Heap.next_setFree hclear,
      Heap.isFree_setNext hclear, Heap.isFree_setFree hclear]
    exact ⟨rfl, rfl⟩
  refine ⟨?_, fun x hx => ?_, fun x hx => ?_, hf, hlt⟩
  · have hlen : h.brk + 16 ≤ h.brk + t := by omega
    exact Tiles.append_iff.mpr ⟨h.brk, ht, rfl, hlen, rfl⟩
  · rcases List.mem_append.mp hx with hold | hnew
    · exact ha x hold
    · rw [List.mem_singleton.mp hnew]; exact hbrk
  · rcases List.mem_append.mp hx with hold | hnew
    · obtain ⟨h1, h2⟩ := hread x.lo (ha x hold)
      have hlo := ht.bounds hold
      rw [if_neg (by omega)] at h1 h2
      exact ⟨h1.trans (hh x hold).1, h2.trans (hh x hold).2⟩
    · rw [List.mem_singleton.mp hnew]
      obtain ⟨h1, h2⟩ := hread h.brk hbrk
      rw [if_pos rfl] at h1 h2
      exact ⟨h1, h2⟩

end Chain

end OsLabs.Mm

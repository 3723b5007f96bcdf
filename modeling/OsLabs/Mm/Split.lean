import OsLabs.Mm.Merge

/-! @src lab5_mm/ll-mm.c | name:split_block | scheme:coalesce

    `split_block` to the byte. The rest is an unsigned difference read as a signed number; while all
    addresses are below 2^63 it is the true difference, and the block is split just when there is
    room for another header. Merging puts the two parts together again.

        lo        lo + 16          pn = lo + aligned(size + 16)            hi
        ├─header──┼──size──┼─pad──┼─header─┼─────────── rest ──────────────┤   -/

namespace OsLabs.Mm
open Schemes

section split
variable {h : Heap} {c : Cell} {l r : List Cell} {size : ℕ}

/-- Cutting a block writes two header fields of it and one header in its data. -/
theorem cutAt_mem {pb pn a : ℕ} (hpb : a < pb + 8 ∨ pb + 16 ≤ a) (hpn : a < pn ∨ pn + 16 ≤ a) :
    (h.cutAt pb pn).mem a = h.mem a := by
  rw [Heap.cutAt, Heap.setNext_mem hpb, Heap.setFree_mem (by omega), Heap.setNext_mem (by omega)]

/-- CORRECT (split_block): the rest is what the data has over the aligned size. A negative rest
    leaves the heap alone; otherwise the block becomes one with room for `size` bytes and a free one
    behind it that has the rest, and no data but the new header's is written. -/
theorem splitBlock_exact (hl : Linked metaSize h (l ++ c :: r))
    (ha : ∀ x ∈ l ++ c :: r, x.lo % alignment = 0) (hbrk : h.brk ≤ 2 ^ 63)
    (hsize : size < h.blockDataSize c.lo) : ∃ h' rest, splitBlock c.lo size h = (h', rest) ∧
      rest = (h.blockDataSize c.lo : ℤ) - alignedSize (size + metaSize) ∧
      (rest < 0 → h' = h) ∧
      (0 ≤ rest → ∃ pn, Linked metaSize h'
          (l ++ { c with hi := pn } :: { lo := pn, hi := c.hi, free := true } :: r) ∧
        pn % alignment = 0 ∧ size ≤ h'.blockDataSize c.lo ∧
        h'.blockDataSize c.lo < size + alignment ∧ (h'.blockDataSize pn : ℤ) = rest ∧
        (∀ a, c.lo + metaSize ≤ a → a < c.lo + metaSize + size → h'.mem a = h.mem a) ∧
        ∀ x ∈ l ++ r, ∀ a, x.lo ≤ a → a < x.hi → h'.mem a = h.mem a) := by
  have hmem : c ∈ l ++ c :: r := by simp
  have hca : c.lo % 16 = 0 := ha c hmem
  have hb := hl.bounds hmem
  have hdata := hl.dataSize hmem
  have hmeta : metaSize = 16 := rfl
  have hali : alignment = 16 := rfl
  obtain ⟨t, ht, hrest, hneg, hpos⟩ := Linked.splitBlock_eq hl hca hsize
  rw [hdata] at hsize ⊢
  have hround : alignedSize (size + metaSize) = t := by
    rw [hmeta, alignedSize_eq (by omega), ht]
  rw [Int.bmod_eq_of_le (by omega) (by omega)] at hrest
  refine ⟨(splitBlock c.lo size h).1, (splitBlock c.lo size h).2, rfl, by rw [hrest, hround], hneg,
    fun hge => ?_⟩
  obtain ⟨hroom, hcut⟩ := hpos hge
  rw [hcut]
  have hl' := Linked.cutAt hl (c.lo + t) (by omega) hroom
  have hkept := hl'.dataSize (c := { c with hi := c.lo + t }) (by simp)
  have hnew := hl'.dataSize (c := { lo := c.lo + t, hi := c.hi, free := true }) (by simp)
  simp only at hkept hnew
  have hpn : (c.lo + t) % 16 = 0 := by omega
  refine ⟨c.lo + t, hl', hpn, by rw [hkept]; omega, by rw [hkept]; omega,
    by rw [hnew]; omega, fun a hlo hhi => ?_, fun x hx a hlo hhi => ?_⟩
  · exact cutAt_mem (by omega) (by omega)
  · have hne : x.hi ≤ c.lo ∨ c.hi ≤ x.lo := (List.mem_append.mp hx).imp
      (fun hxl => (hl.tiles.cut.1.bounds hxl).2.2) (fun hxr => hl.tiles.after hxr)
    exact cutAt_mem (by omega) (by omega)

end split

/-- One free block of 96 bytes. -/
def wideFree : Heap :=
  ((⟨fun _ => 0, 4192, 4096, 4096⟩ : Heap).setNext 4096 4192).setFree 4096 true

theorem linked_wideFree : Linked metaSize wideFree [⟨4096, 4192, true⟩] :=
  ⟨⟨rfl, by decide, rfl⟩, by decide +kernel, by decide, by decide⟩

/-- Splitting off 8 bytes leaves a block with 48. -/
theorem splitBlock_exact_wideFree : ∃ h' rest, splitBlock 4096 8 wideFree = (h', rest) ∧
    rest = (wideFree.blockDataSize 4096 : ℤ) - alignedSize (8 + metaSize) ∧
    (0 ≤ rest → ∃ pn, Linked metaSize h' [⟨4096, pn, true⟩, ⟨pn, 4192, true⟩]) := by
  have hdata : wideFree.blockDataSize 4096 = 80 := by decide +kernel
  have hsize : 8 < wideFree.blockDataSize 4096 := by
    rw [hdata]
    decide
  obtain ⟨h', rest, hsplit, hrest, -, hpos⟩ := splitBlock_exact (l := []) (r := [])
    (c := ⟨4096, 4192, true⟩) linked_wideFree (by decide) (by decide) hsize
  refine ⟨h', rest, hsplit, hrest, fun hge => ?_⟩
  obtain ⟨pn, hl, -⟩ := hpos hge
  exact ⟨pn, hl⟩

section merge
variable {h : Heap} {c : Cell} {l r : List Cell} {size : ℕ}

/-- CORRECT (split, merge): merging a free block after splitting it comes to the same chain as
    merging it alone. -/
theorem merge_splitBlock (hl : Linked metaSize h (l ++ c :: r))
    (ha : ∀ x ∈ l ++ c :: r, x.lo % alignment = 0) (hfree : c.free = true)
    (hsize : size < h.blockDataSize c.lo) : ∃ fuel h₁ h₂ ds,
      mergeBlocks fuel c.lo (splitBlock c.lo size h).1 = some h₁ ∧ Linked metaSize h₁ ds ∧
      mergeBlocks fuel c.lo h = some h₂ ∧ Linked metaSize h₂ ds := by
  obtain ⟨mem₂, hrun₂, hl₂, -⟩ := hl.mergeBlocks (by decide) hl.apart
  obtain ⟨t, ht, -, hneg, hpos⟩ := Linked.splitBlock_eq hl (ha c (by simp)) hsize
  rcases lt_or_ge (splitBlock c.lo size h).2 0 with hlt | hge
  · -- nothing has been split
    rw [hneg hlt]
    exact ⟨_, _, _, _, hrun₂, hl₂, hrun₂, hl₂⟩
  · obtain ⟨hroom, hcut⟩ := hpos hge
    rw [hcut]
    have hl' := Linked.cutAt hl (c.lo + t) (by omega) hroom
    obtain ⟨mem₁, hrun₁, hl₁, -⟩ := hl'.mergeBlocks (by decide) hl'.apart
    -- the loop absorbs the new block first, and goes on with the old one
    rw [coalesce_join (by simp [hfree])] at hl₁
    exact ⟨_, _, _, _, hrun₁, hl₁, mergeBlocks_mono (by simp) hrun₂, hl₂⟩

end merge

/-- Splitting off 8 bytes and merging again. -/
theorem merge_splitBlock_wideFree : ∃ fuel h₁ h₂ ds,
    mergeBlocks fuel 4096 (splitBlock 4096 8 wideFree).1 = some h₁ ∧ Linked metaSize h₁ ds ∧
    mergeBlocks fuel 4096 wideFree = some h₂ ∧ Linked metaSize h₂ ds := by
  have hdata : wideFree.blockDataSize 4096 = 80 := by decide +kernel
  exact merge_splitBlock (l := []) (r := []) (c := ⟨4096, 4192, true⟩) linked_wideFree (by decide)
    rfl (by rw [hdata]; decide)

end OsLabs.Mm

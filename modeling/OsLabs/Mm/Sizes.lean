import OsLabs.Mm.Runs

/-! @src lab5_mm/ll-mm.c | name:new_block | scheme:tiling

    `new_block` for every `size_t`. The size goes through two unsigned additions, a mask and the
    signed increment of `sbrk`, and what arrives there depends on where it wraps. Here `sbrk` is any
    function that does what its manual says, and the header must be stored below the break.

        size + 31 <  2^63          increment = size + 16 rounded up     a block of the size
        size + 31 in [2^63, 2^64)  increment = that minus 2^64 < 0      the header is cut off
        size      in [2^64 - 31, 2^64 - 16]   increment = 0            no room for a header
        size      in [2^64 - 15, 2^64)        increment = 16           a header without data   -/

namespace OsLabs.Mm
open Schemes

/-- A store of `n` bytes at `a` that leaves `h'`. The heap ends at the break: a store that reaches
    beyond it is not one into memory that `sbrk` has granted. -/
def Heap.stored (h : Heap) (a n : ℕ) (h' : Heap) : Option Heap :=
  if a + n ≤ h.brk then some h' else none

/-- `nb->is_free = false; nb->next = sbrk(0)` -/
def Heap.storeHeader (h : Heap) (nb : ℕ) : Option Heap := do
  let h ← h.stored nb 1 (h.setFree nb false)
  h.stored (nb + 8) 8 (h.setNext nb h.brk)

/-- `new_block` on a given `sbrk`; `none` when it stores outside the heap. -/
def newBlockBy (sbrk : ℤ → Heap → Heap × ℕ) (size : ℕ) (h : Heap) : Option (Heap × ℕ) :=
  let toalloc := alignedSize ((size + metaSize) % 2 ^ 64)
  match sbrk ((toalloc : ℤ).bmod (2 ^ 64)) h with
  | (h, nb) =>
    if nb = sbrkFailed then some (h, null)
    else (h.storeHeader nb).map fun h => (h, nb)

/-- The manual of `sbrk`: it fails with -1 and no effect, or it moves the break to a pointer no
    lower than the initial break and returns the old one. -/
def SbrkSpec (sbrk : ℤ → Heap → Heap × ℕ) : Prop :=
  ∀ n h, sbrk n h = (h, sbrkFailed) ∨ ∃ b : ℕ, (b : ℤ) = h.brk + n ∧ h.base ≤ b ∧
    b < sbrkFailed ∧ sbrk n h = ({ h with brk := b }, h.brk)

theorem sbrkSpec_sbrk (ok : Bool) : SbrkSpec (sbrk ok) := by
  intro n h
  rw [sbrk]
  split
  case isTrue hgo =>
    have hfail : sbrkFailed = 2 ^ 64 - 1 := rfl
    exact Or.inr ⟨(h.brk + n).toNat, by omega, by omega, by omega, rfl⟩
  case isFalse => exact Or.inl rfl

/-- The blocks of the heap: aligned, at increasing addresses, each with room for its header, and the
    last one ends at the break. -/
def Blocks (h : Heap) (bs : List ℕ) : Prop :=
  (h.first = null ∧ bs = []) ∨
    (h.first ≠ null ∧ Walk h.next h.brk h.first bs ∧ (bs ++ [h.brk]).Pairwise (· < ·) ∧
      ∀ b ∈ bs, b % alignment = 0 ∧ metaSize ≤ h.blockTotalSize b)

theorem wellFormed_iff_blocks {h : Heap} : WellFormed h ↔ ∃ bs, Blocks h bs := by
  constructor
  · intro hw
    by_cases hfirst : h.first = null
    · exact ⟨[], Or.inl ⟨hfirst, rfl⟩⟩
    · obtain ⟨bs, hbs⟩ := hw.resolve_left hfirst
      exact ⟨bs, Or.inr ⟨hfirst, hbs⟩⟩
  · rintro ⟨bs, ⟨hfirst, -⟩ | ⟨-, hbs⟩⟩
    · exact Or.inl hfirst
    · exact Or.inr ⟨bs, hbs⟩

/-- The blocks hold what they held, below the break. -/
def Intact (h h' : Heap) (bs : List ℕ) : Prop :=
  ∀ b ∈ bs, ∀ a, b ≤ a → a < h.next b → h'.mem a = h.mem a ∧ a < h'.brk

/-- `new_block` stores into the heap only, and it has failed and changed nothing, or it has added a
    block with room for `size` bytes behind the others. -/
def SafeNew (h : Heap) (bs : List ℕ) (size : ℕ) : Option (Heap × ℕ) → Prop
  | none => False
  | some r => r = (h, null) ∨ (r.2 ≠ null ∧ r.2 = h.brk ∧ r.1.next r.2 = r.1.brk ∧
      size ≤ r.1.blockDataSize r.2 ∧ r.1.first = h.first ∧ Intact h r.1 bs)

/-- The increment `sbrk` gets. -/
def increment (size : ℕ) : ℤ := (alignedSize ((size + metaSize) % 2 ^ 64) : ℤ).bmod (2 ^ 64)

/-- The heap after the break has moved to `b` and the header of a block has been written at the old
    one. -/
def Heap.added (h : Heap) (b : ℕ) : Heap :=
  ({ h with brk := b }.setFree h.brk false).setNext h.brk b

/-! ### What `sbrk` is asked for -/

section increment
variable {size : ℕ}

theorem alignedSize_mod (sz : ℕ) : alignedSize sz = (sz + 15) % 2 ^ 64 / 16 * 16 := by
  have hmod : (sz + 15) % 2 ^ 64 < 2 ^ 64 := Nat.mod_lt _ (by decide)
  exact and_mask hmod

theorem increment_eq {t : ℕ} (ht : ((size + 16) % 2 ^ 64 + 15) % 2 ^ 64 / 16 * 16 = t)
    (hlt : t < 2 ^ 64) : increment size = if t < 2 ^ 63 then (t : ℤ) else (t : ℤ) - 2 ^ 64 := by
  have halign := (alignedSize_mod ((size + metaSize) % 2 ^ 64)).trans ht
  have hincr : increment size = (t : ℤ).bmod (2 ^ 64) :=
    congrArg (fun t : ℕ => (t : ℤ).bmod (2 ^ 64)) halign
  rw [hincr]
  split
  case isTrue hlo => exact Int.bmod_eq_of_le (by omega) (by omega)
  case isFalse hhi =>
    have hshift : ((t : ℤ) - (2 ^ 64 : ℕ)).bmod (2 ^ 64) = (t : ℤ).bmod (2 ^ 64) :=
      Int.sub_bmod_right ..
    rw [← hshift]
    exact Int.bmod_eq_of_le (by omega) (by omega)

theorem increment_pos (h : size + 31 < 2 ^ 63) :
    increment size = ((size + 31) / 16 * 16 : ℕ) := by
  rw [increment_eq (t := (size + 31) / 16 * 16) (by omega) (by omega), if_pos (by omega)]

theorem increment_neg (hlo : 2 ^ 63 ≤ size + 31) (hhi : size + 31 < 2 ^ 64) :
    increment size = ((size + 31) / 16 * 16 : ℕ) - 2 ^ 64 := by
  rw [increment_eq (t := (size + 31) / 16 * 16) (by omega) (by omega), if_neg (by omega)]

theorem increment_zero (hlo : 2 ^ 64 ≤ size + 31) (hhi : size + 16 ≤ 2 ^ 64) :
    increment size = 0 := by
  rw [increment_eq (t := 0) (by omega) (by omega), if_pos (by omega)]
  rfl

theorem increment_header (hlo : 2 ^ 64 < size + 16) (hhi : size < 2 ^ 64) :
    increment size = 16 := by
  rw [increment_eq (t := 16) (by omega) (by omega), if_pos (by omega)]
  rfl

end increment

/-! ### What comes back -/

section sizes
variable {sbrk : ℤ → Heap → Heap × ℕ} {h : Heap} {bs : List ℕ} {b size : ℕ}

/-- A block ends at the break or below it. -/
theorem Blocks.next_le (hb : Blocks h bs) {x : ℕ} (hx : x ∈ bs) : h.next x ≤ h.brk := by
  rcases hb with ⟨-, rfl⟩ | ⟨-, hwalk, hsorted, -⟩
  · exact absurd hx List.not_mem_nil
  · rw [List.pairwise_append] at hsorted
    obtain ⟨-, -, hbelow⟩ := hsorted
    rcases hwalk.step_mem hx with hmem | hend
    · exact (hbelow _ hmem h.brk (List.mem_singleton_self _)).le
    · exact hend.le

theorem added_next (hlt : b < 2 ^ 64) : (h.added b).next h.brk = b := by
  rw [Heap.added, Heap.next, Heap.setNext, Mem.getLE_putLE]
  exact Nat.mod_eq_of_lt hlt

theorem added_mem {a : ℕ} (ha : a < h.brk) : (h.added b).mem a = h.mem a := by
  have hfree : (h.mem.copy h.brk 1 fun _ => if false then 1 else 0) a = h.mem a :=
    Mem.copy_out (by omega)
  have hnext : ∀ m : Mem, m.putLE (h.brk + 8) 8 b a = m a := fun m => Mem.copy_out (by omega)
  exact (hnext _).trans hfree

/-- The header fits when there are 16 bytes below the break. -/
theorem storeHeader_eq (h : Heap) (nb : ℕ) : h.storeHeader nb =
    if nb + 16 ≤ h.brk then some ((h.setFree nb false).setNext nb h.brk) else none := by
  by_cases hroom : nb + 16 ≤ h.brk
  · have hfree : nb + 1 ≤ h.brk := by omega
    have hnext : nb + 8 + 8 ≤ h.brk := by omega
    rw [Heap.storeHeader, Heap.stored, if_pos hfree, if_pos hroom]
    exact if_pos hnext
  · have hnext : ¬(nb + 8 + 8 ≤ h.brk) := by omega
    rw [Heap.storeHeader, Heap.stored, if_neg hroom]
    split
    case isTrue => exact if_neg hnext
    case isFalse => rfl

/-- `new_block` from what `sbrk` answers. -/
theorem newBlockBy_eq {r : Heap × ℕ} (hr : sbrk (increment size) h = r) :
    newBlockBy sbrk size h = if r.2 = sbrkFailed then some (r.1, null)
      else if r.2 + 16 ≤ r.1.brk then
        some ((r.1.setFree r.2 false).setNext r.2 r.1.brk, r.2) else none := by
  have hnew : newBlockBy sbrk size h = if r.2 = sbrkFailed then some (r.1, null)
      else (r.1.storeHeader r.2).map fun h' => (h', r.2) := hr ▸ rfl
  rw [hnew, storeHeader_eq]
  congr 1
  split <;> rfl

/-- When the header fits, this is `new_block` on a memory without bounds. -/
theorem newBlock_of_newBlockBy {ok : Bool} {r : Heap × ℕ}
    (hr : newBlockBy (Mm.sbrk ok) size h = some r) : newBlock ok size h = r := by
  obtain ⟨q, hq⟩ : ∃ q, Mm.sbrk ok (increment size) h = q := ⟨_, rfl⟩
  have hnew : newBlock ok size h = if q.2 = sbrkFailed then (q.1, null)
      else ((q.1.setFree q.2 false).setNext q.2 q.1.brk, q.2) := hq ▸ rfl
  rw [newBlockBy_eq hq] at hr
  rw [hnew]
  split at hr
  case isTrue hfail =>
    rw [if_pos hfail]
    exact Option.some.inj hr
  case isFalse hok =>
    rw [if_neg hok]
    split at hr
    case isTrue => exact Option.some.inj hr
    case isFalse => cases hr

/-- `new_block` fails when `sbrk` does, and otherwise puts a header at the old break, if there is
    room for it below the new one. -/
theorem newBlockBy_cases (hs : SbrkSpec sbrk) (hbrk : h.brk < sbrkFailed) (size : ℕ) :
    ((sbrk (increment size) h).2 = sbrkFailed ∧ newBlockBy sbrk size h = some (h, null)) ∨
    ((sbrk (increment size) h).2 ≠ sbrkFailed ∧ ∃ b : ℕ, (b : ℤ) = h.brk + increment size ∧
      b < sbrkFailed ∧ newBlockBy sbrk size h =
        if h.brk + 16 ≤ b then some (h.added b, h.brk) else none) := by
  rcases hs (increment size) h with hfail | ⟨b, hb, -, hlt, hok⟩
  · rw [newBlockBy_eq hfail, hfail]
    exact Or.inl ⟨rfl, if_pos rfl⟩
  · rw [newBlockBy_eq hok, hok]
    exact Or.inr ⟨hbrk.ne, b, hb, hlt, if_neg hbrk.ne⟩

/-- A block added with the break at `b` is safe when its data is large enough. -/
theorem safe_added_iff (h0 : h.brk ≠ null) (hb : Blocks h bs) (hroom : h.brk + 16 ≤ b)
    (hlt : b < 2 ^ 64) :
    SafeNew h bs size (some (h.added b, h.brk)) ↔ size ≤ b - h.brk - 16 := by
  have hend : h.brk + 16 ≤ (h.added b).next h.brk := hroom.trans (added_next hlt).ge
  have hdata : (h.added b).blockDataSize h.brk = b - h.brk - 16 := by
    rw [Heap.blockDataSize_eq h0 (by omega) hend, added_next hlt]
  rw [← hdata]
  constructor
  · rintro (hfail | ⟨-, -, -, hsize, -⟩)
    · exact absurd (congrArg Prod.snd hfail) h0
    · exact hsize
  · intro hsize
    refine Or.inr ⟨h0, rfl, added_next hlt, hsize, rfl, fun x hx a _ ha => ?_⟩
    have hle := hb.next_le hx
    have hbelow : a < b := by omega
    exact ⟨added_mem (by omega), hbelow⟩

/-- CORRECT (new_block): for every `sbrk` that keeps to its manual and every size, `new_block` is
    safe exactly when `sbrk` refuses the increment or the size rounds up to a positive one. -/
theorem newBlockBy_safe_iff (hs : SbrkSpec sbrk) (hb : Blocks h bs) (h0 : h.brk ≠ null)
    (hbrk : h.brk < sbrkFailed) (hsize : size < 2 ^ 64) :
    SafeNew h bs size (newBlockBy sbrk size h) ↔
      ((sbrk (increment size) h).2 = sbrkFailed ∨ size + 31 < 2 ^ 63) := by
  rcases newBlockBy_cases hs hbrk size with ⟨hfail, hnew⟩ | ⟨hok, b, hbn, hlt, hnew⟩
  · rw [hnew]
    exact iff_of_true (Or.inl rfl) (Or.inl hfail)
  · have hfailed : sbrkFailed = 2 ^ 64 - 1 := rfl
    rw [hnew, or_iff_right hok]
    by_cases hpos : size + 31 < 2 ^ 63
    · rw [increment_pos hpos] at hbn
      rw [if_pos (by omega), safe_added_iff h0 hb (by omega) (by omega)]
      exact iff_of_true (by omega) hpos
    refine iff_of_false (fun hsafe => ?_) hpos
    by_cases hneg : size + 31 < 2 ^ 64
    · rw [increment_neg (by omega) hneg] at hbn
      rw [if_neg (by omega)] at hsafe
      exact hsafe
    by_cases hzero : size + 16 ≤ 2 ^ 64
    · rw [increment_zero (by omega) hzero] at hbn
      rw [if_neg (by omega)] at hsafe
      exact hsafe
    · rw [increment_header (by omega) hsize] at hbn
      rw [if_pos (by omega), safe_added_iff h0 hb (by omega) (by omega)] at hsafe
      omega

end sizes

theorem blocks_oneBlock : Blocks oneBlock [4096] := by
  have hfirst : oneBlock.first = 4096 := by decide +kernel
  have hbrk : oneBlock.brk = 4224 := by decide +kernel
  have hnext : oneBlock.next 4096 = 4224 := by decide +kernel
  refine Or.inr ⟨by rw [hfirst]; decide, ?_, by rw [hbrk]; decide, by decide +kernel⟩
  rw [hfirst, hbrk]
  exact ⟨rfl, by decide, hnext⟩

/-- A second block of 100 bytes. -/
theorem newBlockBy_safe_iff_oneBlock :
    SafeNew oneBlock [4096] 100 (newBlockBy (sbrk true) 100 oneBlock) ↔
      ((sbrk true (increment 100) oneBlock).2 = sbrkFailed ∨ 100 + 31 < 2 ^ 63) :=
  newBlockBy_safe_iff (sbrkSpec_sbrk true) blocks_oneBlock (by decide +kernel) (by decide +kernel)
    (by decide)

/-- `new_block(2^64 - 1)` returns a block without data. For `new_block(2^64 - 144)` the break moves
    down to where the first block starts, and the header is stored where the heap was. -/
theorem newBlock_wraps : Blocks oneBlock [4096] ∧
    (∃ r, newBlockBy (sbrk true) (2 ^ 64 - 1) oneBlock = some r ∧ r.2 = 4224 ∧
      r.1.blockDataSize 4224 = 0) ∧
    ¬SafeNew oneBlock [4096] (2 ^ 64 - 1) (newBlockBy (sbrk true) (2 ^ 64 - 1) oneBlock) ∧
    (sbrk true (increment (2 ^ 64 - 144)) oneBlock).1.brk = 4096 ∧
    newBlockBy (sbrk true) (2 ^ 64 - 144) oneBlock = none ∧
    ¬SafeNew oneBlock [4096] (2 ^ 64 - 144) (newBlockBy (sbrk true) (2 ^ 64 - 144) oneBlock) := by
  have hsome : (newBlockBy (sbrk true) (2 ^ 64 - 1) oneBlock).isSome = true := by decide +kernel
  obtain ⟨r, hr⟩ := Option.isSome_iff_exists.mp hsome
  have hret : (newBlockBy (sbrk true) (2 ^ 64 - 1) oneBlock).map Prod.snd = some 4224 := by
    decide +kernel
  have hsize : (newBlockBy (sbrk true) (2 ^ 64 - 1) oneBlock).map
      (fun r => r.1.blockDataSize 4224) = some 0 := by decide +kernel
  have hnone : (newBlockBy (sbrk true) (2 ^ 64 - 144) oneBlock).isNone = true := by decide +kernel
  rw [hr] at hret hsize
  have hret' : r.2 = 4224 := Option.some.inj hret
  have hsize' : r.1.blockDataSize 4224 = 0 := Option.some.inj hsize
  have hout := Option.isNone_iff_eq_none.mp hnone
  rw [hr, hout]
  refine ⟨blocks_oneBlock, ⟨r, rfl, hret', hsize'⟩, ?_, by decide +kernel, rfl, id⟩
  rintro (hfail | ⟨-, -, -, hle, -⟩)
  · rw [hfail] at hret'
    exact absurd hret' (by decide)
  · rw [hret', hsize'] at hle
    exact absurd hle (by decide)

end OsLabs.Mm

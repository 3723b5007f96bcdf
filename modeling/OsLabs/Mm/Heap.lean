import OsLabs.Schemes.Bytes
import OsLabs.Schemes.Loop

/-! @src lab5_mm/ll-mm.c | name:ll_mm | scheme:bytes

    The heap: memory, the program break and the head of the block list. Pointers and sizes are
    numbers below 2^64, NULL is 0, and arithmetic wraps. A block is a header of 16 bytes, `is_free`
    in byte 0 and `next` in bytes 8..15, followed by its data; it reaches up to `next`.

    `sbrk n` moves the break by a signed number of bytes and returns the old one, or fails with -1
    and no effect: when the system says so (`ok`), below the initial break, and from 2^63 on.
    `sbrk 0` only reads the break, and is written `brk`. -/

namespace OsLabs.Mm
open Schemes

abbrev alignment : ℕ := 16
abbrev metaSize : ℕ := 16
abbrev null : ℕ := 0
/-- `(void*)-1` -/
abbrev sbrkFailed : ℕ := 2 ^ 64 - 1

structure Heap where
  mem : Mem
  brk : ℕ
  base : ℕ
  first : ℕ

/-- `(sz + ALIGNMENT - 1) & ~(ALIGNMENT - 1)` -/
def alignedSize (sz : ℕ) : ℕ := (sz + alignment - 1) % 2 ^ 64 &&& (2 ^ 64 - alignment)

namespace Heap

/-- `pb->is_free` -/
def isFree (h : Heap) (pb : ℕ) : Bool := h.mem pb != 0

/-- `pb->next` -/
def next (h : Heap) (pb : ℕ) : ℕ := h.mem.getLE (pb + 8) 8

/-- `pb->is_free = free` -/
def setFree (h : Heap) (pb : ℕ) (free : Bool) : Heap :=
  { h with mem := h.mem.copy pb 1 fun _ => if free then 1 else 0 }

/-- `pb->next = v` -/
def setNext (h : Heap) (pb v : ℕ) : Heap := { h with mem := h.mem.putLE (pb + 8) 8 v }

def blockTotalSize (h : Heap) (pb : ℕ) : ℕ :=
  if pb = null then 0 else (h.next pb + (2 ^ 64 - pb)) % 2 ^ 64

def blockDataSize (h : Heap) (pb : ℕ) : ℕ :=
  if pb = null then 0 else (h.blockTotalSize pb + (2 ^ 64 - metaSize)) % 2 ^ 64

end Heap

def blockToData (pb : ℕ) : ℕ := if pb = null then null else (pb + metaSize) % 2 ^ 64

def dataToBlock (p : ℕ) : ℕ := if p = null then null else (p + (2 ^ 64 - metaSize)) % 2 ^ 64

def sbrk (ok : Bool) (increment : ℤ) (h : Heap) : Heap × ℕ :=
  if ok ∧ h.base ≤ h.brk + increment ∧ h.brk + increment < 2 ^ 63 then
    ({ h with brk := (h.brk + increment).toNat }, h.brk)
  else (h, sbrkFailed)

/-! ### The traversals -/

/-- One trip of the loops of `used_size` and `unused_size`: the block at `pb`, and the sum so far of
    the blocks flagged `free`. -/
def sizeTrip (h : Heap) (free : Bool) (st : ℕ × ℕ) : (ℕ × ℕ) ⊕ ℕ :=
  if st.1 = h.brk then .inr st.2
  else .inl (h.next st.1,
    if h.isFree st.1 = free then (st.2 + h.blockDataSize st.1) % 2 ^ 64 else st.2)

def sizeWhere (free : Bool) (fuel : ℕ) (h : Heap) : Option ℕ :=
  if h.first = null then some 0 else iter (sizeTrip h free) fuel (h.first, 0)

def usedSize (fuel : ℕ) (h : Heap) : Option ℕ := sizeWhere false fuel h

def unusedSize (fuel : ℕ) (h : Heap) : Option ℕ := sizeWhere true fuel h

/-- One trip of the loop of `find_block`. -/
def findTrip (h : Heap) (tofind pb : ℕ) : ℕ ⊕ ℕ :=
  if pb = h.brk then .inr null else if pb = tofind then .inr pb else .inl (h.next pb)

def findBlock (fuel ptr : ℕ) (h : Heap) : Option ℕ :=
  if h.first = null then some null else iter (findTrip h (dataToBlock ptr)) fuel h.first

/-! ### The operations on the list -/

def newBlock (ok : Bool) (size : ℕ) (h : Heap) : Heap × ℕ :=
  let toalloc := alignedSize ((size + metaSize) % 2 ^ 64)
  match sbrk ok ((toalloc : ℤ).bmod (2 ^ 64)) h with
  | (h, nb) =>
    if nb = sbrkFailed then (h, null)
    else ((h.setFree nb false).setNext nb h.brk, nb)

def splitBlock (pb size : ℕ) (h : Heap) : Heap × ℤ :=
  let rest := ((h.blockDataSize pb : ℤ) - alignedSize ((size + metaSize) % 2 ^ 64)).bmod (2 ^ 64)
  if 0 ≤ rest then
    let pn := (pb + alignedSize ((size + metaSize) % 2 ^ 64)) % 2 ^ 64
    (((h.setNext pn (h.next pb)).setFree pn true).setNext pb pn, rest)
  else (h, rest)

/-- One trip of the loop of `merge_blocks`, which stands at `pb`. -/
def mergeTrip (lastAddr : ℕ) (st : Heap × ℕ) : (Heap × ℕ) ⊕ Heap :=
  if st.1.next st.2 = lastAddr then .inr st.1
  else
    let pn := st.1.next st.2
    if st.1.isFree st.2 && st.1.isFree pn then .inl (st.1.setNext st.2 (st.1.next pn), st.2)
    else .inl (st.1, pn)

def mergeBlocks (fuel pb : ℕ) (h : Heap) : Option Heap :=
  if pb = null ∨ pb = h.brk then some h else iter (mergeTrip h.brk) fuel (h, pb)

/-- The break goes back to the first block, if `sbrk` lets it. -/
def reset (ok : Bool) (h : Heap) : Heap :=
  if h.first ≠ null then { (sbrk ok ((h.first : ℤ) - h.brk) h).1 with first := null } else h

/-! ### What each step reads and writes -/

/-- Rounding down to a multiple of 16 by masking. -/
theorem and_mask {x : ℕ} (hx : x < 2 ^ 64) : x &&& (2 ^ 64 - 16) = x / 16 * 16 := by
  have hmask : 2 ^ 64 - 16 = (2 ^ 60 - 1) <<< 4 := by decide
  have hround : x / 16 * 16 = x >>> 4 <<< 4 := by
    rw [Nat.shiftRight_eq_div_pow, Nat.shiftLeft_eq]
  rw [hmask, hround]
  refine Nat.eq_of_testBit_eq fun i => ?_
  rw [Nat.testBit_and, Nat.testBit_shiftLeft, Nat.testBit_shiftLeft, Nat.testBit_shiftRight,
    Nat.testBit_two_pow_sub_one]
  by_cases hi : 4 ≤ i
  · rw [Nat.add_sub_cancel' hi]
    rcases lt_or_ge i 64 with hlt | hge
    · have hlow : i - 4 < 60 := by omega
      simp [hi, hlow]
    · rw [Nat.testBit_lt_two_pow (lt_of_lt_of_le hx (Nat.pow_le_pow_right (by decide) hge))]
      simp
  · simp [hi]

theorem alignedSize_eq {sz : ℕ} (h : sz + 15 < 2 ^ 64) : alignedSize sz = (sz + 15) / 16 * 16 := by
  have hround : (sz + alignment - 1) % 2 ^ 64 = sz + 15 := Nat.mod_eq_of_lt h
  rw [alignedSize, hround]
  exact and_mask h

namespace Heap
variable {h : Heap} {a b v : ℕ} {free : Bool}

@[simp] theorem setFree_brk : (h.setFree a free).brk = h.brk := rfl
@[simp] theorem setFree_base : (h.setFree a free).base = h.base := rfl
@[simp] theorem setFree_first : (h.setFree a free).first = h.first := rfl
@[simp] theorem setNext_brk : (h.setNext a v).brk = h.brk := rfl
@[simp] theorem setNext_base : (h.setNext a v).base = h.base := rfl
@[simp] theorem setNext_first : (h.setNext a v).first = h.first := rfl

theorem next_lt (h : Heap) (a : ℕ) : h.next a < 2 ^ 64 := Mem.getLE_lt ..

/-- The headers at `a` and `b` are the same, or they do not overlap. -/
def Clear (a b : ℕ) : Prop := a = b ∨ a + 16 ≤ b ∨ b + 16 ≤ a

theorem clear_of_aligned (ha : a % 16 = 0) (hb : b % 16 = 0) : Clear a b := by
  have hcases : a = b ∨ a + 16 ≤ b ∨ b + 16 ≤ a := by omega
  exact hcases

section clear
variable (hab : Clear a b)
include hab

/-- On clear headers, `next` is a variable of its own. -/
theorem next_setNext (hv : v < 2 ^ 64) :
    (h.setNext a v).next b = if b = a then v else h.next b := by
  rw [Clear] at hab
  rw [next, setNext]
  split
  case isTrue heq =>
    rw [heq, Mem.getLE_putLE]
    exact Nat.mod_eq_of_lt hv
  case isFalse hne => exact Mem.getLE_copy_out (by omega)

theorem isFree_setNext : (h.setNext a v).isFree b = h.isFree b := by
  rw [Clear] at hab
  have hbyte : h.mem.putLE (a + 8) 8 v b = h.mem b := Mem.copy_out (by omega)
  rw [isFree, isFree, setNext]
  simp only [hbyte]

theorem next_setFree : (h.setFree a free).next b = h.next b := by
  rw [Clear] at hab
  have hget : (h.mem.copy a 1 fun _ => if free then 1 else 0).getLE (b + 8) 8 =
      h.mem.getLE (b + 8) 8 := Mem.getLE_copy_out (by omega)
  rw [next, next, setFree]
  simp only [hget]

theorem isFree_setFree : (h.setFree a free).isFree b = if b = a then free else h.isFree b := by
  rw [Clear] at hab
  rw [isFree, isFree, setFree]
  rcases eq_or_ne b a with rfl | hne
  · have hbyte : h.mem.copy b 1 (fun _ => if free then 1 else 0) b = if free then 1 else 0 :=
      Mem.copy_in (i := 0) (by omega)
    rw [if_pos rfl]
    simp only [hbyte]
    cases free <;> rfl
  · have hbyte : h.mem.copy a 1 (fun _ => if free then 1 else 0) b = h.mem b :=
      Mem.copy_out (by omega)
    rw [if_neg hne]
    simp only [hbyte]

end clear

theorem setNext_mem {x : ℕ} (hx : x < a + 8 ∨ a + 16 ≤ x) : (h.setNext a v).mem x = h.mem x :=
  Mem.copy_out (by omega)

theorem setFree_mem {x : ℕ} (hx : x ≠ a) : (h.setFree a free).mem x = h.mem x := by
  have hbyte : h.mem.copy a 1 (fun _ => if free then 1 else 0) x = h.mem x :=
    Mem.copy_out (by omega)
  exact hbyte

/-- The sizes of a block that ends where it should. -/
theorem blockTotalSize_eq (h0 : a ≠ 0) (hlt : a < 2 ^ 64) (hle : a ≤ h.next a) :
    h.blockTotalSize a = h.next a - a := by
  have := h.next_lt a
  rw [blockTotalSize, if_neg h0]
  omega

theorem blockDataSize_eq (h0 : a ≠ 0) (hlt : a < 2 ^ 64) (hle : a + 16 ≤ h.next a) :
    h.blockDataSize a = h.next a - a - 16 := by
  have := h.next_lt a
  have hwrap : (h.next a - a + (2 ^ 64 - 16)) % 2 ^ 64 = h.next a - a - 16 := by omega
  rw [blockDataSize, if_neg h0, blockTotalSize_eq h0 hlt (by omega)]
  exact hwrap

end Heap

end OsLabs.Mm

import Mathlib.Data.List.TakeWhile
import OsLabs.Schemes.Bytes

/-! scheme:bytes | C strings

    A C string is a list of bytes none of which is NUL; as a memory it goes on with NULs. `strncmp`
    compares up to a first difference, a common NUL or its bound. Two strings compare equal on `n`
    bytes when their NUL-padded first `n` bytes, `field n`, agree. `snprintf` needs a byte for its
    terminator, which `strncpy` into a full field does not. -/

namespace Schemes

/-- A C string, without its terminator. -/
structure CStr where
  chars : List UInt8
  noNul : 0 ∉ chars

namespace CStr

/-- The bytes of the string, followed by NULs. -/
def byte (s : CStr) : Mem := fun i => s.chars.getD i 0

/-- The string from its second byte on: `&s[1]`. -/
def tail (s : CStr) : CStr := ⟨s.chars.tail, fun h => s.noNul (List.mem_of_mem_tail h)⟩

/-- What `strncpy` stores: the first `n` bytes, padded with NULs and cut off at `n`. -/
def field (n : ℕ) (s : CStr) : Buf n := Buf.ofMem n s.byte

theorem byte_eq_zero_iff (s : CStr) (i : ℕ) : s.byte i = 0 ↔ s.chars.length ≤ i := by
  rw [byte, List.getD_eq_getElem?_getD]
  constructor
  · intro h
    by_contra hlt
    rw [List.getElem?_eq_getElem (by omega), Option.getD_some] at h
    exact s.noNul (h ▸ List.getElem_mem _)
  · intro h
    rw [List.getElem?_eq_none h, Option.getD_none]

theorem field_byte {n i : ℕ} (s : CStr) (hi : i < n) : (s.field n).byte i = s.byte i := if_pos hi

theorem tail_chars (s : CStr) : s.tail.chars = s.chars.tail := rfl

theorem tail_byte (s : CStr) (i : ℕ) : s.tail.byte i = s.byte (i + 1) := by
  rw [byte, byte, tail_chars]
  cases s.chars with
  | nil => rfl
  | cons c cs => rfl

/-- Reading a string byte by byte up to a NUL gives its first bytes. -/
theorem takeWhile_byte (k : ℕ) (s : CStr) :
    ((List.range k).map s.byte).takeWhile (· ≠ 0) = s.chars.take k := by
  induction k generalizing s with
  | zero => rfl
  | succ k ih =>
    rw [List.range_succ_eq_map, List.map_cons, List.map_map]
    cases hs : s.chars with
    | nil =>
      have h0 : s.byte 0 = 0 := (s.byte_eq_zero_iff 0).mpr (by rw [hs]; exact Nat.le_refl 0)
      rw [List.takeWhile_cons_of_neg (by simp [h0])]
      rfl
    | cons c cs =>
      have hc : s.byte 0 = c := by rw [byte, hs]; rfl
      have hne : c ≠ 0 := fun h => s.noNul (by rw [hs, h]; exact List.mem_cons_self ..)
      have htail : s.byte ∘ Nat.succ = s.tail.byte := funext fun i => (s.tail_byte i).symm
      rw [List.takeWhile_cons_of_pos (by simp [hc, hne]), htail, ih, List.take_succ_cons, hc,
        tail_chars, hs, List.tail_cons]

end CStr

/-- `snprintf(buf, n, "%s", s)`: at most `n - 1` bytes of the string at `s`. -/
def snprintf (n : ℕ) (s : Mem) : CStr where
  chars := ((List.range (n - 1)).map s).takeWhile (· ≠ 0)
  noNul := fun h => by simpa using List.mem_takeWhile_imp h

/-- Printing a full field through a buffer of its own size loses the last byte. -/
theorem snprintf_field (n : ℕ) (s : CStr) :
    (snprintf (n + 1) (s.field (n + 1)).byte).field (n + 1) = s.field (n + 1) ↔ s.byte n = 0 := by
  have hmap : (List.range n).map (s.field (n + 1)).byte = (List.range n).map s.byte := by
    refine List.map_congr_left (fun i hi => s.field_byte ?_)
    rw [List.mem_range] at hi
    omega
  have hbyte : ∀ i, (snprintf (n + 1) (s.field (n + 1)).byte).byte i =
      if i < n then s.byte i else 0 := by
    intro i
    rw [CStr.byte, snprintf]
    simp only [Nat.add_sub_cancel]
    rw [hmap, CStr.takeWhile_byte, CStr.byte, List.getD_eq_getElem?_getD, List.getElem?_take,
      List.getD_eq_getElem?_getD]
    split <;> rfl
  constructor
  · intro h
    have hn := congrArg (fun b => b.byte n) h
    rw [CStr.field_byte _ (by omega), CStr.field_byte _ (by omega), hbyte, if_neg (by omega)] at hn
    exact hn.symm
  · intro h
    ext1; funext i
    rcases lt_or_ge i (n + 1) with hi | hi
    · rw [CStr.field_byte _ hi, CStr.field_byte _ hi, hbyte]
      rcases Nat.lt_or_eq_of_le (Nat.le_of_lt_succ hi) with hlt | rfl
      · rw [if_pos hlt]
      · rw [if_neg (by omega), h]
    · rw [(CStr.field _ _).out i hi, (CStr.field _ _).out i hi]

/-- `strncmp` from position `i` on. -/
def strncmpFrom (s t : Mem) (i : ℕ) : ℕ → ℤ
  | 0 => 0
  | n + 1 =>
    if s i ≠ t i then (s i).toNat - (t i).toNat
    else if s i = 0 then 0
    else strncmpFrom s t (i + 1) n

/-- `strncmp(s, t, n)`. -/
def strncmp (s t : Mem) (n : ℕ) : ℤ := strncmpFrom s t 0 n

theorem strncmpFrom_eq_zero_iff {s t : Mem} : ∀ {n i : ℕ}, strncmpFrom s t i n = 0 ↔
    ∀ k < n, (∀ j < k, s (i + j) ≠ 0) → s (i + k) = t (i + k)
  | 0, _ => by simp [strncmpFrom]
  | n + 1, i => by
      rw [strncmpFrom]
      split
      case isTrue hne =>
        -- the first difference decides
        constructor
        · intro h
          exact absurd (UInt8.toNat_inj.mp (by omega)) hne
        · intro h
          exact absurd (h 0 (by omega) (by omega)) hne
      case isFalse heq =>
        rw [not_not] at heq
        split
        case isTrue hz =>
          refine iff_of_true rfl (fun k _ hj => ?_)
          rcases Nat.eq_zero_or_pos k with rfl | hk
          · exact heq
          · exact absurd hz (hj 0 hk)
        case isFalse hz =>
          have hshift : ∀ j, i + (j + 1) = i + 1 + j := fun j => by omega
          rw [strncmpFrom_eq_zero_iff]
          constructor
          · intro h k hk hj
            cases k with
            | zero => exact heq
            | succ m =>
              rw [hshift]
              refine h m (by omega) fun j hjm => ?_
              rw [← hshift]
              exact hj (j + 1) (by omega)
          · intro h k hk hj
            rw [← hshift]
            refine h (k + 1) (by omega) fun j hjk => ?_
            cases j with
            | zero => exact hz
            | succ m =>
              rw [hshift]
              exact hj m (by omega)

/-- Against a field that holds a string, comparing is comparing keys. -/
theorem strncmp_field {n : ℕ} (p q : CStr) :
    strncmp p.byte (q.field n).byte n = 0 ↔ p.field n = q.field n := by
  rw [strncmp, strncmpFrom_eq_zero_iff]
  simp only [Nat.zero_add]
  constructor
  · intro h
    have hall : ∀ k < n, p.byte k = q.byte k := by
      intro k
      induction k using Nat.strong_induction_on with
      | _ k ih =>
        intro hk
        by_cases hz : ∀ j < k, p.byte j ≠ 0
        · rw [h k hk hz, CStr.field_byte q hk]
        · -- both strings have ended before `k`
          push Not at hz
          obtain ⟨j, hj, hpj⟩ := hz
          have hqj := (ih j hj (by omega)).symm.trans hpj
          rw [CStr.byte_eq_zero_iff] at hpj hqj
          rw [(p.byte_eq_zero_iff k).mpr (by omega), (q.byte_eq_zero_iff k).mpr (by omega)]
    ext1; funext i
    rcases lt_or_ge i n with hi | hi
    · rw [CStr.field_byte p hi, CStr.field_byte q hi, hall i hi]
    · rw [(p.field n).out i hi, (q.field n).out i hi]
  · intro h k hk _
    rw [← h, CStr.field_byte p hk]

end Schemes

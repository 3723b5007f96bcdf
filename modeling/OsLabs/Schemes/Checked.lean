import Mathlib.Tactic.Common
import Mathlib.Data.Nat.Notation
import Mathlib.Data.Int.Notation
import Mathlib.Tactic.NormNum

/-! scheme:checked | integer operations that trap

    Arithmetic on fixed-width integers in a language that checks it: an operation gives a result or
    traps (`none`). `sadd`, `uadd` and `umul` trap on overflow, `intCastS` and `intCastU` when a
    signed value does not fit the target. Where they do not trap they are the wrapping operations.
    -/

namespace Schemes
variable {w v : ℕ}

/-- The values of a signed number of `w` bits. -/
def FitsS (w : ℕ) (i : ℤ) : Prop := -2 ^ (w - 1) ≤ i ∧ i < 2 ^ (w - 1)

instance (w : ℕ) (i : ℤ) : Decidable (FitsS w i) := inferInstanceAs (Decidable (_ ∧ _))

/-- Signed `+`. -/
def sadd (x y : BitVec w) : Option (BitVec w) := if x.saddOverflow y then none else some (x + y)

/-- Unsigned `+`. -/
def uadd (x y : BitVec w) : Option (BitVec w) := if x.uaddOverflow y then none else some (x + y)

/-- Unsigned `*`. -/
def umul (x y : BitVec w) : Option (BitVec w) := if x.umulOverflow y then none else some (x * y)

/-- A signed value as a signed value of `v` bits. -/
def intCastS (v : ℕ) (x : BitVec w) : Option (BitVec v) :=
  if FitsS v x.toInt then some (x.signExtend v) else none

/-- A signed value as an unsigned value of `v` bits. -/
def intCastU (v : ℕ) (x : BitVec w) : Option (BitVec v) :=
  if 0 ≤ x.toInt ∧ x.toInt < 2 ^ v then some (x.signExtend v) else none

theorem sadd_eq (x y : BitVec w) :
    sadd x y = if FitsS w (x.toInt + y.toInt) then some (x + y) else none := by
  have hiff : x.saddOverflow y = true ↔ ¬FitsS w (x.toInt + y.toInt) := by
    simp only [BitVec.saddOverflow, Bool.or_eq_true, decide_eq_true_eq, FitsS]
    omega
  rw [sadd]
  by_cases h : FitsS w (x.toInt + y.toInt)
  · rw [if_pos h, if_neg (fun ho => hiff.mp ho h)]
  · rw [if_neg h, if_pos (hiff.mpr h)]

/-- A sum that fits is not an overflow. -/
theorem uadd_of_lt {x y : BitVec w} (h : x.toNat + y.toNat < 2 ^ w) : uadd x y = some (x + y) := by
  have hno : x.uaddOverflow y = false := decide_eq_false (Nat.not_le.mpr h)
  rw [uadd, hno]
  rfl

theorem uadd_one (hw : 0 < w) (x : BitVec w) :
    uadd x 1 = if x.toNat + 1 < 2 ^ w then some (x + 1) else none := by
  have hone : (1 : BitVec w).toNat = 1 :=
    (BitVec.toNat_ofNat 1 w).trans (Nat.mod_eq_of_lt (Nat.one_lt_two_pow (by omega)))
  rw [uadd, BitVec.uaddOverflow, hone]
  by_cases h : x.toNat + 1 < 2 ^ w
  · rw [if_pos h, if_neg (by simpa using h)]
  · rw [if_neg h, if_pos (by simpa using h)]

theorem umul_eq (x y : BitVec w) :
    umul x y = if x.toNat * y.toNat < 2 ^ w then some (x * y) else none := by
  have hiff : x.umulOverflow y = true ↔ ¬x.toNat * y.toNat < 2 ^ w := by
    simp only [BitVec.umulOverflow, decide_eq_true_eq, ge_iff_le, Nat.not_lt]
  rw [umul]
  by_cases h : x.toNat * y.toNat < 2 ^ w
  · rw [if_pos h, if_neg (fun ho => hiff.mp ho h)]
  · rw [if_neg h, if_pos (hiff.mpr h)]

/-- Casting to at least as many bits never traps. -/
theorem intCastS_of_le (h : w ≤ v) (x : BitVec w) : intCastS v x = some (x.signExtend v) := by
  have hpow : (2 : ℤ) ^ (w - 1) ≤ 2 ^ (v - 1) := by
    exact_mod_cast Nat.pow_le_pow_right (by decide : 0 < 2) (by omega : w - 1 ≤ v - 1)
  exact if_pos ⟨by have := x.le_toInt; omega, by have := x.toInt_lt; omega⟩

theorem intCastU_of_le (h : w ≤ v) (x : BitVec w) :
    intCastU v x = if 0 ≤ x.toInt then some (x.signExtend v) else none := by
  have hpow : (2 : ℤ) ^ (w - 1) ≤ 2 ^ v := by
    exact_mod_cast Nat.pow_le_pow_right (by decide : 0 < 2) (by omega : w - 1 ≤ v)
  have hlt := x.toInt_lt
  exact if_congr ⟨fun hx => hx.1, fun hx => ⟨hx, by omega⟩⟩ rfl rfl

/-- A narrowed value that fits has not changed. -/
theorem toInt_signExtend_of_fits (hv : 0 < v) {x : BitVec w} (hx : FitsS v x.toInt) :
    (x.signExtend v).toInt = x.toInt := BitVec.toInt_ofInt_eq_self hv hx.1 hx.2

/-- Comparing with a narrow value after narrowing is comparing with it after widening. -/
theorem signExtend_eq_iff (hv : 0 < v) (h : v ≤ w) {x : BitVec w} {y : BitVec v}
    (hx : FitsS v x.toInt) : x.signExtend v = y ↔ x = y.signExtend w := by
  rw [← BitVec.toInt_inj, ← BitVec.toInt_inj, toInt_signExtend_of_fits hv hx,
    BitVec.toInt_signExtend_of_le h]

end Schemes

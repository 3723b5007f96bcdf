import Mathlib.Data.Set.Function
import Mathlib.Data.Nat.Notation

/-! scheme:paged | addresses as page and offset

    An address is a page and an offset; `place` keeps the offset and puts the page where `frame`
    says. Where `frame` sends no two pages to the same place, `place` sends no two addresses there.
    And a memory that is seen through such a map of addresses is updated as the memory is. Copying
    a page (`blit`) leaves the other pages (`pageAt`) as they are.

        address   page     │ offset
                   │ frame      │
                   ▼            ▼
        place     frame p  │ offset        -/

namespace Schemes

def place (size : ℕ) (frame : ℕ → ℕ) (a : ℕ) : ℕ := frame (a / size) * size + a % size

section place
variable {size n a b : ℕ} {frame : ℕ → ℕ}

theorem place_div (hsize : 0 < size) : place size frame a / size = frame (a / size) := by
  rw [place, Nat.mul_comm, Nat.mul_add_div hsize, Nat.div_eq_of_lt (Nat.mod_lt a hsize),
    Nat.add_zero]

theorem place_mod : place size frame a % size = a % size := by
  rw [place, Nat.mul_comm, Nat.mul_add_mod, Nat.mod_mod]

theorem place_lt (hsize : 0 < size) (h : frame (a / size) < n) : place size frame a < n * size := by
  rwa [← Nat.div_lt_iff_lt_mul hsize, place_div hsize]

/-- The place of an address determines its offset and where its page is. -/
theorem place_eq_iff (hsize : 0 < size) : place size frame a = place size frame b ↔
    frame (a / size) = frame (b / size) ∧ a % size = b % size := by
  constructor
  · intro h
    have hdiv := congrArg (· / size) h
    have hmod := congrArg (· % size) h
    simp only [place_div hsize, place_mod] at hdiv hmod
    exact ⟨hdiv, hmod⟩
  · rintro ⟨hframe, hmod⟩
    rw [place, place, hframe, hmod]

/-- Addresses on different frames do not share a place. -/
theorem place_injOn (hsize : 0 < size) {D : Set ℕ} (h : Set.InjOn frame D) :
    Set.InjOn (place size frame) (Set.preimage (· / size) D) := by
  intro a ha b hb hab
  obtain ⟨hframe, hmod⟩ := (place_eq_iff hsize).mp hab
  have hdiv : a / size = b / size := h ha hb hframe
  rw [← Nat.div_add_mod a size, ← Nat.div_add_mod b size, hdiv, hmod]

end place

/-! ### Copying -/

/-- The elements of page `p`. -/
def pageAt {α : Type*} (size : ℕ) (mem : ℕ → α) (p : ℕ) : List α :=
  (List.range size).map fun i => mem (p * size + i)

/-- `dst` after `n` elements of `src` from `s` on were stored in it from `d` on. -/
def blit {α : Type*} (dst : ℕ → α) (d : ℕ) (src : ℕ → α) (s : ℕ) : ℕ → ℕ → α
  | 0 => dst
  | n + 1 => Function.update (blit dst d src s n) (d + n) (src (s + n))

section blit
variable {α : Type*} {dst src : ℕ → α} {d s n i size p q r : ℕ}

theorem blit_in (h : i < n) : blit dst d src s n (d + i) = src (s + i) := by
  induction n with
  | zero => cases h
  | succ n ih =>
    rw [blit]
    rcases Nat.lt_succ_iff_lt_or_eq.mp h with hlt | rfl
    · rw [Function.update_of_ne (by omega), ih hlt]
    · rw [Function.update_self]

theorem blit_out (h : i < d ∨ d + n ≤ i) : blit dst d src s n i = dst i := by
  induction n with
  | zero => rfl
  | succ n ih => rw [blit, Function.update_of_ne (by omega), ih (by omega)]

/-- The page that is copied to has the elements of the page that is copied. -/
theorem pageAt_blit :
    pageAt size (blit dst (p * size) src (q * size) size) p = pageAt size src q :=
  List.map_congr_left fun _ hi => blit_in (List.mem_range.mp hi)

/-- Every other page has its elements. -/
theorem pageAt_blit_of_ne (h : r ≠ p) :
    pageAt size (blit dst (p * size) src (q * size) size) r = pageAt size dst r := by
  apply List.map_congr_left
  intro i hi
  have hi : i < size := List.mem_range.mp hi
  refine blit_out ?_
  rcases Nat.lt_or_gt_of_ne h with hlt | hgt
  · have := Nat.mul_le_mul_right size (show r + 1 ≤ p from hlt)
    rw [Nat.add_mul] at this
    omega
  · have := Nat.mul_le_mul_right size (show p + 1 ≤ r from hgt)
    rw [Nat.add_mul] at this
    omega

end blit

/-- Storing at the place of `b` is storing at `b`. -/
theorem update_comp {ι κ α : Type*} [DecidableEq ι] [DecidableEq κ] {loc : ι → κ} {D : Set ι}
    (h : Set.InjOn loc D) {b : ι} (hb : b ∈ D) (mem : κ → α) (v : α) :
    Set.EqOn (Function.update mem (loc b) v ∘ loc) (Function.update (mem ∘ loc) b v) D := by
  intro a ha
  rcases eq_or_ne a b with rfl | hne
  · rw [Function.comp_apply, Function.update_self, Function.update_self]
  · have hloc : loc a ≠ loc b := fun hab => hne (h ha hb hab)
    rw [Function.comp_apply, Function.update_of_ne hloc, Function.update_of_ne hne,
      Function.comp_apply]

end Schemes

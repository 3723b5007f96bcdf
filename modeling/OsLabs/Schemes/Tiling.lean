import Mathlib.Tactic.Linarith
import Mathlib.Data.Nat.Notation
import Mathlib.Algebra.BigOperators.Group.List.Basic

/-! scheme:tiling | a range cut into adjacent cells

    The cells of a tiling of `[a, b)` follow each other without gaps, each at least `m` long (room
    for its header) and each flagged free or not. Tilings join and split at the start of any cell;
    a heap that splits blocks refines `split`, one that merges free neighbours `coalesce`. What
    never changes is the sum: the payloads and `m` per cell make up the range (`payload_sum`). -/

namespace Schemes

/-- A cell `[lo, hi)`. -/
structure Cell where
  lo : ℕ
  hi : ℕ
  free : Bool
  deriving DecidableEq

/-- The cells cover `[a, b)` in order, each at least `m` long. -/
def Tiles (m : ℕ) : ℕ → ℕ → List Cell → Prop
  | a, b, [] => a = b
  | a, b, c :: cs => c.lo = a ∧ c.lo + m ≤ c.hi ∧ Tiles m c.hi b cs

/-- Join the first cell with its neighbours for as long as both are free, and go on from there. -/
def coalesce : Cell → List Cell → List Cell
  | c, [] => [c]
  | c, d :: ds =>
    if c.free && d.free then coalesce { c with hi := d.hi } ds else c :: coalesce d ds

/-- The payload of the cells that `p` selects: their length without the `m` of the header. -/
def payload (m : ℕ) (p : Cell → Bool) (cs : List Cell) : ℕ :=
  ((cs.filter p).map fun c => c.hi - c.lo - m).sum

namespace Tiles
variable {m a b e : ℕ} {c d : Cell} {cs ds : List Cell}

theorem le (h : Tiles m a b cs) : a ≤ b := by
  induction cs generalizing a with
  | nil => exact h.le
  | cons c cs ih =>
    obtain ⟨rfl, hm, hrest⟩ := h
    have := ih hrest
    omega

/-- A tiling of two lists is one of each, up to some point and from there. -/
theorem append_iff : Tiles m a b (cs ++ ds) ↔ ∃ e, Tiles m a e cs ∧ Tiles m e b ds := by
  induction cs generalizing a with
  | nil =>
    constructor
    · exact fun h => ⟨a, rfl, h⟩
    · rintro ⟨e, rfl, h⟩; exact h
  | cons c cs ih =>
    constructor
    · rintro ⟨ha, hm, hrest⟩
      obtain ⟨e, hl, hr⟩ := ih.mp hrest
      exact ⟨e, ⟨ha, hm, hl⟩, hr⟩
    · rintro ⟨e, ⟨ha, hm, hl⟩, hr⟩
      exact ⟨ha, hm, ih.mpr ⟨e, hl, hr⟩⟩

/-- Cut a tiling at the start of one of its cells. -/
theorem cut (h : Tiles m a b (cs ++ c :: ds)) : Tiles m a c.lo cs ∧ Tiles m c.lo b (c :: ds) := by
  obtain ⟨e, hl, rfl, hr⟩ := append_iff.mp h
  exact ⟨hl, rfl, hr⟩

theorem bounds (h : Tiles m a b cs) (hc : c ∈ cs) : a ≤ c.lo ∧ c.lo + m ≤ c.hi ∧ c.hi ≤ b := by
  induction cs generalizing a with
  | nil => cases hc
  | cons c' cs ih =>
    obtain ⟨rfl, hm, hrest⟩ := h
    rcases List.mem_cons.mp hc with rfl | hc
    · exact ⟨le_rfl, hm, hrest.le⟩
    · have := ih hrest hc
      omega

/-- A cell ends before every later one starts. -/
theorem sorted (h : Tiles m a b cs) : cs.Pairwise fun c d => c.hi ≤ d.lo := by
  induction cs generalizing a with
  | nil => exact .nil
  | cons c cs ih =>
    obtain ⟨rfl, hm, hrest⟩ := h
    exact .cons (fun d hd => (hrest.bounds hd).1) (ih hrest)

/-- The cells before a given one lie below it. -/
theorem before (h : Tiles m a b (cs ++ c :: ds)) (hd : d ∈ cs) : d.lo + m ≤ c.lo := by
  have := h.cut.1.bounds hd
  omega

/-- The cells after a given one lie above it. -/
theorem after (h : Tiles m a b (cs ++ c :: ds)) (hd : d ∈ ds) : c.hi ≤ d.lo :=
  (h.cut.2.2.2.bounds hd).1

/-- Different cells do not overlap. -/
theorem disjoint (h : Tiles m a b cs) (hc : c ∈ cs) (hd : d ∈ cs) (hne : c ≠ d) :
    c.hi ≤ d.lo ∨ d.hi ≤ c.lo := by
  induction cs generalizing a with
  | nil => cases hc
  | cons e cs ih =>
    obtain ⟨rfl, hm, hrest⟩ := h
    rcases List.mem_cons.mp hc with rfl | hc'
    · rcases List.mem_cons.mp hd with rfl | hd'
      · exact absurd rfl hne
      · exact Or.inl (hrest.bounds hd').1
    · rcases List.mem_cons.mp hd with rfl | hd'
      · exact Or.inr (hrest.bounds hc').1
      · exact ih hrest hc' hd'

/-- Coalescing tiles the same range. -/
theorem coalesce (h : Tiles m a b (c :: cs)) : Tiles m a b (coalesce c cs) := by
  induction cs generalizing a c with
  | nil => exact h
  | cons d ds ih =>
    obtain ⟨rfl, hm, hd, hmd, hrest⟩ := h
    rw [Schemes.coalesce]
    split
    · have hjoin : c.lo + m ≤ d.hi := by omega
      exact ih ⟨rfl, hjoin, hrest⟩
    · exact ⟨rfl, hm, ih ⟨hd, hmd, hrest⟩⟩

/-- The payloads of both kinds and the headers make up the range. -/
theorem payload_sum (p : Cell → Bool) (h : Tiles m a b cs) :
    payload m p cs + payload m (fun c => !p c) cs + m * cs.length = b - a := by
  induction cs generalizing a with
  | nil =>
    have hab : a = b := h
    simp [payload, hab]
  | cons c cs ih =>
    obtain ⟨rfl, hm, hrest⟩ := h
    have hle := hrest.le
    have hsum := ih hrest
    simp only [payload, List.length_cons, Nat.mul_succ] at hsum ⊢
    cases hp : p c <;> simp only [List.filter_cons, hp, Bool.not_true, Bool.not_false, if_true,
      Bool.false_eq_true, if_false, List.map_cons, List.sum_cons] <;> omega

end Tiles

end Schemes

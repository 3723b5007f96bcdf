import OsLabs.Schemes.Coalesce

/-! scheme:arena | the cells of a range, by the addresses where they start

    No two cells of a tiling start at the same address, so an address names at most one cell.
    `cellAt` looks it up, and `changeFrom` changes the list from there on.

        l ++ c :: r   ──changeFrom c.lo f──▶   l ++ f (c :: r) -/

namespace Schemes

/-- The cell that starts at `a`. -/
def cellAt (a : ℕ) (cs : List Cell) : Option Cell := cs.find? fun c => c.lo = a

/-- The cells before `a` stay, `f` changes the others. -/
def changeFrom (a : ℕ) (f : List Cell → List Cell) (cs : List Cell) : List Cell :=
  cs.takeWhile (fun c => c.lo ≠ a) ++ f (cs.dropWhile fun c => c.lo ≠ a)

section arena
variable {a b m : ℕ} {c : Cell} {cs l r : List Cell}

theorem cellAt_isSome : (cellAt a cs).isSome ↔ a ∈ cs.map Cell.lo := by
  simp [cellAt]

/-- Where a cell is found, the list splits. -/
theorem cellAt_split (h : cellAt a cs = some c) :
    c.lo = a ∧ ∃ l r, cs = l ++ c :: r ∧ ∀ x ∈ l, x.lo ≠ a := by
  obtain ⟨hc, l, r, hcs, hl⟩ := List.find?_eq_some_iff_append.mp h
  exact ⟨by simpa using hc, l, r, hcs, fun x hx => by simpa using hl x hx⟩

theorem changeFrom_split (f : List Cell → List Cell) (hl : ∀ x ∈ l, x.lo ≠ c.lo) :
    changeFrom c.lo f (l ++ c :: r) = l ++ f (c :: r) := by
  have hkeep : ∀ x ∈ l, decide (x.lo ≠ c.lo) = true := fun x hx => decide_eq_true (hl x hx)
  rw [changeFrom, List.takeWhile_append_of_pos hkeep, List.dropWhile_append_of_pos hkeep,
    List.takeWhile_cons_of_neg (by simp), List.dropWhile_cons_of_neg (by simp), List.append_nil]

/-- The cells leave room for no more of them than fit. -/
theorem Tiles.length_le (h : Tiles m a b cs) : m * cs.length ≤ b - a := by
  have hsum := h.payload_sum fun c => c.free
  omega

end arena

end Schemes

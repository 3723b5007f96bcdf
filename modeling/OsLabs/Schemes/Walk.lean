import Mathlib.Tactic.Common
import Mathlib.Data.List.Nodup
import Mathlib.Logic.Function.Basic

/-! scheme:walk | linked structures threaded through a successor function

    A walk from `a` follows `nx` over exactly the nodes of a list and then stands at `stop`. Linked
    files, free lists and block chains are all walks: they differ in what `nx` reads and in the
    value that marks the end. A walk is determined by its start (`unique`), sees `nx` on its own
    nodes only (`congr`), and splits and joins at any node (`append`). -/

namespace Schemes
variable {α : Type*}

/-- Following `nx` from `a` visits exactly `l`, in order, and ends at `stop`. -/
def Walk (nx : α → α) (stop : α) : α → List α → Prop
  | a, [] => a = stop
  | a, b :: l => a = b ∧ b ≠ stop ∧ Walk nx stop (nx b) l

instance Walk.decidable [DecidableEq α] (nx : α → α) (stop : α) :
    ∀ a l, Decidable (Walk nx stop a l)
  | a, [] => inferInstanceAs (Decidable (a = stop))
  | a, b :: l =>
    have := Walk.decidable nx stop (nx b) l
    inferInstanceAs (Decidable (a = b ∧ b ≠ stop ∧ Walk nx stop (nx b) l))

namespace Walk
variable {nx nx' : α → α} {stop : α}

theorem head_eq {a b : α} {l : List α} (h : Walk nx stop a (b :: l)) : a = b := h.1

theorem tail {a b : α} {l : List α} (h : Walk nx stop a (b :: l)) : Walk nx stop (nx b) l := h.2.2

theorem start_eq : ∀ {l : List α} {a : α}, Walk nx stop a l → a = l.headD stop
  | [], _, h => h
  | _ :: _, _, h => h.1

/-- The successor of a node is the next node, or the end. -/
theorem next_eq {x : α} : ∀ {l r : List α} {a : α}, Walk nx stop a (l ++ x :: r) →
    nx x = r.headD stop
  | [], _, _, h => h.tail.start_eq
  | _ :: _, _, _, h => next_eq h.tail

/-- Two walks over the same nodes agree on the successors of these. -/
theorem agree {l : List α} {a a' x : α} (h : Walk nx stop a l) (h' : Walk nx' stop a' l)
    (hx : x ∈ l) : nx' x = nx x := by
  obtain ⟨p, r, rfl⟩ := List.append_of_mem hx
  rw [h.next_eq, h'.next_eq]

/-- Lengthening a walk changes the successor of its last node only. -/
theorem agree_append {l m : List α} {a a' x : α} (h : Walk nx stop a l)
    (h' : Walk nx' stop a' (l ++ m)) (hx : x ∈ l) (hlast : l.getLast? ≠ some x) :
    nx' x = nx x := by
  obtain ⟨p, r, rfl⟩ := List.append_of_mem hx
  cases r with
  | nil => exact absurd List.getLast?_concat hlast
  | cons y r =>
    rw [List.append_assoc, List.cons_append] at h'
    rw [h.next_eq, h'.next_eq]
    rfl

/-- From a node of a walk, `nx` leads to a node of the walk or to its end. -/
theorem step_mem : ∀ {l : List α} {a x : α}, Walk nx stop a l → x ∈ l → nx x ∈ l ∨ nx x = stop
  | b :: l, _, x, ⟨_, _, hl⟩, hx => by
      rcases List.mem_cons.mp hx with rfl | hx
      · cases l with
        | nil => exact Or.inr hl
        | cons c l => exact Or.inl (by rw [hl.1]; simp)
      · exact (step_mem hl hx).imp (List.mem_cons_of_mem _) id

/-- A walk is determined by where it starts. -/
theorem unique : ∀ {l l' : List α} {a : α}, Walk nx stop a l → Walk nx stop a l' → l = l'
  | [], [], _, _, _ => rfl
  | [], _ :: _, _, h, ⟨hb, hne, _⟩ => absurd (hb.symm.trans h) hne
  | _ :: _, [], _, ⟨hb, hne, _⟩, h => absurd (hb.symm.trans h) hne
  | b :: l, c :: l', _, ⟨hb, _, hl⟩, ⟨hc, _, hl'⟩ => by
      obtain rfl : b = c := hb.symm.trans hc
      rw [unique hl hl']

/-- A walk sees the successor function on its own nodes only. -/
theorem congr : ∀ {l : List α} {a : α}, Walk nx stop a l → (∀ x ∈ l, nx' x = nx x) →
    Walk nx' stop a l
  | [], _, h, _ => h
  | b :: l, _, ⟨ha, hb, hl⟩, h => by
      refine ⟨ha, hb, ?_⟩
      rw [h b (List.mem_cons_self ..)]
      exact congr hl (fun x hx => h x (List.mem_cons_of_mem _ hx))

/-- Joining a walk that ends at `b` to a walk from `b` on. -/
theorem append {b : α} : ∀ {l l' : List α} {a : α}, stop ∉ l → Walk nx b a l →
    Walk nx stop b l' → Walk nx stop a (l ++ l')
  | [], _, _, _, h, h' => by rw [Walk] at h; subst h; exact h'
  | c :: l, _, _, hs, ⟨ha, _, hl⟩, h' => by
      rw [List.mem_cons, not_or] at hs
      exact ⟨ha, fun hc => hs.1 hc.symm, append hs.2 hl h'⟩

/-- A walk that passes `b` first reaches `b` and then goes on from there. -/
theorem split {b : α} : ∀ {l l' : List α} {a : α}, b ∉ l → Walk nx stop a (l ++ b :: l') →
    Walk nx b a l ∧ Walk nx stop b (b :: l')
  | [], _, _, _, h => ⟨h.1, rfl, h.2⟩
  | c :: l, _, _, hb, ⟨ha, hc, hl⟩ => by
      rw [List.mem_cons, not_or] at hb
      have hrec := split hb.2 hl
      exact ⟨⟨ha, fun h => hb.1 h.symm, hrec.1⟩, hrec.2⟩

end Walk

end Schemes

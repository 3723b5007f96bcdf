import Mathlib.Data.Option.Basic

/-! scheme:refines | components that answer requests, their runs, and refinement

    A component goes from a state and an input to a new state and an output; where it promises
    nothing, the step is `none`. `Refines` says that a concrete component keeps the promises of an
    abstract one on the inputs it may be given. It is enough to check a step; the runs follow.

        s ──i/o──▶ s'     abstract
        R          R
        t ──i/o──▶ t'     concrete                                                          -/

namespace Schemes
variable {σ τ ι ο : Type*}

/-- What a component does on an input. -/
abbrev Component (σ ι ο : Type*) := σ → ι → Option (σ × ο)

namespace Component
variable {m : Component σ ι ο} {s s' : σ} {i : ι} {o : ο} {is js : List ι} {os : List ο}

/-- A run on a list of inputs, with the outputs. -/
def run (m : Component σ ι ο) : σ → List ι → Option (σ × List ο)
  | s, [] => some (s, [])
  | s, i :: is => (m s i).bind fun r => (run m r.1 is).map fun q => (q.1, r.2 :: q.2)

@[simp] theorem run_nil : m.run s [] = some (s, []) := rfl

theorem run_cons : m.run s (i :: is) = some (s', os) ↔
    ∃ s₁ o os', m s i = some (s₁, o) ∧ m.run s₁ is = some (s', os') ∧ os = o :: os' := by
  simp only [run, Option.bind_eq_some_iff, Option.map_eq_some_iff, Prod.exists, Prod.mk.injEq]
  constructor
  · rintro ⟨s₁, o, hstep, s₂, os', hrun, rfl, rfl⟩
    exact ⟨s₁, o, os', hstep, hrun, rfl⟩
  · rintro ⟨s₁, o, os', hstep, hrun, rfl⟩
    exact ⟨s₁, o, hstep, s', os', hrun, rfl, rfl⟩

/-- A run on two lists is a run on the first and then one on the second. -/
theorem run_append : m.run s (is ++ js) = some (s', os) ↔
    ∃ s₁ os₁ os₂, m.run s is = some (s₁, os₁) ∧ m.run s₁ js = some (s', os₂) ∧
      os = os₁ ++ os₂ := by
  induction is generalizing s os with
  | nil =>
    constructor
    · intro h
      exact ⟨s, [], os, rfl, h, rfl⟩
    · rintro ⟨s₁, os₁, os₂, h₁, h₂, rfl⟩
      obtain ⟨rfl, rfl⟩ : s = s₁ ∧ [] = os₁ := by simpa using h₁
      exact h₂
  | cons i is ih =>
    rw [List.cons_append, run_cons]
    constructor
    · rintro ⟨s₁, o, os', hstep, hrun, rfl⟩
      obtain ⟨s₂, os₁, os₂, h₁, h₂, rfl⟩ := ih.mp hrun
      exact ⟨s₂, o :: os₁, os₂, run_cons.mpr ⟨s₁, o, os₁, hstep, h₁, rfl⟩, h₂, rfl⟩
    · rintro ⟨s₂, os₁, os₂, h₁, h₂, rfl⟩
      obtain ⟨s₁, o, os', hstep, hrun, rfl⟩ := run_cons.mp h₁
      exact ⟨s₁, o, os' ++ os₂, hstep, ih.mpr ⟨s₂, os', os₂, hrun, h₂, rfl⟩, rfl⟩

/-- What every step on the inputs of a run preserves, the run preserves. -/
theorem run_keeps {P : ι → Prop} {I : σ → Prop}
    (hstep : ∀ s i s' o, I s → P i → m s i = some (s', o) → I s') (h : I s) (hp : ∀ i ∈ is, P i)
    (hrun : m.run s is = some (s', os)) : I s' := by
  induction is generalizing s os with
  | nil =>
    rw [run_nil, Option.some.injEq] at hrun
    exact (Prod.mk.inj hrun).1 ▸ h
  | cons i is ih =>
    obtain ⟨s₁, o, os', hi, hrun', rfl⟩ := run_cons.mp hrun
    exact ih (hstep s i s₁ o h (hp i (List.mem_cons_self ..)) hi)
      (fun j hj => hp j (List.mem_cons_of_mem _ hj)) hrun'

end Component

/-- On inputs that satisfy `P`, the component `c` does what `a` promises, and `R` is kept. -/
def Refines (P : ι → Prop) (R : σ → τ → Prop) (a : Component σ ι ο) (c : Component τ ι ο) : Prop :=
  ∀ s t i s' o, R s t → P i → a s i = some (s', o) → ∃ t', c t i = some (t', o) ∧ R s' t'

namespace Refines
variable {P : ι → Prop} {R : σ → τ → Prop} {a : Component σ ι ο} {b : Component τ ι ο} {s s' : σ}
  {t : τ} {is : List ι} {os : List ο}

/-- A run that is promised is a run of the refinement, with the same outputs. -/
theorem run (h : Refines P R a b) (hr : R s t) (hp : ∀ i ∈ is, P i)
    (hrun : a.run s is = some (s', os)) : ∃ t', b.run t is = some (t', os) ∧ R s' t' := by
  induction is generalizing s t os with
  | nil =>
    rw [Component.run_nil, Option.some.injEq] at hrun
    obtain ⟨rfl, rfl⟩ := Prod.mk.inj hrun
    exact ⟨t, rfl, hr⟩
  | cons i is ih =>
    obtain ⟨s₁, o, os', hi, hrun', rfl⟩ := Component.run_cons.mp hrun
    obtain ⟨t₁, hti, hr₁⟩ := h s t i s₁ o hr (hp i (List.mem_cons_self ..)) hi
    obtain ⟨t', hrun₁, hr'⟩ := ih hr₁ (fun j hj => hp j (List.mem_cons_of_mem _ hj)) hrun'
    exact ⟨t', Component.run_cons.mpr ⟨t₁, o, os', hti, hrun₁, rfl⟩, hr'⟩

end Refines

end Schemes

import Mathlib.Tactic.Common
import Mathlib.Data.Nat.Notation
import Mathlib.Logic.Relation

/-! scheme:loop | while loops

    `iter body` is the loop `for (;;) body`: one trip either goes on with a new state or leaves with
    a result. It runs on fuel; `iter_mono` says that more fuel changes nothing once the loop has
    left, and `iter_det` that the result does not depend on the fuel. `Visits` says which states the
    loop comes to, `VisitsIn` in how many trips, and `Visits.sim` and `iter_sim` how one loop
    follows another. `scan` is the common special case `while (n-- && p(i)) i++`. -/

namespace Schemes
variable {σ ρ : Type*}

/-- `for (;;) body` with `fuel` trips: `inl` goes on, `inr` leaves. -/
def iter (body : σ → σ ⊕ ρ) : ℕ → σ → Option ρ
  | 0, _ => none
  | fuel + 1, s =>
    match body s with
    | .inl s' => iter body fuel s'
    | .inr r => some r

theorem iter_inl {body : σ → σ ⊕ ρ} {fuel : ℕ} {s s' : σ} (h : body s = .inl s') :
    iter body (fuel + 1) s = iter body fuel s' := by rw [iter, h]

theorem iter_inr {body : σ → σ ⊕ ρ} {fuel : ℕ} {s : σ} {r : ρ} (h : body s = .inr r) :
    iter body (fuel + 1) s = some r := by rw [iter, h]

/-- A loop that has left gives the same result with more fuel. -/
theorem iter_mono {body : σ → σ ⊕ ρ} : ∀ {fuel fuel' : ℕ} {s : σ} {r : ρ}, fuel ≤ fuel' →
    iter body fuel s = some r → iter body fuel' s = some r
  | fuel + 1, fuel' + 1, s, r, hle, h => by
      rw [iter] at h ⊢
      cases hb : body s with
      | inl s' =>
        rw [hb] at h
        exact iter_mono (by omega) h
      | inr r' =>
        rw [hb] at h
        exact h

/-- The same behind a test. -/
theorem ite_iter_mono {c : Prop} [Decidable c] {body : σ → σ ⊕ ρ} {fuel fuel' : ℕ} {s : σ}
    {r₀ r : ρ} (hle : fuel ≤ fuel') (h : (if c then some r₀ else iter body fuel s) = some r) :
    (if c then some r₀ else iter body fuel' s) = some r := by
  by_cases hc : c
  · rw [if_pos hc] at h ⊢
    exact h
  · rw [if_neg hc] at h ⊢
    exact iter_mono hle h

/-- The result does not depend on the fuel. -/
theorem iter_det {body : σ → σ ⊕ ρ} {f f' : ℕ} {s : σ} {r r' : ρ} (h : iter body f s = some r)
    (h' : iter body f' s = some r') : r = r' := by
  rcases Nat.le_total f f' with hle | hle
  · exact Option.some.inj ((iter_mono hle h).symm.trans h')
  · exact Option.some.inj (h.symm.trans (iter_mono hle h'))

/-- The loop comes from one state to another. -/
def Visits (body : σ → σ ⊕ ρ) : σ → σ → Prop := Relation.ReflTransGen fun s s' => body s = .inl s'

/-- From any state that it comes to, the loop leaves as it does from the first. -/
theorem Visits.iter {body : σ → σ ⊕ ρ} {s s' : σ} (h : Visits body s s') {n : ℕ} {r : ρ}
    (hr : iter body n s = some r) : ∃ m, Schemes.iter body m s' = some r := by
  induction h with
  | refl => exact ⟨n, hr⟩
  | tail _ hstep ih =>
    obtain ⟨m, hm⟩ := ih
    cases m with
    | zero => cases hm
    | succ m => exact ⟨m, (iter_inl hstep).symm.trans hm⟩

/-- The loop comes from one state to another in at most `n` trips. -/
inductive VisitsIn (body : σ → σ ⊕ ρ) : ℕ → σ → σ → Prop
  | refl {n : ℕ} {s : σ} : VisitsIn body n s s
  | head {n : ℕ} {s s₁ s' : σ} (hstep : body s = .inl s₁) (h : VisitsIn body n s₁ s') :
      VisitsIn body (n + 1) s s'

namespace VisitsIn
variable {body : σ → σ ⊕ ρ} {m n : ℕ} {s s' t : σ} {r : ρ}

theorem mono (h : VisitsIn body n s s') (hle : n ≤ m) : VisitsIn body m s s' := by
  induction h generalizing m with
  | refl => exact .refl
  | head hstep _ ih =>
    cases m with
    | zero => exact absurd hle (Nat.not_succ_le_zero _)
    | succ m => exact .head hstep (ih (Nat.le_of_succ_le_succ hle))

theorem visits (h : VisitsIn body n s s') : Visits body s s' := by
  induction h with
  | refl => exact .refl
  | head hstep _ ih => exact .head hstep ih

theorem trans (h : VisitsIn body n s s') (h' : VisitsIn body m s' t) :
    VisitsIn body (n + m) s t := by
  induction h with
  | refl => exact h'.mono (Nat.le_add_left ..)
  | head hstep _ ih =>
    rw [Nat.add_right_comm]
    exact .head hstep (ih h')

/-- With fuel for the trips and for the rest, the loop leaves as it does from there. -/
theorem iter (h : VisitsIn body n s s') (hr : Schemes.iter body m s' = some r) :
    Schemes.iter body (n + m) s = some r := by
  induction h with
  | refl => exact iter_mono (Nat.le_add_left ..) hr
  | head hstep _ ih => rw [Nat.add_right_comm, iter_inl hstep, ih hr]

end VisitsIn

/-- The states that a loop comes to, and the one that it returns, if any. -/
def Occurs (body : σ → σ ⊕ Option σ) (s s' : σ) : Prop :=
  Visits body s s' ∨ ∃ t, Visits body s t ∧ body t = .inr (some s')

/-- What a trip preserves holds whenever the loop is at its head. -/
theorem Visits.inv {body : σ → σ ⊕ ρ} {I : σ → Prop}
    (hgo : ∀ {s s'}, I s → body s = .inl s' → I s') {s s' : σ} (h : Visits body s s') (hs : I s) :
    I s' := by
  induction h with
  | refl => exact hs
  | tail _ hstep ih => exact hgo ih hstep

/-- It holds, or what follows from it, of the state returned too. -/
theorem Occurs.inv {body : σ → σ ⊕ Option σ} {I J : σ → Prop} (hhead : ∀ {s}, I s → J s)
    (hgo : ∀ {s s'}, I s → body s = .inl s' → I s')
    (hleave : ∀ {s s'}, I s → body s = .inr (some s') → J s') {s s' : σ} (h : Occurs body s s')
    (hs : I s) : J s' := by
  rcases h with h | ⟨t, ht, hr⟩
  · exact hhead (h.inv hgo hs)
  · exact hleave (ht.inv hgo hs) hr

section simulation
variable {σ' ρ' : Type*} {body : σ → σ ⊕ ρ} {body' : σ' → σ' ⊕ ρ'} {R : σ → σ' → Prop}

/-- A loop that follows every trip of another comes to the states that the other comes to. -/
theorem Visits.sim
    (hgo : ∀ {s s' t}, R s t → body s = .inl s' → ∃ t', body' t = .inl t' ∧ R s' t')
    {s s' : σ} (h : Visits body s s') {t : σ'} (hR : R s t) :
    ∃ t', Visits body' t t' ∧ R s' t' := by
  induction h with
  | refl => exact ⟨t, .refl, hR⟩
  | tail _ hstep ih =>
    obtain ⟨t', ht', hR'⟩ := ih
    obtain ⟨u, hu, hRu⟩ := hgo hR' hstep
    exact ⟨u, ht'.tail hu, hRu⟩

/-- It leaves where the other leaves, if it follows that too. -/
theorem iter_sim {P : ρ → ρ' → Prop} {r : ρ}
    (hgo : ∀ {s s' t}, R s t → body s = .inl s' → ∃ t', body' t = .inl t' ∧ R s' t')
    (hleave : ∀ {s t}, R s t → body s = .inr r → ∃ r', body' t = .inr r' ∧ P r r') :
    ∀ {n : ℕ} {s : σ} {t : σ'}, R s t → iter body n s = some r →
      ∃ r', iter body' n t = some r' ∧ P r r'
  | n + 1, s, t, hR, h => by
      rw [iter] at h
      cases hb : body s with
      | inl s' =>
        rw [hb] at h
        obtain ⟨t', ht', hR'⟩ := hgo hR hb
        obtain ⟨r', hr', hP⟩ := iter_sim hgo hleave hR' h
        exact ⟨r', (iter_inl ht').trans hr', hP⟩
      | inr r₀ =>
        rw [hb] at h
        obtain rfl := Option.some.inj h
        obtain ⟨r', hr', hP⟩ := hleave hR hb
        exact ⟨r', iter_inr hr', hP⟩

/-- Two loops whose trips correspond, one by one, give results that correspond. -/
theorem iter_lockstep {P : ρ → ρ' → Prop}
    (htrip : ∀ {s t}, R s t → Sum.LiftRel R P (body s) (body' t)) :
    ∀ (n : ℕ) {s : σ} {t : σ'}, R s t → Option.Rel P (iter body n s) (iter body' n t)
  | 0, _, _, _ => .none
  | n + 1, s, t, hR => by
      have hs := htrip hR
      rw [iter, iter]
      cases hb : body s with
      | inl s' =>
        rw [hb] at hs
        cases hb' : body' t with
        | inl t' =>
          rw [hb'] at hs
          exact iter_lockstep htrip n (Sum.liftRel_inl_inl.mp hs)
        | inr r' =>
          rw [hb'] at hs
          cases hs
      | inr r =>
        rw [hb] at hs
        cases hb' : body' t with
        | inl t' =>
          rw [hb'] at hs
          cases hs
        | inr r' =>
          rw [hb'] at hs
          exact .some (Sum.liftRel_inr_inr.mp hs)

end simulation

section rel
variable {α β : Type*} {P : α → β → Prop}

theorem rel_some_iff {a : α} {y : Option β} :
    Option.Rel P (some a) y ↔ ∃ b, y = some b ∧ P a b := by
  constructor
  · rintro ⟨h⟩
    exact ⟨_, rfl, h⟩
  · rintro ⟨b, rfl, h⟩
    exact .some h

theorem rel_none_iff {y : Option β} : Option.Rel P none y ↔ y = none := by
  constructor
  · rintro ⟨⟩
    rfl
  · rintro rfl
    exact .none

/-- Results of loops that can fail. -/
theorem rel_join {x : Option (Option α)} {y : Option (Option β)}
    (h : Option.Rel (Option.Rel P) x y) : Option.Rel P x.join y.join := by
  cases h with
  | none => exact .none
  | some h => exact h

end rel

/-- `while (n-- && p(i)) i++`. -/
def scan (p : ℕ → Bool) : ℕ → ℕ → ℕ
  | 0, i => i
  | n + 1, i => if p i then scan p n (i + 1) else i

theorem le_scan (p : ℕ → Bool) : ∀ (n i : ℕ), i ≤ scan p n i
  | 0, i => Nat.le_refl i
  | n + 1, i => by
      rw [scan]; split
      · have := le_scan p n (i + 1); omega
      · exact Nat.le_refl i

theorem scan_le (p : ℕ → Bool) : ∀ (n i : ℕ), scan p n i ≤ i + n
  | 0, _ => Nat.le_refl _
  | n + 1, i => by
      rw [scan]; split
      · have := scan_le p n (i + 1); omega
      · omega

/-- Everything a scan passes over satisfies `p`. -/
theorem scan_passed {p : ℕ → Bool} : ∀ {n i j : ℕ}, i ≤ j → j < scan p n i → p j = true
  | 0, _, _, hij, hj => by rw [scan] at hj; omega
  | n + 1, i, j, hij, hj => by
      rw [scan] at hj
      split at hj
      case isTrue hp =>
        rcases Nat.eq_or_lt_of_le hij with rfl | hlt
        · exact hp
        · exact scan_passed hlt hj
      case isFalse => omega

/-- Where a scan stops before its bound, `p` fails. -/
theorem scan_stop {p : ℕ → Bool} : ∀ {n i : ℕ}, scan p n i < i + n → p (scan p n i) = false
  | 0, _, h => by rw [scan] at h; omega
  | n + 1, i, h => by
      rw [scan] at h ⊢
      split
      case isTrue hp =>
        rw [if_pos hp] at h
        exact scan_stop (by omega)
      case isFalse hp => simpa using hp

/-- A scan stops at the first place where `p` fails. -/
theorem scan_eq {p : ℕ → Bool} {n i k : ℕ} (hik : i ≤ k) (hkn : k ≤ i + n)
    (hp : ∀ j, i ≤ j → j < k → p j = true) (hk : k = i + n ∨ p k = false) : scan p n i = k := by
  have hlo := le_scan p n i
  have hhi := scan_le p n i
  rcases Nat.lt_trichotomy (scan p n i) k with hlt | heq | hgt
  · have := scan_stop (p := p) (n := n) (i := i) (by omega)
    rw [hp _ hlo hlt] at this; cases this
  · exact heq
  · have := scan_passed hik hgt
    rcases hk with hk | hk
    · omega
    · rw [hk] at this; cases this

end Schemes

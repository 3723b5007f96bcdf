import Mathlib.Tactic.Ring
import OsLabs.Schemes.Scanning

/-! scheme:scanning | tokens and checked numerals

    A tokenizer, and a parser for numbers that checks them. A token is a longest row of bytes that
    are no separators. `parseInt` takes a whole token: a sign, then digits, which may be grouped
    with `_`. It checks every product and every sum against the range of its type. The value only
    moves away from zero, so what it rejects is exactly what ends out of range.

        addi   1 ,  - 3 1 ,   1 _ 0 2 4
        token  token  token   token              1, -31, 1024     -/

namespace Schemes

abbrev underscore : UInt8 := 95

/-! ### Tokens -/

/-- The first token, and what is left. -/
def nextToken (sep : UInt8 → Bool) (l : List UInt8) : Option (List UInt8 × List UInt8) :=
  let l := l.dropWhile sep
  if l = [] then none else some (l.takeWhile fun c => !sep c, l.dropWhile fun c => !sep c)

section tokens
variable {sep : UInt8 → Bool} {l s w r t q : List UInt8}

theorem nextToken_iff : nextToken sep l = some (w, r) ↔
    ∃ s, l = s ++ (w ++ r) ∧ (∀ c ∈ s, sep c = true) ∧ w ≠ [] ∧ Stretch (fun c => !sep c) w r := by
  rw [nextToken]
  constructor
  · intro h
    obtain ⟨hl, hs⟩ := span_iff.mp (⟨rfl, rfl⟩ : l.takeWhile sep = _ ∧ l.dropWhile sep = _)
    split at h
    case isTrue => cases h
    case isFalse hne =>
      obtain ⟨happ, hw⟩ := span_iff.mp (Prod.mk.inj (Option.some.inj h))
      refine ⟨_, by rw [← happ]; exact hl, hs.all, ?_, hw⟩
      rintro rfl
      -- what is left is not empty and does not start with a separator
      obtain ⟨c, y, hcy⟩ := List.exists_cons_of_ne_nil hne
      have hno := hs.stop c (by rw [hcy]; rfl)
      have hc := hw.stop c (by rw [← List.nil_append r, ← happ, hcy]; rfl)
      simp [hno] at hc
  · rintro ⟨s, rfl, hs, hne, hw⟩
    obtain ⟨c, y, rfl⟩ := List.exists_cons_of_ne_nil hne
    have hc : sep c = false := by simpa using hw.all c (List.mem_cons_self ..)
    have hstop : Stretch sep s (c :: (y ++ r)) := ⟨hs, fun a ha => by rwa [← Option.some.inj ha]⟩
    obtain ⟨htake, hleft⟩ := span_iff.mpr ⟨rfl, hw⟩
    rw [List.cons_append, (span_iff.mpr ⟨rfl, hstop⟩).2]
    rw [List.cons_append] at htake hleft
    simp only [htake, hleft]
    exact if_neg (List.cons_ne_nil _ _)

/-- Behind `s` stands `w`, which has no separators. If the token starts in neither `s` nor behind
    `w`, it is `w` with what follows up to the next separator. -/
theorem nextToken_append (h : nextToken sep (s ++ (w ++ r)) = some (t, q)) (hne : w ≠ [])
    (hw : ∀ c ∈ w, sep c = false) (hs : ∀ c ∈ s, sep c = true ∨ c ∉ t) :
    t = w ++ r.takeWhile (fun c => !sep c) ∧ q = r.dropWhile (fun c => !sep c) := by
  obtain ⟨s', happ, hs', htne, ht⟩ := nextToken_iff.mp h
  have heq : s = s' := by
    rcases List.append_eq_append_iff.mp happ with ⟨y, rfl, hy⟩ | ⟨y, rfl, hy⟩
    · -- the separators would go on into `w`
      cases y with
      | nil => exact (List.append_nil s).symm
      | cons c y =>
        obtain ⟨d, w', rfl⟩ := List.exists_cons_of_ne_nil hne
        have hc := hs' c (List.mem_append_right _ (List.mem_cons_self ..))
        rw [← (List.cons.inj hy).1, hw d (List.mem_cons_self ..)] at hc
        cases hc
    · -- the token would start in `s`
      cases y with
      | nil => exact List.append_nil s'
      | cons c y =>
        obtain ⟨d, t', rfl⟩ := List.exists_cons_of_ne_nil htne
        have hd : d = c := (List.cons.inj hy).1
        have hno := ht.all d (List.mem_cons_self ..)
        rcases hs c (List.mem_append_right _ (List.mem_cons_self ..)) with hsep | hmem
        · rw [hd, hsep] at hno
          cases hno
        · exact absurd (hd ▸ List.mem_cons_self ..) hmem
  subst heq
  have hpos : ∀ c ∈ w, (fun c => !sep c) c = true := fun c hc => by simp [hw c hc]
  obtain ⟨htake, hdrop⟩ := span_iff.mpr ⟨List.append_cancel_left happ, ht⟩
  rw [← htake, ← hdrop, List.takeWhile_append_of_pos hpos, List.dropWhile_append_of_pos hpos]
  exact ⟨rfl, rfl⟩

end tokens

/-! ### Numbers -/

inductive ParseError where
  | overflow
  | invalidCharacter
  deriving DecidableEq

/-- A result that is checked against the range of its type. -/
def within (lo hi v : ℤ) : Except ParseError ℤ :=
  if lo ≤ v ∧ v ≤ hi then .ok v else .error .overflow

/-- The digits behind the sign, with the value `x` so far. -/
def parseDigits (lo hi sign : ℤ) : List UInt8 → ℤ → Except ParseError ℤ
  | [], x => .ok x
  | c :: l, x =>
    if c = underscore then parseDigits lo hi sign l x
    else if isDigit c then do
      let x ← (if x ≠ 0 then within lo hi (x * 10) else .ok x)
      let x ← within lo hi (x + sign * (c.toNat - 48 : ℕ))
      parseDigits lo hi sign l x
    else .error .invalidCharacter

def parseWithSign (lo hi sign : ℤ) (l : List UInt8) : Except ParseError ℤ :=
  if l = [] ∨ l.head? = some underscore ∨ l.getLast? = some underscore then
    .error .invalidCharacter
  else parseDigits lo hi sign l 0

/-- The number that the whole of a token stands for. -/
def parseInt (lo hi : ℤ) (l : List UInt8) : Except ParseError ℤ :=
  match l with
  | [] => .error .invalidCharacter
  | c :: l =>
    if c = plus then parseWithSign lo hi 1 l
    else if c = minus then parseWithSign lo hi (-1) l
    else parseWithSign lo hi 1 (c :: l)

/-- Digits, grouped with `_`. -/
structure Digits (l : List UInt8) : Prop where
  ne_nil : l ≠ []
  head : l.head? ≠ some underscore
  last : l.getLast? ≠ some underscore
  all : ∀ c ∈ l, c = underscore ∨ isDigit c = true

/-- The value of digits behind a number `n`. -/
def valueFrom (n : ℕ) (l : List UInt8) : ℕ :=
  (l.filter (· ≠ underscore)).foldl (fun n d => 10 * n + (d.toNat - 48)) n

/-- The whole token is a numeral for a number. -/
inductive Spells : List UInt8 → ℤ → Prop
  | bare {l : List UInt8} : Digits l → Spells l (valueFrom 0 l)
  | plus {l : List UInt8} : Digits l → Spells (plus :: l) (valueFrom 0 l)
  | minus {l : List UInt8} : Digits l → Spells (minus :: l) (-valueFrom 0 l)

section numbers
variable {lo hi sign v : ℤ} {n : ℕ} {c : UInt8} {l : List UInt8}

@[simp] theorem valueFrom_nil : valueFrom n [] = n := rfl

theorem valueFrom_underscore : valueFrom n (underscore :: l) = valueFrom n l := by
  rw [valueFrom, List.filter_cons_of_neg (by simp), valueFrom]

theorem valueFrom_cons (h : c ≠ underscore) :
    valueFrom n (c :: l) = valueFrom (10 * n + (c.toNat - 48)) l := by
  rw [valueFrom, List.filter_cons_of_pos (by simpa using h), List.foldl_cons, valueFrom]

/-- Further digits do not make a number less. -/
theorem le_valueFrom (n : ℕ) (l : List UInt8) : n ≤ valueFrom n l := by
  induction l generalizing n with
  | nil => exact le_rfl
  | cons c l ih =>
    rcases eq_or_ne c underscore with rfl | hc
    · rw [valueFrom_underscore]
      exact ih n
    · rw [valueFrom_cons hc]
      exact le_trans (by omega) (ih _)

/-- The product is in range if the sum is, so one check does for both. -/
theorem within_step (hlo : lo ≤ 0) (hhi : 0 ≤ hi) (hsign : sign = 1 ∨ sign = -1) (n d : ℕ) :
    ((if sign * n ≠ 0 then within lo hi (sign * n * 10) else .ok (sign * n)) >>= fun x =>
      within lo hi (x + sign * d)) = within lo hi (sign * (10 * n + d : ℕ)) := by
  have hsum : sign * n * 10 + sign * d = sign * (10 * n + d : ℕ) := by
    push_cast
    ring
  by_cases hn : sign * n = 0
  · have hzero : sign * n + sign * d = sign * (10 * n + d : ℕ) := by
      rw [← hsum, hn, Int.zero_mul]
    rw [if_neg (not_not.mpr hn), ← hzero]
    rfl
  · rw [if_pos hn]
    by_cases hin : lo ≤ sign * n * 10 ∧ sign * n * 10 ≤ hi
    · have hprod : within lo hi (sign * n * 10) = .ok (sign * n * 10) := if_pos hin
      rw [hprod, ← hsum]
      rfl
    · have hprod : within lo hi (sign * n * 10) = .error .overflow := if_neg hin
      have hout : ¬(lo ≤ sign * (10 * n + d : ℕ) ∧ sign * (10 * n + d : ℕ) ≤ hi) := by
        rcases hsign with rfl | rfl <;> omega
      rw [hprod, within, if_neg hout]
      rfl

/-- A computation gives a result when each of its steps does. -/
theorem bind_ok_iff {ε α β : Type} {x : Except ε α} {f : α → Except ε β} {y : β} :
    x >>= f = .ok y ↔ ∃ z, x = .ok z ∧ f z = .ok y := by
  cases x with
  | error e => exact iff_of_false (fun h => by cases h) fun ⟨_, h, _⟩ => by cases h
  | ok z =>
    constructor
    · intro h
      exact ⟨z, rfl, h⟩
    · rintro ⟨z', hz, h⟩
      cases hz
      exact h

/-- Digits behind a number are read if the value they lead to is in range. -/
theorem parseDigits_iff (hlo : lo ≤ 0) (hhi : 0 ≤ hi) (hsign : sign = 1 ∨ sign = -1)
    (hn : lo ≤ sign * n ∧ sign * n ≤ hi) : parseDigits lo hi sign l (sign * n) = .ok v ↔
      (∀ c ∈ l, c = underscore ∨ isDigit c = true) ∧ v = sign * valueFrom n l ∧
        lo ≤ v ∧ v ≤ hi := by
  induction l generalizing n with
  | nil =>
    rw [parseDigits, valueFrom_nil, Except.ok.injEq]
    constructor
    · rintro rfl
      exact ⟨fun _ h => absurd h List.not_mem_nil, rfl, hn⟩
    · rintro ⟨-, rfl, -⟩
      rfl
  | cons c l ih =>
    rw [parseDigits, List.forall_mem_cons]
    rcases eq_or_ne c underscore with rfl | hc
    · rw [if_pos rfl, ih hn, valueFrom_underscore]
      simp only [true_or, true_and]
    · rw [if_neg hc, valueFrom_cons hc]
      by_cases hd : isDigit c = true
      · have hstep := within_step hlo hhi hsign n (c.toNat - 48)
        rw [if_pos hd, ← bind_assoc, hstep, within]
        simp only [hc, hd, or_true, true_and]
        by_cases hin : lo ≤ sign * (10 * n + (c.toNat - 48) : ℕ) ∧
            sign * (10 * n + (c.toNat - 48) : ℕ) ≤ hi
        · rw [if_pos hin]
          exact ih hin
        · rw [if_neg hin]
          refine iff_of_false (fun h => by cases h) ?_
          rintro ⟨-, rfl, h⟩
          have hle := le_valueFrom (10 * n + (c.toNat - 48)) l
          rcases hsign with rfl | rfl <;> omega
      · rw [if_neg hd]
        refine iff_of_false (fun h => by cases h) fun h => ?_
        exact h.1.1.elim hc hd

theorem parseWithSign_iff (hlo : lo ≤ 0) (hhi : 0 ≤ hi) (hsign : sign = 1 ∨ sign = -1) :
    parseWithSign lo hi sign l = .ok v ↔
      Digits l ∧ v = sign * valueFrom 0 l ∧ lo ≤ v ∧ v ≤ hi := by
  have hdigits := parseDigits_iff (l := l) (v := v) (n := 0) hlo hhi hsign (by simp [hlo, hhi])
  rw [Int.natCast_zero, Int.mul_zero] at hdigits
  rw [parseWithSign]
  by_cases h : l = [] ∨ l.head? = some underscore ∨ l.getLast? = some underscore
  · rw [if_pos h]
    refine iff_of_false (fun h => by cases h) fun hd => ?_
    rcases h with h | h | h
    · exact hd.1.ne_nil h
    · exact hd.1.head h
    · exact hd.1.last h
  · rw [if_neg h, hdigits]
    obtain ⟨hne, hhead, hlast⟩ := not_or.mp h |>.imp_right not_or.mp
    constructor
    · rintro ⟨hall, hv⟩
      exact ⟨⟨hne, hhead, hlast, hall⟩, hv⟩
    · rintro ⟨hd, hv⟩
      exact ⟨hd.all, hv⟩

theorem Digits.not_sign (h : Digits (c :: l)) : c ≠ plus ∧ c ≠ minus := by
  rcases h.all c (List.mem_cons_self ..) with rfl | hd
  · decide
  · constructor <;> rintro rfl <;> cases hd

/-- Exactly the numerals for the numbers of the type are read. -/
theorem parseInt_iff (hlo : lo ≤ 0) (hhi : 0 ≤ hi) :
    parseInt lo hi l = .ok v ↔ Spells l v ∧ lo ≤ v ∧ v ≤ hi := by
  cases l with
  | nil =>
    refine iff_of_false (fun h => by cases h) ?_
    rintro ⟨⟨h⟩, -⟩
    exact h.ne_nil rfl
  | cons c l =>
    rw [parseInt]
    split_ifs with hplus hminus
    · subst hplus
      rw [parseWithSign_iff hlo hhi (.inl rfl), Int.one_mul]
      constructor
      · rintro ⟨hd, rfl, hr⟩
        exact ⟨.plus hd, hr⟩
      · rintro ⟨h, hr⟩
        cases h with
        | bare hd => exact absurd rfl hd.not_sign.1
        | plus hd => exact ⟨hd, rfl, hr⟩
    · subst hminus
      rw [parseWithSign_iff hlo hhi (.inr rfl), Int.neg_one_mul]
      constructor
      · rintro ⟨hd, rfl, hr⟩
        exact ⟨.minus hd, hr⟩
      · rintro ⟨h, hr⟩
        cases h with
        | bare hd => exact absurd rfl hd.not_sign.2
        | minus hd => exact ⟨hd, rfl, hr⟩
    · rw [parseWithSign_iff hlo hhi (.inl rfl), Int.one_mul]
      constructor
      · rintro ⟨hd, rfl, hr⟩
        exact ⟨.bare hd, hr⟩
      · rintro ⟨h, hr⟩
        cases h with
        | bare hd => exact ⟨hd, rfl, hr⟩
        | plus => exact absurd rfl hplus
        | minus => exact absurd rfl hminus

/-- A numeral has no blanks. -/
theorem Spells.not_space (h : Spells l v) : ∀ c ∈ l, isSpace c = false := by
  have hdigits : ∀ {l : List UInt8}, Digits l → ∀ c ∈ l, isSpace c = false := by
    intro l hd c hc
    rcases hd.all c hc with rfl | hdigit
    · rfl
    · exact isSpace_of_isDigit hdigit
  cases h with
  | bare hd => exact hdigits hd
  | plus hd => exact List.forall_mem_cons.mpr ⟨rfl, hdigits hd⟩
  | minus hd => exact List.forall_mem_cons.mpr ⟨rfl, hdigits hd⟩

/-- Without `_` the value is that of the digits. -/
theorem valueFrom_eq_decimal (h : underscore ∉ l) : valueFrom 0 l = decimal l := by
  rw [valueFrom, List.filter_eq_self.mpr, decimal]
  intro c hc
  simpa using fun he : c = underscore => h (he ▸ hc)

/-- A numeral that `%d` reads spells the same number. -/
theorem Numeral.spells {r : List UInt8} (h : Numeral r l v) : Spells l v := by
  have hdigits : ∀ {ds : List UInt8}, ds ≠ [] → Stretch isDigit ds r →
      Digits ds ∧ valueFrom 0 ds = decimal ds := by
    intro ds hne hds
    have hno : underscore ∉ ds := fun hu => by
      have hd := hds.all _ hu
      cases hd
    refine ⟨⟨hne, fun hh => hno ?_, fun hl => hno ?_, fun c hc => .inr (hds.all c hc)⟩,
      valueFrom_eq_decimal hno⟩
    · exact List.mem_of_mem_head? hh
    · exact List.mem_of_mem_getLast? hl
  cases h with
  | bare hne hds =>
    obtain ⟨hd, hv⟩ := hdigits hne hds
    rw [← hv]
    exact .bare hd
  | plus hne hds =>
    obtain ⟨hd, hv⟩ := hdigits hne hds
    rw [← hv]
    exact .plus hd
  | minus hne hds =>
    obtain ⟨hd, hv⟩ := hdigits hne hds
    rw [← hv]
    exact .minus hd

/-- Behind its first byte a numeral has only digits and `_`. -/
theorem Spells.tail (h : Spells (c :: l) v) : ∀ d ∈ l, d = underscore ∨ isDigit d = true := by
  cases h with
  | bare hd => exact fun d hmem => hd.all d (List.mem_cons_of_mem _ hmem)
  | plus hd => exact hd.all
  | minus hd => exact hd.all

theorem Spells.unique {v' : ℤ} (h : Spells l v) (h' : Spells l v') : v = v' := by
  have hread : ∀ {u}, u = v ∨ u = v' → Spells l u →
      parseInt (min 0 (min v v')) (max 0 (max v v')) l = .ok u := by
    intro u hu hs
    exact (parseInt_iff (by omega) (by omega)).mpr ⟨hs, by omega, by omega⟩
  exact Except.ok.inj ((hread (.inl rfl) h).symm.trans (hread (.inr rfl) h'))

end numbers

end Schemes

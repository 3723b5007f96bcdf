import Mathlib.Data.List.SplitBy
import Mathlib.Data.List.TakeWhile

/-! scheme:lexing | lexemes as maximal runs

    A lexeme opens with one letter and goes on as long as the next letter extends it. `lexemes` says
    so declaratively: cut the text between two letters unless the first opens and the second
    extends, and drop the blanks. A scanner reads from the left; what its loop needs is how the
    first letter decides: one equation for a blank, one for a letter that stands alone and one for
    a word.

        e c h o     h i >   f        the letters open and extend, `>` does neither
        [echo]      [hi][>][f]                                                     -/

namespace Schemes
variable {α : Type*} {opens more blank : α → Bool} {a : α}

/-- The lexemes of a text, in order. -/
def lexemes (opens more blank : α → Bool) (l : List α) : List (List α) :=
  (l.splitBy fun a b => opens a && more b).filter fun w => !w.all blank

/-- A letter that opens and letters that extend hang together. -/
theorem isChain_word (hsub : ∀ c, more c = true → opens c = true) {w : List α}
    (ha : opens a = true) (hw : ∀ c ∈ w, more c = true) :
    (a :: w).IsChain fun a b => (opens a && more b) = true := by
  induction w generalizing a with
  | nil => exact List.isChain_singleton a
  | cons b w ih =>
    have hb := hw b (List.mem_cons_self ..)
    refine List.isChain_cons_cons.mpr ⟨by rw [ha, hb]; rfl, ?_⟩
    exact ih (hsub b hb) fun c hc => hw c (List.mem_cons_of_mem _ hc)

/-- A letter that does not open stands alone. -/
theorem splitBy_alone (ha : opens a = false) (l : List α) :
    (a :: l).splitBy (fun a b => opens a && more b) =
      [a] :: l.splitBy (fun a b => opens a && more b) := by
  refine List.splitBy_append (l := [a]) ?_
  rintro x hx y -
  obtain rfl : a = x := Option.some.inj hx
  rw [ha, Bool.false_and]

/-- A letter that opens takes everything that extends it. -/
theorem splitBy_word (hsub : ∀ c, more c = true → opens c = true) (ha : opens a = true)
    (l : List α) : (a :: l).splitBy (fun a b => opens a && more b) =
      (a :: l.takeWhile more) :: (l.dropWhile more).splitBy (fun a b => opens a && more b) := by
  have hword := List.splitBy_of_isChain (List.cons_ne_nil a (l.takeWhile more))
    (isChain_word hsub ha fun c hc => List.mem_takeWhile_imp hc)
  have hcut := List.splitBy_append (r := fun a b => opens a && more b)
    (l := a :: l.takeWhile more) (m := l.dropWhile more) (by
      rintro x - y hy
      have hstop := List.head?_dropWhile_not more l
      rw [Option.mem_def.mp hy] at hstop
      have hmore : more y = false := hstop
      rw [hmore, Bool.and_false])
  rwa [hword, List.cons_append, List.takeWhile_append_dropWhile] at hcut

theorem lexemes_blank (hb : blank a = true) (ha : opens a = false) (l : List α) :
    lexemes opens more blank (a :: l) = lexemes opens more blank l := by
  rw [lexemes, splitBy_alone ha, List.filter_cons_of_neg (by simp [hb])]
  rfl

theorem lexemes_alone (hb : blank a = false) (ha : opens a = false) (l : List α) :
    lexemes opens more blank (a :: l) = [a] :: lexemes opens more blank l := by
  rw [lexemes, splitBy_alone ha, List.filter_cons_of_pos (by simp [hb])]
  rfl

theorem lexemes_word (hsub : ∀ c, more c = true → opens c = true) (hb : blank a = false)
    (ha : opens a = true) (l : List α) : lexemes opens more blank (a :: l) =
      (a :: l.takeWhile more) :: lexemes opens more blank (l.dropWhile more) := by
  rw [lexemes, splitBy_word hsub ha, List.filter_cons_of_pos (by simp [hb])]
  rfl

/-- Leading blanks do not matter. -/
theorem lexemes_dropWhile (ha : ∀ c, blank c = true → opens c = false) (l : List α) :
    lexemes opens more blank (l.dropWhile blank) = lexemes opens more blank l := by
  induction l with
  | nil => rfl
  | cons c l ih =>
    cases hc : blank c with
    | true => rw [List.dropWhile_cons_of_pos hc, lexemes_blank hc (ha c hc), ih]
    | false => rw [List.dropWhile_cons_of_neg (by simp [hc])]

/-- A letter that stands alone is a lexeme wherever it occurs. -/
theorem mem_lexemes_alone (hb : blank a = false) (ho : opens a = false) (hm : more a = false)
    {l : List α} (h : a ∈ l) : [a] ∈ lexemes opens more blank l := by
  obtain ⟨l₁, l₂, rfl⟩ := List.append_of_mem h
  have hcut : ∀ x ∈ l₁.getLast?, (opens x && more a) = false := fun x _ => by
    rw [hm, Bool.and_false]
  rw [lexemes, List.splitBy_append_cons l₂ hcut, splitBy_alone ho]
  exact List.mem_filter.mpr ⟨List.mem_append_right _ (List.mem_cons_self ..), by simp [hb]⟩

/-- Only the letters of the text matter. -/
theorem splitBy_congr {r r' : α → α → Bool} {l : List α}
    (h : ∀ a ∈ l, ∀ b ∈ l, r a b = r' a b) : l.splitBy r = l.splitBy r' := by
  obtain ⟨hflat, hnil, hin, hcut⟩ := List.splitBy_eq_iff.mp (rfl : l.splitBy r' = _)
  have hmem : ∀ w ∈ l.splitBy r', ∀ c ∈ w, c ∈ l := fun w hw c hc => by
    rw [hflat]
    exact List.mem_flatten_of_mem hw hc
  refine List.splitBy_eq_iff.mpr ⟨hflat, hnil, fun w hw => ?_, ?_⟩
  · refine (hin w hw).imp_of_mem_imp fun a b ha hb hab => ?_
    rwa [h a (hmem w hw a ha) b (hmem w hw b hb)]
  · refine hcut.imp_of_mem_imp fun v w hv hw hvw => ?_
    obtain ⟨hv', hw', hr⟩ := hvw
    refine ⟨hv', hw', ?_⟩
    rwa [h _ (hmem v hv _ (List.getLast_mem hv')) _ (hmem w hw _ (List.head_mem hw'))]

/-- Letters that play the same part in the text give the same lexemes. -/
theorem lexemes_congr {opens' more' : α → Bool} {l : List α} (ho : ∀ c ∈ l, opens c = opens' c)
    (hm : ∀ c ∈ l, more c = more' c) :
    lexemes opens more blank l = lexemes opens' more' blank l := by
  have hcut : l.splitBy (fun a b => opens a && more b) = l.splitBy fun a b => opens' a && more' b :=
    splitBy_congr fun a ha b hb => by rw [ho a ha, hm b hb]
  rw [lexemes, hcut]
  rfl

/-- A lexeme is made of letters of the text. -/
theorem lexeme_subset {l w : List α} (h : w ∈ lexemes opens more blank l) : w ⊆ l := fun c hc => by
  rw [← List.flatten_splitBy (fun a b => opens a && more b) l]
  exact List.mem_flatten_of_mem (List.mem_filter.mp h).1 hc

/-- A lexeme is not empty, and begins with a letter that opens if it goes on. -/
theorem lexeme_head {l w : List α} (h : w ∈ lexemes opens more blank l) :
    ∃ c r, w = c :: r ∧ (r = [] ∨ opens c = true) := by
  have hw := (List.mem_filter.mp h).1
  have hchain := List.isChain_of_mem_splitBy hw
  cases w with
  | nil => exact absurd rfl (List.ne_nil_of_mem_splitBy hw)
  | cons c r =>
    refine ⟨c, r, rfl, ?_⟩
    cases r with
    | nil => exact Or.inl rfl
    | cons d r =>
      have hcd := (List.isChain_cons_cons.mp hchain).1
      exact Or.inr (Bool.and_eq_true_iff.mp hcd).1

end Schemes

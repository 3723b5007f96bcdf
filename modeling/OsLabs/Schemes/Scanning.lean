import Mathlib.Data.List.TakeWhile
import Mathlib.Data.Int.Notation
import Mathlib.Tactic.Common

/-! scheme:scanning | fgets and sscanf

    The input functions of C on a list of bytes. `fgets` takes a piece off the front: up to and
    with the first newline, but never more than fits its buffer; if the lines are short, the pieces
    are the lines. A conversion of `sscanf` reads off the front of what is left, or fails. Each
    conversion comes with the shape of what it reads: blanks, then a word or a numeral, then
    something that does not go on with it.

        a d d     1 2   ,   - 7   ,   0   \n
        %s        %d    ,   %d    ,   %d            -/

namespace Schemes

abbrev newline : UInt8 := 10
abbrev plus : UInt8 := 43
abbrev comma : UInt8 := 44
abbrev minus : UInt8 := 45

/-! ### Lines and pieces -/

/-- The lines of a file, each with its newline. -/
def lines : List UInt8 → List (List UInt8)
  | [] => []
  | c :: l =>
    if c = newline then [c] :: lines l
    else
      match lines l with
      | [] => [[c]]
      | x :: xs => (c :: x) :: xs

/-- At most `k` bytes, up to and with the first newline, and what is left. -/
def getLine : ℕ → List UInt8 → List UInt8 × List UInt8
  | 0, l => ([], l)
  | _ + 1, [] => ([], [])
  | k + 1, c :: l =>
    if c = newline then ([c], l)
    else
      let r := getLine k l
      (c :: r.1, r.2)

/-- `fgets(buf, n, in)`, with what is left in `in`. -/
def fgets (n : ℕ) (l : List UInt8) : Option (List UInt8 × List UInt8) :=
  if l = [] then none else some (getLine (n - 1) l)

/-- What the first `k` calls of `fgets` return. -/
def piecesFor (n : ℕ) : ℕ → List UInt8 → List (List UInt8)
  | 0, _ => []
  | k + 1, l =>
    match fgets n l with
    | none => []
    | some (b, r) => b :: piecesFor n k r

/-- What the calls of `fgets` return up to the end of the file. -/
def pieces (n : ℕ) (l : List UInt8) : List (List UInt8) := piecesFor n l.length l

section pieces
variable {n k : ℕ} {l b r x : List UInt8} {xs : List (List UInt8)}

theorem getLine_append (k : ℕ) (l : List UInt8) : (getLine k l).1 ++ (getLine k l).2 = l := by
  induction l generalizing k with
  | nil => cases k <;> rfl
  | cons c l ih =>
    cases k with
    | zero => rfl
    | succ k =>
      rw [getLine]
      split
      · rfl
      · exact congrArg (c :: ·) (ih k)

theorem getLine_nil (k : ℕ) : getLine k [] = ([], []) := by cases k <;> rfl

theorem fgets_eq_none : fgets n l = none ↔ l = [] := by
  rw [fgets]
  split
  case isTrue h => exact iff_of_true rfl h
  case isFalse h => exact iff_of_false (Option.some_ne_none _) h

/-- Every call of `fgets` returns something. -/
theorem fgets_shorter (hn : 2 ≤ n) (h : fgets n l = some (b, r)) :
    b ≠ [] ∧ r.length < l.length := by
  rw [fgets] at h
  split at h
  case isTrue => cases h
  case isFalse hl =>
    obtain ⟨rfl, rfl⟩ := Prod.mk.inj (Option.some.inj h)
    have hb : (getLine (n - 1) l).1 ≠ [] := by
      obtain ⟨k, hk⟩ : ∃ k, n - 1 = k + 1 := ⟨n - 2, by omega⟩
      obtain ⟨c, l, rfl⟩ := List.exists_cons_of_ne_nil hl
      rw [hk, getLine]
      split <;> exact List.cons_ne_nil _ _
    refine ⟨hb, ?_⟩
    have hlen := congrArg List.length (getLine_append (n - 1) l)
    rw [List.length_append] at hlen
    have hpos := List.length_pos_iff.mpr hb
    omega

theorem piecesFor_of_le (hn : 2 ≤ n) : ∀ {k j : ℕ} {l : List UInt8}, l.length ≤ k → l.length ≤ j →
    piecesFor n k l = piecesFor n j l
  | 0, 0, _, _, _ => rfl
  | 0, j + 1, l, hk, _ => by
      obtain rfl := List.eq_nil_of_length_eq_zero (Nat.le_zero.mp hk)
      rfl
  | k + 1, 0, l, _, hj => by
      obtain rfl := List.eq_nil_of_length_eq_zero (Nat.le_zero.mp hj)
      rfl
  | k + 1, j + 1, l, hk, hj => by
      rw [piecesFor, piecesFor]
      cases h : fgets n l with
      | none => rfl
      | some p =>
        obtain ⟨b, r⟩ := p
        have hr := (fgets_shorter hn h).2
        exact congrArg (b :: ·) (piecesFor_of_le hn (by omega) (by omega))

theorem pieces_cons (hn : 2 ≤ n) (h : fgets n l = some (b, r)) : pieces n l = b :: pieces n r := by
  have hr := (fgets_shorter hn h).2
  obtain ⟨k, hk⟩ : ∃ k, l.length = k + 1 := ⟨l.length - 1, by omega⟩
  rw [pieces, hk, piecesFor, h, pieces]
  exact congrArg (b :: ·) (piecesFor_of_le hn (by omega) (Nat.le_refl _))

theorem lines_eq_nil (h : lines l = []) : l = [] := by
  cases l with
  | nil => rfl
  | cons c l =>
    rw [lines] at h
    split at h
    · cases h
    · split at h <;> cases h

theorem flatten_lines (l : List UInt8) : (lines l).flatten = l := by
  induction l with
  | nil => rfl
  | cons c l ih =>
    rw [lines]
    split
    · rw [List.flatten_cons, ih]
      rfl
    · split
      case h_1 hl =>
        obtain rfl := lines_eq_nil hl
        rfl
      case h_2 x xs hl =>
        rw [hl] at ih
        rw [← ih]
        rfl

theorem mem_lines (hx : x ∈ lines l) : ∀ c ∈ x, c ∈ l := by
  intro c hc
  rw [← flatten_lines l]
  exact List.mem_flatten_of_mem hx hc

/-- A line has no newline but the one at its end. -/
theorem line_shape (hx : x ∈ lines l) : ∃ w, newline ∉ w ∧ (x = w ∨ x = w ++ [newline]) := by
  induction l generalizing x with
  | nil => cases hx
  | cons c l ih =>
    rw [lines] at hx
    split at hx
    case isTrue hc =>
      rcases List.mem_cons.mp hx with rfl | hx
      · exact ⟨[], List.not_mem_nil, .inr (by rw [hc]; rfl)⟩
      · exact ih hx
    case isFalse hc =>
      split at hx
      case h_1 =>
        obtain rfl := List.mem_singleton.mp hx
        exact ⟨[c], by simpa using Ne.symm hc, .inl rfl⟩
      case h_2 y ys hl =>
        rcases List.mem_cons.mp hx with rfl | hx
        · obtain ⟨w, hw, hy⟩ := ih (hl ▸ List.mem_cons_self ..)
          exact ⟨c :: w, by simpa using ⟨Ne.symm hc, hw⟩,
            hy.imp (congrArg (c :: ·)) (congrArg (c :: ·))⟩
        · exact ih (hl ▸ List.mem_cons_of_mem _ hx)

theorem newline_last {y z : List UInt8} (hx : x ∈ lines l) (h : x = y ++ newline :: z) :
    z = [] := by
  obtain ⟨w, hw, rfl | rfl⟩ := line_shape hx
  · exact absurd (h ▸ List.mem_append_right y (List.mem_cons_self ..)) hw
  · rcases List.eq_nil_or_concat z with rfl | ⟨z, d, rfl⟩
    · rfl
    · rw [List.concat_eq_append, ← List.cons_append, ← List.append_assoc] at h
      have hwy : w = y ++ newline :: z := (List.append_inj' h rfl).1
      exact absurd (hwy ▸ List.mem_append_right y (List.mem_cons_self ..)) hw

/-- With its newline a line is one byte longer at most. -/
theorem length_line (hx : x ∈ lines l) : x.length ≤ (x.takeWhile (· ≠ newline)).length + 1 := by
  obtain ⟨w, hw, hx⟩ := line_shape hx
  have hall : ∀ c ∈ w, decide (c ≠ newline) = true := fun c hc =>
    decide_eq_true (ne_of_mem_of_not_mem hc hw)
  rcases hx with rfl | rfl
  · rw [List.takeWhile_eq_self_iff.mpr hall]
    exact Nat.le_succ _
  · rw [List.takeWhile_append_of_pos hall, List.length_append, List.length_append]
    exact Nat.add_le_add_right (Nat.le_add_right ..) 1

/-- The first line, and the others. -/
theorem lines_of_ne_nil (h : l ≠ []) :
    ∃ x, lines l = x :: lines (l.dropWhile (· ≠ newline)).tail ∧
      x.takeWhile (· ≠ newline) = l.takeWhile (· ≠ newline) := by
  induction l with
  | nil => exact absurd rfl h
  | cons c t ih =>
    rw [lines]
    rcases eq_or_ne c newline with rfl | hc
    · exact ⟨[newline], rfl, rfl⟩
    · have hdrop : (c :: t).dropWhile (· ≠ newline) = t.dropWhile (· ≠ newline) :=
        List.dropWhile_cons_of_pos (decide_eq_true hc)
      have htake : ∀ t : List UInt8,
          (c :: t).takeWhile (· ≠ newline) = c :: t.takeWhile (· ≠ newline) :=
        fun t => List.takeWhile_cons_of_pos (decide_eq_true hc)
      rw [if_neg hc, hdrop, htake]
      rcases eq_or_ne t [] with rfl | ht
      · exact ⟨[c], rfl, htake []⟩
      · obtain ⟨x, hx, hsame⟩ := ih ht
        rw [hx]
        exact ⟨c :: x, rfl, by rw [htake, hsame]⟩

theorem rest_shorter (h : l ≠ []) :
    (l.dropWhile (· ≠ newline)).tail.length < l.length := by
  have hpos := List.length_pos_iff.mpr h
  have hdrop := (List.dropWhile_sublist (l := l) (· ≠ newline)).length_le
  rw [List.length_tail]
  omega

/-- A line that fits is read whole. -/
theorem getLine_line (h : lines l = x :: xs) (hx : x.length ≤ k) :
    (getLine k l).1 = x ∧ lines (getLine k l).2 = xs := by
  induction l generalizing k x xs with
  | nil => cases h
  | cons c l ih =>
    rw [lines] at h
    split at h
    case isTrue hc =>
      obtain ⟨rfl, rfl⟩ := List.cons.inj h
      obtain ⟨j, rfl⟩ : ∃ j, k = j + 1 := ⟨k - 1, by rw [List.length_singleton] at hx; omega⟩
      rw [getLine, if_pos hc]
      exact ⟨rfl, rfl⟩
    case isFalse hc =>
      split at h
      case h_1 hl =>
        obtain ⟨rfl, rfl⟩ := List.cons.inj h
        obtain rfl := lines_eq_nil hl
        obtain ⟨j, rfl⟩ : ∃ j, k = j + 1 := ⟨k - 1, by rw [List.length_singleton] at hx; omega⟩
        rw [getLine, if_neg hc, getLine_nil]
        exact ⟨rfl, rfl⟩
      case h_2 y ys hl =>
        obtain ⟨rfl, rfl⟩ := List.cons.inj h
        obtain ⟨j, rfl⟩ : ∃ j, k = j + 1 := ⟨k - 1, by rw [List.length_cons] at hx; omega⟩
        obtain ⟨hfst, hsnd⟩ := ih hl (Nat.le_of_succ_le_succ hx)
        rw [getLine, if_neg hc]
        exact ⟨congrArg (c :: ·) hfst, hsnd⟩

/-- If all lines fit, the pieces are the lines. -/
theorem pieces_eq_lines (hn : 2 ≤ n) (h : ∀ x ∈ lines l, x.length < n) : pieces n l = lines l := by
  generalize hls : lines l = ls at h
  induction ls generalizing l with
  | nil =>
    obtain rfl := lines_eq_nil hls
    rfl
  | cons x xs ih =>
    have hx := h x (List.mem_cons_self ..)
    obtain ⟨hfst, hsnd⟩ := getLine_line hls (k := n - 1) (by omega)
    have hl : l ≠ [] := by
      rintro rfl
      cases hls
    have hget : fgets n l = some (x, (getLine (n - 1) l).2) := by rw [fgets, if_neg hl, ← hfst]
    rw [pieces_cons hn hget, ih hsnd fun y hy => h y (List.mem_cons_of_mem _ hy)]

end pieces

/-! ### Conversions -/

/-- `isspace` -/
def isSpace (c : UInt8) : Bool := c = 32 || (9 ≤ c && c ≤ 13)

/-- `isdigit` -/
def isDigit (c : UInt8) : Bool := 48 ≤ c && c ≤ 57

/-- The value of a row of digits. -/
def decimal (ds : List UInt8) : ℕ := ds.foldl (fun n d => 10 * n + (d.toNat - 48)) 0

/-- `%s`: a word, and what is left. -/
def scanWord (l : List UInt8) : Option (List UInt8 × List UInt8) :=
  let l := l.dropWhile isSpace
  if l = [] then none else some (l.takeWhile fun c => !isSpace c, l.dropWhile fun c => !isSpace c)

def scanDigits (l : List UInt8) : Option (ℕ × List UInt8) :=
  if l.takeWhile isDigit = [] then none
  else some (decimal (l.takeWhile isDigit), l.dropWhile isDigit)

/-- `%d`: the number that is written there, and what is left. -/
def scanInt (l : List UInt8) : Option (ℤ × List UInt8) :=
  match l.dropWhile isSpace with
  | [] => none
  | c :: l =>
    if c = minus then (scanDigits l).map fun r => (-r.1, r.2)
    else if c = plus then (scanDigits l).map fun r => (r.1, r.2)
    else (scanDigits (c :: l)).map fun r => (r.1, r.2)

/-- A character of the format that stands for itself. -/
def scanChar (a : UInt8) : List UInt8 → Option (List UInt8)
  | [] => none
  | c :: l => if c = a then some l else none

/-- The whole text satisfies `p`, and what follows does not start with it. -/
structure Stretch (p : UInt8 → Bool) (x r : List UInt8) : Prop where
  all : ∀ c ∈ x, p c = true
  stop : ∀ c ∈ r.head?, p c = false

/-- A row of digits, perhaps with a sign, for a number; `r` follows. -/
inductive Numeral (r : List UInt8) : List UInt8 → ℤ → Prop
  | bare {ds : List UInt8} : ds ≠ [] → Stretch isDigit ds r → Numeral r ds (decimal ds)
  | plus {ds : List UInt8} : ds ≠ [] → Stretch isDigit ds r → Numeral r (plus :: ds) (decimal ds)
  | minus {ds : List UInt8} : ds ≠ [] → Stretch isDigit ds r →
      Numeral r (minus :: ds) (-decimal ds)

section conversions
variable {p : UInt8 → Bool} {l x r w : List UInt8} {v : ℤ} {n : ℕ}

theorem span_iff : l.takeWhile p = x ∧ l.dropWhile p = r ↔ l = x ++ r ∧ Stretch p x r := by
  constructor
  · rintro ⟨rfl, rfl⟩
    refine ⟨List.takeWhile_append_dropWhile.symm, fun c hc => List.mem_takeWhile_imp hc, ?_⟩
    intro c hc
    have hstop := List.head?_dropWhile_not p l
    rw [Option.mem_def.mp hc] at hstop
    exact hstop
  · rintro ⟨rfl, hall, hstop⟩
    have hr : r.takeWhile p = [] ∧ r.dropWhile p = r := by
      cases r with
      | nil => exact ⟨rfl, rfl⟩
      | cons c r =>
        have hc := hstop c rfl
        exact ⟨List.takeWhile_cons_of_neg (by simp [hc]), List.dropWhile_cons_of_neg (by simp [hc])⟩
    rw [List.takeWhile_append_of_pos hall, List.dropWhile_append_of_pos hall, hr.1, hr.2,
      List.append_nil]
    exact ⟨rfl, rfl⟩

theorem scanDigits_map {f : ℕ → ℤ} : (scanDigits l).map (fun q => (f q.1, q.2)) = some (v, r) ↔
    ∃ ds, l = ds ++ r ∧ ds ≠ [] ∧ Stretch isDigit ds r ∧ v = f (decimal ds) := by
  rw [scanDigits]
  constructor
  · intro h
    split at h
    case isTrue => cases h
    case isFalse hne =>
      obtain ⟨rfl, rfl⟩ := Prod.mk.inj (Option.some.inj h)
      obtain ⟨happ, hds⟩ := span_iff.mp ⟨rfl, rfl⟩
      exact ⟨_, happ, hne, hds, rfl⟩
  · rintro ⟨ds, rfl, hne, hds, rfl⟩
    obtain ⟨htake, hdrop⟩ := span_iff.mpr ⟨rfl, hds⟩
    rw [htake, hdrop, if_neg hne]
    rfl

theorem isSpace_of_isDigit {c : UInt8} (h : isDigit c = true) : isSpace c = false := by
  rw [isDigit, Bool.and_eq_true, decide_eq_true_eq, decide_eq_true_eq, UInt8.le_iff_toNat_le,
    UInt8.le_iff_toNat_le] at h
  obtain ⟨hlow, -⟩ := h
  have h48 : (48 : UInt8).toNat = 48 := rfl
  have h13 : (13 : UInt8).toNat = 13 := rfl
  have hne : c ≠ 32 := by
    rintro rfl
    exact absurd hlow (by decide)
  rw [isSpace, decide_eq_false hne, Bool.false_or, Bool.and_eq_false_iff]
  right
  rw [decide_eq_false_iff_not, UInt8.le_iff_toNat_le]
  omega

/-- A numeral starts with a sign or a digit. -/
theorem Numeral.head (h : Numeral r x v) : ∃ c y, x = c :: y ∧ isSpace c = false := by
  cases h with
  | bare hne hds =>
    obtain ⟨c, y, rfl⟩ := List.exists_cons_of_ne_nil hne
    exact ⟨c, y, rfl, isSpace_of_isDigit (hds.all c (List.mem_cons_self ..))⟩
  | plus => exact ⟨_, _, rfl, rfl⟩
  | minus => exact ⟨_, _, rfl, rfl⟩

/-- Blanks before something that is not blank. -/
theorem stretch_space {s : List UInt8} (hs : ∀ c ∈ s, isSpace c = true) {c : UInt8}
    (hc : isSpace c = false) : Stretch isSpace s (c :: l) :=
  ⟨hs, fun a ha => by rwa [← Option.some.inj ha]⟩

theorem scanInt_iff : scanInt l = some (v, r) ↔
    ∃ s x, l = s ++ (x ++ r) ∧ (∀ c ∈ s, isSpace c = true) ∧ Numeral r x v := by
  constructor
  · intro h
    obtain ⟨hl, hs⟩ := span_iff.mp (⟨rfl, rfl⟩ : l.takeWhile isSpace = _ ∧ l.dropWhile isSpace = _)
    rw [scanInt] at h
    split at h
    case h_1 => cases h
    case h_2 c l' hcl =>
      rw [hcl] at hl
      split at h
      case isTrue hc =>
        obtain ⟨ds, rfl, hne, hds, rfl⟩ := (scanDigits_map (f := fun n => -n)).mp h
        exact ⟨_, minus :: ds, by rwa [hc] at hl, hs.all, .minus hne hds⟩
      case isFalse =>
        split at h
        case isTrue hc =>
          obtain ⟨ds, rfl, hne, hds, rfl⟩ := (scanDigits_map (f := fun n => n)).mp h
          exact ⟨_, plus :: ds, by rwa [hc] at hl, hs.all, .plus hne hds⟩
        case isFalse =>
          obtain ⟨ds, hds', hne, hds, rfl⟩ := (scanDigits_map (f := fun n => n)).mp h
          exact ⟨_, ds, by rwa [hds'] at hl, hs.all, .bare hne hds⟩
  · rintro ⟨s, x, rfl, hs, hx⟩
    obtain ⟨c, y, rfl, hc⟩ := hx.head
    have hdrop := (span_iff.mpr ⟨rfl, stretch_space (l := y ++ r) hs hc⟩).2
    rw [scanInt, List.cons_append, hdrop]
    cases hx with
    | bare hne hds =>
      have hdigit := hds.all c (List.mem_cons_self ..)
      have hminus : c ≠ minus := by
        rintro rfl
        cases hdigit
      have hplus : c ≠ plus := by
        rintro rfl
        cases hdigit
      simp only [if_neg hminus, if_neg hplus]
      exact scanDigits_map.mpr ⟨c :: y, rfl, hne, hds, rfl⟩
    | plus hne hds => exact scanDigits_map.mpr ⟨y, rfl, hne, hds, rfl⟩
    | minus hne hds => exact (scanDigits_map (f := fun n => -n)).mpr ⟨y, rfl, hne, hds, rfl⟩

theorem scanWord_iff : scanWord l = some (w, r) ↔
    ∃ s, l = s ++ (w ++ r) ∧ (∀ c ∈ s, isSpace c = true) ∧ w ≠ [] ∧
      Stretch (fun c => !isSpace c) w r := by
  rw [scanWord]
  constructor
  · intro h
    obtain ⟨hl, hs⟩ := span_iff.mp (⟨rfl, rfl⟩ : l.takeWhile isSpace = _ ∧ l.dropWhile isSpace = _)
    split at h
    case isTrue => cases h
    case isFalse hne =>
      obtain ⟨happ, hw⟩ := span_iff.mp (Prod.mk.inj (Option.some.inj h))
      refine ⟨_, by rw [← happ]; exact hl, hs.all, ?_, hw⟩
      rintro rfl
      -- what is left is not empty and does not start with a blank
      obtain ⟨c, y, hcy⟩ := List.exists_cons_of_ne_nil hne
      have hblank := hs.stop c (by rw [hcy]; rfl)
      have hc := hw.stop c (by rw [← List.nil_append r, ← happ, hcy]; rfl)
      rw [hblank] at hc
      cases hc
  · rintro ⟨s, rfl, hs, hne, hw⟩
    obtain ⟨c, y, rfl⟩ := List.exists_cons_of_ne_nil hne
    have hc : isSpace c = false := by
      have := hw.all c (List.mem_cons_self ..)
      rwa [Bool.not_eq_true'] at this
    have hdrop := (span_iff.mpr ⟨rfl, stretch_space (l := y ++ r) hs hc⟩).2
    obtain ⟨htake, hleft⟩ := span_iff.mpr ⟨rfl, hw⟩
    rw [List.cons_append, hdrop]
    rw [List.cons_append] at htake hleft
    simp only [htake, hleft]
    exact if_neg (List.cons_ne_nil _ _)

theorem scanChar_iff {a : UInt8} : scanChar a l = some r ↔ l = a :: r := by
  cases l with
  | nil => exact iff_of_false (fun h => by cases h) (List.cons_ne_nil a r).symm
  | cons c l =>
    rw [scanChar]
    split
    case isTrue hc => rw [hc, Option.some.injEq, List.cons.injEq, and_iff_right rfl]
    case isFalse hc => exact iff_of_false (fun h => by cases h) fun h => hc (List.cons.inj h).1

end conversions

end Schemes

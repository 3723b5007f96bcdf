import OsLabs.Schemes.Contents

/-! scheme:bytes | C strings behind pointers

    Bytes at addresses, some of them allocated. Reading or writing at another address, NULL among
    them, has no meaning (`none`). `strlen` and `strcpy` go on to the NUL; `fuel` bounds their
    steps.

        p                p + strlen(p)
        a   b   c        0                                                     -/

namespace Schemes

structure Text where
  byte : Mem
  live : ℕ → Bool

namespace Text

/-- `*p` -/
def get (t : Text) (p : ℕ) : Option UInt8 := if t.live p then some (t.byte p) else none

/-- `*p = c` -/
def set (t : Text) (p : ℕ) (c : UInt8) : Option Text :=
  if t.live p then some { t with byte := Function.update t.byte p c } else none

/-- `malloc(n)`, which returns `p`. -/
def malloc (t : Text) (p n : ℕ) : Text :=
  { t with live := fun i => t.live i || decide (p ≤ i ∧ i < p + n) }

def strlen (t : Text) : ℕ → ℕ → Option ℕ
  | 0, _ => none
  | fuel + 1, p => do
    let c ← t.get p
    if c = 0 then some 0
    else
      let n ← t.strlen fuel (p + 1)
      some (n + 1)

def strcpy : ℕ → ℕ → ℕ → Text → Option Text
  | 0, _, _, _ => none
  | fuel + 1, dst, src, t => do
    let c ← t.get src
    let t ← t.set dst c
    if c = 0 then some t else strcpy fuel (dst + 1) (src + 1) t

/-- The bytes of `l` are allocated at `p` and stand there. -/
structure Holds (t : Text) (p : ℕ) (l : List UInt8) : Prop where
  bytes : t.byte.Holds p l
  live : ∀ i < l.length, t.live (p + i) = true

/-- `malloc(n)` may return `p`. -/
structure Fresh (t : Text) (p n : ℕ) : Prop where
  ne_null : p ≠ 0
  fits : p + n ≤ 2 ^ 64
  unused : ∀ i < n, t.live (p + i) = false

section text
variable {t t' : Text} {p dst src n fuel : ℕ} {c : UInt8} {l l' : List UInt8}

theorem Holds.get (h : t.Holds p (c :: l)) : t.get p = some c := by
  have hlive : t.live p = true := h.live 0 (Nat.zero_lt_succ _)
  rw [Text.get, if_pos hlive, h.bytes.1]

theorem Holds.append_iff : t.Holds p (l ++ l') ↔ t.Holds p l ∧ t.Holds (p + l.length) l' := by
  constructor
  · rintro ⟨hb, hlive⟩
    obtain ⟨hl, hl'⟩ := holds_append.mp hb
    rw [List.length_append] at hlive
    refine ⟨⟨hl, fun i hi => hlive i (by omega)⟩, ⟨hl', fun i hi => ?_⟩⟩
    rw [Nat.add_assoc]
    exact hlive _ (by omega)
  · rintro ⟨hl, hl'⟩
    refine ⟨holds_append.mpr ⟨hl.bytes, hl'.bytes⟩, fun i hi => ?_⟩
    rw [List.length_append] at hi
    rcases Nat.lt_or_ge i l.length with hlt | hge
    · exact hl.live i hlt
    · obtain ⟨j, rfl⟩ := Nat.exists_eq_add_of_le hge
      rw [← Nat.add_assoc]
      exact hl'.live j (by omega)

theorem Holds.tail (h : t.Holds p (c :: l)) : t.Holds (p + 1) l :=
  (append_iff.mp (show t.Holds p ([c] ++ l) from h)).2

/-- What stands there stays if neither its bytes nor their allocation change. -/
theorem Holds.congr (h : t.Holds p l) (hbyte : ∀ i < l.length, t'.byte (p + i) = t.byte (p + i))
    (hlive : ∀ i < l.length, t.live (p + i) = true → t'.live (p + i) = true) : t'.Holds p l := by
  refine ⟨h.bytes.congr fun i hi hlt => ?_, fun i hi => hlive i hi (h.live i hi)⟩
  obtain ⟨j, rfl⟩ := Nat.exists_eq_add_of_le hi
  exact hbyte j (by omega)

theorem eq_of_set (hset : t.set n c = some t') :
    t.live n = true ∧ t' = { t with byte := Function.update t.byte n c } := by
  rw [Text.set] at hset
  split_ifs at hset with hlive
  exact ⟨hlive, (Option.some.inj hset).symm⟩

/-- A byte that is stored outside. -/
theorem Holds.set (h : t.Holds p l) (hset : t.set n c = some t') (hn : ∀ i < l.length, p + i ≠ n) :
    t'.Holds p l := by
  obtain ⟨-, rfl⟩ := eq_of_set hset
  exact h.congr (fun i hi => Function.update_of_ne (hn i hi) ..) fun i _ hl => hl

/-- A NUL stored behind a text. -/
theorem Holds.snoc_nul (h : t'.Holds p l) (hset : t.set (p + l.length) 0 = some t') :
    t'.Holds p (l ++ [0]) := by
  obtain ⟨hlive, rfl⟩ := eq_of_set hset
  refine append_iff.mpr
    ⟨h, ⟨Function.update_self (β := fun _ => UInt8) .., trivial⟩, fun i hi => ?_⟩
  rw [List.length_singleton, Nat.lt_one_iff] at hi
  rwa [hi]

theorem malloc_live {k : ℕ} (h : t.live n = true) : (t.malloc p k).live n = true := by
  simp only [malloc, h, Bool.true_or]

theorem strlen_eq (h : t.Holds p (l ++ [0])) (h0 : 0 ∉ l) (hfuel : l.length < fuel) :
    t.strlen fuel p = some l.length := by
  induction l generalizing p fuel with
  | nil =>
    obtain ⟨fuel, rfl⟩ := Nat.exists_eq_add_one.mpr hfuel
    rw [strlen, h.get]
    rfl
  | cons c l ih =>
    obtain ⟨fuel, rfl⟩ := Nat.exists_eq_add_one.mpr (Nat.zero_lt_of_lt hfuel)
    rw [List.mem_cons, not_or] at h0
    rw [strlen, h.get, Option.bind_eq_bind, Option.bind_some, if_neg (Ne.symm h0.1),
      ih h.tail h0.2 (Nat.lt_of_succ_lt_succ hfuel)]
    rfl

/-- The copy stands at `dst`, and nothing else has changed. -/
theorem strcpy_eq (dst : ℕ) (h : t.Holds src (l ++ [0])) (h0 : 0 ∉ l)
    (hlive : ∀ i ≤ l.length, t.live (dst + i) = true)
    (hdisj : ∀ i ≤ l.length, ∀ j ≤ l.length, src + i ≠ dst + j) : ∃ t',
      (∀ fuel, l.length < fuel → strcpy fuel dst src t = some t') ∧ t'.live = t.live ∧
        t'.Holds dst (l ++ [0]) ∧ ∀ i, (i < dst ∨ dst + l.length < i) → t'.byte i = t.byte i := by
  induction l generalizing t dst src with
  | nil =>
    have hset : t.set dst 0 = some { t with byte := Function.update t.byte dst 0 } :=
      if_pos (hlive 0 (Nat.le_refl _))
    refine ⟨{ t with byte := Function.update t.byte dst 0 }, fun fuel hfuel => ?_, rfl,
      ⟨⟨Function.update_self (β := fun _ => UInt8) .., trivial⟩, fun i hi => hlive i ?_⟩,
      fun i hi => ?_⟩
    · obtain ⟨fuel, rfl⟩ := Nat.exists_eq_add_one.mpr hfuel
      rw [strcpy, h.get, Option.bind_eq_bind, Option.bind_some, hset]
      rfl
    · exact Nat.le_of_lt_succ hi
    · exact Function.update_of_ne (hi.elim Nat.ne_of_lt fun h => Nat.ne_of_gt h) ..
  | cons c l ih =>
    rw [List.mem_cons, not_or] at h0
    rw [List.length_cons] at hlive hdisj
    have hset : t.set dst c = some { t with byte := Function.update t.byte dst c } :=
      if_pos (hlive 0 (Nat.zero_le _))
    have htail : t.Holds (src + 1) (l ++ [0]) := h.tail
    have hrest := htail.set hset fun i hi => by
      rw [List.length_append, List.length_singleton] at hi
      have hne := hdisj (i + 1) (by omega) 0 (Nat.zero_le _)
      omega
    obtain ⟨t', hcpy, hlive', hholds, hout⟩ := ih (dst + 1) hrest h0.2
      (fun i hi => by rw [Nat.add_assoc, Nat.add_comm 1]; exact hlive (i + 1) (by omega))
      (fun i hi j hj => by have := hdisj (i + 1) (by omega) (j + 1) (by omega); omega)
    have hfirst : t'.Holds dst [c] := by
      refine ⟨⟨?_, trivial⟩, fun i hi => ?_⟩
      · rw [hout dst (by omega)]
        exact Function.update_self (β := fun _ => UInt8) ..
      · rw [List.length_singleton] at hi
        rw [hlive']
        exact hlive i (by omega)
    refine ⟨t', fun fuel hfuel => ?_, hlive', (Holds.append_iff (l := [c])).mpr ⟨hfirst, hholds⟩,
      fun i hi => ?_⟩
    · obtain ⟨fuel, rfl⟩ := Nat.exists_eq_add_one.mpr (Nat.zero_lt_of_lt hfuel)
      have hget : t.get src = some c := h.get
      rw [strcpy, hget, Option.bind_eq_bind, Option.bind_some, hset, Option.bind_eq_bind,
        Option.bind_some, if_neg (Ne.symm h0.1), hcpy fuel (Nat.lt_of_succ_lt_succ hfuel)]
    · rw [List.length_cons] at hi
      rw [hout i (by omega)]
      exact Function.update_of_ne (by omega) ..

/-- A copy of a string into memory from `malloc` leaves what was there before. -/
theorem strcpy_malloc (hf : t.Fresh dst (l.length + 1)) (h : t.Holds src (l ++ [0]))
    (h0 : 0 ∉ l) : ∃ t',
      (∀ fuel, l.length < fuel → strcpy fuel dst src (t.malloc dst (1 + l.length)) = some t') ∧
        t'.Holds dst (l ++ [0]) ∧ ∀ p l', t.Holds p l' → t'.Holds p l' := by
  have hmalloc : ∀ p l', t.Holds p l' → (t.malloc dst (1 + l.length)).Holds p l' := fun p l' hl =>
    hl.congr (fun _ _ => rfl) fun _ _ => malloc_live
  have hout {i : ℕ} (hi : t.live i = true) : i < dst ∨ dst + l.length < i := by
    by_contra hin
    obtain ⟨j, rfl⟩ := Nat.exists_eq_add_of_le (show dst ≤ i by omega)
    rw [hf.unused j (by omega)] at hi
    cases hi
  have hroom : ∀ i ≤ l.length, (t.malloc dst (1 + l.length)).live (dst + i) = true := by
    intro i hi
    simp only [malloc, Bool.or_eq_true, decide_eq_true_eq]
    omega
  have hdisj : ∀ i ≤ l.length, ∀ j ≤ l.length, src + i ≠ dst + j := by
    intro i hi j hj
    have := hout (h.live i (by rw [List.length_append, List.length_singleton]; omega))
    omega
  obtain ⟨t', hcpy, hlive, hholds, hbyte⟩ := strcpy_eq dst (hmalloc _ _ h) h0 hroom hdisj
  refine ⟨t', hcpy, hholds, fun p l' hl => hl.congr (fun i hi => ?_) fun i hi hl => ?_⟩
  · exact hbyte _ (hout (hl.live i hi))
  · rw [hlive]
    exact malloc_live hl

end text

end Text

/-! ### Pieces between separators -/

section pieces
variable {α : Type*} [BEq α] {a : α} {l p : List α}

theorem not_mem_splitOn [LawfulBEq α] (h : p ∈ l.splitOn a) : a ∉ p := by
  induction l generalizing p with
  | nil =>
    obtain rfl := List.mem_singleton.mp h
    exact List.not_mem_nil
  | cons x l ih =>
    rw [List.splitOn_cons_eq_if_modifyHead] at h
    split_ifs at h with hx
    · rcases List.mem_cons.mp h with rfl | h
      · exact List.not_mem_nil
      · exact ih h
    · obtain ⟨q, qs, hq⟩ := List.exists_cons_of_ne_nil (List.splitOn_ne_nil a l)
      rw [hq] at h ih
      rcases List.mem_cons.mp h with rfl | h
      · rw [List.mem_cons, not_or]
        exact ⟨fun he => hx (by rw [he, beq_self_eq_true]), ih (List.mem_cons_self ..)⟩
      · exact ih (List.mem_cons_of_mem _ h)

/-- There is one more piece than there are separators. -/
theorem length_splitOn : (l.splitOn a).length = l.count a + 1 := by
  induction l with
  | nil => rfl
  | cons x l ih =>
    rw [List.splitOn_cons_eq_if_modifyHead, List.count_cons]
    by_cases hx : (x == a) = true
    · rw [if_pos hx, if_pos hx, List.length_cons, ih]
    · rw [if_neg hx, if_neg hx, List.length_modifyHead, ih, Nat.add_zero]

end pieces

end Schemes

import OsLabs.Vm.Portable
import OsLabs.Vm.ZigProgram

/-! @src lab3_vm/c/machine.c, lab3_vm/zig/src/main.zig | name:sources | scheme:scanning

    One source file, two assemblers. They cut a line up differently: C takes a word up to a blank
    and then three numbers with commas behind the first two, Zig takes tokens between blanks and
    commas and reads each of them whole. A line that both accept has the same tokens for both, but
    for one thing: digits may be grouped with `_` in Zig, where C stops.

        addi 1,0,1024 ; sp     C addi 1 0 1024     Zig addi 1 0 1024
        addi 1,0,1_024         C addi 1 0 1        Zig addi 1 0 1024
        addi 1,0,12k           C addi 1 0 12       Zig error.InvalidCharacter
        addi 1 0 1024          C syntax error      Zig addi 1 0 1024            -/

namespace OsLabs.Vm
open Schemes Zig

/-! ### The bytes of tokens -/

/-- A byte that both assemblers keep inside a token. -/
def Inner (c : UInt8) : Prop :=
  isSpace c = false ∧ separator c = false ∧ c ≠ semicolon ∧ c ≠ newline

section bytes
variable {text x r : List UInt8} {op : Isa} {a : ℤ} {c : UInt8}

theorem inner_letter (h : 97 ≤ c.toNat) (h' : c.toNat ≤ 122) : Inner c := by
  have hne : ∀ d : UInt8, d.toNat < 97 → c ≠ d := by
    rintro d hd rfl
    omega
  refine ⟨?_, ?_, hne 59 (by decide), hne 10 (by decide)⟩
  · have hhigh : ¬c ≤ 13 := fun hle => by
      have hnat := UInt8.le_iff_toNat_le.mp hle
      have h13 : (13 : UInt8).toNat = 13 := rfl
      omega
    simp [isSpace, hne 32 (by decide), hhigh]
  · simp [separator, hne 32 (by decide), hne 44 (by decide)]

theorem inner_digit (h : isDigit c = true) : Inner c := by
  refine ⟨isSpace_of_isDigit h, ?_, ?_, ?_⟩
  · have hne : c ≠ 32 ∧ c ≠ comma := by
      constructor <;> rintro rfl <;> cases h
    simp [separator, hne.1, hne.2]
  · rintro rfl
    cases h
  · rintro rfl
    cases h

/-- A mnemonic is made of letters. -/
theorem inner_mnemonic (h : ofBytes text = op.toStr) : ∀ c ∈ text, Inner c := by
  have hall : ∀ op : Isa, ∀ ch ∈ op.toStr.toList, 97 ≤ ch.toNat ∧ ch.toNat ≤ 122 := by
    intro op
    cases op <;> simp [Isa.toStr]
  intro c hc
  have hlist : op.toStr.toList = text.map fun c => Char.ofNat c.toNat := by
    rw [← h, ofBytes, String.toList_ofList]
  have hmem : Char.ofNat c.toNat ∈ op.toStr.toList := by
    rw [hlist]
    exact List.mem_map_of_mem hc
  have hnat : (Char.ofNat c.toNat).toNat = c.toNat := by
    have hlt := c.toNat_lt
    rw [Char.ofNat, dif_pos (Or.inl (by omega))]
    rfl
  obtain ⟨hlow, hhigh⟩ := hall op _ hmem
  rw [hnat] at hlow hhigh
  exact inner_letter hlow hhigh

/-- So is what `%d` reads, but for the sign. -/
theorem inner_numeral (h : Numeral r x a) : ∀ c ∈ x, Inner c := by
  have hsign : Inner plus ∧ Inner minus := by
    unfold Inner
    decide
  cases h with
  | bare _ hds => exact fun c hc => inner_digit (hds.all c hc)
  | plus _ hds => exact List.forall_mem_cons.mpr ⟨hsign.1, fun c hc => inner_digit (hds.all c hc)⟩
  | minus _ hds => exact List.forall_mem_cons.mpr ⟨hsign.2, fun c hc => inner_digit (hds.all c hc)⟩

end bytes

/-! ### A line that both accept -/

section line
variable {file l s t q w r text : List UInt8} {op op' : Isa} {a b c a' b' c' : ℤ}

/-- What C reads of a line, up to the last digit, is also in front for Zig. -/
theorem half_append (hl : l ∈ lines file) {z : List UInt8} (hchars : chars l = w ++ (z ++ r))
    (hz : z ≠ [] ∧ ∀ c ∈ z, Inner c) (hw : ∀ c ∈ w, c ≠ semicolon)
    (hstop : ∀ c ∈ r.head?, isDigit c = false) :
    ∃ r', half l = w ++ (z ++ r') ∧ ∀ c ∈ r'.head?, isDigit c = false := by
  have hsplit : l = w ++ (z ++ (r ++ l.dropWhile (· ≠ 0))) := by
    have happ := (List.takeWhile_append_dropWhile (p := (· ≠ 0)) (l := l)).symm
    rw [← chars, hchars] at happ
    simpa only [List.append_assoc] using happ
  have hline : ∀ c ∈ w, c ≠ newline := by
    rintro c hc rfl
    obtain ⟨y, y', rfl⟩ := List.append_of_mem hc
    have hnil := newline_last hl (y := y) (z := y' ++ (z ++ (r ++ l.dropWhile (· ≠ 0))))
      (by simpa only [List.append_assoc, List.cons_append] using hsplit)
    exact hz.1 (List.append_eq_nil_iff.mp (List.append_eq_nil_iff.mp hnil).2).1
  have hpass : ∀ (p : UInt8 → Bool) (u : List UInt8), (∀ c ∈ w, p c = true) →
      (∀ c ∈ z, p c = true) → (w ++ (z ++ u)).takeWhile p = w ++ (z ++ u.takeWhile p) := by
    intro p u hpw hpz
    rw [List.takeWhile_append_of_pos hpw, List.takeWhile_append_of_pos hpz]
  refine ⟨((r ++ l.dropWhile (· ≠ 0)).takeWhile (· ≠ newline)).takeWhile (· ≠ semicolon), ?_, ?_⟩
  · generalize r ++ l.dropWhile (· ≠ 0) = u at hsplit
    rw [half, hsplit, hpass _ _ (fun c hc => decide_eq_true (hline c hc))
      (fun c hc => decide_eq_true (hz.2 c hc).2.2.2), hpass _ _
      (fun c hc => decide_eq_true (hw c hc)) (fun c hc => decide_eq_true (hz.2 c hc).2.2.1)]
  · intro c hc
    rw [Option.mem_def, List.head?_takeWhile, List.head?_takeWhile] at hc
    have hhead := (Option.filter_eq_some_iff.mp (Option.filter_eq_some_iff.mp hc).1).1
    cases r with
    | nil =>
      -- only a NUL can end what C reads here
      have hnot := List.head?_dropWhile_not (· ≠ 0) l
      rw [List.nil_append] at hhead
      rw [hhead] at hnot
      obtain rfl : c = 0 := by simpa using hnot
      rfl
    | cons d r => exact hstop c hhead

/-- The tokens of Zig, where C has read blanks and then `w`. -/
theorem front_append (h : Front t q (s ++ (w ++ r))) (hw : w ≠ [] ∧ ∀ c ∈ w, Inner c)
    (hs : ∀ c ∈ s, isSpace c = true ∨ separator c = true) (ht : ∀ c ∈ t, isSpace c = false) :
    t = w ++ r.takeWhile (fun c => !separator c) ∧ q = r.dropWhile (fun c => !separator c) := by
  refine nextToken_append (nextToken_iff.mpr h) hw.1 (fun c hc => (hw.2 c hc).2.1) fun c hc => ?_
  rcases hs c hc with hspace | hsep
  · refine .inr fun hmem => ?_
    rw [ht c hmem] at hspace
    cases hspace
  · exact .inl hsep

/-- If no blank gets into a token, the blank behind it is a separator. -/
theorem blank_cut (hs : Blank s) (hne : s ≠ [])
    (ht : ∀ c ∈ (s ++ r).takeWhile (fun c => !separator c), isSpace c = false) :
    (s ++ r).takeWhile (fun c => !separator c) = [] ∧
      (s ++ r).dropWhile (fun c => !separator c) = s ++ r := by
  obtain ⟨d, s, rfl⟩ := List.exists_cons_of_ne_nil hne
  by_cases hd : separator d = true
  · exact ⟨List.takeWhile_cons_of_neg (by simp [hd]), List.dropWhile_cons_of_neg (by simp [hd])⟩
  · rw [List.cons_append, List.takeWhile_cons_of_pos (by simpa using hd)] at ht
    have hno := ht d (List.mem_cons_self ..)
    rw [hs d (List.mem_cons_self ..)] at hno
    cases hno

theorem comma_cut : (comma :: r).takeWhile (fun c => !separator c) = [] ∧
    (comma :: r).dropWhile (fun c => !separator c) = comma :: r :=
  ⟨List.takeWhile_cons_of_neg (by decide), List.dropWhile_cons_of_neg (by decide)⟩

/-- A number of Zig that starts as one of C goes on only with `_`. -/
theorem number_cut {z : List UInt8} {v : ℤ} (hne : z ≠ [])
    (h : Spells (z ++ r.takeWhile (fun c => !separator c)) v)
    (hstop : ∀ c ∈ r.head?, isDigit c = false) (hu : underscore ∉ r) :
    r.takeWhile (fun c => !separator c) = [] := by
  cases r with
  | nil => rfl
  | cons d r =>
    by_cases hd : separator d = true
    · exact List.takeWhile_cons_of_neg (by simp [hd])
    · rw [List.takeWhile_cons_of_pos (by simpa using hd)] at h
      obtain ⟨e, z, rfl⟩ := List.exists_cons_of_ne_nil hne
      rcases h.tail d (List.mem_append_right _ (List.mem_cons_self ..)) with rfl | hdigit
      · exact absurd (List.mem_cons_self ..) hu
      · rw [hstop d rfl] at hdigit
        cases hdigit

/-- Where both accept a line without `_`, it says the same to both. -/
theorem says_of_reads (hl : l ∈ lines file) (hu : underscore ∉ l) (hr : Reads (chars l) text a b c)
    (hop : ofBytes text = op.toStr) (hs : Says (half l) op' a' b' c') :
    op' = op ∧ a' = a ∧ b' = b ∧ c' = c := by
  generalize hbuf : chars l = buf at hr
  obtain ⟨hs₀, hs₁, hs₂, hs₃, hne₁, hne, htext, hx, hy, hz⟩ := hr
  rename_i s₀ s₁ s₂ s₃ x y z r
  have hinner := inner_mnemonic hop
  have hnumeral : ∀ {r x : List UInt8} {v : ℤ}, Numeral r x v → x ≠ [] ∧ ∀ c ∈ x, Inner c := by
    intro r x v h
    obtain ⟨d, x', rfl, -⟩ := h.head
    exact ⟨List.cons_ne_nil _ _, inner_numeral h⟩
  have hstop : ∀ c ∈ r.head?, isDigit c = false := by
    cases hz with
    | bare _ h => exact h.stop
    | plus _ h => exact h.stop
    | minus _ h => exact h.stop
  obtain ⟨r', hhalf, hstop'⟩ : ∃ r', half l = s₀ ++ (text ++ (s₁ ++ (x ++ comma :: (s₂ ++
      (y ++ comma :: (s₃ ++ (z ++ r'))))))) ∧ ∀ c ∈ r'.head?, isDigit c = false := by
    have h := half_append hl (w := s₀ ++ (text ++ (s₁ ++ (x ++ comma :: (s₂ ++
      (y ++ comma :: s₃)))))) (z := z) (r := r) (by simpa using hbuf) (hnumeral hz) ?_ hstop
    · simpa using h
    · have hblank : ∀ {s : List UInt8}, Blank s → ∀ c ∈ s, c ≠ semicolon := by
        rintro s hs c hc rfl
        exact absurd (hs _ hc) (by decide)
      have hin : ∀ {s : List UInt8}, (∀ c ∈ s, Inner c) → ∀ c ∈ s, c ≠ semicolon :=
        fun hs c hc => (hs c hc).2.2.1
      have hcomma : comma ≠ semicolon := by decide
      simp only [List.forall_mem_append, List.forall_mem_cons]
      exact ⟨hblank hs₀, hin hinner, hblank hs₁, hin (hnumeral hx).2, hcomma, hblank hs₂,
        hin (hnumeral hy).2, hcomma, hblank hs₃⟩
  have hu' : underscore ∉ r' := by
    intro hmem
    have hsub : (half l).Sublist l :=
      (List.takeWhile_sublist _).trans (List.takeWhile_sublist _)
    refine hu (hsub.subset ?_)
    rw [hhalf]
    simp [hmem]
  -- the tokens one after the other, from what C has read
  obtain ⟨ft, hop', fx, ha, fy, hb, fz, hc⟩ := hs
  rw [hhalf] at ft
  have hletters : ∀ c ∈ _, isSpace c = false := fun c hc => (inner_mnemonic hop' c hc).1
  obtain ⟨rfl, rfl⟩ := front_append ft ⟨hne, hinner⟩ (fun c hc => .inl (hs₀ c hc)) hletters
  obtain ⟨hcut, hleft⟩ := blank_cut hs₁ hne₁ fun c hc => hletters c (List.mem_append_right _ hc)
  rw [hcut, List.append_nil] at hop'
  rw [hleft] at fx
  obtain ⟨rfl, rfl⟩ := front_append fx (hnumeral hx) (fun c hc => .inl (hs₁ c hc)) ha.not_space
  rw [comma_cut.1, List.append_nil] at ha
  rw [comma_cut.2, ← List.cons_append] at fy
  have hsep : ∀ {s : List UInt8}, Blank s →
      ∀ c ∈ comma :: s, isSpace c = true ∨ separator c = true := fun hs =>
    List.forall_mem_cons.mpr ⟨.inr rfl, fun c hc => .inl (hs c hc)⟩
  obtain ⟨rfl, rfl⟩ := front_append fy (hnumeral hy) (hsep hs₂) hb.not_space
  rw [comma_cut.1, List.append_nil] at hb
  rw [comma_cut.2, ← List.cons_append] at fz
  obtain ⟨rfl, -⟩ := front_append fz (hnumeral hz) (hsep hs₃) hc.not_space
  rw [number_cut (hnumeral hz).1 hc hstop' hu', List.append_nil] at hc
  exact ⟨Isa.toStr_inj (hop'.symm.trans hop), ha.unique hx.spells, hb.unique hy.spells,
    hc.unique hz.spells⟩

/-- Zig does not skip what C reads, and skips the comments of C. -/
theorem half_eq_nil_iff (hl : l ∈ lines file)
    (h : comment l = false → ∃ r, scanLine (chars l) = some r) :
    half l = [] ↔ comment l = true := by
  cases l with
  | nil =>
    obtain ⟨r, hr⟩ := h rfl
    cases hr
  | cons d l =>
    have hcomment : comment (d :: l) = true ↔ d = semicolon := by simp [comment]
    rw [half, hcomment]
    rcases eq_or_ne d semicolon with rfl | hsemi
    · exact iff_of_true rfl rfl
    · refine iff_of_false ?_ hsemi
      rcases eq_or_ne d newline with rfl | hd
      · obtain rfl := newline_last hl (y := []) rfl
        obtain ⟨r, hr⟩ := h rfl
        cases hr
      · rw [List.takeWhile_cons_of_pos (by simpa using hd),
          List.takeWhile_cons_of_pos (by simpa using hsemi)]
        exact List.cons_ne_nil _ _

end line

/-! ### A file that both accept -/

section file
variable {M M' : Type} {lib : Libc} {mm : Memory M} {mm' : Memory M'} {m mem : M} {m' mem' : M'}
  {log log' : List Access} {n n' : ℕ} {file l : List UInt8}

/-- C reads to the end of a file only if it knows all lines. -/
theorem known_of_done (h : Vm.readProgram lib mm (some file) m = some (.done mem log n)) :
    ∀ l ∈ code (pieces lib.bufsiz file), unknown l = false := by
  rw [Vm.readProgram_eq, Option.some.injEq, Libc.reply] at h
  split at h
  case isFalse => cases h
  cases hfind : (code (pieces lib.bufsiz file)).find? unknown with
  | none =>
    intro l hl
    simpa using List.find?_eq_none.mp hfind l hl
  | some l =>
    rw [hfind] at h
    simp only [Libc.error] at h
    split at h <;> cases h

/-- What C knows, it can read. -/
theorem reads_of_known (h : unknown l = false) : ∃ text a b c,
    Reads (chars l) text a b c ∧ ∃ op : Isa, ofBytes text = op.toStr := by
  rw [unknown] at h
  cases hscan : scanLine (chars l) with
  | none =>
    rw [hscan] at h
    cases h
  | some r =>
    obtain ⟨text, a, b, c⟩ := r
    rw [hscan, Bool.not_eq_false', List.contains_iff_mem] at h
    obtain ⟨op, hop⟩ := Isa.exists_toStr h
    exact ⟨text, a, b, c, scanLine_iff.mp hscan, op, hop.symm⟩

/-- A line of a file that both accept: the same instruction for both. -/
theorem line_agrees (hl : l ∈ lines file) (hu : underscore ∉ file) (hc : unknown l = false)
    (hcomment : comment l = false) (hz : fault l = none) : ∃ text, ∃ op : Isa, ∃ a b c,
      Reads (chars l) text a b c ∧ ofBytes text = op.toStr ∧ Says (half l) op a b c ∧
        InFields a b c := by
  obtain ⟨text, a, b, c, hr, op, hop⟩ := reads_of_known hc
  have hhalf : half l ≠ [] := by
    intro hnil
    have hscan : comment l = false → ∃ r, scanLine (chars l) = some r :=
      fun _ => ⟨_, scanLine_iff.mpr hr⟩
    rw [(half_eq_nil_iff hl hscan).mp hnil] at hcomment
    cases hcomment
  obtain ⟨op', a', b', c', hs, hf⟩ := (fault_eq_none.mp hz).2.resolve_left hhalf
  obtain ⟨rfl, rfl, rfl, rfl⟩ := says_of_reads hl (fun h => hu (mem_lines hl _ h)) hr hop hs
  exact ⟨text, op', a', b', c', hr, hop, hs, hf⟩

/-- Such a file is well-formed, and its operands fit their fields. -/
theorem wellFormed_of_both (hbuf : 1024 < lib.bufsiz) (hu : underscore ∉ file)
    (hc : Vm.readProgram lib mm (some file) m = some (.done mem log n))
    (hz : Accepted file) : WellFormed lib file ∧ ∀ l ∈ code (lines file),
      ∃ text, ∃ op : Isa, ∃ a b c, Reads (chars l) text a b c ∧ ofBytes text = op.toStr ∧
        Says (half l) op a b c ∧ InFields a b c := by
  have hlen : ∀ l ∈ lines file, l.length < lib.bufsiz := by
    intro l hl
    have hline := length_line hl
    have hshort := (hz.each l hl).1
    omega
  have hknown := known_of_done hc
  rw [pieces_eq_lines (by omega) hlen] at hknown
  have hagree : ∀ l ∈ code (lines file), ∃ text, ∃ op : Isa, ∃ a b c,
      Reads (chars l) text a b c ∧ ofBytes text = op.toStr ∧ Says (half l) op a b c ∧
        InFields a b c := by
    intro l hl
    obtain ⟨hmem, hcomment⟩ := List.mem_filter.mp hl
    exact line_agrees hmem hu (hknown l hl) (by simpa using hcomment) (hz.faultless l hmem)
  refine ⟨fun l hl => ⟨hlen l hl, ?_⟩, hagree⟩
  cases hcomment : comment l with
  | true => exact .inl rfl
  | false =>
    obtain ⟨text, op, a, b, c, hr, hop, -, hf⟩ :=
      hagree l (List.mem_filter.mpr ⟨hl, by simp [hcomment]⟩)
    obtain ⟨⟨ha, ha'⟩, ⟨hb, hb'⟩, hlow, hhigh⟩ := hf
    refine .inr ⟨text, a, b, c, hr, hop ▸ List.mem_of_getElem? op.toStr_known.2.1, ?_, ?_, ?_⟩
    all_goals
      unfold FitsS
      constructor <;> omega

/-- Both take the same lines for instructions. -/
theorem instructions_eq_code (h : ∀ l ∈ code (lines file), ∃ text a b c,
    Reads (chars l) text a b c) : instructions (lines file) = code (lines file) := by
  refine List.filter_congr fun l hl => ?_
  have hiff := half_eq_nil_iff hl fun hcomment => by
    obtain ⟨text, a, b, c, hr⟩ := h l (List.mem_filter.mpr ⟨hl, by simp [hcomment]⟩)
    exact ⟨_, scanLine_iff.mpr hr⟩
  cases hcomment : comment l with
  | true => simp [hiff.mpr hcomment]
  | false => simp [hiff, hcomment]

/-- Both store the words that the lines say. -/
theorem writes_of_both (hbuf : 1024 < lib.bufsiz) (hu : underscore ∉ file)
    (hc : Vm.readProgram lib mm (some file) m = some (.done mem log n))
    (hz : Zig.readProgram mm' file m' = some (.done mem' log' n')) : log' = log ∧ n' = n := by
  obtain ⟨hacc, -, hlog', hn'⟩ := done_iff.mp hz
  obtain ⟨hgood, hagree⟩ := wellFormed_of_both hbuf hu hc hacc
  have hsame : instructions (lines file) = code (lines file) := by
    refine instructions_eq_code fun l hl => ?_
    obtain ⟨text, op, a, b, c, hr, -⟩ := hagree l hl
    exact ⟨text, a, b, c, hr⟩
  have hwords : (instructions (lines file)).map (fun l => (wordOf l).getD 0) =
      (code (lines file)).map fun l => (lib.word l).getD 0 := by
    rw [hsame]
    refine List.map_congr_left fun l hl => ?_
    obtain ⟨text, op, a, b, c, hr, hop, hs, hf⟩ := hagree l hl
    obtain ⟨op', hop', hword⟩ := (code_instruction hgood hl).word lib hr
    obtain rfl := Isa.toStr_inj (hop.symm.trans hop')
    rw [hs.wordOf hf, hword, (makeInstr_inFields op hf rfl).1]
  rw [filterMap_wordOf hacc.faultless, hwords] at hlog' hn'
  rw [Vm.readProgram_eq, hgood.reply, Option.some.injEq] at hc
  split at hc
  case isFalse => cases hc
  rw [finished, Reply.done.injEq] at hc
  exact ⟨hlog'.trans hc.2.1, hn'.trans hc.2.2⟩

/-- Every operand fits its field, so the words say what the lines say. -/
theorem faithful_of_both (hbuf : 1024 < lib.bufsiz) (hu : underscore ∉ file)
    (hc : Vm.readProgram lib mm (some file) m = some (.done mem log n)) (hz : Accepted file) :
    WellFormed lib file ∧ Faithful mm m (code (lines file)) mem log n := by
  obtain ⟨hgood, hagree⟩ := wellFormed_of_both hbuf hu hc hz
  rw [Vm.readProgram_eq, hgood.reply, Option.some.injEq] at hc
  split at hc
  case isFalse => cases hc
  refine ⟨hgood, (hgood.faithful_iff hc).mpr fun l hl text a b c hr => ?_⟩
  obtain ⟨text', op, a', b', c', hr', -, -, hf⟩ := hagree l hl
  have hscan := (scanLine_iff.mpr hr).symm.trans (scanLine_iff.mpr hr')
  obtain ⟨-, rfl, rfl, rfl⟩ : text = text' ∧ a = a' ∧ b = b' ∧ c = c' := by simpa using hscan
  exact hf

/-- CORRECT (one source, two assemblers): if both read a file without `_` to its end, with a buffer
    that holds the longest line Zig takes, then they have made the same writes in the same order,
    of words that say what the lines say. -/
theorem sources_agree (hbuf : 1024 < lib.bufsiz) (hu : underscore ∉ file)
    (hc : Vm.readProgram lib mm (some file) m = some (.done mem log n))
    (hz : Zig.readProgram mm' file m' = some (.done mem' log' n')) :
    log' = log ∧ n' = n ∧ WellFormed lib file ∧
      Faithful mm m (code (lines file)) mem log n := by
  obtain ⟨hlog, hn⟩ := writes_of_both hbuf hu hc hz
  exact ⟨hlog, hn, faithful_of_both hbuf hu hc (done_iff.mp hz).1⟩

end file

/-- `add 1,2,-1`. -/
theorem sources_agree_add :
    let file := [97, 100, 100, 32, 49, 44, 50, 44, 45, 49, 10]
    let log : List Access := [.write 0 0x0022ffff]
    WellFormed .wrapping file ∧
      Faithful array (fun _ => 0) (code (lines file)) (array.after (fun _ => 0) log) log 1 := by
  intro file log
  have hc : Vm.readProgram .wrapping array (some file) (fun _ => 0) =
      some (.done (array.after (fun _ => 0) log) log 1) := rfl
  have hz : Zig.readProgram array file (fun _ => 0) =
      some (.done (array.after (fun _ => 0) log) log 1) := rfl
  exact (sources_agree (by decide) (by decide) hc hz).2.2

/-- `addi 1,0,1_0` is 1 for C and 10 for Zig. -/
example :
    let file := [97, 100, 100, 105, 32, 49, 44, 48, 44, 49, 95, 48]
    Vm.readProgram .wrapping (rom 0) (some file) () =
      some (.done () [.write 0 (C.makeInstr C.ADDI 1 0 1)] 1) ∧
    Zig.readProgram (rom 0) file () =
      some (.done () [.write 0 (C.makeInstr C.ADDI 1 0 10)] 1) := ⟨rfl, rfl⟩

/-! ### From the source to the end of a run -/

section run
variable {M M' : Type} {lib : Libc} {mm : Memory M} {mm' : Memory M'} {m mem : M} {m' mem' : M'}
  {log log' : List Access} {n n' k size : ℕ} {file : List UInt8} {view : M → Word → Word}
  {view' : M' → Word → Word} {arr : Word → Word} {cpu' : Cpu} {reg : ℕ → Word}

theorem below_writes {ws : List Word} (h : ws.length ≤ size) : Below size (writes ws) := by
  intro x hx
  obtain ⟨i, hi, rfl⟩ := List.mem_mapIdx.mp hx
  have haddr : (BitVec.ofNat 32 i).toNat ≤ i := by
    rw [BitVec.toNat_ofNat]
    exact Nat.mod_le ..
  exact lt_of_le_of_lt haddr (lt_of_lt_of_le hi h)

/-- CORRECT (one source, two machines): a file without `_` that both assemblers read to its end is
    loaded into two memories that behave as arrays and start alike. Take a run of the loaded array,
    from address 0 and any registers, that stays inside. Then the C machine makes it, the Zig
    machine makes one of that length exactly when `seqi` is used only on registers that hold 16
    bits and its counter does not reach its end, and both end with the same registers and the same
    data. -/
theorem source_runs_alike (hF : Flat mm size view) (hF' : Flat mm' size view')
    (hsize : Small size) (hstart : Same size (view' m') (view m)) (hbuf : 1024 < lib.bufsiz)
    (hu : underscore ∉ file)
    (hc : Vm.readProgram lib mm (some file) m = some (.done mem log n))
    (hz : Zig.readProgram mm' file m' = some (.done mem' log' n')) (hn : n ≤ size)
    (hrun : Runs size k (view mem, ⟨0, reg⟩) (arr, cpu')) (hend : cpu'.pc.toNat < size) :
    (∃ mc, C.runFor mm k (mem, ⟨0, reg⟩) = some (mc, cpu') ∧ Same size (view mc) arr) ∧
    ((∃ t, Zig.runFor mm' k (mem', ⟨0, reg⟩, 0) = some t) ↔
      NarrowFor size k (view mem) ⟨0, reg⟩ ∧ k < 2 ^ 32) ∧
    ∀ t, Zig.runFor mm' k (mem', ⟨0, reg⟩, 0) = some t →
      t.2 = (cpu', BitVec.ofNat 32 k) ∧ Same size (view' t.1) arr := by
  obtain ⟨rfl, rfl⟩ := writes_of_both hbuf hu hc hz
  obtain ⟨hacc, hmem', hlog, hlen⟩ := done_iff.mp hz
  obtain ⟨-, hfaith⟩ := faithful_of_both hbuf hu hc hacc
  have hbelow : Below size log' := by
    rw [hlog]
    exact below_writes (hlen ▸ hn)
  have hsame : Same size (view' mem') (view mem) := by
    intro a ha
    rw [hmem', hfaith.after, hF'.after hbelow hstart a ha,
      hF.after hbelow (fun _ _ => rfl) a ha]
  have hiff := hrun.zig_iff hF' hsize hsame hend 0
  have hcount : (0 : Word).toNat + k = k := Nat.zero_add k
  have hzero : (0 : Word) + BitVec.ofNat 32 k = BitVec.ofNat 32 k := BitVec.zero_add _
  rw [hcount] at hiff
  refine ⟨hrun.refine hF fun _ _ => rfl, hiff, fun t ht => ?_⟩
  have ht' := hrun.zig_end hF' hsame ht
  rwa [hzero] at ht'

end run

/-- `addi 1,0,5`, loaded into 64 words and run once. -/
theorem source_runs_alike_addi :
    let mem : Word → Word := Function.update (fun _ => 0) 0 (C.makeInstr C.ADDI 1 0 5)
    let cpu' : Cpu := ⟨1, Function.update (fun _ => 7) 1 12⟩
    (∃ mc, C.runFor array 1 (mem, ⟨0, fun _ => 7⟩) = some (mc, cpu') ∧ Same 64 mc mem) ∧
    ((∃ t, Zig.runFor array 1 (mem, ⟨0, fun _ => 7⟩, 0) = some t) ↔
      NarrowFor 64 1 mem ⟨0, fun _ => 7⟩ ∧ 1 < 2 ^ 32) ∧
    ∀ t, Zig.runFor array 1 (mem, ⟨0, fun _ => 7⟩, 0) = some t →
      t.2 = (cpu', BitVec.ofNat 32 1) ∧ Same 64 t.1 mem := by
  intro mem cpu'
  have hat : At 64 mem 0 .addi 1 0 5 := ⟨rfl, by decide, by decide, by decide, by decide⟩
  have hrun : Runs 64 1 (mem, ⟨0, fun _ => 7⟩) (mem, cpu') := hat.addi (by decide) fun _ => 7
  have hc : Vm.readProgram .wrapping array (some [97, 100, 100, 105, 32, 49, 44, 48, 44, 53, 10])
      (fun _ => 0) = some (.done mem [.write 0 (C.makeInstr C.ADDI 1 0 5)] 1) := rfl
  have hz : Zig.readProgram array [97, 100, 100, 105, 32, 49, 44, 48, 44, 53, 10]
      (fun _ => 0) = some (.done mem [.write 0 (C.makeInstr C.ADDI 1 0 5)] 1) := rfl
  exact source_runs_alike (flat_array 64) (flat_array 64) (by unfold Small; decide)
    (fun _ _ => rfl) (by decide) (by decide) hc hz (by decide) hrun (by decide)

end OsLabs.Vm

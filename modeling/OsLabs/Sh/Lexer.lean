import OsLabs.Sh.Token

/-! @src lab1_shell/sh.c | name:lexer | scheme:lexing

    `gettoken` called until the newline cuts the line into `lexed`: lexemes that a character opens
    when the `switch` of `gettoken` leaves it to the default case, and that characters extend when
    `end_of_token` does not know them. The grammar of the shell cuts it into `split`. Both agree but
    for `;`, which `end_of_token` knows and the `switch` does not, so that it opens a word.

        touch a;ls↵     lexed   [touch][a][;ls][↵]
                        split   [touch][a][;][ls][↵]                                -/

namespace OsLabs.Sh
open Schemes

/-- The cut of the code. -/
def lexed (l : List UInt8) : List (TokenType × List UInt8) :=
  (lexemes (fun c => tokenType c = .normal && !isBlank c) (fun c => !endOfToken c) isBlank l).map
    fun w => (tokenType (w.headD 0), w)

/-- The type of a lexeme in the grammar. -/
def typeOf (w : List UInt8) : TokenType :=
  if w = [lf] then .newline
  else if w = [lt] then .input
  else if w = [gt] then .output
  else if w = [amp] then .ampersand
  else if w = [bar] then .pipe
  else if w = [semi] then .semicolon
  else .normal

/-- Neither a blank nor a separator. -/
def ordinary (c : UInt8) : Bool := c ∉ [space, tab, lt, gt, amp, bar, semi, lf]

/-- The cut of the grammar: separators stand alone, runs of ordinary characters are words, blanks
    are dropped. -/
def split (l : List UInt8) : List (TokenType × List UInt8) :=
  (lexemes ordinary ordinary isBlank l).map fun w => (typeOf w, w)

/-- A text that begins with blanks and the lexeme `c :: w`. -/
structure Lexeme (l bs : List UInt8) (c : UInt8) (w r : List UInt8) : Prop where
  eq : l = bs ++ c :: (w ++ r)
  blanks : ∀ b ∈ bs, isBlank b = true
  first : isBlank c = false
  alone : tokenType c ≠ .normal → w = []
  word : tokenType c = .normal →
    (∀ x ∈ w, endOfToken x = false) ∧ ∃ d r', r = d :: r' ∧ endOfToken d = true

section lexer
variable {l bs w r body : List UInt8} {c : UInt8} {s : Shell} {n : ℕ}

theorem tokenType_normal : tokenType c = .normal ↔ c ∉ [lf, lt, gt, amp, bar] := by
  simp only [tokenType, List.mem_cons, List.not_mem_nil, or_false, not_or]
  split_ifs <;> simp [*]

theorem tokenType_newline : tokenType c = .newline ↔ c = lf := by
  rw [tokenType]
  split
  case isTrue h => exact iff_of_true rfl h
  case isFalse h =>
    refine iff_of_false ?_ h
    split_ifs <;> exact not_false

/-- What goes on with a word can open one. -/
theorem opens_of_more (c : UInt8) (h : (!endOfToken c) = true) :
    (tokenType c = .normal && !isBlank c) = true := by
  simp only [endOfToken, List.mem_cons, List.not_mem_nil, or_false, Bool.not_eq_true',
    decide_eq_false_iff_not, not_or] at h
  simp [tokenType, isBlank, h]

/-- The scanner's step on the text is that of `lexed`. -/
theorem lexed_cons (h : Lexeme l bs c w r) : lexed l = (tokenType c, c :: w) :: lexed r := by
  have hblank : ∀ b, isBlank b = true → (tokenType b = .normal && !isBlank b) = false := by
    intro b hb
    rw [hb, Bool.not_true, Bool.and_false]
  have hdrop : l.dropWhile isBlank = c :: (w ++ r) := by
    rw [h.eq, List.dropWhile_append_of_pos h.blanks,
      List.dropWhile_cons_of_neg (by rw [h.first]; exact Bool.false_ne_true)]
  rw [lexed, ← lexemes_dropWhile hblank, hdrop]
  by_cases hc : tokenType c = .normal
  · obtain ⟨hw, d, r', rfl, hd⟩ := h.word hc
    have hopen : (tokenType c = .normal && !isBlank c) = true := by rw [h.first]; simpa using hc
    have hw' : ∀ x ∈ w, (!endOfToken x) = true := fun x hx => by rw [hw x hx]; rfl
    rw [lexemes_word opens_of_more h.first hopen, List.takeWhile_append_of_pos hw',
      List.dropWhile_append_of_pos hw', List.takeWhile_cons_of_neg (by simp [hd]),
      List.dropWhile_cons_of_neg (by simp [hd]), List.append_nil]
    rfl
  · obtain rfl := h.alone hc
    rw [List.nil_append, lexemes_alone h.first (by simp [hc])]
    rfl

/-- The lexeme that a character other than the newline opens. -/
theorem lexeme_cons (hbs : ∀ b ∈ bs, isBlank b = true) (hc : isBlank c = false) (hlf : lf ∉ r) :
    ∃ w body, Lexeme (bs ++ c :: r ++ [lf]) bs c w (body ++ [lf]) ∧ lf ∉ body ∧
      body.length ≤ r.length := by
  by_cases hn : tokenType c = .normal
  · refine ⟨r.takeWhile fun x => !endOfToken x, r.dropWhile fun x => !endOfToken x,
      ⟨?_, hbs, hc, fun h => absurd hn h, fun _ => ⟨fun x hx => ?_, ?_⟩⟩, ?_,
      (List.dropWhile_sublist _).length_le⟩
    · rw [← List.append_assoc, List.takeWhile_append_dropWhile, List.append_assoc, List.cons_append]
    · simpa using List.mem_takeWhile_imp hx
    · -- what follows the word ends it: a character that stopped the copying, or the newline
      have hstop := List.head?_dropWhile_not (fun x => !endOfToken x) r
      cases hdrop : r.dropWhile fun x => !endOfToken x with
      | nil => exact ⟨lf, [], rfl, by decide⟩
      | cons d r' =>
        rw [hdrop] at hstop
        exact ⟨d, r' ++ [lf], rfl, by simpa using hstop⟩
    · exact fun h => hlf ((List.dropWhile_sublist _).mem h)
  · refine ⟨[], r, ⟨?_, hbs, hc, fun _ => rfl, fun h => absurd h hn⟩, hlf, le_rfl⟩
    rw [List.nil_append, List.append_assoc, List.cons_append]

/-- One lexeme of a line: the newline at its end, or another one, and the line goes on. -/
theorem line_cases (hlf : lf ∉ body) : Lexeme (body ++ [lf]) body lf [] [] ∨
    ∃ bs c w body', Lexeme (body ++ [lf]) bs c w (body' ++ [lf]) ∧ c ≠ lf ∧ lf ∉ body' ∧
      body'.length < body.length := by
  have hsplit := List.takeWhile_append_dropWhile (p := isBlank) (l := body)
  have hblanks : ∀ b ∈ body.takeWhile isBlank, isBlank b = true :=
    fun b hb => List.mem_takeWhile_imp hb
  have hstop := List.head?_dropWhile_not isBlank body
  cases hdrop : body.dropWhile isBlank with
  | nil =>
    left
    rw [hdrop, List.append_nil] at hsplit
    rw [hsplit] at hblanks
    exact ⟨rfl, hblanks, by decide, fun _ => rfl, fun h => by cases h⟩
  | cons c r =>
    right
    rw [hdrop] at hsplit hstop
    have hmem : ∀ x ∈ c :: r, x ∈ body := fun x hx => hsplit ▸ List.mem_append_right _ hx
    obtain ⟨w, body', hlex, hlf', hlen⟩ := lexeme_cons hblanks hstop
      (fun h => hlf (hmem lf (List.mem_cons_of_mem _ h)))
    refine ⟨_, c, w, body', hsplit ▸ hlex, ?_, hlf', ?_⟩
    · exact fun h => hlf (h ▸ hmem c (List.mem_cons_self ..))
    · rw [← hsplit, List.length_append, List.length_cons]
      omega

/-! ### The calls of `gettoken` on a line -/

/-- What is left of a line, with room for its tokens: a token and its NUL take at most twice the
    characters that have been read. -/
structure Unread (s : Shell) (l : List UInt8) : Prop where
  input : s.inputBuf.byte.Holds s.inputChar l
  short : s.inputChar + l.length < maxBuf
  tokens : s.token ≤ 2 * s.inputChar

theorem Ready.unread (h : Ready s body) : Unread s (body ++ [lf]) := by
  have hshort := h.short
  refine ⟨?_, ?_, ?_⟩
  · rw [h.inputChar]
    exact h.held
  · rw [h.inputChar, List.length_append, List.length_singleton]
    omega
  · rw [h.token]
    exact Nat.zero_le _

/-- One call reads the blanks and the lexeme and writes the lexeme with a NUL. -/
theorem gettoken_eq (hu : Unread s l) (h : Lexeme l bs c w r) :
    gettoken s =
        some (s.took (bs.length + 1 + w.length) (c :: w ++ [0]), tokenType c, s.token) ∧
      Unread (s.took (bs.length + 1 + w.length) (c :: w ++ [0])) r := by
  obtain ⟨hin, hshort, htok⟩ := hu
  rw [h.eq] at hin hshort
  rw [List.length_append, List.length_cons, List.length_append] at hshort
  have hskip := Shell.skipBlanks_eq hin h.blanks h.first (by omega)
  have hin₁ := Shell.holds_took [] hin rfl
  have hpeek := Shell.peek_eq hin₁ (by simp only [Shell.took]; omega)
  have hemit : (s.took bs.length []).emit c = some (s.took bs.length [c]) := by
    rw [Shell.emit_eq (by simp only [Shell.took, List.length_nil]; omega), Shell.took_took]
    rfl
  have hadv : (s.took bs.length [c]).advance = s.took (bs.length + 1) [c] := by
    rw [Shell.advance_eq, Shell.took_took]
    rfl
  have hcopy : (s.took (bs.length + 1) [c]).copyRest (tokenType c) =
      some (s.took (bs.length + 1 + w.length) (c :: w)) := by
    rw [Shell.copyRest]
    split
    case isTrue hn =>
      obtain ⟨hw, d, r', rfl, hd⟩ := h.word hn
      have hin₂ := Shell.holds_took (k := bs.length + 1) (w := bs ++ [c]) [c]
        (by rwa [List.append_assoc]) (by rw [List.length_append]; rfl)
      rw [Shell.copyWord_eq hin₂ hw hd (by simp only [Shell.took]; omega)
        (by simp only [Shell.took, List.length_singleton]; omega), Shell.took_took]
      rfl
    case isFalse hn => rw [h.alone hn]; rfl
  have hnul : (s.took (bs.length + 1 + w.length) (c :: w)).emit 0 =
      some (s.took (bs.length + 1 + w.length) (c :: w ++ [0])) := by
    rw [Shell.emit_eq (by simp only [Shell.took, List.length_cons]; omega), Shell.took_took]
    rfl
  refine ⟨?_, ?_, ?_, ?_⟩
  · rw [gettoken]
    simp only [hskip, hpeek, hemit, hadv, hcopy, hnul, Option.bind_eq_bind, Option.bind_some]
  · refine Shell.holds_took (w := bs ++ c :: w) _ ?_ ?_
    · rwa [List.append_assoc]
    · rw [List.length_append, List.length_cons]
      omega
  · simp only [Shell.took]
    omega
  · simp only [Shell.took, List.length_append, List.length_cons, List.length_nil]
    omega

/-- The token `t` has the type and the text of `w`. -/
def Points (b : Buf 1024) (t : TokenType × ℕ) (w : TokenType × List UInt8) : Prop :=
  t.1 = w.1 ∧ t.2 + w.2.length < 2 * maxBuf ∧ b.byte.Holds t.2 (w.2 ++ [0])

theorem Points.congr {b b' : Buf 1024} {t : TokenType × ℕ} {v : TokenType × List UInt8}
    (h : Points b t v) (heq : ∀ i < t.2 + v.2.length + 1, b'.byte i = b.byte i) :
    Points b' t v := by
  refine ⟨h.1, h.2.1, h.2.2.congr fun i _ hi => heq i ?_⟩
  rw [List.length_append, List.length_singleton] at hi
  omega

/-- The token that a call leaves in `token_buf`. -/
theorem gettoken_points (hu : Unread s l) (h : Lexeme l bs c w r) :
    Points (s.took (bs.length + 1 + w.length) (c :: w ++ [0])).tokenBuf (tokenType c, s.token)
      (tokenType c, c :: w) := by
  have hshort := hu.short
  have htok := hu.tokens
  have hmax : maxBuf = 512 := rfl
  rw [h.eq, List.length_append, List.length_cons, List.length_append] at hshort
  refine ⟨rfl, ?_, Buf.store_holds ?_⟩
  · rw [List.length_cons]
    omega
  · rw [List.length_append, List.length_cons, List.length_singleton]
    omega

/-- Calling `gettoken` until the newline gives the tokens of `lexed`, and no call touches the text
    of an earlier token. -/
theorem tokens_eq (hu : Unread s (body ++ [lf])) (hlf : lf ∉ body) (hn : body.length < n) :
    ∃ s' ts, tokens n s = some (s', ts) ∧
      (∀ i < s.token, s'.tokenBuf.byte i = s.tokenBuf.byte i) ∧
      List.Forall₂ (Points s'.tokenBuf) ts (lexed (body ++ [lf])) := by
  induction n generalizing s body with
  | zero => exact absurd hn (Nat.not_lt_zero _)
  | succ n ih =>
    rcases line_cases hlf with h | ⟨bs, c, w, body', h, hc, hlf', hlen⟩
    · obtain ⟨hget, -⟩ := gettoken_eq hu h
      have hpoints := gettoken_points hu h
      refine ⟨s.took (body.length + 1) [lf, 0], [(tokenType lf, s.token)], ?_, ?_, ?_⟩
      · rw [tokens, hget]
        rfl
      · exact fun i hi => Buf.store_out (Or.inl hi)
      · rw [lexed_cons h]
        exact List.Forall₂.cons hpoints List.Forall₂.nil
    · obtain ⟨hget, hu'⟩ := gettoken_eq hu h
      have hpoints := gettoken_points hu h
      obtain ⟨s', ts, hts, hframe, hall⟩ := ih hu' hlf' (by omega)
      have htoken : (s.took (bs.length + 1 + w.length) (c :: w ++ [0])).token =
          s.token + (c :: w).length + 1 := by
        simp only [Shell.took, List.length_append, List.length_singleton, Nat.add_assoc]
      rw [htoken] at hframe
      refine ⟨s', (tokenType c, s.token) :: ts, ?_, fun i hi => ?_, ?_⟩
      · rw [tokens, hget, Option.bind_eq_bind, Option.bind_some]
        dsimp only
        rw [if_neg (mt tokenType_newline.mp hc), hts]
        rfl
      · rw [hframe i (by omega)]
        exact Buf.store_out (Or.inl hi)
      · rw [lexed_cons h]
        exact List.Forall₂.cons (hpoints.congr fun i hi => hframe i hi) hall

/-! ### The cut of the code and the cut of the grammar -/

theorem tokenType_ne_semicolon (c : UInt8) : tokenType c ≠ .semicolon := by
  rw [tokenType]
  split_ifs <;> exact TokenType.noConfusion

/-- Without a `;`, the type of a lexeme is that of its first character. -/
theorem typeOf_eq (hw : w = [] ∨ tokenType c = .normal) (hc : c ≠ semi) :
    tokenType c = typeOf (c :: w) := by
  rcases hw with rfl | hn
  · simp only [tokenType, typeOf, List.cons.injEq, and_true, if_neg hc]
  · cases w with
    | nil => simp only [tokenType, typeOf, List.cons.injEq, and_true, if_neg hc]
    | cons d w => simpa [typeOf] using hn

/-- Without a `;`, what opens a word in the code is ordinary. -/
theorem opens_eq (hc : c ≠ semi) :
    (tokenType c = .normal && !isBlank c) = ordinary c := by
  rw [Bool.eq_iff_iff, Bool.and_eq_true, decide_eq_true_iff, tokenType_normal]
  simp only [isBlank, ordinary, List.mem_cons, List.not_mem_nil, or_false, not_or,
    Bool.not_eq_true', decide_eq_true_eq, Bool.or_eq_false_iff, decide_eq_false_iff_not]
  tauto

/-- Without a NUL, what goes on with a word in the code is ordinary. -/
theorem more_eq (hc : c ≠ 0) : (!endOfToken c) = ordinary c := by
  rw [Bool.eq_iff_iff]
  simp only [endOfToken, ordinary, List.mem_cons, List.not_mem_nil, or_false, not_or,
    Bool.not_eq_true', decide_eq_true_eq, decide_eq_false_iff_not]
  tauto

/-- The two cuts agree exactly on the lines without a `;`. -/
theorem lexed_eq_split_iff (h0 : 0 ∉ l) : lexed l = split l ↔ semi ∉ l := by
  constructor
  · intro h hmem
    have hlexeme : [semi] ∈ lexemes ordinary ordinary isBlank l :=
      mem_lexemes_alone (by decide) (by decide) (by decide) hmem
    have hsplit : (TokenType.semicolon, [semi]) ∈ split l := List.mem_map_of_mem hlexeme
    rw [← h] at hsplit
    obtain ⟨w, -, hw⟩ := List.mem_map.mp hsplit
    exact tokenType_ne_semicolon _ (congrArg Prod.fst hw)
  · intro hsemi
    have hopens : ∀ c ∈ l, (tokenType c = .normal && !isBlank c) = ordinary c :=
      fun c hc => opens_eq fun h => hsemi (h ▸ hc)
    have hmore : ∀ c ∈ l, (!endOfToken c) = ordinary c := fun c hc => more_eq fun h => h0 (h ▸ hc)
    have hsame : lexemes _ _ isBlank l = lexemes _ _ isBlank l := lexemes_congr hopens hmore
    rw [lexed, split, ← hsame]
    refine List.map_congr_left fun w hw => ?_
    obtain ⟨c, r, rfl, hr⟩ := lexeme_head hw
    have hc : c ∈ l := lexeme_subset hw (List.mem_cons_self ..)
    have hopen : r = [] ∨ tokenType c = .normal := hr.imp id fun h => by
      simpa using (Bool.and_eq_true_iff.mp h).1
    exact congrArg (·, c :: r) (typeOf_eq hopen fun h => hsemi (h ▸ hc))

/-! ### The strings that a line leaves in `token_buf` -/

theorem points_string {b : Buf 1024} {ts : List (TokenType × ℕ)}
    {ws : List (TokenType × List UInt8)} (h : List.Forall₂ (Points b) ts ws)
    (h0 : ∀ v ∈ ws, 0 ∉ v.2) : ts.map (fun t => (t.1, b.string t.2)) = ws := by
  induction h with
  | nil => rfl
  | @cons t v ts ws hp _ ih =>
    obtain ⟨htype, hroom, htext⟩ := hp
    have hmax : 2 * maxBuf = 1024 := rfl
    have hstring : b.string t.2 = v.2 :=
      Mem.string_holds htext (h0 v (List.mem_cons_self ..)) (by omega)
    rw [List.map_cons, ih fun v hv => h0 v (List.mem_cons_of_mem _ hv), htype, hstring]

/-- The tokens of a line are those of `lexed`. -/
theorem lineTokens_eq (h : Ready s body) (h0 : 0 ∉ body ++ [lf]) :
    lineTokens s = some (lexed (body ++ [lf])) := by
  have hshort := h.short
  obtain ⟨s', ts, hts, -, hall⟩ := tokens_eq (n := maxBuf) h.unread h.noLf (by omega)
  rw [lineTokens, hts, Option.map_some, points_string hall]
  intro v hv
  obtain ⟨w, hw, rfl⟩ := List.mem_map.mp hv
  exact fun h => h0 (lexeme_subset hw h)

/-- CORRECT (lexer): on every line without a NUL that `fetch_line` delivers, calling `gettoken`
    until it returns NEWLINE ends, and gives the tokens of the grammar exactly when there is no
    `;`. -/
theorem lexer_covers_iff {prompt : String} {stdin rest : List UInt8} {s' : Shell} {k : ℤ}
    (h : fetchLine prompt stdin s = some (s', rest, k)) (hk : k ≠ eof)
    (h0 : 0 ∉ s'.line k.toNat) : ∃ ts, lineTokens s' = some ts ∧
      (ts = split (s'.line k.toNat) ↔ semi ∉ s'.line k.toNat) := by
  obtain ⟨body, hready, rfl⟩ := fetchLine_ready h hk
  have hline : s'.line (Int.toNat (body.length + 1)) = body ++ [lf] := hready.line
  rw [hline] at h0 ⊢
  exact ⟨_, lineTokens_eq hready h0, lexed_eq_split_iff h0⟩

end lexer

/-- A shell that has read nothing. -/
def Shell.start : Shell := ⟨Buf.zero _, Buf.zero _, 0, 0, []⟩

/-- `cat  < f | wc b`, with a tab before the bar. -/
def pipeLine : List UInt8 :=
  [99, 97, 116, space, space, lt, space, 102, tab, bar, space, 119, 99, space, 98]

theorem fetchLine_pipeLine : ∃ s', fetchLine "% " (pipeLine ++ [lf]) Shell.start =
    some (s', [], 16) ∧ s'.line 16 = pipeLine ++ [lf] := by
  obtain ⟨s', hs, hready, -⟩ := fetchLine_short "% " [] Shell.start (m := pipeLine) (by decide)
    (by decide)
  exact ⟨s', hs, hready.line⟩

/-- Four words and two separators. -/
theorem lexer_covers_iff_pipeLine : ∃ s', fetchLine "% " (pipeLine ++ [lf]) Shell.start =
      some (s', [], 16) ∧
    lineTokens s' = some [(.normal, [99, 97, 116]), (.input, [lt]), (.normal, [102]),
      (.pipe, [bar]), (.normal, [119, 99]), (.normal, [98]), (.newline, [lf])] := by
  obtain ⟨s', hs, hline⟩ := fetchLine_pipeLine
  have hline' : s'.line (Int.toNat 16) = pipeLine ++ [lf] := hline
  obtain ⟨ts, hts, hsplit⟩ := lexer_covers_iff hs (by decide) (by rw [hline']; decide)
  rw [hline'] at hsplit
  refine ⟨s', hs, ?_⟩
  rw [hts, hsplit.mpr (by decide)]
  decide +kernel

/-- `a;b`: the separator becomes a part of a word. -/
theorem semicolon_in_word : ∃ s', fetchLine "% " [97, semi, 98, lf] Shell.start = some (s', [], 4) ∧
    0 ∉ s'.line 4 ∧
    lineTokens s' = some [(.normal, [97]), (.normal, [semi, 98]), (.newline, [lf])] ∧
    split (s'.line 4) =
      [(.normal, [97]), (.semicolon, [semi]), (.normal, [98]), (.newline, [lf])] ∧
    lineTokens s' ≠ some (split (s'.line 4)) := by
  obtain ⟨s', hs, hline, htokens⟩ : ∃ s', fetchLine "% " [97, semi, 98, lf] Shell.start =
      some (s', [], 4) ∧ s'.line 4 = [97, semi, 98, lf] ∧
      lineTokens s' = some [(.normal, [97]), (.normal, [semi, 98]), (.newline, [lf])] :=
    ⟨_, rfl, by decide +kernel, by decide +kernel⟩
  have hsplit : split [97, semi, 98, lf] =
      [(.normal, [97]), (.semicolon, [semi]), (.normal, [98]), (.newline, [lf])] := by
    decide +kernel
  refine ⟨s', hs, ?_, htokens, ?_, ?_⟩
  · rw [hline]
    decide
  · rw [hline, hsplit]
  · rw [hline, htokens, hsplit]
    decide

end OsLabs.Sh

import OsLabs.Sh.Argv

/-! @src lab1_shell/sh.c | name:token store | scheme:bytes

    Where `parse_line` reads and writes while it takes the tokens of a line. `argv` gets any number
    of slots here, so that a line is followed to its end. Every call of `gettoken` reads at least
    one character of the line, and writes at most two bytes for each that it has read; `parse_line`
    does not call it again after the newline.

        input_buf    l s   - l ⏎ 0              input_char ≤ the NUL
        token_buf    l s 0 - l 0 ⏎ 0            token ≤ 2 * input_char        -/

namespace OsLabs.Sh
open Schemes
variable {σ τ : Type}

/-! ### What a trip asks for and keeps -/

/-- The words of a call of `run_program`, up to the NULL. -/
def Call.strings (c : Call τ) : List τ := c.argv.filterMap id

/-- The words handed to `run_program`, in order. -/
def handed (log : List (Event τ)) : List τ := (calls log).flatMap Call.strings

namespace Parse

/-- The words of the command that is being read. -/
def words (p : Parse σ τ) : List τ := (List.range p.argc).filterMap p.argv

/-- The words handed over, and those to be handed over. -/
def given (p : Parse σ τ) : List τ := handed p.log ++ p.words

/-- One call of `gettoken`, or a second one after a token other than the newline. -/
inductive Asks (gettoken : σ → Option (σ × TokenType × τ)) (s s' : σ) (type : TokenType) : Prop
  | once {x : τ} (h : gettoken s = some (s', type, x))
  | twice {s₁ : σ} {type₁ : TokenType} {x₁ x : τ} (h₁ : gettoken s = some (s₁, type₁, x₁))
      (hne : type₁ ≠ .newline) (h : gettoken s₁ = some (s', type, x))

section given
variable {gettoken : σ → Option (σ × TokenType × τ)} {p : Parse σ τ} {s s' : σ} {x y : τ} {cap : ℕ}
  {type : TokenType}

theorem handed_append (log log' : List (Event τ)) :
    handed (log ++ log') = handed log ++ handed log' := by
  rw [handed, calls, List.filterMap_append, List.flatMap_append]
  rfl

/-- The slot that a call fills is behind the words. -/
theorem words_update (v : Option τ) :
    (List.range p.argc).filterMap (Function.update p.argv p.argc v) = p.words :=
  List.filterMap_congr fun _ hi => Function.update_of_ne (List.mem_range.mp hi).ne _ _

theorem words_snoc (v : Option τ) :
    (List.range (p.argc + 1)).filterMap (Function.update p.argv p.argc v) =
      p.words ++ v.toList := by
  rw [List.range_succ, List.filterMap_append, words_update]
  cases v with
  | none => rw [List.filterMap_cons_none (Function.update_self ..)]; rfl
  | some x => rw [List.filterMap_cons_some (Function.update_self ..)]; rfl

theorem given_congr {p' : Parse σ τ} (hlog : handed p'.log = handed p.log)
    (hwords : p'.words = p.words) : p'.given = p.given := by rw [given, given, hlog, hwords]

/-- A token that is read is not handed over yet. -/
theorem given_asked : (p.asked s x).given = p.given := given_congr rfl (words_update _)

theorem asked_sublist : (p.asked s y).given.Sublist (p.given ++ [x]) := by
  rw [given_asked]
  exact List.sublist_append_left ..

theorem given_word : { p.asked s x with argc := p.argc + 1 }.given = p.given ++ [x] :=
  (congrArg (handed p.log ++ ·) (words_snoc (some x))).trans (List.append_assoc ..).symm

/-- A redirection hands nothing over. -/
theorem given_redirected (dir : Redirection) (path : τ) (fd : ℤ) :
    (p.redirected dir path fd).given = p.given := by
  refine given_congr ?_ ?_
  · have hquiet : handed (opening dir path fd) = [] := by
      rw [handed, calls_opening, List.flatMap_nil]
    rw [redirected, handed_append, hquiet, List.append_nil]
  · cases dir <;> rfl

/-- The end of a command hands its words over. -/
theorem given_called (type : TokenType) : (p.called type).given = p.given := by
  have hcall : handed [.run (p.call type)] = p.words := by
    refine (List.append_nil _).trans ?_
    rw [Call.strings, call, List.filterMap_map, Function.id_comp, words_snoc]
    exact List.append_nil _
  have hwords : (p.called type).words = [] := rfl
  rw [given, hwords, List.append_nil, called, handed_append, hcall, given]

/-- A trip that leads to `p'`: `last` is the last token that it takes, and what is handed over with
    `p'` is what there was and perhaps the first, `x`. -/
structure Takes (cap : ℕ) (gettoken : σ → Option (σ × TokenType × τ)) (fds : ℕ → ℤ)
    (p p' : Parse σ τ) (x : τ) (last : TokenType) : Prop where
  asks : Asks gettoken p.src p'.src last
  given : p'.given.Sublist (p.given ++ [x])
  argc : p'.argc ≤ p.argc + 1
  trip : p.trip cap gettoken fds = .inl p' ∧ last ≠ .newline ∨
    p.trip cap gettoken fds = .inr (some p')

theorem takes_word (fds : ℕ → ℤ) (hcap : p.argc ≤ cap)
    (hget : gettoken p.src = some (s, .normal, x)) :
    Takes cap gettoken fds p { p.asked s x with argc := p.argc + 1 } x .normal where
  asks := .once hget
  given := given_word ▸ List.Sublist.refl _
  argc := Nat.le_refl _
  trip := .inl ⟨trip_word fds hcap hget, TokenType.noConfusion⟩

/-- A redirection takes the token behind it. -/
theorem takes_redirection (fds : ℕ → ℤ) (dir : Redirection) (hcap : p.argc ≤ cap)
    (hget : gettoken p.src = some (s, dir.type, x)) (hget' : gettoken s = some (s', type, y)) :
    ∃ p', Takes cap gettoken fds p p' x type := by
  have hne : dir.type ≠ .newline := by cases dir <;> exact TokenType.noConfusion
  by_cases hn : type = .normal
  · subst hn
    refine ⟨_, ?_, ?_, ?_, .inl ⟨trip_file fds hcap hget hget', TokenType.noConfusion⟩⟩
    · rw [redirected_src]
      exact .twice hget hne hget'
    · rw [given_redirected]
      exact asked_sublist
    · rw [redirected_argc]
      exact Nat.le_succ _
  · have hgiven : { p.asked s' y with log := p.log ++ [misnamed y] }.given =
        (p.asked s' y).given :=
      given_congr ((handed_append ..).trans (List.append_nil _)) rfl
    refine ⟨{ p.asked s' y with log := p.log ++ [misnamed y] }, .twice hget hne hget', ?_,
      Nat.le_succ _, .inr (trip_misnamed fds hcap hget hget' hn)⟩
    rw [hgiven]
    exact asked_sublist

theorem takes_separator (fds : ℕ → ℤ) (hcap : p.argc ≤ cap)
    (hget : gettoken p.src = some (s, type, x)) (ht : type.isSeparator = true) :
    ∃ p', Takes cap gettoken fds p p' x type := by
  by_cases hargc : p.argc = 0
  · exact ⟨_, .once hget, asked_sublist, Nat.le_succ _, .inr (trip_empty fds hargc hget ht)⟩
  · have hrun := trip_run fds hcap hargc hget ht
    refine ⟨(p.asked s x).called type, .once hget, ?_, Nat.zero_le _, ?_⟩
    · rw [given_called]
      exact asked_sublist
    · by_cases hnl : type = .newline
      · exact .inr (hrun.trans (if_pos hnl))
      · exact .inl ⟨hrun.trans (if_neg hnl), hnl⟩

/-- A trip takes one token or two. -/
theorem takes (fds : ℕ → ℤ) (hcap : p.argc ≤ cap) (hget : gettoken p.src = some (s, type, x))
    (hagain : type ≠ .newline → ∃ s' type' x', gettoken s = some (s', type', x')) :
    ∃ p' last, Takes cap gettoken fds p p' x last := by
  have hredirect (dir : Redirection) (ht : type = dir.type) (hne : type ≠ .newline) :
      ∃ p' last, Takes cap gettoken fds p p' x last := by
    subst ht
    obtain ⟨s', last, y, hget'⟩ := hagain hne
    obtain ⟨p', h⟩ := takes_redirection fds dir hcap hget hget'
    exact ⟨p', last, h⟩
  have hseparator (ht : type.isSeparator = true) :
      ∃ p' last, Takes cap gettoken fds p p' x last := by
    obtain ⟨p', h⟩ := takes_separator fds hcap hget ht
    exact ⟨p', type, h⟩
  cases type with
  | normal => exact ⟨_, _, takes_word fds hcap hget⟩
  | input => exact hredirect .input rfl TokenType.noConfusion
  | output => exact hredirect .output rfl TokenType.noConfusion
  | pipe | ampersand | newline | semicolon => exact hseparator rfl

end given

end Parse

/-! ### The tokens of a line -/

/-- A line `l` that is read up to some place before its newline. -/
def Live (l : List UInt8) (s : Shell) : Prop := ∃ body, Unread s (body ++ [lf]) ∧ lf ∉ body ∧
  s.inputChar + body.length = l.length

/-- How far the calls of `gettoken` that lead from `s` to `s'` come on the line `l`. -/
structure Within (l : List UInt8) (s s' : Shell) : Prop where
  read : s.inputChar < s'.inputChar
  stop : s'.inputChar ≤ l.length + 1
  written : s.token < s'.token
  room : s'.token ≤ 2 * maxBuf
  keep : ∀ i < s.token, s'.tokenBuf.byte i = s.tokenBuf.byte i

theorem Within.trans {l : List UInt8} {s s₁ s' : Shell} (h : Within l s s₁) (h' : Within l s₁ s') :
    Within l s s' :=
  ⟨h.read.trans h'.read, h'.stop, h.written.trans h'.written, h'.room,
    fun i hi => (h'.keep i (hi.trans h.written)).trans (h.keep i hi)⟩

section tokens
variable {l body bs w r : List UInt8} {c : UInt8} {s s' : Shell} {type : TokenType} {x : ℕ}

/-- A call reads a lexeme of the line and writes it with a NUL. -/
theorem gettoken_within {line : List UInt8} (hu : Unread s line) (h : Lexeme line bs c w r)
    (hlen : s.inputChar + line.length = l.length + 1) : ∃ s',
      gettoken s = some (s', tokenType c, s.token) ∧ Unread s' r ∧ Within l s s' ∧
        s'.inputChar + r.length = l.length + 1 ∧ ∀ os, Strings s.tokenBuf s.token os →
          Strings s'.tokenBuf s'.token (os ++ [s.token]) := by
  obtain ⟨hget, hu'⟩ := gettoken_eq hu h
  have hnul := (holds_append.mp (gettoken_points hu h).2.2).2.1
  have hread : (s.took (bs.length + 1 + w.length) (c :: w ++ [0])).inputChar =
      s.inputChar + (bs.length + 1 + w.length) := rfl
  have hwritten : (s.took (bs.length + 1 + w.length) (c :: w ++ [0])).token =
      s.token + (c :: w).length + 1 := by
    simp only [Shell.took, List.length_append, List.length_singleton, Nat.add_assoc]
  have hshort := hu'.short
  have htoken := hu'.tokens
  rw [h.eq, List.length_append, List.length_cons, List.length_append] at hlen
  have hinput : s.inputChar + (bs.length + 1 + w.length) + r.length = l.length + 1 := by omega
  have hroom := htoken.trans (Nat.mul_le_mul_left 2 ((Nat.le_add_right ..).trans hshort.le))
  have hwithin : Within l s (s.took (bs.length + 1 + w.length) (c :: w ++ [0])) :=
    ⟨by rw [hread]; omega, by rw [hread]; omega, by rw [hwritten]; omega, hroom,
      fun i hi => Buf.store_out (Or.inl hi)⟩
  refine ⟨_, hget, hu', hwithin, hinput, fun os hos => ?_⟩
  rw [hwritten] at hroom ⊢
  exact (hos.keep hwithin.keep (Nat.le_refl _)).snoc (Nat.le_add_right ..) hroom hnul

/-- A call on a line that is not at its end: it stays inside the buffers, adds a string to those in
    `token_buf`, and the line is at its end only if the token is the newline. -/
theorem Live.gettoken (h : Live l s) : ∃ s' type, gettoken s = some (s', type, s.token) ∧
    Within l s s' ∧ (∀ os, Strings s.tokenBuf s.token os →
      Strings s'.tokenBuf s'.token (os ++ [s.token])) ∧ (type ≠ .newline → Live l s') := by
  obtain ⟨body, hu, hlf, hlen⟩ := h
  have hline : s.inputChar + (body ++ [lf]).length = l.length + 1 := by
    rw [List.length_append, List.length_singleton, ← Nat.add_assoc, hlen]
  rcases line_cases hlf with hend | ⟨bs, c, w, body', hlex, hc, hlf', -⟩
  · obtain ⟨s', hget, -, hwithin, -, hstr⟩ := gettoken_within hu hend hline
    exact ⟨s', _, hget, hwithin, hstr, fun hne => absurd (tokenType_newline.mpr rfl) hne⟩
  · obtain ⟨s', hget, hu', hwithin, hlen', hstr⟩ := gettoken_within hu hlex hline
    refine ⟨s', _, hget, hwithin, hstr, fun _ => ⟨body', hu', hlf', ?_⟩⟩
    rw [List.length_append, List.length_singleton, ← Nat.add_assoc] at hlen'
    exact Nat.succ.inj hlen'

/-- A call has one result. -/
theorem gettoken_det {s₁ : Shell} {type₁ : TokenType} {x₁ : ℕ}
    (h : Sh.gettoken s = some (s₁, type₁, x₁)) (h' : Sh.gettoken s = some (s', type, x)) :
    s₁ = s' ∧ type₁ = type := by
  obtain ⟨hs, hrest⟩ := Prod.mk.inj (Option.some.inj (h.symm.trans h'))
  exact ⟨hs, (Prod.mk.inj hrest).1⟩

/-- One call or two. -/
theorem Live.asks (h : Live l s) (ha : Parse.Asks Sh.gettoken s s' type) : Within l s s' ∧
    (∀ os, Strings s.tokenBuf s.token os → Strings s'.tokenBuf s'.token (os ++ [s.token])) ∧
      (type ≠ .newline → Live l s') := by
  obtain ⟨s₁, type₁, hget, hwithin, hstr, hlive⟩ := h.gettoken
  cases ha with
  | once hget' =>
    obtain ⟨rfl, rfl⟩ := gettoken_det hget hget'
    exact ⟨hwithin, hstr, hlive⟩
  | twice h₁ hne hget' =>
    obtain ⟨rfl, rfl⟩ := gettoken_det hget h₁
    obtain ⟨s₂, type₂, hget₂, hwithin₂, -, hlive₂⟩ := (hlive hne).gettoken
    obtain ⟨rfl, rfl⟩ := gettoken_det hget₂ hget'
    exact ⟨hwithin.trans hwithin₂,
      fun os hos => (hstr os hos).keep hwithin₂.keep hwithin₂.written.le, hlive₂⟩

end tokens

/-! ### The loop of `parse_line` -/

/-- A state on the line `l`: where the buffers are read and written, and the words so far. -/
structure Inside (l : List UInt8) (p : Parse Shell ℕ) : Prop where
  input : p.src.inputChar ≤ l.length + 1
  room : p.src.token ≤ 2 * maxBuf
  argc : p.argc ≤ p.src.inputChar
  strings : Strings p.src.tokenBuf p.src.token p.given

/-- A state at the head of the loop: the newline has not been read. -/
structure Taking (l : List UInt8) (p : Parse Shell ℕ) : Prop extends Inside l p where
  live : Live l p.src

section loop
variable {l : List UInt8} {p p' : Parse Shell ℕ} {cap : ℕ} {fds : ℕ → ℤ}

/-- One trip. -/
theorem Taking.trip (fds : ℕ → ℤ) (h : Taking l p) (hcap : p.argc ≤ cap) : ∃ p',
    Within l p.src p'.src ∧ Inside l p' ∧ (p.trip cap gettoken fds = .inl p' ∧ Taking l p' ∨
      p.trip cap gettoken fds = .inr (some p')) := by
  obtain ⟨s, type, hget, -, -, hlive⟩ := h.live.gettoken
  obtain ⟨p', last, hasks, hgiven, hargc, hr⟩ := Parse.takes fds hcap hget fun hne => by
    obtain ⟨s', type', hget', -⟩ := (hlive hne).gettoken
    exact ⟨s', type', _, hget'⟩
  obtain ⟨hwithin, hstr, hlive'⟩ := h.live.asks hasks
  have hinside : Inside l p' :=
    ⟨hwithin.stop, hwithin.room, hargc.trans (Nat.succ_le_of_lt (h.argc.trans_lt hwithin.read)),
      (hstr _ h.strings).sublist hgiven⟩
  exact ⟨p', hwithin, hinside, hr.imp_left fun hgo => ⟨hgo.1, hinside, hlive' hgo.2⟩⟩

/-- A trip that goes on or returns. -/
theorem Taking.step (h : Taking l p) (hstep : p.trip cap gettoken fds = .inl p') :
    Taking l p' ∧ Within l p.src p'.src := by
  rcases Nat.lt_or_ge cap p.argc with hfull | hcap
  · rw [Parse.trip_full fds hfull] at hstep
    cases hstep
  · obtain ⟨q, hwithin, -, ⟨hgo, htaking⟩ | hret⟩ := h.trip fds hcap
    · obtain rfl := Sum.inl.inj (hstep.symm.trans hgo)
      exact ⟨htaking, hwithin⟩
    · rw [hstep] at hret
      cases hret

theorem Taking.leave (h : Taking l p) (hstep : p.trip cap gettoken fds = .inr (some p')) :
    Inside l p' ∧ Within l p.src p'.src := by
  rcases Nat.lt_or_ge cap p.argc with hfull | hcap
  · rw [Parse.trip_full fds hfull] at hstep
    cases hstep
  · obtain ⟨q, hwithin, hinside, ⟨hgo, -⟩ | hret⟩ := h.trip fds hcap
    · rw [hstep] at hgo
      cases hgo
    · obtain rfl := Option.some.inj (Sum.inr.inj (hstep.symm.trans hret))
      exact ⟨hinside, hwithin⟩

/-- The first state. -/
theorem Ready.taking {s : Shell} (h : Ready s l) (argv : ℕ → Option ℕ) :
    Taking l (Parse.start s argv) where
  input := by
    rw [Parse.start, h.inputChar]
    exact Nat.zero_le _
  room := by
    rw [Parse.start, h.token]
    exact Nat.zero_le _
  argc := Nat.zero_le _
  strings := .nil
  live := ⟨l, h.unread, h.noLf, by rw [Parse.start, h.inputChar, Nat.zero_add]⟩

/-- From the head of the loop on, what stands below `token` stays. -/
theorem Taking.kept {q : Parse Shell ℕ} (h : Taking l p)
    (hq : Occurs (Parse.trip cap gettoken fds) p q) :
    ∀ i < p.src.token, q.src.tokenBuf.byte i = p.src.tokenBuf.byte i := by
  let Kept (q : Parse Shell ℕ) : Prop := p.src.token ≤ q.src.token ∧
    ∀ i < p.src.token, q.src.tokenBuf.byte i = p.src.tokenBuf.byte i
  have hnext {q q' : Parse Shell ℕ} (hk : Kept q) (hw : Within l q.src q'.src) : Kept q' :=
    ⟨hk.1.trans hw.written.le, fun i hi => (hw.keep i (hi.trans_le hk.1)).trans (hk.2 i hi)⟩
  have hend : Kept q := hq.inv (I := fun q => Taking l q ∧ Kept q) (fun hI => hI.2)
    (fun hI hstep => ⟨(hI.1.step hstep).1, hnext hI.2 (hI.1.step hstep).2⟩)
    (fun hI hstep => hnext hI.2 (hI.1.leave hstep).2) ⟨h, Nat.le_refl _, fun _ _ => rfl⟩
  exact hend.2

/-- Every state at the head of the loop. -/
theorem Ready.visits {s : Shell} {argv : ℕ → Option ℕ} (h : Ready s l)
    (hp : Visits (Parse.trip cap gettoken fds) (Parse.start s argv) p) : Taking l p :=
  hp.inv (fun hI hstep => (hI.step hstep).1) (h.taking argv)

theorem Ready.occurs {s : Shell} {argv : ℕ → Option ℕ} (h : Ready s l)
    (hp : Occurs (Parse.trip cap gettoken fds) (Parse.start s argv) p) : Inside l p :=
  hp.inv Taking.toInside (fun hI hstep => (hI.step hstep).1) (fun hI hstep => (hI.leave hstep).1)
    (h.taking argv)

/-- CORRECT (token store): on every line that `fetch_line` delivers, whatever `open` returns, and
    for any size of `argv`: `input_char` stays on the line and the byte after it, `token` in
    `token_buf`; the strings handed to `run_program` end with a NUL, one before the next one starts,
    and stay as they are; and nothing but a full `argv` stops the loop. -/
theorem tokens_inside {prompt : String} {stdin rest : List UInt8} {s s' : Shell} {k : ℤ}
    (h : fetchLine prompt stdin s = some (s', rest, k)) (hk : k ≠ eof) (fds : ℕ → ℤ)
    (argv : ℕ → Option ℕ) (cap : ℕ) :
    (∀ p, Occurs (Parse.trip cap gettoken fds) (Parse.start s' argv) p →
      p.src.inputChar ≤ k.toNat ∧ p.src.token ≤ 2 * maxBuf ∧ p.argc ≤ maxBuf ∧
        Strings p.src.tokenBuf p.src.token (handed p.log)) ∧
    ∀ p, Visits (Parse.trip cap gettoken fds) (Parse.start s' argv) p →
      (p.trip cap gettoken fds = .inr none ↔ cap < p.argc) ∧
        ∀ q, Occurs (Parse.trip cap gettoken fds) p q →
          ∀ i < p.src.token, q.src.tokenBuf.byte i = p.src.tokenBuf.byte i := by
  obtain ⟨l, hready, rfl⟩ := fetchLine_ready h hk
  have hlen : (l.length + 1 : ℤ).toNat = l.length + 1 := rfl
  have hshort := hready.short
  constructor
  · intro p hp
    have hin := hready.occurs hp
    refine ⟨hlen ▸ hin.input, hin.room, ?_, hin.strings.sublist (List.sublist_append_left ..)⟩
    exact hin.argc.trans (hin.input.trans (Nat.le_of_succ_le hshort))
  · intro p hp
    have htaking := hready.visits hp
    refine ⟨⟨fun hnone => ?_, Parse.trip_full fds⟩, fun q hq => htaking.kept hq⟩
    by_contra hcap
    obtain ⟨q, -, -, ⟨hgo, -⟩ | hret⟩ := htaking.trip fds (Nat.le_of_not_lt hcap)
    · rw [hnone] at hgo
      cases hgo
    · rw [hnone] at hret
      cases hret

end loop

/-- A line with a redirection and two commands. -/
theorem tokens_inside_pipeLine : ∃ s', fetchLine "% " (pipeLine ++ [lf]) Shell.start =
      some (s', [], 16) ∧
    ∀ p, Occurs (Parse.trip maxArg gettoken fun k => 3 + k) (Parse.start s' fun _ => none) p →
      p.src.inputChar ≤ 16 ∧ p.src.token ≤ 2 * maxBuf ∧ p.argc ≤ maxBuf ∧
        Strings p.src.tokenBuf p.src.token (handed p.log) := by
  obtain ⟨s', hs, -⟩ := fetchLine_pipeLine
  exact ⟨s', hs, (tokens_inside hs (by decide) (fun k => 3 + k) (fun _ => none) maxArg).1⟩

end OsLabs.Sh

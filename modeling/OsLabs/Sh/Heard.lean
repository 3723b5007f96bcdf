import OsLabs.Sh.Argv

/-! @src lab1_shell/sh.c | name:heard | scheme:bytes

    What `open`, `error` and `run_program` read behind the pointers that `parse_line` passes to
    them, at the time of the call. A token stands in `token_buf` from where `token` was, and ends
    with a NUL; what comes later stands behind it. So every pointer still leads to the text of its
    token, and the line does what its texts do.

        argv      o    o'                       token
        token_buf c a t 0 f 0                   ..                              -/

namespace OsLabs.Sh
open Schemes

section map
variable {τ τ' : Type}

/-- The call with every pointer read. -/
def Call.map (f : τ → τ') (c : Call τ) : Call τ' := { c with argv := c.argv.map (Option.map f) }

def Event.map (f : τ → τ') : Event τ → Event τ'
  | .open dir path fd => .open dir (f path) fd
  | .error fmt arg => .error fmt (f arg)
  | .run call => .run (call.map f)

end map

/-- What a line does with the strings it names. -/
abbrev Heard := List (Event (List UInt8))

/-- A trip of the loop, and what it has logged, with the strings that then stand in `token_buf`. -/
def hearTrip (fds : ℕ → ℤ) (r : Parse Shell ℕ × Heard) :
    (Parse Shell ℕ × Heard) ⊕ Option (Parse Shell ℕ × Heard) :=
  let hear (p : Parse Shell ℕ) : Parse Shell ℕ × Heard :=
    ({ p with log := [] }, r.2 ++ p.log.map (Event.map p.src.tokenBuf.string))
  (r.1.trip maxArg gettoken fds).map hear (Option.map hear)

/-- `parse_line`, with what it does. -/
def hearLine (fds : ℕ → ℤ) (fuel : ℕ) (s : Shell) (argv : ℕ → Option ℕ) :
    Option (Parse Shell ℕ × Heard) :=
  (iter (hearTrip fds) fuel (Parse.start s argv, [])).join

/-- The text of a lexeme, as a C string. -/
def text (w : List UInt8) : List UInt8 := w.takeWhile (· ≠ 0)

/-- The tokens of a line, with their texts. -/
def texts (l : List UInt8) : List (TokenType × List UInt8) := (lexed l).map (Prod.map id text)

/-- The string `w` stands at `a`, with its NUL below `top`. -/
structure Stored (b : Buf 1024) (top a : ℕ) (w : List UInt8) : Prop where
  string : b.string a = w
  below : a + w.length < top

theorem Stored.keep {b b' : Buf 1024} {top top' a : ℕ} {w : List UInt8} (h : Stored b top a w)
    (hb : ∀ i < top, b'.byte i = b.byte i) (htop : top ≤ top') : Stored b' top' a w := by
  obtain ⟨rfl, hbelow⟩ := h
  rw [Buf.string] at hbelow
  exact ⟨Mem.string_congr fun j hj => hb (a + j) (by omega), hbelow.trans_le htop⟩

/-- What one call of `gettoken` does to the shell. -/
structure Took (s s' : Shell) (w : List UInt8) : Prop where
  stored : Stored s'.tokenBuf s'.token s.token w
  mono : s.token ≤ s'.token
  keep : ∀ i < s.token, s'.tokenBuf.byte i = s.tokenBuf.byte i
  stdout : s'.stdout = s.stdout

/-- The tokens that are left of the line. -/
def Left (s : Shell) (ts : List (TokenType × List UInt8)) : Prop :=
  ∃ body, Unread s (body ++ [lf]) ∧ lf ∉ body ∧ ts = texts (body ++ [lf])

section gettoken
variable {s : Shell} {ts : List (TokenType × List UInt8)} {l bs w r : List UInt8} {c : UInt8}

theorem gettoken_took (hu : Unread s l) (h : Lexeme l bs c w r) :
    Took s (s.took (bs.length + 1 + w.length) (c :: w ++ [0])) (text (c :: w)) := by
  obtain ⟨-, hroom, hholds⟩ := gettoken_points hu h
  have hlen : (text (c :: w)).length ≤ (c :: w).length := (List.takeWhile_sublist _).length_le
  refine ⟨⟨Mem.string_takeWhile hholds ?_, ?_⟩, ?_, fun i hi => Buf.store_out (.inl hi), rfl⟩
  · have hmax : 2 * maxBuf = 1024 := rfl
    dsimp only at hroom
    omega
  · simp only [Shell.took, List.length_append, List.length_singleton]
    omega
  · exact Nat.le_add_right ..

/-- One call takes the first token that is left. -/
theorem Left.gettoken (h : Left s ts) : ∃ s' type w ts', ts = (type, w) :: ts' ∧
    gettoken s = some (s', type, s.token) ∧ Took s s' w ∧ (type ≠ .newline → Left s' ts') := by
  obtain ⟨body, hu, hlf, rfl⟩ := h
  rcases line_cases hlf with h | ⟨bs, c, w, body', h, -, hlf', -⟩
  · refine ⟨_, _, _, texts [], ?_, (gettoken_eq hu h).1, gettoken_took hu h, ?_⟩
    · rw [texts, lexed_cons h]
      rfl
    · intro hne
      exact absurd (tokenType_newline.mpr rfl) hne
  · obtain ⟨hget, hu'⟩ := gettoken_eq hu h
    refine ⟨_, _, _, texts (body' ++ [lf]), ?_, hget, gettoken_took hu h,
      fun _ => ⟨body', hu', hlf', rfl⟩⟩
    rw [texts, lexed_cons h]
    rfl

end gettoken

/-! ### The loop on the buffers and the loop on the texts -/

/-- The first `n` pointers lead to the strings. -/
def Slots (b : Buf 1024) (top n : ℕ) (argv : ℕ → Option ℕ) (strings : ℕ → Option (List UInt8)) :
    Prop := ∀ i < n, ∃ a w, argv i = some a ∧ strings i = some w ∧ Stored b top a w

/-- The variables of `p` are those of `q`, with pointers in `argv`. -/
structure Agrees (out : List String) (n : ℕ)
    (q : Parse (List (TokenType × List UInt8)) (List UInt8)) (p : Parse Shell ℕ) : Prop where
  argc : p.argc = q.argc
  argv : Slots p.src.tokenBuf p.src.token n p.argv q.argv
  inputFd : p.inputFd = q.inputFd
  outputFd : p.outputFd = q.outputFd
  opens : p.opens = q.opens
  stdout : p.src.stdout = out

/-- At the head of the loop: the tokens that are left, and what has been done. -/
structure Mirrors (out : List String) (q : Parse (List (TokenType × List UInt8)) (List UInt8))
    (r : Parse Shell ℕ × Heard) : Prop where
  left : Left r.1.src q.src
  agrees : Agrees out q.argc q r.1
  log : r.1.log = []
  heard : r.2 = q.log

/-- Behind the loop. -/
structure Ended (out : List String) (q : Parse (List (TokenType × List UInt8)) (List UInt8))
    (r : Parse Shell ℕ × Heard) : Prop where
  opens : r.1.opens = q.opens
  heard : r.2 = q.log
  stdout : r.1.src.stdout = out

section slots
variable {b b' : Buf 1024} {top top' n a : ℕ} {argv : ℕ → Option ℕ}
  {strings : ℕ → Option (List UInt8)} {w : List UInt8} {s s' : Shell}

/-- The next token fills the slot behind them. -/
theorem Slots.asked (h : Slots s.tokenBuf s.token n argv strings) (ht : Took s s' w) :
    Slots s'.tokenBuf s'.token (n + 1) (Function.update argv n (some s.token))
      (Function.update strings n (some w)) := by
  intro i hi
  rcases Nat.lt_or_eq_of_le (Nat.le_of_lt_succ hi) with hlt | rfl
  · rw [Function.update_of_ne hlt.ne, Function.update_of_ne hlt.ne]
    obtain ⟨a, v, ha, hv, hstored⟩ := h i hlt
    exact ⟨a, v, ha, hv, hstored.keep ht.keep ht.mono⟩
  · rw [Function.update_self, Function.update_self]
    exact ⟨_, _, rfl, rfl, ht.stored⟩

theorem Slots.pred (h : Slots b top (n + 1) argv strings) : Slots b top n argv strings :=
  fun i hi => h i (Nat.lt_succ_of_lt hi)

/-- What `run_program` reads. -/
theorem Slots.read (h : Slots b top n argv strings) :
    ((List.range (n + 1)).map (Function.update argv n none)).map (Option.map b.string) =
      (List.range (n + 1)).map (Function.update strings n none) := by
  rw [List.map_map]
  refine List.map_congr_left fun i hi => ?_
  rcases Nat.lt_or_eq_of_le (Nat.le_of_lt_succ (List.mem_range.mp hi)) with hlt | rfl
  · obtain ⟨a, w, ha, hw, hstored⟩ := h i hlt
    simp [Function.update_of_ne hlt.ne, ha, hw, hstored.string]
  · simp

end slots

section trip
variable {out : List String} {q : Parse (List (TokenType × List UInt8)) (List UInt8)}
  {p : Parse Shell ℕ} {r : Parse Shell ℕ × Heard} {s' : Shell} {w : List UInt8} {fds : ℕ → ℤ}
  {ts : List (TokenType × List UInt8)} {n : ℕ} {type : TokenType}

theorem Agrees.asked (h : Agrees out q.argc q p) (ht : Took p.src s' w) :
    Agrees out (q.argc + 1) (q.asked ts w) (p.asked s' p.src.token) where
  argc := h.argc
  argv := by
    have hslots := h.argv.asked ht
    rwa [Parse.asked, Parse.asked, h.argc]
  inputFd := h.inputFd
  outputFd := h.outputFd
  opens := h.opens
  stdout := ht.stdout.trans h.stdout

theorem Agrees.pred (h : Agrees out (n + 1) q p) : Agrees out n q p :=
  ⟨h.argc, h.argv.pred, h.inputFd, h.outputFd, h.opens, h.stdout⟩

/-- A redirection. -/
theorem Agrees.redirected (h : Agrees out n q p) (dir : Redirection) (a : ℕ) (fd : ℤ) :
    Agrees out n (q.redirected dir w fd) { p.redirected dir a fd with log := [] } := by
  have hopens : p.opens + 1 = q.opens + 1 := congrArg Nat.succ h.opens
  cases dir with
  | input => exact ⟨h.argc, h.argv, rfl, h.outputFd, hopens, h.stdout⟩
  | output => exact ⟨h.argc, h.argv, h.inputFd, rfl, hopens, h.stdout⟩

/-- The pointers that `run_program` is given lead to the strings. -/
theorem Agrees.call (h : Agrees out q.argc q p) (type : TokenType) :
    (p.call type).map p.src.tokenBuf.string = q.call type := by
  have hread := h.argv.read
  simp only [Parse.call, Call.map, h.argc, h.inputFd, h.outputFd, hread]

theorem Agrees.called (h : Agrees out n q p) (type : TokenType) :
    Agrees out 0 (q.called type) { p.called type with log := [] } :=
  ⟨rfl, fun _ hi => absurd hi (Nat.not_lt_zero _), rfl, rfl, h.opens, h.stdout⟩

theorem map_opening (f : ℕ → List UInt8) (dir : Redirection) (a : ℕ) (fd : ℤ) :
    (opening dir a fd).map (Event.map f) = opening dir (f a) fd := by
  rw [opening, opening]
  split <;> rfl

theorem hearTrip_inl (h : r.1.trip maxArg gettoken fds = .inl p) : hearTrip fds r =
    .inl ({ p with log := [] }, r.2 ++ p.log.map (Event.map p.src.tokenBuf.string)) := by
  rw [hearTrip, h]
  rfl

theorem hearTrip_inr (h : r.1.trip maxArg gettoken fds = .inr (some p)) : hearTrip fds r =
    .inr (some ({ p with log := [] }, r.2 ++ p.log.map (Event.map p.src.tokenBuf.string))) := by
  rw [hearTrip, h]
  rfl

/-- A token that opens a redirection, and the one behind it. -/
theorem Mirrors.redirect (h : Mirrors out q r) (hcap : q.argc ≤ maxArg) (dir : Redirection)
    (hnext : fromList q.src = some (ts, dir.type, w))
    (hget : gettoken r.1.src = some (s', dir.type, r.1.src.token)) (ht : Took r.1.src s' w)
    (hleft : Left s' ts) : Sum.LiftRel (Mirrors out) (Option.Rel (Ended out))
      (q.trip maxArg fromList fds) (hearTrip fds r) := by
  obtain ⟨-, hagrees, hlog, hheard⟩ := h
  have hcap' : r.1.argc ≤ maxArg := hagrees.argc ▸ hcap
  obtain ⟨s₂, type, y, ts', rfl, hget', ht', hleft'⟩ := hleft.gettoken
  have hagain : Agrees out q.argc (q.asked ts' y) (r.1.asked s₂ s'.token) := by
    have hfirst : Agrees out q.argc (q.asked ts' w) (r.1.asked s' r.1.src.token) :=
      (hagrees.asked ht).pred
    have hboth : Agrees out (q.argc + 1) ((q.asked ts' w).asked ts' y) _ :=
      Agrees.asked (q := q.asked ts' w) hfirst ht'
    rw [Parse.asked_asked, Parse.asked_asked] at hboth
    exact hboth.pred
  by_cases hn : type = .normal
  · subst hn
    rw [Parse.trip_file fds hcap hnext (rfl : fromList ((_, y) :: ts') = _),
      hearTrip_inl (Parse.trip_file fds hcap' hget hget'), hagrees.opens]
    refine .inl ⟨?_, ?_, rfl, ?_⟩
    · dsimp only
      rw [Parse.redirected_src, Parse.redirected_src]
      exact hleft' TokenType.noConfusion
    · rw [Parse.redirected_argc]
      exact hagain.redirected dir _ _
    · have hstring : ((r.1.asked s₂ s'.token).redirected dir s'.token
          (fds q.opens)).src.tokenBuf.string s'.token = y := by
        rw [Parse.redirected_src]
        exact ht'.stored.string
      have hlogged : ((r.1.asked s₂ s'.token).redirected dir s'.token (fds q.opens)).log =
          opening dir s'.token (fds q.opens) := by
        rw [Parse.redirected, Parse.asked, hlog, List.nil_append]
      rw [hlogged, map_opening, hstring, hheard]
      rfl
  · rw [Parse.trip_misnamed fds hcap hnext (rfl : fromList ((_, y) :: ts') = _) hn,
      hearTrip_inr (Parse.trip_misnamed fds hcap' hget hget' hn)]
    refine .inr (.some ⟨hagrees.opens, ?_, hagain.stdout⟩)
    have hstring : s₂.tokenBuf.string s'.token = y := ht'.stored.string
    rw [hlog, List.nil_append, hheard]
    simp [misnamed, Event.map, Parse.asked, hstring]

/-- A token that ends a command. -/
theorem Mirrors.command (h : Mirrors out q r) (hcap : q.argc ≤ maxArg)
    (hnext : fromList q.src = some (ts, type, w))
    (hget : gettoken r.1.src = some (s', type, r.1.src.token)) (ht : Took r.1.src s' w)
    (hleft : type ≠ .newline → Left s' ts) (hsep : type.isSeparator = true) :
    Sum.LiftRel (Mirrors out) (Option.Rel (Ended out)) (q.trip maxArg fromList fds)
      (hearTrip fds r) := by
  obtain ⟨-, hagrees, hlog, hheard⟩ := h
  have hasked : Agrees out q.argc (q.asked ts w) (r.1.asked s' r.1.src.token) :=
    (hagrees.asked ht).pred
  have hcap' : r.1.argc ≤ maxArg := hagrees.argc ▸ hcap
  by_cases hargc : q.argc = 0
  · rw [Parse.trip_empty fds hargc hnext hsep,
      hearTrip_inr (Parse.trip_empty fds (hagrees.argc.trans hargc) hget hsep)]
    refine .inr (.some ⟨hagrees.opens, ?_, hasked.stdout⟩)
    simp [Parse.asked, hlog, hheard]
  · have hargc' : r.1.argc ≠ 0 := hagrees.argc ▸ hargc
    have htrip := Parse.trip_run fds hcap' hargc' hget hsep
    have hcall : ((r.1.asked s' r.1.src.token).call type).map s'.tokenBuf.string =
        (q.asked ts w).call type := Agrees.call (q := q.asked ts w) hasked type
    have hdone : r.2 ++ ((r.1.asked s' r.1.src.token).called type).log.map
        (Event.map s'.tokenBuf.string) = ((q.asked ts w).called type).log := by
      simpa [Parse.called, Parse.asked, hlog, hheard, Event.map] using hcall
    rw [Parse.trip_run fds hcap hargc hnext hsep]
    by_cases hnl : type = .newline
    · rw [if_pos hnl] at htrip ⊢
      rw [hearTrip_inr htrip]
      exact .inr (.some ⟨hagrees.opens, hdone, hasked.stdout⟩)
    · rw [if_neg hnl] at htrip ⊢
      rw [hearTrip_inl htrip]
      exact .inl ⟨hleft hnl, hasked.called type, rfl, hdone⟩

/-- One trip over the texts is one over the buffers. -/
theorem Mirrors.trip (h : Mirrors out q r) : Sum.LiftRel (Mirrors out) (Option.Rel (Ended out))
    (q.trip maxArg fromList fds) (hearTrip fds r) := by
  have hargc := h.agrees.argc
  rcases Nat.lt_or_ge maxArg q.argc with hfull | hcap
  · have hr : hearTrip fds r = .inr none := by
      rw [hearTrip, Parse.trip_full fds (hargc ▸ hfull)]
      rfl
    rw [Parse.trip_full fds hfull, hr]
    exact .inr .none
  · obtain ⟨s', type, w, ts, hts, hget, ht, hleft⟩ := h.left.gettoken
    have hnext : fromList q.src = some (ts, type, w) := by
      rw [hts]
      rfl
    cases type with
    | normal =>
      rw [Parse.trip_word fds hcap hnext, hearTrip_inl (Parse.trip_word fds (hargc ▸ hcap) hget)]
      have hasked : Agrees out (q.argc + 1) (q.asked ts w) _ := h.agrees.asked ht
      refine .inl ⟨hleft TokenType.noConfusion, ?_, rfl, ?_⟩
      · exact ⟨congrArg Nat.succ hasked.argc, hasked.argv, hasked.inputFd, hasked.outputFd,
          hasked.opens, hasked.stdout⟩
      · simp [Parse.asked, h.log, h.heard]
    | input => exact h.redirect hcap .input hnext hget ht (hleft TokenType.noConfusion)
    | output => exact h.redirect hcap .output hnext hget ht (hleft TokenType.noConfusion)
    | pipe | ampersand | newline | semicolon => exact h.command hcap hnext hget ht hleft rfl

end trip

/-! ### A line -/

/-- No command that the loop comes to has more words than `argv` has room for. -/
def Fits (l : List UInt8) : Prop :=
  ∀ c ∈ reached (commands (lexed (l ++ [lf]))), c.1.words.length ≤ maxArg

section line
variable {l : List UInt8} {s : Shell} {fds : ℕ → ℤ}

/-- The tokens of a line end with the newline. -/
theorem lexed_line (hlf : lf ∉ l) : ∃ body t, lexed (l ++ [lf]) = body ++ [(.newline, t)] ∧
    (∀ u ∈ body, u.1 ≠ .newline) ∧ body.length ≤ l.length := by
  induction hlen : l.length using Nat.strong_induction_on generalizing l with
  | _ n ih =>
    rcases line_cases hlf with h | ⟨bs, c, w, l', h, hc, hlf', hless⟩
    · exact ⟨[], [lf], lexed_cons h, List.forall_mem_nil _, Nat.zero_le _⟩
    · obtain ⟨body, t, heq, hbody, hle⟩ := ih _ (hlen ▸ hless) hlf' rfl
      refine ⟨(tokenType c, c :: w) :: body, t, by rw [lexed_cons h, heq]; rfl, ?_, ?_⟩
      · exact List.forall_mem_cons.mpr ⟨mt tokenType_newline.mp hc, hbody⟩
      · rw [List.length_cons]
        omega

theorem texts_line (hlf : lf ∉ l) : ∃ body t, texts (l ++ [lf]) = body ++ [(.newline, t)] ∧
    (∀ u ∈ body, u.1 ≠ .newline) ∧ body.length ≤ l.length := by
  obtain ⟨body, t, heq, hbody, hle⟩ := lexed_line hlf
  refine ⟨body.map (Prod.map id text), text t, ?_, ?_, by rwa [List.length_map]⟩
  · rw [texts, heq, List.map_append]
    rfl
  · exact List.forall_mem_map.mpr hbody

/-- Only the types of the tokens matter. -/
theorem fits_iff : Fits l ↔
    ∀ c ∈ reached (commands (texts (l ++ [lf]))), c.1.words.length ≤ maxArg :=
  (fits_map text _ _).symm

theorem reads_fromList {τ : Type} : ∀ ts : List (TokenType × τ), Reads fromList ts ts
  | [] => trivial
  | _ :: ts => ⟨ts, rfl, reads_fromList ts⟩

theorem Ready.mirrors (h : Ready s l) (argv : ℕ → Option ℕ) :
    Mirrors s.stdout (Parse.start (texts (l ++ [lf])) fun _ => none)
      (Parse.start s argv, []) where
  left := ⟨l, h.unread, h.noLf, rfl⟩
  agrees := ⟨rfl, fun _ hi => absurd hi (Nat.not_lt_zero _), rfl, rfl, rfl, rfl⟩
  log := rfl
  heard := rfl

/-- `parse_line` on the buffers is `parse_line` on the texts. -/
theorem Ready.lockstep (h : Ready s l) (fds : ℕ → ℤ) (argv : ℕ → Option ℕ) (n : ℕ) :
    Option.Rel (Ended s.stdout) (parseLine fromList fds n (texts (l ++ [lf])) fun _ => none)
      (hearLine fds n s argv) :=
  rel_join (iter_lockstep Mirrors.trip n (h.mirrors argv))

/-- A line that fits does what its segments do. -/
theorem Ready.hears (h : Ready s l) (hfits : Fits l) (fds : ℕ → ℤ) (argv : ℕ → Option ℕ) : ∃ p,
    hearLine fds maxBuf s argv = some (p, does fds 0 (sentences (texts (l ++ [lf])))) ∧
      p.opens = opens (does fds 0 (sentences (texts (l ++ [lf])))) ∧
      p.src.stdout = s.stdout := by
  have hshort := h.short
  have hrel := h.lockstep fds argv maxBuf
  obtain ⟨body, t, heq, hbody, hle⟩ := texts_line h.noLf
  have hwords := fits_iff.mp hfits
  rw [heq] at hwords hrel ⊢
  obtain ⟨q, hq, hlog, hopens⟩ := parseLine_log fds (fun _ => none) hbody hwords
    (show body.length < maxBuf by omega)
  rw [hq, rel_some_iff] at hrel
  obtain ⟨⟨p, heard⟩, hr, hend⟩ := hrel
  obtain rfl : heard = q.log := hend.heard
  exact ⟨p, hlog ▸ hr, hend.opens.trans hopens, hend.stdout⟩

/-- Any other line leads past the end of `argv`. -/
theorem Ready.overflows (h : Ready s l) (hfits : ¬Fits l) (fds : ℕ → ℤ) (argv : ℕ → Option ℕ)
    (n : ℕ) : hearLine fds n s argv = none := by
  have hrel := h.lockstep fds argv n
  obtain ⟨body, t, heq, hbody, -⟩ := texts_line h.noLf
  rw [fits_iff, heq] at hfits
  rw [heq] at hrel
  cases hq : parseLine fromList fds n (body ++ [(.newline, t)]) fun _ => none with
  | none =>
    rw [hq] at hrel
    exact rel_none_iff.mp hrel
  | some q =>
    have hin := inBounds_of_iter (Option.some_ne_none q) (Option.join_eq_some_iff.mp hq)
    exact absurd ((Sh.inBounds_iff hbody (reads_fromList _) fds _).mp hin) hfits

end line

end OsLabs.Sh

import OsLabs.Sh.Commands

/-! @src lab1_shell/sh.c | name:meaning | scheme:loop

    Everything that `parse_line` does on a line, in order: the files it opens, the messages it
    prints and the programs it runs. A segment opens its files as they come. Behind them is the
    message about a redirection without a file name, or the program, and then the next segment.

    The loop is followed once, from segment to segment, with an `argv` of any size: where the words
    of a command do not fit, it comes to a state past the end of `argv`.

        cat < f | wc > ⏎        open f    run cat    expected file name: but found ⏎       -/

namespace OsLabs.Sh
open Schemes
variable {τ : Type}

/-- The files of a segment, up to a redirection that no word follows. -/
def files : List (TokenType × τ) → List (Redirection × τ)
  | (.normal, _) :: ts => files ts
  | (.input, _) :: (.normal, f) :: ts => (.input, f) :: files ts
  | (.output, _) :: (.normal, f) :: ts => (.output, f) :: files ts
  | _ => []

/-- What stands in the place of a file name, in a segment or behind it. -/
def misplaced (sep : τ) : List (TokenType × τ) → τ
  | (.normal, _) :: ts => misplaced sep ts
  | (.input, _) :: (.normal, _) :: ts => misplaced sep ts
  | (.output, _) :: (.normal, _) :: ts => misplaced sep ts
  | _ :: (_, x) :: _ => x
  | _ => sep

/-- The segments of a stream, each with the token that ends it. -/
def sentences : List (TokenType × τ) → List (List (TokenType × τ) × TokenType × τ)
  | [] => []
  | t :: ts =>
    if t.1.isSeparator then ([], t) :: sentences ts
    else
      match sentences ts with
      | [] => []
      | (seg, sep) :: rest => (t :: seg, sep) :: rest

/-- Opening files, `k` calls of `open` having been made before. -/
def openings (fds : ℕ → ℤ) : ℕ → List (Redirection × τ) → List (Event τ)
  | _, [] => []
  | k, (dir, path) :: rest => opening dir path (fds k) ++ openings fds (k + 1) rest

/-- What the segments of a line do. -/
def does (fds : ℕ → ℤ) : ℕ → List (List (TokenType × τ) × TokenType × τ) → List (Event τ)
  | _, [] => []
  | k, (seg, type, x) :: rest =>
    openings fds k (files seg) ++
      if (readCommand seg).complete = false then [misnamed (misplaced x seg)]
      else if (readCommand seg).words = [] then []
      else .run (callOf fds k (readCommand seg) type) :: does fds (k + (files seg).length) rest

/-- How often a log calls `open`. -/
def opens : List (Event τ) → ℕ
  | [] => 0
  | .open _ _ _ :: log => opens log + 1
  | .error _ _ :: log => opens log
  | .run _ :: log => opens log

/-! ### What a segment logs -/

section log
variable {fds : ℕ → ℤ} {log log' : List (Event τ)} {dir : Redirection} {path : τ} {fd : ℤ} {k : ℕ}
  {seg : List (TokenType × τ)} {l : List (Redirection × τ)} {x : τ}

theorem opens_append : opens (log ++ log') = opens log + opens log' := by
  induction log with
  | nil => simp [opens]
  | cons e log ih => cases e <;> simp [opens, ih, Nat.add_right_comm]

theorem opens_opening : opens (opening dir path fd) = 1 := by
  rw [opening]
  split <;> rfl

theorem calls_opening : calls (opening dir path fd) = [] := by
  rw [opening]
  split <;> rfl

theorem calls_openings : calls (openings fds k l) = [] := by
  induction l generalizing k with
  | nil => rfl
  | cons r l ih => rw [openings, calls_append, calls_opening, ih, List.nil_append]

theorem opens_openings : opens (openings fds k l) = l.length := by
  induction l generalizing k with
  | nil => rfl
  | cons r l ih => rw [openings, opens_append, opens_opening, ih, List.length_cons, Nat.add_comm]

/-- A segment redirects what its files redirect. -/
theorem files_redirections (seg : List (TokenType × τ)) :
    (files seg).map Prod.fst = (readCommand seg).redirections := by
  induction seg using readCommand.induct with
  | case1 => rfl
  | case2 w ts ih => rw [files, readCommand, ih]
  | case3 u w ts ih => rw [files, readCommand, List.map_cons, ih]
  | case4 u w ts ih => rw [files, readCommand, List.map_cons, ih]
  | case5 seg hne hword hin hout => rw [files, readCommand] <;> first | rfl | assumption

theorem sentences_segments (stream : List (TokenType × τ)) :
    (sentences stream).map (fun s => (s.1, s.2.1)) = segments stream := by
  induction stream with
  | nil => rfl
  | cons t ts ih =>
    rw [sentences, segments]
    split
    · rw [List.map_cons, ih]
    · rw [← ih]
      cases sentences ts <;> rfl

/-- The programs that a line runs are those of its commands. -/
theorem calls_does (fds : ℕ → ℤ) (stream : List (TokenType × τ)) :
    calls (does fds k (sentences stream)) = callsOf fds k (commands stream) := by
  rw [commands, ← sentences_segments]
  induction sentences stream generalizing k with
  | nil => rfl
  | cons s rest ih =>
    obtain ⟨seg, type, x⟩ := s
    rw [does, List.map_cons, List.map_cons, callsOf, calls_append, calls_openings, List.nil_append]
    by_cases hc : (readCommand seg).complete = false
    · rw [if_pos hc, if_pos (Or.inr hc)]
      rfl
    · rw [if_neg hc]
      by_cases hw : (readCommand seg).words = []
      · rw [if_pos hw, if_pos (Or.inl hw)]
        rfl
      · rw [if_neg hw, if_neg (not_or.mpr ⟨hw, hc⟩), ← files_redirections, List.length_map]
        exact congrArg (_ :: ·) ih

end log

/-! ### The loop on a segment -/

/-- The loop is inside a segment: it has read the words `ws` and opened `acc` in it; `log` is what
    it has done in all, and `r` is left. -/
structure At (p : Parse (List (TokenType × τ)) τ) (ws : List τ) (acc : List (Redirection × ℤ))
    (log : List (Event τ)) (r : List (TokenType × τ)) : Prop where
  src : p.src = r
  argc : p.argc = ws.length
  argv : ∀ i < ws.length, p.argv i = ws[i]?
  inputFd : p.inputFd = lastFd .input acc
  outputFd : p.outputFd = lastFd .output acc
  logged : p.log = log
  counted : p.opens = opens log

/-- The loop leaves from `p` with the log `log`, after at most `n` trips. -/
def Leaves (cap : ℕ) (fds : ℕ → ℤ) (n : ℕ) (p : Parse (List (TokenType × τ)) τ)
    (log : List (Event τ)) : Prop :=
  ∃ p' q, VisitsIn (Parse.trip cap fromList fds) n p p' ∧
    p'.trip cap fromList fds = .inr (some q) ∧ q.log = log ∧ q.opens = opens log

/-- The loop comes from `p` to a state past the end of `argv`. -/
def Overflows (cap : ℕ) (fds : ℕ → ℤ) (p : Parse (List (TokenType × τ)) τ) : Prop :=
  ∃ p', Visits (Parse.trip cap fromList fds) p p' ∧ cap < p'.argc

/-- What the loop does on a segment: its words do not fit, it leaves at a redirection without a file
    name, or it comes to the separator. -/
inductive Through (cap : ℕ) (fds : ℕ → ℤ) (p : Parse (List (TokenType × τ)) τ) (ws : List τ)
    (acc : List (Redirection × ℤ)) (log : List (Event τ)) (seg : List (TokenType × τ)) (x : τ)
    (r : List (TokenType × τ)) : Prop
  | full (hn : cap < ws.length + (readCommand seg).words.length) (h : Overflows cap fds p)
  | stuck (hn : ws.length + (readCommand seg).words.length ≤ cap)
      (hc : (readCommand seg).complete = false)
      (h : Leaves cap fds seg.length p
        (log ++ openings fds (opens log) (files seg) ++ [misnamed (misplaced x seg)]))
  | through {p' : Parse (List (TokenType × τ)) τ}
      (hn : ws.length + (readCommand seg).words.length ≤ cap)
      (hc : (readCommand seg).complete = true)
      (hv : VisitsIn (Parse.trip cap fromList fds) seg.length p p')
      (h : At p' (ws ++ (readCommand seg).words)
        (acc ++ opened fds (opens log) (readCommand seg).redirections)
        (log ++ openings fds (opens log) (files seg)) r)

section segment
variable {cap m n : ℕ} {fds : ℕ → ℤ} {p p' : Parse (List (TokenType × τ)) τ} {ws : List τ}
  {acc : List (Redirection × ℤ)} {log log' : List (Event τ)} {r seg : List (TokenType × τ)}
  {type : TokenType} {x y : τ} {dir : Redirection}

theorem Leaves.visits (h : Leaves cap fds n p' log)
    (hv : VisitsIn (Parse.trip cap fromList fds) m p p') : Leaves cap fds (m + n) p log := by
  obtain ⟨q, q', hq, hleave⟩ := h
  exact ⟨q, q', hv.trans hq, hleave⟩

theorem Leaves.head (h : Leaves cap fds n p' log) (htrip : p.trip cap fromList fds = .inl p') :
    Leaves cap fds (n + 1) p log := by
  obtain ⟨q, q', hq, hleave⟩ := h
  exact ⟨q, q', .head htrip hq, hleave⟩

theorem Leaves.mono (h : Leaves cap fds n p log) (hle : n ≤ m) : Leaves cap fds m p log := by
  obtain ⟨q, q', hq, hleave⟩ := h
  exact ⟨q, q', hq.mono hle, hleave⟩

/-- The trip that leaves needs fuel too. -/
theorem Leaves.iter (h : Leaves cap fds n p log) (hm : n < m) : ∃ q,
    Schemes.iter (Parse.trip cap fromList fds) m p = some (some q) ∧ q.log = log ∧
      q.opens = opens log := by
  obtain ⟨p', q, hv, htrip, hlog⟩ := h
  exact ⟨q, iter_mono hm (hv.iter (m := 1) (iter_inr htrip)), hlog⟩

theorem Overflows.visits (h : Overflows cap fds p')
    (hv : Visits (Parse.trip cap fromList fds) p p') : Overflows cap fds p := by
  obtain ⟨q, hq, hargc⟩ := h
  exact ⟨q, hv.trans hq, hargc⟩

namespace At

theorem next (h : At p ws acc log ((type, x) :: r)) : fromList p.src = some (r, type, x) := by
  rw [h.src]
  rfl

theorem room (h : At p ws acc log r) (hn : ws.length ≤ cap) : p.argc ≤ cap := h.argc ▸ hn

/-- Asking for a token fills the slot after the words and changes nothing else. -/
theorem asked (h : At p ws acc log seg) (r : List (TokenType × τ)) (x : τ) :
    At (p.asked r x) ws acc log r ∧ (p.asked r x).argv ws.length = some x := by
  refine ⟨⟨rfl, h.argc, fun i hi => ?_, h.inputFd, h.outputFd, h.logged, h.counted⟩, ?_⟩
  · exact (Function.update_of_ne (by rw [h.argc]; omega) _ _).trans (h.argv i hi)
  · rw [← h.argc]
    exact Function.update_self ..

/-- A word. -/
theorem word (fds : ℕ → ℤ) (h : At p ws acc log ((.normal, x) :: r)) (hn : ws.length ≤ cap) :
    ∃ p', p.trip cap fromList fds = .inl p' ∧ At p' (ws ++ [x]) acc log r := by
  obtain ⟨h', hx⟩ := h.asked r x
  refine ⟨_, Parse.trip_word fds (h.room hn) h.next, h'.src, ?_, fun i hi => ?_, h'.inputFd,
    h'.outputFd, h'.logged, h'.counted⟩
  · rw [List.length_append, ← h'.argc]
    rfl
  · rw [List.length_append, List.length_singleton] at hi
    rcases Nat.lt_or_eq_of_le (Nat.le_of_lt_succ hi) with hlt | rfl
    · rw [List.getElem?_append_left hlt]
      exact h'.argv i hlt
    · rw [List.getElem?_append_right le_rfl, Nat.sub_self]
      exact hx

/-- Opening a file sets the descriptor of its direction. -/
theorem redirected (fds : ℕ → ℤ) (dir : Redirection) (h : At p ws acc log r) (path : τ) :
    At (p.redirected dir path (fds p.opens)) ws (acc ++ [(dir, fds (opens log))])
      (log ++ opening dir path (fds (opens log))) r := by
  have hopens : p.opens + 1 = opens (log ++ opening dir path (fds (opens log))) := by
    rw [opens_append, opens_opening, h.counted]
  have hlog : p.log ++ opening dir path (fds p.opens) =
      log ++ opening dir path (fds (opens log)) := by rw [h.logged, h.counted]
  have hfd : fds p.opens = fds (opens log) := by rw [h.counted]
  cases dir with
  | input =>
    exact ⟨h.src, h.argc, h.argv, hfd.trans (lastFd_append_self _).symm,
      h.outputFd.trans (lastFd_append_other (by decide) _).symm, hlog, hopens⟩
  | output =>
    exact ⟨h.src, h.argc, h.argv, h.inputFd.trans (lastFd_append_other (by decide) _).symm,
      hfd.trans (lastFd_append_self _).symm, hlog, hopens⟩

/-- A redirection and its file. -/
theorem file (fds : ℕ → ℤ) (dir : Redirection)
    (h : At p ws acc log ((dir.type, x) :: (.normal, y) :: r)) (hn : ws.length ≤ cap) :
    ∃ p', p.trip cap fromList fds = .inl p' ∧ At p' ws (acc ++ [(dir, fds (opens log))])
      (log ++ opening dir y (fds (opens log))) r :=
  ⟨_, Parse.trip_file fds (h.room hn) h.next (rfl : fromList ((_, y) :: r) = _),
    (h.asked r y).1.redirected fds dir y⟩

/-- A redirection and another token. -/
theorem misnamed (fds : ℕ → ℤ) (h : At p ws acc log ((dir.type, x) :: (type, y) :: r))
    (ht : type ≠ .normal) (hn : ws.length ≤ cap) :
    Leaves cap fds n p (log ++ [Sh.misnamed y]) := by
  refine ⟨p, _, .refl, Parse.trip_misnamed fds (h.room hn) h.next
    (rfl : fromList ((_, y) :: r) = _) ht, ?_, ?_⟩
  · rw [h.logged]
  · rw [opens_append]
    exact h.counted

/-- A separator after no words. -/
theorem empty (fds : ℕ → ℤ) (h : At p [] acc log ((type, x) :: r))
    (ht : type.isSeparator = true) : Leaves cap fds n p log :=
  ⟨p, _, .refl, Parse.trip_empty fds h.argc h.next ht, h.logged, h.counted⟩

/-- The slots of `argv` that `run_program` is given. -/
theorem slots (h : At p ws acc log r) :
    (List.range (p.argc + 1)).map (Function.update p.argv p.argc none) = ws.map some ++ [none] := by
  rw [h.argc, List.range_succ, List.map_append, List.map_singleton, Function.update_self]
  congr 1
  refine List.ext_getElem? fun i => ?_
  rw [List.getElem?_map, List.getElem?_map]
  rcases Nat.lt_or_ge i ws.length with hi | hi
  · rw [List.getElem?_range hi, List.getElem?_eq_getElem hi, Option.map_some, Option.map_some,
      Function.update_of_ne (Nat.ne_of_lt hi), h.argv i hi, List.getElem?_eq_getElem hi]
  · rw [List.getElem?_eq_none (by simpa using hi), List.getElem?_eq_none hi]
    rfl

/-- A separator after words. -/
theorem run (fds : ℕ → ℤ) (h : At p ws acc log ((type, x) :: r)) (ht : type.isSeparator = true)
    (hws : ws ≠ []) (hn : ws.length ≤ cap) :
    ∃ p', p.trip cap fromList fds = (if type = .newline then .inr (some p') else .inl p') ∧
      At p' [] [] (log ++ [.run ⟨ws.map some ++ [none], ws.length,
        type ≠ .pipe && type ≠ .ampersand, type = .pipe, lastFd .input acc,
        lastFd .output acc⟩]) r := by
  have hargc : p.argc ≠ 0 := by
    rw [h.argc]
    simpa using hws
  obtain ⟨h', -⟩ := h.asked r x
  refine ⟨_, Parse.trip_run fds (h.room hn) hargc h.next ht, h'.src, rfl,
    fun i hi => absurd hi (Nat.not_lt_zero i), rfl, rfl, ?_, ?_⟩
  · rw [Parse.called, Parse.call, h'.slots, h'.argc, h'.inputFd, h'.outputFd, h'.logged]
  · rw [opens_append]
    exact h'.counted

end At

/-- A word in front of a segment. -/
theorem Through.word (htrip : p.trip cap fromList fds = .inl p')
    (h : Through cap fds p' (ws ++ [y]) acc log seg x r) :
    Through cap fds p ws acc log ((.normal, y) :: seg) x r := by
  have hlen : (ws ++ [y]).length + (readCommand seg).words.length =
      ws.length + ((readCommand seg).words.length + 1) := by
    rw [List.length_append, List.length_singleton, Nat.add_assoc, Nat.add_comm 1]
  cases h with
  | full hn h => exact .full (hlen ▸ hn) (h.visits (.single htrip))
  | stuck hn hc h => exact .stuck (hlen ▸ hn) hc (h.head htrip)
  | through hn hc hv h =>
    rw [List.append_assoc] at h
    exact .through (hlen ▸ hn) hc (.head htrip hv) h

/-- A redirection and its file in front of a segment. -/
theorem Through.file (dir : Redirection) (htrip : p.trip cap fromList fds = .inl p')
    (h : Through cap fds p' ws (acc ++ [(dir, fds (opens log))])
      (log ++ opening dir y (fds (opens log))) seg x r) (z : τ) :
    Through cap fds p ws acc log ((dir.type, z) :: (.normal, y) :: seg) x r := by
  have hread : readCommand ((dir.type, z) :: (.normal, y) :: seg) =
      { readCommand seg with redirections := dir :: (readCommand seg).redirections } := by
    cases dir <;> rfl
  have hfiles : files ((dir.type, z) :: (.normal, y) :: seg) = (dir, y) :: files seg := by
    cases dir <;> rfl
  have hmisplaced : misplaced x ((dir.type, z) :: (.normal, y) :: seg) = misplaced x seg := by
    cases dir <;> rfl
  have hopens : opens (log ++ opening dir y (fds (opens log))) = opens log + 1 := by
    rw [opens_append, opens_opening]
  cases h with
  | full hn h => exact .full (by rwa [hread]) (h.visits (.single htrip))
  | stuck hn hc h =>
    refine .stuck (by rwa [hread]) (by rwa [hread]) ?_
    rw [hopens, List.append_assoc log] at h
    rw [hfiles, hmisplaced, openings]
    exact (h.head htrip).mono (Nat.le_succ _)
  | through hn hc hv h =>
    rw [hopens, List.append_assoc acc, List.append_assoc log] at h
    refine .through (by rwa [hread]) (by rwa [hread])
      ((VisitsIn.head htrip hv).mono (Nat.le_succ _)) ?_
    rw [hread, hfiles, openings, opened_cons]
    exact h

/-- The trips over a segment, by induction on what it says. -/
theorem At.segment (cap : ℕ) (fds : ℕ → ℤ) (hsep : ∀ u ∈ seg, u.1.isSeparator = false)
    (ht : type.isSeparator = true) (h : At p ws acc log (seg ++ (type, x) :: r))
    (hn : ws.length ≤ cap) : Through cap fds p ws acc log seg x ((type, x) :: r) := by
  induction seg using readCommand.induct generalizing p ws acc log with
  | case1 => exact .through hn rfl .refl (by simpa [readCommand, files, openings, opened] using h)
  | case2 w ts ih =>
    obtain ⟨p', htrip, h'⟩ := h.word fds hn
    refine .word htrip ?_
    rcases Nat.lt_or_ge cap (ws ++ [w]).length with hfull | hroom
    · exact .full (Nat.lt_add_right _ hfull) ⟨p', .refl, h'.argc ▸ hfull⟩
    · exact ih (fun u hu => hsep u (List.mem_cons_of_mem _ hu)) h' hroom
  | case3 u w ts ih =>
    obtain ⟨p', htrip, h'⟩ := h.file fds .input hn
    exact .file .input htrip (ih (fun v hv => hsep v (by simp [hv])) h' hn) u
  | case4 u w ts ih =>
    obtain ⟨p', htrip, h'⟩ := h.file fds .output hn
    exact .file .output htrip (ih (fun v hv => hsep v (by simp [hv])) h' hn) u
  | case5 seg hne hword hin hout =>
    have hread : readCommand seg = ⟨[], [], false⟩ := by rw [readCommand] <;> assumption
    have hfiles : files seg = [] := by rw [files] <;> assumption
    refine .stuck (by rwa [hread]) (by rw [hread]) ?_
    rw [hfiles, openings, List.append_nil]
    obtain ⟨dir, v, ts, rfl, hts⟩ := readCommand_stuck hne hsep hword hin hout
    cases ts with
    | nil =>
      have hx : misplaced x [(dir.type, v)] = x := by cases dir <;> rfl
      rw [hx]
      exact At.misnamed fds h (fun hn => by rw [hn] at ht; cases ht) hn
    | cons t ts =>
      have hx : misplaced x ((dir.type, v) :: t :: ts) = t.2 := by
        obtain ⟨type', y⟩ := t
        cases dir <;> rw [misplaced] <;> simp_all
      rw [hx]
      exact At.misnamed fds h (fun hn => hts t.2 ts (by rw [← hn])) hn

end segment

/-! ### A line -/

/-- What the loop does on the commands `cs`: one that it comes to does not fit, or it leaves with
    the log `log`. -/
inductive Ending (cap : ℕ) (fds : ℕ → ℤ) (n : ℕ) (p : Parse (List (TokenType × τ)) τ)
    (cs : List (Command τ × TokenType)) (log : List (Event τ)) : Prop
  | full (hn : ¬∀ c ∈ reached cs, c.1.words.length ≤ cap) (h : Overflows cap fds p)
  | done (hn : ∀ c ∈ reached cs, c.1.words.length ≤ cap) (h : Leaves cap fds n p log)

section line
variable {cap m n : ℕ} {fds : ℕ → ℤ} {p : Parse (List (TokenType × τ)) τ}
  {log : List (Event τ)} {r seg body : List (TokenType × τ)} {type : TokenType} {x t : τ}
  {cs : List (Command τ × TokenType)} {rest : List (List (TokenType × τ) × TokenType × τ)}

theorem sentences_append {seg : List (TokenType × τ)} (hsep : ∀ u ∈ seg, u.1.isSeparator = false)
    (ht : type.isSeparator = true) :
    sentences (seg ++ (type, x) :: r) = (seg, type, x) :: sentences r := by
  induction seg with
  | nil => exact if_pos ht
  | cons u seg ih =>
    have hu := hsep u (List.mem_cons_self ..)
    rw [List.cons_append, sentences, if_neg (by simp [hu]),
      ih fun v hv => hsep v (List.mem_cons_of_mem _ hv)]

/-- From the start of a segment: what it does, and then what the others do. -/
theorem At.sentence (hsep : ∀ u ∈ seg, u.1.isSeparator = false) (ht : type.isSeparator = true)
    (h : At p [] [] log (seg ++ (type, x) :: r)) (hm : seg.length ≤ m)
    (hlast : type = .newline → rest = [] ∧ cs = [])
    (hmore : type ≠ .newline → seg.length + (n + 1) ≤ m)
    (hgo : type ≠ .newline → ∀ p' log', At p' [] [] log' r →
      Ending cap fds n p' cs (log' ++ does fds (opens log') rest)) :
    Ending cap fds m p ((readCommand seg, type) :: cs)
      (log ++ does fds (opens log) ((seg, type, x) :: rest)) := by
  have hthrough := h.segment cap fds hsep ht (Nat.zero_le _)
  rw [does]
  cases hthrough with
  | full hn h =>
    rw [List.length_nil, Nat.zero_add] at hn
    exact .full (fun hall => absurd (hall _ (List.mem_cons_self ..)) (Nat.not_le.mpr hn)) h
  | stuck hn hc h =>
    rw [List.length_nil, Nat.zero_add] at hn
    rw [if_pos hc, ← List.append_assoc]
    refine .done ?_ (h.mono hm)
    rw [reached_stop (Or.inr hc)]
    exact List.forall_mem_singleton.mpr hn
  | @through p' hn hc hv h' =>
    rw [List.length_nil, Nat.zero_add] at hn
    rw [List.nil_append, List.nil_append] at h'
    have hc' : (readCommand seg).complete ≠ false := by
      rw [hc]
      exact Bool.noConfusion
    rw [if_neg hc', ← List.append_assoc]
    by_cases hw : (readCommand seg).words = []
    · rw [hw] at h'
      rw [if_pos hw, List.append_nil]
      refine .done ?_ (((h'.empty fds ht).visits (n := 0) hv).mono hm)
      rw [reached_stop (Or.inl hw)]
      exact List.forall_mem_singleton.mpr hn
    · rw [if_neg hw]
      obtain ⟨q, htrip, hq⟩ := h'.run fds ht hw hn
      by_cases hnl : type = .newline
      · obtain ⟨rfl, rfl⟩ := hlast hnl
        rw [if_pos hnl] at htrip
        refine .done ?_ ⟨p', q, hv.mono hm, htrip, hq.logged, hq.counted⟩
        rw [reached_go (not_or.mpr ⟨hw, hc'⟩)]
        exact List.forall_mem_singleton.mpr hn
      · rw [if_neg hnl] at htrip
        have hrest := hgo hnl q _ hq
        have hopens : ∀ e : Call τ, opens (log ++ openings fds (opens log) (files seg) ++
            [Event.run e]) = opens log + (files seg).length := by
          intro e
          rw [opens_append, opens_append, opens_openings]
          rfl
        rw [hopens, List.append_assoc _ [_]] at hrest
        cases hrest with
        | full hno h =>
          refine .full (fun hall => hno ?_) ((h.visits (.single htrip)).visits hv.visits)
          rw [reached_go (not_or.mpr ⟨hw, hc'⟩)] at hall
          exact (List.forall_mem_cons.mp hall).2
        | done hall h =>
          refine .done ?_ (((h.head htrip).visits hv).mono (hmore hnl))
          rw [reached_go (not_or.mpr ⟨hw, hc'⟩)]
          exact List.forall_mem_cons.mpr ⟨hn, hall⟩

/-- From the start of a segment to the end of the line, by the number of tokens that are left. -/
theorem At.line (cap : ℕ) (fds : ℕ → ℤ) (hbody : ∀ u ∈ body, u.1 ≠ .newline)
    (h : At p [] [] log (body ++ [(.newline, t)])) :
    Ending cap fds body.length p (commands (body ++ [(.newline, t)]))
      (log ++ does fds (opens log) (sentences (body ++ [(.newline, t)]))) := by
  induction hlen : body.length using Nat.strong_induction_on generalizing p log body with
  | _ n ih =>
    rcases first_segment hbody with hall | ⟨seg, type, x, body', rfl, ht, hne, hseg, hrest⟩
    · rw [commands, segments_append hall rfl, sentences_append hall rfl]
      exact h.sentence (n := 0) hall rfl hlen.le (fun _ => ⟨rfl, rfl⟩) (fun hne => absurd rfl hne)
        fun hne => absurd rfl hne
    · rw [List.append_assoc, List.cons_append] at h ⊢
      rw [commands, segments_append hseg ht, sentences_append hseg ht]
      rw [List.length_append, List.length_cons] at hlen
      have hm : seg.length ≤ n := (Nat.le_add_right ..).trans hlen.le
      exact h.sentence hseg ht hm (fun hnl => absurd hnl hne) (fun _ => hlen.le)
        fun _ p' log' hp => ih body'.length (by omega) hrest hp rfl

/-- The first state. -/
theorem at_start (src : List (TokenType × τ)) (argv : ℕ → Option τ) :
    At (Parse.start src argv) [] [] [] src :=
  ⟨rfl, rfl, fun i hi => absurd hi (Nat.not_lt_zero i), rfl, rfl, rfl, rfl⟩

/-- `parse_line` over a list of tokens does what their segments do. -/
theorem parseLine_log {n : ℕ} (fds : ℕ → ℤ) (argv : ℕ → Option τ)
    (hbody : ∀ u ∈ body, u.1 ≠ .newline)
    (hwords : ∀ c ∈ reached (commands (body ++ [(.newline, t)])), c.1.words.length ≤ maxArg)
    (hn : body.length < n) :
    ∃ p, parseLine fromList fds n (body ++ [(.newline, t)]) argv = some p ∧
      p.log = does fds 0 (sentences (body ++ [(.newline, t)])) ∧
      p.opens = opens (does fds 0 (sentences (body ++ [(.newline, t)]))) := by
  cases (at_start (body ++ [(.newline, t)]) argv).line maxArg fds hbody with
  | full hno h => exact absurd hwords hno
  | done _ h =>
    obtain ⟨q, hq, hlog, hopens⟩ := h.iter hn
    exact ⟨q, by rw [parseLine, hq]; rfl, hlog, hopens⟩

/-- CORRECT (one call per command): `parse_line` returns on every line, makes the calls of its
    commands in order up to the first that cannot be run, and asks for no token after the
    newline. -/
theorem parseLine_calls {n : ℕ} (argv : ℕ → Option τ) (hbody : ∀ u ∈ body, u.1 ≠ .newline)
    (hwords : ∀ c ∈ commands (body ++ [(.newline, t)]), c.1.words.length ≤ maxArg)
    (hn : body.length < n) :
    ∃ p, parseLine fromList fds n (body ++ [(.newline, t)]) argv = some p ∧
      calls p.log = callsOf fds 0 (commands (body ++ [(.newline, t)])) := by
  obtain ⟨p, hp, hlog, -⟩ := parseLine_log fds argv hbody
    (fun c hc => hwords c (reached_subset _ hc)) hn
  exact ⟨p, hp, by rw [hlog, calls_does]⟩

end line

/-- `cat < f | wc`, with the third descriptor free. -/
theorem parseLine_calls_pipe :
    let body : List (TokenType × String) := [(.normal, "cat"), (.input, "<"), (.normal, "f"),
      (.pipe, "|"), (.normal, "wc")]
    ∃ p, parseLine fromList (fun k => 3 + k) 6 (body ++ [(.newline, "")]) (fun _ => none) = some p ∧
      calls p.log =
        callsOf (fun k => 3 + k) 0 (commands (body ++ [(.newline, "")])) := by
  intro body
  exact parseLine_calls _ (by decide) (by decide) (by decide)

end OsLabs.Sh

import OsLabs.Sh.Lexer
import OsLabs.Sh.Meaning

/-! @src lab1_shell/sh.c | name:argv | scheme:loop

    The slots of `argv` that `parse_line` uses. Each trip of its loop uses the slot `argc`, which
    moves on with each word of a command and back to 0 at its end. `argv` has room for 100 words and
    the NULL, and a line of 510 bytes for 255 words.

    `parse_line` over `gettoken` on a line follows `parse_line` over the list of its tokens
    (`Visits.sim`), and there a command of more words than `MAX_ARG` leads past the end.

        a a … a ↵      argc = 0, 1, …, 100, 101      &argv[101]                       -/

namespace OsLabs.Sh
open Schemes
variable {σ τ : Type}

/-- `gettoken` gives these tokens from `s` on. -/
def Reads (gettoken : σ → Option (σ × TokenType × τ)) : σ → List (TokenType × τ) → Prop
  | _, [] => True
  | s, t :: ts => ∃ s', gettoken s = some (s', t) ∧ Reads gettoken s' ts

/-- The same variables over another source. -/
def Parse.over {σ' : Type} (q : Parse σ' τ) (src : σ) : Parse σ τ :=
  ⟨src, q.argv, q.argc, q.inputFd, q.outputFd, q.opens, q.log⟩

/-- In no state that the loop comes to is `argc` past the end of `argv`. -/
def InBounds (gettoken : σ → Option (σ × TokenType × τ)) (fds : ℕ → ℤ) (p : Parse σ τ) : Prop :=
  ∀ p', Visits (Parse.trip maxArg gettoken fds) p p' → p'.argc ≤ maxArg

/-! ### Over a list -/

section follows
variable {cap : ℕ} {gettoken : σ → Option (σ × TokenType × τ)} {fds : ℕ → ℤ} {s : σ}
  {q q' : Parse (List (TokenType × τ)) τ} {p : Parse σ τ} {t : TokenType × τ} {type : TokenType}

/-- `p` is `q` over a source that gives the rest of the tokens. -/
def Follows (gettoken : σ → Option (σ × TokenType × τ)) (q : Parse (List (TokenType × τ)) τ)
    (p : Parse σ τ) : Prop := ∃ s, p = q.over s ∧ Reads gettoken s q.src

/-- What one trip over the list has to do with one over the source. -/
def FollowsTrip (gettoken : σ → Option (σ × TokenType × τ)) :
    Parse (List (TokenType × τ)) τ ⊕ Option (Parse (List (TokenType × τ)) τ) →
    Parse σ τ ⊕ Option (Parse σ τ) → Prop
  | .inl q, r => ∃ p, r = .inl p ∧ Follows gettoken q p
  | .inr (some _), r => ∃ p, r = .inr (some p)
  | .inr none, _ => True

theorem next_follows (hs : Reads gettoken s q.src) (h : q.next cap fromList = some (q', t)) :
    ∃ s', (q.over s).next cap gettoken = some (q'.over s', t) ∧ Reads gettoken s' q'.src := by
  rw [Parse.next] at h
  split at h
  case isFalse => cases h
  case isTrue hle =>
    obtain ⟨⟨ts, t'⟩, hsrc, hr⟩ := Option.map_eq_some_iff.mp h
    obtain ⟨rfl, rfl⟩ := Prod.mk.inj hr
    cases hq : q.src with
    | nil =>
      rw [hq] at hsrc
      cases hsrc
    | cons u us =>
      rw [hq] at hsrc hs
      obtain ⟨rfl, rfl⟩ := Prod.mk.inj (Option.some.inj hsrc)
      obtain ⟨s', hget, hs'⟩ := hs
      refine ⟨s', ?_, hs'⟩
      exact (if_pos hle).trans (congrArg (Option.map _) hget)

theorem setFd_over (dir : Redirection) (fd : ℤ) :
    (q.over s).setFd dir fd = (q.setFd dir fd).over s := by
  cases dir <;> rfl

theorem setFd_src (dir : Redirection) (fd : ℤ) : (q.setFd dir fd).src = q.src := by
  cases dir <;> rfl

theorem redirect_follows (dir : Redirection) (hs : Reads gettoken s q.src) :
    FollowsTrip gettoken (q.redirect cap fromList fds dir)
      ((q.over s).redirect cap gettoken fds dir) := by
  rw [Parse.redirect]
  cases hnext : q.next cap fromList with
  | none => exact trivial
  | some r =>
    obtain ⟨q', type, path⟩ := r
    obtain ⟨s', hnext', hs'⟩ := next_follows hs hnext
    rw [Parse.redirect, hnext']
    dsimp only
    split
    case isTrue => exact ⟨_, rfl⟩
    case isFalse =>
      have hopens : (q'.over s').opens = q'.opens := rfl
      have hread : Reads gettoken s' (q'.setFd dir (fds q'.opens)).src := by rwa [setFd_src]
      rw [hopens, setFd_over]
      by_cases hfd : fds q'.opens < 0
      · rw [if_pos hfd, if_pos hfd]
        exact ⟨_, rfl, s', rfl, hread⟩
      · rw [if_neg hfd, if_neg hfd]
        exact ⟨_, rfl, s', rfl, hread⟩

theorem command_follows (type : TokenType) (foreground doingPipe : Bool)
    (hs : Reads gettoken s q.src) : FollowsTrip gettoken (q.command type foreground doingPipe)
      ((q.over s).command type foreground doingPipe) := by
  rw [Parse.command, Parse.command]
  by_cases hargc : q.argc = 0
  · rw [if_pos hargc, if_pos (show (q.over s).argc = 0 from hargc)]
    exact ⟨_, rfl⟩
  · rw [if_neg hargc, if_neg (show ¬(q.over s).argc = 0 from hargc)]
    dsimp only
    by_cases htype : type = .newline
    · rw [if_pos htype, if_pos htype]
      exact ⟨_, rfl⟩
    · rw [if_neg htype, if_neg htype]
      exact ⟨_, rfl, s, rfl, hs⟩

theorem trip_follows (cap : ℕ) (fds : ℕ → ℤ) (hs : Reads gettoken s q.src) :
    FollowsTrip gettoken (q.trip cap fromList fds) ((q.over s).trip cap gettoken fds) := by
  rw [Parse.trip]
  cases hnext : q.next cap fromList with
  | none => exact trivial
  | some r =>
    obtain ⟨q', type, path⟩ := r
    obtain ⟨s', hnext', hs'⟩ := next_follows hs hnext
    rw [Parse.trip, hnext']
    cases type with
    | normal => exact ⟨_, rfl, s', rfl, hs'⟩
    | input => exact redirect_follows .input hs'
    | output => exact redirect_follows .output hs'
    | pipe | ampersand | newline | semicolon => exact command_follows _ _ _ hs'

/-- A trip over the list that goes on is one over the source. -/
theorem follows_go (hf : Follows gettoken q p) (h : q.trip cap fromList fds = .inl q') :
    ∃ p', p.trip cap gettoken fds = .inl p' ∧ Follows gettoken q' p' := by
  obtain ⟨s, rfl, hs⟩ := hf
  have htrip := trip_follows cap fds hs
  rw [h] at htrip
  exact htrip

theorem follows_leave (hf : Follows gettoken q p) (h : q.trip cap fromList fds = .inr (some q')) :
    ∃ r, p.trip cap gettoken fds = .inr r ∧ r ≠ none := by
  obtain ⟨s, rfl, hs⟩ := hf
  have htrip := trip_follows cap fds hs
  rw [h] at htrip
  obtain ⟨p', hp'⟩ := htrip
  exact ⟨some p', hp', Option.some_ne_none p'⟩

end follows

/-! ### The words of the commands -/

section bounds
variable {gettoken : σ → Option (σ × TokenType × τ)} {fds : ℕ → ℤ} {s : σ}

/-- A loop that leaves by a `return` has been in bounds. -/
theorem inBounds_of_iter {p : Parse σ τ} {n : ℕ} {r : Option (Parse σ τ)} (hr : r ≠ none)
    (h : iter (Parse.trip maxArg gettoken fds) n p = some r) : InBounds gettoken fds p := by
  intro p' hp'
  obtain ⟨m, hm⟩ := hp'.iter h
  by_contra hargc
  have htrip : p'.trip maxArg gettoken fds = .inr none :=
    Parse.trip_full fds (Nat.lt_of_not_le hargc)
  cases m with
  | zero => cases hm
  | succ m => exact hr (Option.some.inj ((iter_inr htrip).symm.trans hm)).symm

/-- `parse_line` over any source of the tokens of a line. -/
theorem inBounds_iff {t : τ} {body : List (TokenType × τ)} (hbody : ∀ u ∈ body, u.1 ≠ .newline)
    (hs : Reads gettoken s (body ++ [(.newline, t)])) (fds : ℕ → ℤ) (argv : ℕ → Option τ) :
    InBounds gettoken fds (Parse.start s argv) ↔
      ∀ c ∈ reached (commands (body ++ [(.newline, t)])), c.1.words.length ≤ maxArg := by
  have hfollows : Follows gettoken (Parse.start (body ++ [(.newline, t)]) argv)
      (Parse.start s argv) := ⟨s, rfl, hs⟩
  cases (at_start (body ++ [(.newline, t)]) argv).line maxArg fds hbody with
  | full hwords h =>
    obtain ⟨q, hq, hargc⟩ := h
    obtain ⟨p', hp', s', rfl, -⟩ := hq.sim follows_go hfollows
    exact iff_of_false (fun hb => absurd (hb _ hp') (Nat.not_le.mpr hargc)) hwords
  | done hwords h =>
    obtain ⟨q, hq, -⟩ := h.iter (Nat.lt_succ_self _)
    obtain ⟨r, hr, hne⟩ := iter_sim (P := fun _ r => r ≠ none) follows_go follows_leave hfollows hq
    exact iff_of_true (inBounds_of_iter hne hr) hwords

end bounds

/-! ### Only the types of the tokens matter -/

section types
variable {τ' : Type} (f : τ → τ')

def Command.map (c : Command τ) : Command τ' := ⟨c.words.map f, c.redirections, c.complete⟩

theorem readCommand_map (seg : List (TokenType × τ)) :
    readCommand (seg.map (Prod.map id f)) = (readCommand seg).map f := by
  induction seg using readCommand.induct with
  | case1 => rfl
  | case2 w ts ih => simp only [List.map_cons, Prod.map, id, readCommand, ih, Command.map]
  | case3 u w ts ih => simp only [List.map_cons, Prod.map, id, readCommand, ih, Command.map]
  | case4 u w ts ih => simp only [List.map_cons, Prod.map, id, readCommand, ih, Command.map]
  | case5 seg hne hword hin hout =>
    obtain ⟨⟨type, v⟩, ts, rfl⟩ := List.exists_cons_of_ne_nil hne
    cases type with
    | normal => exact absurd rfl (hword v ts)
    | input =>
      rcases ts with _ | ⟨⟨type', w⟩, ts⟩
      · rfl
      · cases type' with
        | normal => exact absurd rfl (hin v w ts)
        | _ => rfl
    | output =>
      rcases ts with _ | ⟨⟨type', w⟩, ts⟩
      · rfl
      · cases type' with
        | normal => exact absurd rfl (hout v w ts)
        | _ => rfl
    | _ => rfl

theorem segments_map : ∀ l : List (TokenType × τ), segments (l.map (Prod.map id f)) =
    (segments l).map (Prod.map (List.map (Prod.map id f)) id)
  | [] => rfl
  | t :: ts => by
      rw [List.map_cons, segments, segments, segments_map ts]
      by_cases ht : t.1.isSeparator = true
      · rw [if_pos ht, if_pos (show (Prod.map id f t).1.isSeparator = true from ht)]
        rfl
      · rw [if_neg ht, if_neg (show ¬(Prod.map id f t).1.isSeparator = true from ht)]
        cases segments ts <;> rfl

theorem commands_map (l : List (TokenType × τ)) : commands (l.map (Prod.map id f)) =
    (commands l).map (Prod.map (Command.map f) id) := by
  rw [commands, segments_map, List.map_map, commands, List.map_map]
  refine List.map_congr_left fun s _ => ?_
  exact congrArg (·, s.2) (readCommand_map f s.1)

theorem reached_map : ∀ l : List (Command τ × TokenType),
    reached (l.map (Prod.map (Command.map f) id)) =
      (reached l).map (Prod.map (Command.map f) id)
  | [] => rfl
  | (c, sep) :: rest => by
      have hruns : ((Command.map f c).words = [] ∨ (Command.map f c).complete = false) ↔
          (c.words = [] ∨ c.complete = false) := or_congr List.map_eq_nil_iff Iff.rfl
      simp only [List.map_cons, reached, Prod.map, id]
      by_cases hc : c.words = [] ∨ c.complete = false
      · rw [if_pos hc, if_pos (hruns.mpr hc), List.map_nil]
      · rw [if_neg hc, if_neg (mt hruns.mp hc), reached_map rest]

theorem fits_map (l : List (TokenType × τ)) (n : ℕ) :
    (∀ c ∈ reached (commands (l.map (Prod.map id f))), c.1.words.length ≤ n) ↔
      ∀ c ∈ reached (commands l), c.1.words.length ≤ n := by
  rw [commands_map, reached_map, List.forall_mem_map]
  refine forall₂_congr fun c _ => ?_
  rw [Prod.map, Command.map, List.length_map]

theorem fits_congr {l : List (TokenType × τ)} {m : List (TokenType × τ')}
    (h : l.map Prod.fst = m.map Prod.fst) (n : ℕ) :
    (∀ c ∈ reached (commands l), c.1.words.length ≤ n) ↔
      ∀ c ∈ reached (commands m), c.1.words.length ≤ n := by
  have herase : l.map (Prod.map id fun _ => ()) = m.map (Prod.map id fun _ => ()) := by
    have hl : l.map (Prod.map id fun _ => ()) = (l.map Prod.fst).map (·, ()) := by
      rw [List.map_map]; rfl
    have hm : m.map (Prod.map id fun _ => ()) = (m.map Prod.fst).map (·, ()) := by
      rw [List.map_map]; rfl
    rw [hl, hm, h]
  rw [← fits_map (fun _ => ()) l, ← fits_map (fun _ => ()) m, herase]

end types

/-! ### The tokens of a line -/

section line
variable {s s' : Shell} {l rest : List UInt8} {n : ℕ}

theorem tokens_reads {ts : List (TokenType × ℕ)} (h : tokens n s = some (s', ts)) :
    Reads gettoken s ts ∧ ∃ body t, ts = body ++ [(.newline, t)] ∧ ∀ u ∈ body, u.1 ≠ .newline := by
  induction n generalizing s ts with
  | zero => cases h
  | succ n ih =>
    obtain ⟨⟨s₁, type, outptr⟩, hget, h⟩ := Option.bind_eq_some_iff.mp h
    dsimp only at h
    split at h
    case isTrue htype =>
      obtain ⟨rfl, rfl⟩ := Prod.mk.inj (Option.some.inj h)
      obtain rfl := htype
      exact ⟨⟨s₁, hget, trivial⟩, [], outptr, rfl, fun u hu => absurd hu List.not_mem_nil⟩
    case isFalse htype =>
      obtain ⟨⟨s₂, ts'⟩, hts', h⟩ := Option.bind_eq_some_iff.mp h
      obtain ⟨rfl, rfl⟩ := Prod.mk.inj (Option.some.inj h)
      obtain ⟨hreads, body, t, rfl, hbody⟩ := ih hts'
      exact ⟨⟨s₁, hget, hreads⟩, (type, outptr) :: body, t, rfl,
        List.forall_mem_cons.mpr ⟨htype, hbody⟩⟩

/-- `parse_line` on a line in `input_buf`. -/
theorem Ready.inBounds_iff (h : Ready s l) (fds : ℕ → ℤ) (argv : ℕ → Option ℕ) :
    InBounds gettoken fds (Parse.start s argv) ↔
      ∀ c ∈ reached (commands (lexed (l ++ [lf]))), c.1.words.length ≤ maxArg := by
  have hshort := h.short
  obtain ⟨s', ts, hts, -, hall⟩ := tokens_eq (n := maxBuf) h.unread h.noLf (by omega)
  have htypes : ts.map Prod.fst = (lexed (l ++ [lf])).map Prod.fst := by
    rw [← List.forall₂_eq_eq_eq, List.forall₂_map_left_iff, List.forall₂_map_right_iff]
    exact hall.imp fun _ _ hp => hp.1
  obtain ⟨hreads, body, t, rfl, hbody⟩ := tokens_reads hts
  rw [Sh.inBounds_iff hbody hreads, fits_congr htypes]

/-- CORRECT (argv): on every line that `fetch_line` accepts, whatever `open` returns, `parse_line`
    stays inside `argv` exactly when no command that it comes to has more than `MAX_ARG` words. -/
theorem argv_inBounds_iff {prompt : String} {stdin : List UInt8} {k : ℤ}
    (h : fetchLine prompt stdin s = some (s', rest, k)) (hk : k ≠ eof) (fds : ℕ → ℤ)
    (argv : ℕ → Option ℕ) : InBounds gettoken fds (Parse.start s' argv) ↔
      ∀ c ∈ reached (commands (lexed (s'.line k.toNat))), c.1.words.length ≤ maxArg := by
  obtain ⟨body, hready, rfl⟩ := fetchLine_ready h hk
  have hline : s'.line (Int.toNat (body.length + 1)) = body ++ [lf] := hready.line
  rw [hline]
  exact hready.inBounds_iff fds argv

end line

/-- A line of two commands stays inside. -/
theorem argv_inBounds_iff_pipeLine : ∃ s', fetchLine "% " (pipeLine ++ [lf]) Shell.start =
      some (s', [], 16) ∧
    InBounds gettoken (fun k => 3 + k) (Parse.start s' fun _ => none) := by
  obtain ⟨s', hs, hline⟩ := fetchLine_pipeLine
  have hline' : s'.line (Int.toNat 16) = pipeLine ++ [lf] := hline
  refine ⟨s', hs, (argv_inBounds_iff hs (by decide) _ _).mpr ?_⟩
  rw [hline']
  decide +kernel

/-- The line of `n` words `a`. -/
def manyWords (n : ℕ) : List UInt8 := (List.replicate n [97, space]).flatten

/-- A line of 101 words is accepted, and leads past the end of `argv`. -/
theorem argv_overflows : ∃ s', fetchLine "% " (manyWords 101 ++ [lf]) Shell.start =
      some (s', [], 203) ∧ s'.line 203 = manyWords 101 ++ [lf] ∧
    ¬InBounds gettoken (fun _ => -1) (Parse.start s' fun _ => none) := by
  have hlen : (manyWords 101).length = 202 := by decide +kernel
  obtain ⟨s', hs, hready, -⟩ := fetchLine_short "% " [] Shell.start (m := manyWords 101)
    (by decide +kernel) (by rw [hlen]; decide)
  have hline := hready.line
  rw [hlen] at hs hline
  refine ⟨s', hs, hline, fun hb => ?_⟩
  have hover : ¬∀ c ∈ reached (commands (lexed (manyWords 101 ++ [lf]))),
      c.1.words.length ≤ maxArg := by decide +kernel
  exact hover ((hready.inBounds_iff _ _).mp hb)

end OsLabs.Sh

import Mathlib.Data.List.Basic
import OsLabs.Sh.Parse

/-! @src lab1_shell/sh.c | name:commands | scheme:loop

    What a line means: the tokens up to a separator are a segment, a segment is words and
    redirections, and each segment is one call of `run_program`, until one has no words or has a
    redirection without a file name.

        cat < f > g | wc &      [cat < f > g] PIPE   [wc] AMPERSAND   [] NEWLINE
                                 cat, fds of f and g  wc               stop       -/

namespace OsLabs.Sh
open Schemes
variable {τ : Type}

/-- The segments of a stream, each with the separator after it. -/
def segments : List (TokenType × τ) → List (List (TokenType × τ) × TokenType)
  | [] => []
  | t :: ts =>
    if t.1.isSeparator then ([], t.1) :: segments ts
    else
      match segments ts with
      | [] => []
      | (seg, sep) :: rest => (t :: seg, sep) :: rest

/-- A segment read: its words, the redirections among them, and whether each redirection has its
    file name; words and redirections after one that has not are left out. -/
structure Command (τ : Type) where
  words : List τ
  redirections : List Redirection
  complete : Bool

/-- Reading a segment. -/
def readCommand : List (TokenType × τ) → Command τ
  | [] => ⟨[], [], true⟩
  | (.normal, w) :: ts => { readCommand ts with words := w :: (readCommand ts).words }
  | (.input, _) :: (.normal, _) :: ts =>
    { readCommand ts with redirections := .input :: (readCommand ts).redirections }
  | (.output, _) :: (.normal, _) :: ts =>
    { readCommand ts with redirections := .output :: (readCommand ts).redirections }
  | _ => ⟨[], [], false⟩

/-- The commands of a line. -/
def commands (stream : List (TokenType × τ)) : List (Command τ × TokenType) :=
  (segments stream).map fun s => (readCommand s.1, s.2)

/-- The redirections with what `open` returned for them, `k` calls having been made before. -/
def opened (fds : ℕ → ℤ) (k : ℕ) (redirections : List Redirection) : List (Redirection × ℤ) :=
  redirections.mapIdx fun i dir => (dir, fds (k + i))

/-- What `open` returned for the last redirection in a direction, or 0. -/
def lastFd (dir : Redirection) (l : List (Redirection × ℤ)) : ℤ :=
  ((l.filter fun r => r.1 = dir).getLast?.map Prod.snd).getD 0

/-- The call that runs a command. -/
def callOf (fds : ℕ → ℤ) (k : ℕ) (c : Command τ) (sep : TokenType) : Call τ where
  argv := c.words.map some ++ [none]
  argc := c.words.length
  foreground := sep ≠ .pipe && sep ≠ .ampersand
  doingPipe := sep = .pipe
  inputFd := lastFd .input (opened fds k c.redirections)
  outputFd := lastFd .output (opened fds k c.redirections)

/-- The calls for a list of commands, up to the first that cannot be run. -/
def callsOf (fds : ℕ → ℤ) : ℕ → List (Command τ × TokenType) → List (Call τ)
  | _, [] => []
  | k, (c, sep) :: rest =>
    if c.words = [] ∨ c.complete = false then []
    else callOf fds k c sep :: callsOf fds (k + c.redirections.length) rest

/-- The commands that the loop comes to: none after the first that cannot be run. -/
def reached : List (Command τ × TokenType) → List (Command τ × TokenType)
  | [] => []
  | (c, sep) :: rest =>
    (c, sep) :: if c.words = [] ∨ c.complete = false then [] else reached rest

section reached
variable {c : Command τ} {sep : TokenType} {rest : List (Command τ × TokenType)}

theorem reached_stop (h : c.words = [] ∨ c.complete = false) :
    reached ((c, sep) :: rest) = [(c, sep)] := by rw [reached, if_pos h]

theorem reached_go (h : ¬(c.words = [] ∨ c.complete = false)) :
    reached ((c, sep) :: rest) = (c, sep) :: reached rest := by rw [reached, if_neg h]

end reached

theorem reached_subset : ∀ l : List (Command τ × TokenType), reached l ⊆ l
  | [] => List.Subset.refl _
  | (c, sep) :: rest => by
      refine List.cons_subset_cons _ ?_
      split
      · exact List.nil_subset _
      · exact reached_subset rest

/-! ### Segments -/

section segment
variable {fds : ℕ → ℤ} {acc : List (Redirection × ℤ)} {k : ℕ} {r : List (TokenType × τ)}
  {type : TokenType} {x : τ} {dir : Redirection}

theorem calls_append (l l' : List (Event τ)) : calls (l ++ l') = calls l ++ calls l' :=
  List.filterMap_append ..

theorem lastFd_append_self (d : ℤ) : lastFd dir (acc ++ [(dir, d)]) = d := by
  rw [lastFd, List.filter_append, List.filter_cons_of_pos (by simp), List.filter_nil,
    List.getLast?_append]
  rfl

theorem lastFd_append_other {dir' : Redirection} (h : dir' ≠ dir) (d : ℤ) :
    lastFd dir (acc ++ [(dir', d)]) = lastFd dir acc := by
  rw [lastFd, List.filter_append, List.filter_cons_of_neg (by simpa using h), List.filter_nil,
    List.append_nil]
  rfl

theorem opened_cons (ds : List Redirection) :
    opened fds k (dir :: ds) = (dir, fds k) :: opened fds (k + 1) ds := by
  rw [opened, List.mapIdx_cons]
  refine congrArg _ (List.mapIdx_eq_mapIdx_iff.mpr fun i hi => ?_)
  rw [Nat.add_right_comm, Nat.add_assoc]

/-- A segment that does not begin with a word or a whole redirection. -/
theorem readCommand_stuck {seg : List (TokenType × τ)} (hne : seg ≠ [])
    (hsep : ∀ u ∈ seg, u.1.isSeparator = false)
    (hword : ∀ w ts, seg ≠ (.normal, w) :: ts)
    (hin : ∀ u w ts, seg ≠ (.input, u) :: (.normal, w) :: ts)
    (hout : ∀ u w ts, seg ≠ (.output, u) :: (.normal, w) :: ts) :
    ∃ dir v ts, seg = (Redirection.type dir, v) :: ts ∧ ∀ w ts', ts ≠ (.normal, w) :: ts' := by
  obtain ⟨⟨type, v⟩, ts, rfl⟩ := List.exists_cons_of_ne_nil hne
  have hu := hsep _ (List.mem_cons_self ..)
  cases type with
  | normal => exact absurd rfl (hword v ts)
  | input => exact ⟨.input, v, ts, rfl, fun w ts' h => hin v w ts' (h ▸ rfl)⟩
  | output => exact ⟨.output, v, ts, rfl, fun w ts' h => hout v w ts' (h ▸ rfl)⟩
  | pipe | ampersand | newline | semicolon => cases hu

theorem segments_append {seg : List (TokenType × τ)} (hsep : ∀ u ∈ seg, u.1.isSeparator = false)
    (ht : type.isSeparator = true) :
    segments (seg ++ (type, x) :: r) = (seg, type) :: segments r := by
  induction seg with
  | nil => exact if_pos ht
  | cons u seg ih =>
    have hu := hsep u (List.mem_cons_self ..)
    rw [List.cons_append, segments, if_neg (by rw [hu]; exact Bool.false_ne_true),
      ih fun v hv => hsep v (List.mem_cons_of_mem _ hv)]

/-- The first segment of a line: the whole line, or a part that another separator ends. -/
theorem first_segment {body : List (TokenType × τ)} (hbody : ∀ u ∈ body, u.1 ≠ .newline) :
    (∀ u ∈ body, u.1.isSeparator = false) ∨
      ∃ seg type x body', body = seg ++ (type, x) :: body' ∧ type.isSeparator = true ∧
        type ≠ .newline ∧ (∀ u ∈ seg, u.1.isSeparator = false) ∧ ∀ u ∈ body', u.1 ≠ .newline := by
  induction body with
  | nil => exact Or.inl fun u hu => absurd hu List.not_mem_nil
  | cons u body ih =>
    have hbody' : ∀ v ∈ body, v.1 ≠ .newline := fun v hv => hbody v (List.mem_cons_of_mem _ hv)
    cases hu : u.1.isSeparator with
    | true =>
      exact Or.inr ⟨[], u.1, u.2, body, rfl, hu, hbody u (List.mem_cons_self ..),
        fun v hv => absurd hv List.not_mem_nil, hbody'⟩
    | false =>
      rcases ih hbody' with hall | ⟨seg, type, x, body', rfl, ht, hne, hseg, hrest⟩
      · exact Or.inl (List.forall_mem_cons.mpr ⟨hu, hall⟩)
      · exact Or.inr ⟨u :: seg, type, x, body', rfl, ht, hne, List.forall_mem_cons.mpr ⟨hu, hseg⟩,
          hrest⟩

end segment

/-- `cat < f | wc`: two calls. -/
example : callsOf (fun k => 3 + k) 0 (commands [(.normal, "cat"), (.input, "<"), (.normal, "f"),
      (.pipe, "|"), (.normal, "wc"), (.newline, "")]) =
    [⟨[some "cat", none], 1, false, true, 3, 0⟩, ⟨[some "wc", none], 1, true, false, 0, 0⟩] := by
  decide

end OsLabs.Sh

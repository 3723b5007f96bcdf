import Mathlib.Logic.Function.Basic
import OsLabs.Sh.Token

/-! @src lab1_shell/sh.c | name:parse | scheme:loop

    `parse_line`, over any source of tokens: `gettoken` takes the state of the source to the next
    token, its type and its string, and `none` where there is no token to ask for. The results of
    `open` are given, one for each call in turn; what the line does (`open`, `error`, `run_program`)
    is logged. `argv` has room for `cap` words and the NULL, and an access past that is `none` as
    well; the code has `MAX_ARG` for `cap`. -/

namespace OsLabs.Sh
open Schemes
variable {σ τ : Type}

/-- INPUT opens with `O_RDONLY`, OUTPUT with `O_CREAT | O_WRONLY` and `PERM`. -/
inductive Redirection where
  | input | output
  deriving DecidableEq

/-- A call of `run_program`, with the globals it reads; `argv` is the array up to its last slot. -/
structure Call (τ : Type) where
  argv : List (Option τ)
  argc : ℕ
  foreground : Bool
  doingPipe : Bool
  inputFd : ℤ
  outputFd : ℤ
  deriving DecidableEq

inductive Event (τ : Type) where
  | open (dir : Redirection) (path : τ) (fd : ℤ)
  | error (fmt : String) (arg : τ)
  | run (call : Call τ)

/-- The variables of `parse_line`, the source of the tokens, the number of `open` calls so far and
    the log. -/
structure Parse (σ τ : Type) where
  src : σ
  argv : ℕ → Option τ
  argc : ℕ
  inputFd : ℤ
  outputFd : ℤ
  opens : ℕ
  log : List (Event τ)

section parse
variable (cap : ℕ) (gettoken : σ → Option (σ × TokenType × τ)) (fds : ℕ → ℤ)

namespace Parse

/-- `type = gettoken(&argv[argc])`, and the string. -/
def next (p : Parse σ τ) : Option (Parse σ τ × TokenType × τ) :=
  if p.argc ≤ cap then
    (gettoken p.src).map fun r =>
      ({ p with src := r.1, argv := Function.update p.argv p.argc (some r.2.2) }, r.2)
  else none

/-- `input_fd = fd` or `output_fd = fd` -/
def setFd (p : Parse σ τ) (dir : Redirection) (fd : ℤ) : Parse σ τ :=
  match dir with
  | .input => { p with inputFd := fd }
  | .output => { p with outputFd := fd }

/-- The message when `open` fails. -/
def openError : Redirection → String
  | .input => "cannot read from %s"
  | .output => "cannot write to %s"

/-- The cases INPUT and OUTPUT. -/
def redirect (dir : Redirection) (p : Parse σ τ) : Parse σ τ ⊕ Option (Parse σ τ) :=
  match p.next cap gettoken with
  | none => .inr none
  | some (p, type, path) =>
    if type ≠ .normal then
      .inr (some { p with log := p.log ++ [.error "expected file name: but found %s" path] })
    else
      let fd := fds p.opens
      let p := { p.setFd dir fd with opens := p.opens + 1, log := p.log ++ [.open dir path fd] }
      .inl (if fd < 0 then { p with log := p.log ++ [.error (openError dir) path] } else p)

/-- The cases PIPE, AMPERSAND, NEWLINE and SEMICOLON, with the flags their fall-through sets. -/
def command (type : TokenType) (foreground doingPipe : Bool) (p : Parse σ τ) :
    Parse σ τ ⊕ Option (Parse σ τ) :=
  if p.argc = 0 then .inr (some p)
  else
    let argv := Function.update p.argv p.argc none
    let call : Call τ := ⟨(List.range (p.argc + 1)).map argv, p.argc, foreground, doingPipe,
      p.inputFd, p.outputFd⟩
    let p := { p with
      argv := argv
      log := p.log ++ [.run call]
      inputFd := 0
      outputFd := 0
      argc := 0 }
    if type = .newline then .inr (some p) else .inl p

/-- One trip of `for (;;)`. -/
def trip (p : Parse σ τ) : Parse σ τ ⊕ Option (Parse σ τ) :=
  match p.next cap gettoken with
  | none => .inr none
  | some (p, type, _) =>
    match type with
    | .normal => .inl { p with argc := p.argc + 1 }
    | .input => p.redirect cap gettoken fds .input
    | .output => p.redirect cap gettoken fds .output
    | .pipe => p.command type false true
    | .ampersand => p.command type false false
    | .newline | .semicolon => p.command type true false

/-- What `parse_line` starts with; `argv` has any contents. -/
def start (src : σ) (argv : ℕ → Option τ) : Parse σ τ := ⟨src, argv, 0, 0, 0, 0, []⟩

end Parse

def parseLine (fuel : ℕ) (src : σ) (argv : ℕ → Option τ) : Option (Parse σ τ) :=
  (iter (Parse.trip maxArg gettoken fds) fuel (Parse.start src argv)).join

end parse

/-- A finite stream of tokens as a source: past its end there is nothing to ask for. -/
def fromList : List (TokenType × τ) → Option (List (TokenType × τ) × TokenType × τ)
  | [] => none
  | t :: ts => some (ts, t)

/-- The calls of `run_program` in a log. -/
def calls (log : List (Event τ)) : List (Call τ) :=
  log.filterMap fun
    | .run call => some call
    | _ => none

/-! ### What one trip does -/

/-- What a redirection to the file `path` does when `open` returns `fd`. -/
def opening (dir : Redirection) (path : τ) (fd : ℤ) : List (Event τ) :=
  .open dir path fd :: if fd < 0 then [.error (Parse.openError dir) path] else []

/-- The message about the token `x` in the place of a file name. -/
def misnamed (x : τ) : Event τ := .error "expected file name: but found %s" x

/-- The tokens that end a command. -/
def TokenType.isSeparator : TokenType → Bool
  | .pipe | .ampersand | .semicolon | .newline => true
  | _ => false

def Redirection.type : Redirection → TokenType
  | .input => .input
  | .output => .output

namespace Parse

/-- The state behind a call of `gettoken`. -/
def asked (p : Parse σ τ) (s : σ) (x : τ) : Parse σ τ :=
  { p with src := s, argv := Function.update p.argv p.argc (some x) }

/-- The state behind a redirection to the file `path`. -/
def redirected (p : Parse σ τ) (dir : Redirection) (path : τ) (fd : ℤ) : Parse σ τ :=
  { p.setFd dir fd with opens := p.opens + 1, log := p.log ++ opening dir path fd }

theorem redirected_src (p : Parse σ τ) (dir : Redirection) (path : τ) (fd : ℤ) :
    (p.redirected dir path fd).src = p.src := by
  cases dir <;> rfl

theorem redirected_argc (p : Parse σ τ) (dir : Redirection) (path : τ) (fd : ℤ) :
    (p.redirected dir path fd).argc = p.argc := by
  cases dir <;> rfl

/-- The call at the end of a command. -/
def call (p : Parse σ τ) (type : TokenType) : Call τ :=
  ⟨(List.range (p.argc + 1)).map (Function.update p.argv p.argc none), p.argc,
    type ≠ .pipe && type ≠ .ampersand, type = .pipe, p.inputFd, p.outputFd⟩

/-- The state behind that call. -/
def called (p : Parse σ τ) (type : TokenType) : Parse σ τ :=
  { p with
    argv := Function.update p.argv p.argc none
    log := p.log ++ [.run (p.call type)]
    inputFd := 0
    outputFd := 0
    argc := 0 }

section trip
variable {cap : ℕ} {gettoken : σ → Option (σ × TokenType × τ)} (fds : ℕ → ℤ) {p : Parse σ τ}
  {s s' : σ} {x y : τ} {type : TokenType} {dir : Redirection}

theorem next_eq (hcap : p.argc ≤ cap) (hget : gettoken p.src = some (s, type, x)) :
    p.next cap gettoken = some (p.asked s x, type, x) := by
  rw [next, if_pos hcap, hget]
  rfl

theorem asked_asked : (p.asked s x).asked s' y = p.asked s' y := by
  simp [asked]

/-- A word. -/
theorem trip_word (hcap : p.argc ≤ cap) (hget : gettoken p.src = some (s, .normal, x)) :
    p.trip cap gettoken fds = .inl { p.asked s x with argc := p.argc + 1 } := by
  rw [trip, next_eq hcap hget]
  rfl

theorem trip_redirect (hcap : p.argc ≤ cap) (hget : gettoken p.src = some (s, dir.type, x)) :
    p.trip cap gettoken fds = (p.asked s x).redirect cap gettoken fds dir := by
  rw [trip, next_eq hcap hget]
  cases dir with
  | input | output => rfl

/-- A redirection and its file. -/
theorem trip_file (hcap : p.argc ≤ cap) (hget : gettoken p.src = some (s, dir.type, x))
    (hget' : gettoken s = some (s', .normal, y)) : p.trip cap gettoken fds =
      .inl ((p.asked s' y).redirected dir y (fds p.opens)) := by
  rw [trip_redirect fds hcap hget, redirect, next_eq (p := p.asked s x) hcap hget', asked_asked]
  dsimp only
  rw [if_neg (not_not.mpr rfl), redirected, opening]
  by_cases hfd : fds p.opens < 0
  · rw [if_pos (show fds (p.asked s' y).opens < 0 from hfd), if_pos hfd]
    simp [asked]
  · rw [if_neg (show ¬fds (p.asked s' y).opens < 0 from hfd), if_neg hfd]
    rfl

/-- A redirection and another token. -/
theorem trip_misnamed (hcap : p.argc ≤ cap) (hget : gettoken p.src = some (s, dir.type, x))
    (hget' : gettoken s = some (s', type, y)) (ht : type ≠ .normal) : p.trip cap gettoken fds =
      .inr (some { p.asked s' y with log := p.log ++ [misnamed y] }) := by
  rw [trip_redirect fds hcap hget, redirect, next_eq (p := p.asked s x) hcap hget', asked_asked]
  exact if_pos ht

theorem trip_command (hcap : p.argc ≤ cap) (hget : gettoken p.src = some (s, type, x))
    (ht : type.isSeparator = true) : p.trip cap gettoken fds =
      (p.asked s x).command type (type ≠ .pipe && type ≠ .ampersand) (type = .pipe) := by
  rw [trip, next_eq hcap hget]
  cases type with
  | normal | input | output => cases ht
  | pipe | ampersand | newline | semicolon => rfl

/-- The end of an empty command. -/
theorem trip_empty (hargc : p.argc = 0) (hget : gettoken p.src = some (s, type, x))
    (ht : type.isSeparator = true) : p.trip cap gettoken fds = .inr (some (p.asked s x)) := by
  rw [trip_command fds (by omega) hget ht, command]
  exact if_pos hargc

/-- The end of a command. -/
theorem trip_run (hcap : p.argc ≤ cap) (hargc : p.argc ≠ 0)
    (hget : gettoken p.src = some (s, type, x)) (ht : type.isSeparator = true) :
    p.trip cap gettoken fds = if type = .newline then .inr (some ((p.asked s x).called type))
      else .inl ((p.asked s x).called type) := by
  rw [trip_command fds hcap hget ht, command, if_neg (show ¬(p.asked s x).argc = 0 from hargc)]
  rfl

/-- No room. -/
theorem trip_full (hcap : cap < p.argc) : p.trip cap gettoken fds = .inr none := by
  rw [trip, next, if_neg (Nat.not_le.mpr hcap)]

end trip

end Parse

end OsLabs.Sh

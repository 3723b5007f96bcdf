import OsLabs.Sh.Fetch
import OsLabs.Sh.Heard

/-! @src lab1_shell/sh.c | name:session | scheme:loop

    `main`: `fetch_line` until EOF, and `parse_line` on each line that it delivers. On any input
    the shell does what the lines that fit say, one after the other, and prints the prompt before
    each line that it reads.

        stdin   cat < f ⏎ │ too long .. ⏎ │ wc > g & ⏎ │ ls
        does    open f, run cat             open g, run wc    (`ls` has no newline)
        stdout  % │ % │ too long input line, % │ %                               -/

namespace OsLabs.Sh
open Schemes

/-- The loop of `main`. `fds` is what the calls of `open` return, and `argv` what the array of
    `parse_line` holds when it is called. -/
def session (prompt : String) :
    ℕ → (ℕ → ℤ) → (ℕ → ℕ → Option ℕ) → List UInt8 → Shell → Option (Shell × Heard)
  | 0, _, _, _, _ => none
  | fuel + 1, fds, argv, stdin, s => do
    let (s, stdin, count) ← fetchLine prompt stdin s
    if count = eof then some (s, [])
    else
      let (p, heard) ← hearLine fds maxBuf s (argv 0)
      let (s, rest) ← session prompt fuel (fun k => fds (p.opens + k)) (fun k => argv (k + 1))
        stdin p.src
      some (s, heard ++ rest)

/-- What some lines do, one after the other. -/
def meaning : (ℕ → ℤ) → List (List UInt8) → Heard
  | _, [] => []
  | fds, l :: ls =>
    let log := does fds 0 (sentences (texts (l ++ [lf])))
    log ++ meaning (fun k => fds (opens log + k)) ls

section session
variable {prompt : String} {stdin : List UInt8} {s : Shell} {fds : ℕ → ℤ}
  {argv : ℕ → ℕ → Option ℕ} {fuel : ℕ}

/-- Every line that is delivered fits. -/
theorem session_runs (hfuel : stdin.length < fuel) (hfits : ∀ l ∈ fitting stdin, Fits l) : ∃ s',
    session prompt fuel fds argv stdin s = some (s', meaning fds (fitting stdin)) ∧
      s'.stdout = s.stdout ++ printed prompt stdin := by
  induction fuel generalizing stdin s fds argv with
  | zero => exact absurd hfuel (Nat.not_lt_zero _)
  | succ fuel ih =>
    obtain ⟨s', rest, n, hs', hcall⟩ := fetchLine_call prompt stdin s
    rw [session, hs', Option.bind_eq_bind, Option.bind_some]
    cases hcall with
    | eof hn hrest hfit hout =>
      rw [hfit]
      exact ⟨s', if_pos hn, hout⟩
    | @line long l hlong hstdin hready hn hfit hout =>
      have hless := rest_length_lt hstdin
      rw [hfit] at hfits ⊢
      obtain ⟨hl, hls⟩ := List.forall_mem_cons.mp hfits
      obtain ⟨p, hp, hopens, hkeep⟩ := hready.hears hl fds (argv 0)
      obtain ⟨s'', hs'', hout''⟩ : ∃ s'', session prompt fuel (fun k => fds (p.opens + k))
          (fun k => argv (k + 1)) rest p.src = some (s'', _) ∧ _ := ih (by omega) hls
      have hne : n ≠ -1 := by omega
      refine ⟨s'', ?_, ?_⟩
      · dsimp only
        rw [if_neg hne, hp, Option.bind_eq_bind, Option.bind_some]
        dsimp only
        rw [hs'', Option.bind_eq_bind, Option.bind_some, hopens]
        rfl
      · rw [hout'', hkeep, hout]

/-- One of them does not. -/
theorem session_overflows {l : List UInt8} (hl : l ∈ fitting stdin) (hfits : ¬Fits l) :
    session prompt fuel fds argv stdin s = none := by
  induction fuel generalizing stdin s fds argv with
  | zero => rfl
  | succ fuel ih =>
    obtain ⟨s', rest, n, hs', hcall⟩ := fetchLine_call prompt stdin s
    rw [session, hs', Option.bind_eq_bind, Option.bind_some]
    cases hcall with
    | eof hn hrest hfit =>
      rw [hfit] at hl
      cases hl
    | @line long l' hlong hstdin hready hn hfit =>
      rw [hfit, List.mem_cons] at hl
      have hne : n ≠ -1 := by omega
      dsimp only
      rw [if_neg hne]
      by_cases hl' : Fits l'
      · obtain ⟨p, hp, -⟩ := hready.hears hl' fds (argv 0)
        have hrest : l ∈ fitting rest := hl.resolve_left fun h => hfits (h ▸ hl')
        rw [hp, Option.bind_eq_bind, Option.bind_some]
        dsimp only
        rw [ih hrest]
        rfl
      · rw [hready.overflows hl' fds (argv 0)]
        rfl

/-- CORRECT (session): on every input, whatever `open` returns, the shell stays inside its buffers
    exactly when no line that it takes has a command of more than `MAX_ARG` words; it then does what
    these lines mean, with the strings that stand in them, and prints a prompt for each line and for
    the end, and a message for each line that is too long. -/
theorem session_means (prompt : String) (stdin : List UInt8) (s : Shell) (fds : ℕ → ℤ)
    (argv : ℕ → ℕ → Option ℕ) :
    ((∀ l ∈ fitting stdin, Fits l) → ∃ s', session prompt (stdin.length + 1) fds argv stdin s =
        some (s', meaning fds (fitting stdin)) ∧
      s'.stdout = s.stdout ++ printed prompt stdin) ∧
    ∀ l ∈ fitting stdin, ¬Fits l → ∀ fuel, session prompt fuel fds argv stdin s = none :=
  ⟨session_runs (Nat.lt_succ_self _), fun _ hl hfits _ => session_overflows hl hfits⟩

end session

deriving instance DecidableEq for Event

/-- `cat < f`, with a descriptor, and `>` without a file. -/
example : meaning (fun _ => 3) [[99, 97, 116, space, lt, 102], [gt]] =
    [.open .input [102] 3, .run ⟨[some [99, 97, 116], none], 1, true, false, 3, 0⟩,
      misnamed [lf]] := by
  decide +kernel

end OsLabs.Sh

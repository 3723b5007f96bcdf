import OsLabs.Sh.Line

/-! @src lab1_shell/sh.c | name:fetch | scheme:scanning

    `fetch_line` called until EOF on any stream. The stream is cut at its newlines; what follows the
    last newline is not a line. The lines that fit are delivered in order, those that do not are
    dropped as a whole, and a call leaves what follows the newline of its line. Each line is asked
    for with a prompt, and a dropped one is answered with a message.

        stdin    line ⏎ │ line ⏎ │ too long .. ⏎ │ line ⏎ │ no newline
        calls      1        2                        3        EOF         -/

namespace OsLabs.Sh
open Schemes

/-- What `main` does with `fetch_line` until EOF, where `parse` is what happens to the buffers
    between two calls: each buffer and count delivered. `fuel` bounds the number of calls. -/
def fetchAll (prompt : String) (parse : Shell → Shell) :
    ℕ → List UInt8 → Shell → Option (List (Shell × ℤ))
  | 0, _, _ => none
  | fuel + 1, stdin, s => do
    let (s, stdin, count) ← fetchLine prompt stdin s
    if count = eof then some [] else
      let rest ← fetchAll prompt parse fuel stdin (parse s)
      some ((s, count) :: rest)

/-- The newline-terminated lines of a stream that have at most `MAXBUF - 2` bytes. -/
def fitting (stdin : List UInt8) : List (List UInt8) :=
  (stdin.splitOn lf).dropLast.filter fun l => l.length + 2 ≤ maxBuf

/-- The prompt for each line and for the end, and the message for each line that is too long. -/
def printed (prompt : String) (stdin : List UInt8) : List String :=
  prompt :: (stdin.splitOn lf).dropLast.flatMap fun l =>
    if l.length + 2 ≤ maxBuf then [prompt] else ["too long input line\n", prompt]

section cut
variable {prompt : String} {m rest : List UInt8}

theorem fitting_unterminated (hm : lf ∉ m) : fitting m = [] := by
  rw [fitting, List.splitOn_eq_singleton hm]
  rfl

theorem fitting_append (hm : lf ∉ m) : fitting (m ++ lf :: rest) =
    if m.length + 2 ≤ maxBuf then m :: fitting rest else fitting rest := by
  have hne : rest.splitOn lf ≠ [] := List.splitOn_ne_nil lf rest
  rw [fitting, List.splitOn_append_cons_self_of_not_mem hm, List.dropLast_cons_of_ne_nil hne,
    List.filter_cons]
  exact if_congr decide_eq_true_iff rfl rfl

theorem printed_unterminated (hm : lf ∉ m) : printed prompt m = [prompt] := by
  rw [printed, List.splitOn_eq_singleton hm]
  rfl

theorem printed_append (hm : lf ∉ m) : printed prompt (m ++ lf :: rest) =
    prompt :: (if m.length + 2 ≤ maxBuf then [] else ["too long input line\n"]) ++
      printed prompt rest := by
  have hne : rest.splitOn lf ≠ [] := List.splitOn_ne_nil lf rest
  rw [printed, List.splitOn_append_cons_self_of_not_mem hm, List.dropLast_cons_of_ne_nil hne,
    List.flatMap_cons, printed]
  split <;> rfl

end cut

/-- What a call of `fetch_line` does with a stream: it leaves `rest`, returns `count` and prints
    what belongs to the bytes it has read. -/
inductive Fetched (prompt : String) (stdin : List UInt8) (s s' : Shell) (rest : List UInt8)
    (count : ℤ) : Prop where
  | eof (hcount : count = eof) (hrest : rest = []) (hfit : fitting stdin = [])
      (hout : s'.stdout = s.stdout ++ printed prompt stdin)
  | line {long : List (List UInt8)} {l : List UInt8}
      (hlong : ∀ m ∈ long, lf ∉ m ∧ maxBuf < m.length + 2)
      (hstdin : stdin = long.flatMap (· ++ [lf]) ++ (l ++ lf :: rest)) (hready : Ready s' l)
      (hcount : count = l.length + 1) (hfit : fitting stdin = l :: fitting rest)
      (hout : s'.stdout ++ printed prompt rest = s.stdout ++ printed prompt stdin)

/-- A call that returned `d.2` has put the line `l` into `input_buf`. -/
def Delivers (d : Shell × ℤ) (l : List UInt8) : Prop := Ready d.1 l ∧ d.2 = l.length + 1

section fetch
variable {prompt : String} {m stdin rest : List UInt8} {s s' s₁ : Shell} {count : ℤ}

/-- Characters before the newline. -/
theorem fetchLoop_chars {count : ℕ} (prompt : String) (stdin : List UInt8) (s : Shell)
    (hm : lf ∉ m) (hcount : count ≤ maxBuf) : ∃ s₁,
      fetchLoop prompt (m ++ stdin) s count =
        fetchLoop prompt stdin s₁ (min (count + m.length) maxBuf) ∧ s₁.stdout = s.stdout := by
  induction m generalizing s count with
  | nil => exact ⟨s, by rw [List.length_nil, Nat.add_zero, Nat.min_eq_left hcount]; rfl, rfl⟩
  | cons c m ih =>
    obtain ⟨hc, hm⟩ := not_or.mp (List.mem_cons.not.mp hm)
    rw [List.cons_append, List.length_cons]
    rcases Nat.lt_or_ge count maxBuf with hlt | hge
    · rw [fetchLoop_char (Ne.symm hc) hlt, ← Nat.add_assoc, Nat.add_right_comm]
      exact ih _ hm hlt
    · obtain ⟨s₁, hs₁, hout⟩ := ih s hm hcount
      refine ⟨s₁, ?_, hout⟩
      rw [fetchLoop_skip (Ne.symm hc) hge, hs₁, Nat.min_eq_right (by omega),
        Nat.min_eq_right (by omega)]

/-- `fetch_line` reads a line that does not fit and starts again behind it. -/
theorem fetchLine_long (prompt : String) (rest : List UInt8) (s : Shell) (hm : lf ∉ m)
    (hlong : ¬m.length + 2 ≤ maxBuf) : ∃ s₁,
      fetchLine prompt (m ++ lf :: rest) s = fetchLine prompt rest s₁ ∧
        s₁.stdout = s.stdout ++ [prompt, "too long input line\n"] := by
  obtain ⟨s₁, hs₁, hout₁⟩ := fetchLoop_chars prompt (lf :: rest) (s.restart prompt) hm
    (Nat.zero_le maxBuf)
  obtain ⟨s₂, hs₂, hout₂⟩ := fetchLoop_drop prompt rest s₁
    (by omega : maxBuf ≤ min (0 + m.length) maxBuf + 1)
  refine ⟨s₂, hs₁.trans hs₂, ?_⟩
  rw [hout₂, hout₁, Shell.restart, List.append_assoc]
  rfl

/-- A dropped line in front changes the bytes that are read and what is printed. -/
theorem Fetched.drop (h : Fetched prompt stdin s₁ s' rest count) (hm : lf ∉ m)
    (hlong : ¬m.length + 2 ≤ maxBuf)
    (hs₁ : s₁.stdout = s.stdout ++ [prompt, "too long input line\n"]) :
    Fetched prompt (m ++ lf :: stdin) s s' rest count := by
  have hfit (l : List UInt8) : fitting (m ++ lf :: l) = fitting l :=
    (fitting_append hm).trans (if_neg hlong)
  have hprinted : s₁.stdout ++ printed prompt stdin =
      s.stdout ++ printed prompt (m ++ lf :: stdin) := by
    rw [hs₁, printed_append hm, if_neg hlong, List.append_assoc]
  cases h with
  | eof hcount hrest hnone hout =>
    exact .eof hcount hrest ((hfit stdin).trans hnone) (hout.trans hprinted)
  | @line long l hdrop hstdin hready hcount hnext hout =>
    have hlines : ∀ d ∈ m :: long, lf ∉ d ∧ maxBuf < d.length + 2 :=
      List.forall_mem_cons.mpr ⟨⟨hm, Nat.lt_of_not_le hlong⟩, hdrop⟩
    refine .line hlines ?_ hready hcount ((hfit stdin).trans hnext) (hout.trans hprinted)
    rw [hstdin, List.flatMap_cons, List.append_assoc, List.append_assoc, List.singleton_append]

/-- A call returns, on every stream. -/
theorem fetchLine_call (prompt : String) (stdin : List UInt8) (s : Shell) : ∃ s' rest count,
    fetchLine prompt stdin s = some (s', rest, count) ∧
      Fetched prompt stdin s s' rest count := by
  -- by the number of bytes that are left: a dropped line is shorter than the stream
  induction hlen : stdin.length using Nat.strongRecOn generalizing stdin s with
  | ind n ih =>
    by_cases hlf : lf ∈ stdin
    · obtain ⟨m, rest, rfl, hm⟩ := List.eq_append_cons_of_mem hlf
      by_cases hshort : m.length + 2 ≤ maxBuf
      · obtain ⟨s', hs', hready, hout⟩ := fetchLine_short prompt rest s hm hshort
        have hfit : fitting (m ++ lf :: rest) = m :: fitting rest :=
          (fitting_append hm).trans (if_pos hshort)
        refine ⟨s', rest, _, hs', .line (List.forall_mem_nil _) rfl hready rfl hfit ?_⟩
        rw [hout, printed_append hm, if_pos hshort, List.append_assoc]
      · obtain ⟨s₁, hs₁, hout⟩ := fetchLine_long prompt rest s hm hshort
        have hless : rest.length < n := by
          rw [← hlen, List.length_append, List.length_cons]
          omega
        obtain ⟨s', rest', count, hs', hcall⟩ := ih _ hless rest s₁ rfl
        exact ⟨s', rest', count, hs₁.trans hs', hcall.drop hm hshort hout⟩
    · obtain ⟨s₁, hs₁, hout⟩ := fetchLoop_chars prompt [] (s.restart prompt) hlf
        (Nat.zero_le maxBuf)
      rw [List.append_nil] at hs₁
      refine ⟨s₁, [], eof, hs₁, .eof rfl rfl (fitting_unterminated hlf) ?_⟩
      rw [hout, printed_unterminated hlf]
      rfl

/-- The line that a call delivers is shorter than what was left. -/
theorem rest_length_lt {long : List (List UInt8)} {l : List UInt8}
    (hstdin : stdin = long.flatMap (· ++ [lf]) ++ (l ++ lf :: rest)) :
    rest.length < stdin.length := by
  rw [hstdin, List.length_append, List.length_append, List.length_cons]
  omega

/-- Enough fuel for the calls on a stream: each line is shorter than what is left. -/
theorem fetchAll_delivers (prompt : String) (parse : Shell → Shell) {fuel : ℕ} {stdin : List UInt8}
    (s : Shell) (hfuel : stdin.length < fuel) : ∃ ds, fetchAll prompt parse fuel stdin s = some ds ∧
      List.Forall₂ Delivers ds (fitting stdin) := by
  induction fuel generalizing stdin s with
  | zero => exact absurd hfuel (Nat.not_lt_zero _)
  | succ fuel ih =>
    obtain ⟨s', rest, count, hs', hcall⟩ := fetchLine_call prompt stdin s
    rw [fetchAll, hs', Option.bind_eq_bind, Option.bind_some]
    cases hcall with
    | eof hcount hrest hfit =>
      rw [hfit]
      exact ⟨[], if_pos hcount, .nil⟩
    | @line long l hlong hstdin hready hcount hfit =>
      have hless : rest.length < fuel := by
        have := rest_length_lt hstdin
        omega
      obtain ⟨ds, hds, hall⟩ := ih (parse s') hless
      have hne : count ≠ -1 := by omega
      refine ⟨(s', count) :: ds, ?_, ?_⟩
      · dsimp only
        rw [if_neg hne, hds]
        rfl
      · rw [hfit]
        exact .cons ⟨hready, hcount⟩ hall

/-- CORRECT (delivery): on every stream, and whatever happens to the buffers between two calls,
    `fetch_line` called until EOF delivers the lines that fit, each in `input_buf` with its newline
    and a NUL, in order, without a store outside the buffer; and a call has read what it dropped,
    its line and the newline, or everything, and has printed a prompt for each line it read and a
    message for each that it dropped. -/
theorem fetch_faithful (prompt : String) (parse : Shell → Shell) (stdin : List UInt8) (s : Shell) :
    (∃ ds, fetchAll prompt parse (stdin.length + 1) stdin s = some ds ∧
      List.Forall₂ Delivers ds (fitting stdin)) ∧
    ∃ s' rest count, fetchLine prompt stdin s = some (s', rest, count) ∧
      Fetched prompt stdin s s' rest count :=
  ⟨fetchAll_delivers prompt parse s (Nat.lt_succ_self _), fetchLine_call prompt stdin s⟩

end fetch

end OsLabs.Sh

import OsLabs.Schemes.Contents

/-! @src lab1_shell/sh.c | name:line | scheme:bytes

    The two buffers of the shell, and `fetch_line`, which fills the first. `input_char` and `token`
    are kept as offsets. A store checks its index (`none` is a store outside the buffer). A line
    that does not fit is read to its end and dropped, and `fetch_line` starts again. -/

namespace OsLabs.Sh
open Schemes

abbrev maxBuf : ℕ := 512
abbrev maxArg : ℕ := 100

/-- `EOF` -/
abbrev eof : ℤ := -1

abbrev tab : UInt8 := 9
abbrev lf : UInt8 := 10
abbrev space : UInt8 := 32
abbrev amp : UInt8 := 38
abbrev semi : UInt8 := 59
abbrev lt : UInt8 := 60
abbrev gt : UInt8 := 62
abbrev bar : UInt8 := 124

/-- The buffers of the shell with the positions in them, and what it has printed. -/
structure Shell where
  inputBuf : Buf 512
  tokenBuf : Buf 1024
  inputChar : ℕ
  token : ℕ
  stdout : List String

namespace Shell

/-- `input_buf[i] = c` -/
def putInput (s : Shell) (i : ℕ) (c : UInt8) : Option Shell :=
  if i < maxBuf then some { s with inputBuf := s.inputBuf.store i [c] } else none

/-- The first `n` bytes of `input_buf`. -/
def line (s : Shell) (n : ℕ) : List UInt8 := (List.range n).map s.inputBuf.byte

/-- What `fetch_line` does before it reads. -/
def restart (prompt : String) (s : Shell) : Shell :=
  { s with inputChar := 0, token := 0, stdout := s.stdout ++ [prompt] }

end Shell

/-- The loop of `fetch_line`, on what is left of the input, with what it returns. -/
def fetchLoop (prompt : String) : List UInt8 → Shell → ℕ → Option (Shell × List UInt8 × ℤ)
  | [], s, _ => some (s, [], eof)
  | c :: stdin, s, count => do
    let (s, count) ←
      if count < maxBuf then (s.putInput count c).map (·, count + 1) else some (s, count)
    if c = lf ∧ count < maxBuf then
      let s ← s.putInput count 0
      some (s, stdin, count)
    else if c = lf then
      -- `return fetch_line(prompt)`
      fetchLoop prompt stdin
        (Shell.restart prompt { s with stdout := s.stdout ++ ["too long input line\n"] }) 0
    else fetchLoop prompt stdin s count

def fetchLine (prompt : String) (stdin : List UInt8) (s : Shell) :
    Option (Shell × List UInt8 × ℤ) := fetchLoop prompt stdin (s.restart prompt) 0

/-- `input_buf` has a line, its newline and a NUL, and nothing of it has been read. -/
structure Ready (s : Shell) (l : List UInt8) : Prop where
  input : s.inputBuf.byte.Holds 0 (l ++ [lf, 0])
  noLf : lf ∉ l
  short : l.length + 2 ≤ maxBuf
  inputChar : s.inputChar = 0
  token : s.token = 0

/-- The loop has stored `l`, unless the line is already too long. -/
structure Filling (s : Shell) (count : ℕ) (l : List UInt8) : Prop where
  input : count < maxBuf → l.length = count ∧ s.inputBuf.byte.Holds 0 l
  noLf : lf ∉ l
  inputChar : s.inputChar = 0
  token : s.token = 0

section fetch
variable {prompt : String} {s s' : Shell} {stdin rest l : List UInt8} {count : ℕ} {n : ℤ}
  {c : UInt8}

theorem filling_restart (s : Shell) : Filling (s.restart prompt) 0 [] :=
  ⟨fun _ => ⟨rfl, trivial⟩, List.not_mem_nil, rfl, rfl⟩

/-- A byte stored after the others. -/
theorem holds_snoc {i : ℕ} {b : Buf 512} (h : b.byte.Holds 0 l) (hi : l.length = i)
    (hlt : i < maxBuf) : (b.store i [c]).byte.Holds 0 (l ++ [c]) := by
  refine holds_append.mpr ⟨h.congr fun j _ hj => Buf.store_out (by omega), ?_⟩
  rw [Nat.zero_add, hi]
  exact Buf.store_holds hlt

theorem fetchLoop_char (hc : c ≠ lf) (hcount : count < maxBuf) :
    fetchLoop prompt (c :: stdin) s count =
      fetchLoop prompt stdin { s with inputBuf := s.inputBuf.store count [c] } (count + 1) := by
  rw [fetchLoop, if_pos hcount, Shell.putInput, if_pos hcount, Option.map_some,
    Option.bind_eq_bind, Option.bind_some]
  dsimp only
  rw [if_neg fun h => hc h.1, if_neg hc]

theorem fetchLoop_lf (hcount : count + 1 < maxBuf) : fetchLoop prompt (lf :: stdin) s count =
    some ({ s with inputBuf := (s.inputBuf.store count [lf]).store (count + 1) [0] }, stdin,
      ((count + 1 : ℕ) : ℤ)) := by
  rw [fetchLoop, if_pos (by omega), Shell.putInput, if_pos (by omega), Option.map_some,
    Option.bind_eq_bind, Option.bind_some]
  dsimp only
  rw [if_pos ⟨rfl, hcount⟩, Shell.putInput, if_pos hcount]
  rfl

/-- A character past the end of the buffer. -/
theorem fetchLoop_skip (hc : c ≠ lf) (hcount : maxBuf ≤ count) :
    fetchLoop prompt (c :: stdin) s count = fetchLoop prompt stdin s count := by
  rw [fetchLoop, if_neg (Nat.not_lt.mpr hcount), Option.bind_eq_bind, Option.bind_some]
  dsimp only
  rw [if_neg fun h => hc h.1, if_neg hc]

/-- The newline of a line that does not fit: `fetch_line` starts again. -/
theorem fetchLoop_drop (prompt : String) (stdin : List UInt8) (s : Shell)
    (hcount : maxBuf ≤ count + 1) : ∃ s₁, fetchLoop prompt (lf :: stdin) s count =
      fetchLine prompt stdin s₁ ∧ s₁.stdout = s.stdout ++ ["too long input line\n"] := by
  rw [fetchLoop]
  rcases Nat.lt_or_ge count maxBuf with hlt | hge
  · rw [if_pos hlt, Shell.putInput, if_pos hlt, Option.map_some, Option.bind_eq_bind,
      Option.bind_some]
    dsimp only
    rw [if_neg fun h => Nat.not_lt.mpr hcount h.2, if_pos rfl]
    exact ⟨_, rfl, rfl⟩
  · rw [if_neg (Nat.not_lt.mpr hge), Option.bind_eq_bind, Option.bind_some]
    dsimp only
    rw [if_neg fun h => Nat.not_lt.mpr hge h.2, if_pos rfl]
    exact ⟨_, rfl, rfl⟩

/-- A character that is not the newline. -/
theorem Filling.char (h : Filling s count l) (hc : c ≠ lf) (hcount : count < maxBuf) :
    Filling { s with inputBuf := s.inputBuf.store count [c] } (count + 1) (l ++ [c]) := by
  obtain ⟨hlen, hl⟩ := h.input hcount
  refine ⟨fun _ => ⟨?_, holds_snoc hl hlen hcount⟩, ?_, h.inputChar, h.token⟩
  · rw [List.length_append, hlen, List.length_singleton]
  · simpa using ⟨h.noLf, Ne.symm hc⟩

/-- The newline of a line that fits. -/
theorem Filling.newline (h : Filling s count l) (hcount : count + 1 < maxBuf) :
    Ready { s with inputBuf := (s.inputBuf.store count [lf]).store (count + 1) [0] } l := by
  obtain ⟨hlen, hl⟩ := h.input (by omega)
  refine ⟨?_, h.noLf, by omega, h.inputChar, h.token⟩
  have hlf := holds_snoc (c := lf) hl hlen (by omega)
  have hnul := holds_snoc (c := 0) hlf (i := count + 1) (by simpa using hlen) hcount
  rwa [List.append_assoc] at hnul

/-- Whatever `fetch_line` delivers is a line that fits. -/
theorem fetchLoop_ready (h : fetchLoop prompt stdin s count = some (s', rest, n)) (hn : n ≠ eof)
    (hf : Filling s count l) : ∃ l', Ready s' l' ∧ n = l'.length + 1 := by
  induction stdin generalizing s count l with
  | nil =>
    obtain ⟨-, -, rfl⟩ := by simpa [fetchLoop] using h
    exact absurd rfl hn
  | cons c stdin ih =>
    rcases eq_or_ne c lf with rfl | hc
    · rcases Nat.lt_or_ge (count + 1) maxBuf with hlt | hge
      · rw [fetchLoop_lf hlt] at h
        cases h
        obtain ⟨hlen, -⟩ := hf.input (by omega)
        exact ⟨l, hf.newline hlt, by omega⟩
      · obtain ⟨s₁, hdrop, -⟩ := fetchLoop_drop prompt stdin s hge
        rw [hdrop] at h
        exact ih h (filling_restart s₁)
    · rcases Nat.lt_or_ge count maxBuf with hlt | hge
      · rw [fetchLoop_char hc hlt] at h
        exact ih h (hf.char hc hlt)
      · rw [fetchLoop_skip hc hge] at h
        exact ih h hf

/-- The rest of a line that fits is read up to its newline. -/
theorem fetchLoop_short {m : List UInt8} (hm : lf ∉ m) (hshort : count + m.length + 2 ≤ maxBuf)
    (hf : Filling s count l) : ∃ s', fetchLoop prompt (m ++ lf :: rest) s count =
      some (s', rest, (count : ℤ) + m.length + 1) ∧ Ready s' (l ++ m) ∧ s'.stdout = s.stdout := by
  induction m generalizing s count l with
  | nil =>
    refine ⟨_, fetchLoop_lf (by omega), ?_, rfl⟩
    rw [List.append_nil]
    exact hf.newline (by omega)
  | cons c m ih =>
    rw [List.length_cons] at hshort
    have hc : c ≠ lf := fun h => hm (h ▸ List.mem_cons_self ..)
    obtain ⟨s', hs', hready, hout⟩ := ih (fun h => hm (List.mem_cons_of_mem _ h)) (by omega)
      (hf.char hc (by omega))
    rw [List.append_assoc] at hready
    refine ⟨s', ?_, hready, hout⟩
    rw [List.cons_append, fetchLoop_char hc (by omega), hs', List.length_cons]
    have hn : ((count + 1 : ℕ) : ℤ) + m.length + 1 = count + (m.length + 1 : ℕ) + 1 := by omega
    rw [hn]

/-- A line that fits is delivered, and the rest of the input is left. -/
theorem fetchLine_short (prompt : String) (rest : List UInt8) (s : Shell) {m : List UInt8}
    (hm : lf ∉ m) (hshort : m.length + 2 ≤ maxBuf) : ∃ s',
      fetchLine prompt (m ++ lf :: rest) s = some (s', rest, (m.length : ℤ) + 1) ∧ Ready s' m ∧
        s'.stdout = s.stdout ++ [prompt] := by
  have hf : Filling (s.restart prompt) 0 [] := filling_restart s
  obtain ⟨s', hs', hready, hout⟩ := fetchLoop_short hm (by omega) hf
  rw [Nat.cast_zero, zero_add] at hs'
  exact ⟨s', hs', hready, hout⟩

/-- CORRECT (accepted lines): what `fetch_line` returns, other than EOF, is the length of a line of
    at most `MAXBUF - 2` bytes and its newline, which it has put into `input_buf`. -/
theorem fetchLine_ready (h : fetchLine prompt stdin s = some (s', rest, n)) (hn : n ≠ eof) :
    ∃ l, Ready s' l ∧ n = l.length + 1 :=
  fetchLoop_ready h hn (filling_restart s)

/-- The line and its newline, without the NUL. -/
theorem Ready.held (h : Ready s l) : s.inputBuf.byte.Holds 0 (l ++ [lf]) := by
  have happ : l ++ [lf, 0] = l ++ [lf] ++ [0] := by
    rw [List.append_assoc, List.singleton_append]
  exact (holds_append.mp (happ ▸ h.input)).1

theorem Ready.line (h : Ready s l) : s.line (l.length + 1) = l ++ [lf] := by
  have hrange := h.held.range'
  rwa [List.length_append, ← List.range_eq_range'] at hrange

end fetch

end OsLabs.Sh

import OsLabs.Schemes.Lexing
import OsLabs.Sh.Line

/-! @src lab1_shell/sh.c | name:token | scheme:lexing

    `gettoken` skips blanks, takes one character, and when its `switch` does not know that character
    goes on to the next one that `end_of_token` knows. The token is copied to `token_buf` with a
    NUL. Reads and stores check their index (`none` is an access outside a buffer); the loops are
    bounded by the size of `input_buf`, where the next read is outside. -/

namespace OsLabs.Sh
open Schemes

/-- `token_type_t` -/
inductive TokenType where
  | ampersand | newline | normal | input | output | pipe | semicolon
  deriving DecidableEq

/-- Blanks separate tokens. -/
def isBlank (c : UInt8) : Bool := c = space || c = tab

/-- True if the character is not part of the previous token. -/
def endOfToken (c : UInt8) : Bool := c ∈ [0, space, tab, lf, semi, bar, amp, lt, gt]

/-- The `switch (*input_char++)` of `gettoken`; `.normal` is its default case. -/
def tokenType (c : UInt8) : TokenType :=
  if c = lf then .newline
  else if c = lt then .input
  else if c = gt then .output
  else if c = amp then .ampersand
  else if c = bar then .pipe
  else .normal

namespace Shell

/-- `*input_char` -/
def peek (s : Shell) : Option UInt8 :=
  if s.inputChar < maxBuf then some (s.inputBuf.byte s.inputChar) else none

/-- `*token++ = c` -/
def emit (s : Shell) (c : UInt8) : Option Shell :=
  if s.token < 2 * maxBuf then
    some { s with tokenBuf := s.tokenBuf.store s.token [c], token := s.token + 1 }
  else none

/-- `input_char++` -/
def advance (s : Shell) : Shell := { s with inputChar := s.inputChar + 1 }

/-- `while (*input_char == ' ' || *input_char == '\t') input_char++` -/
def skipBlanks (s : Shell) : Shell :=
  { s with
    inputChar := scan (fun i => isBlank (s.inputBuf.byte i)) (maxBuf - s.inputChar) s.inputChar }

/-- One trip of `while (!end_of_token(*input_char)) *token++ = *input_char++`. -/
def copyTrip (s : Shell) : Shell ⊕ Option Shell :=
  match s.peek with
  | none => .inr none
  | some c =>
    if endOfToken c then .inr (some s)
    else
      match s.emit c with
      | none => .inr none
      | some s => .inl s.advance

def copyWord (s : Shell) : Option Shell := (iter copyTrip (maxBuf + 1) s).join

/-- What the cases of the `switch` do: only the default one reads on. -/
def copyRest (s : Shell) (type : TokenType) : Option Shell :=
  if type = .normal then s.copyWord else some s

end Shell

/-- The next token: its type, and where it starts in `token_buf`. -/
def gettoken (s : Shell) : Option (Shell × TokenType × ℕ) := do
  let outptr := s.token
  let s := s.skipBlanks
  let c ← s.peek
  let s ← s.emit c
  let s := s.advance
  let type := tokenType c
  let s ← s.copyRest type
  let s ← s.emit 0
  some (s, type, outptr)

/-- `gettoken` until it returns NEWLINE, at most `n` times. -/
def tokens : ℕ → Shell → Option (Shell × List (TokenType × ℕ))
  | 0, _ => none
  | n + 1, s => do
    let (s, type, outptr) ← gettoken s
    if type = .newline then some (s, [(type, outptr)])
    else
      let (s, ts) ← tokens n s
      some (s, (type, outptr) :: ts)

/-- The tokens of the line in `input_buf`, with the strings that stand in `token_buf` in the end. -/
def lineTokens (s : Shell) : Option (List (TokenType × List UInt8)) :=
  (tokens maxBuf s).map fun r => r.2.map fun t => (t.1, r.1.tokenBuf.string t.2)

/-! ### What a call reads and writes -/

namespace Shell

/-- The shell when `k` characters have been read and `w` has been written to `token_buf`. -/
def took (s : Shell) (k : ℕ) (w : List UInt8) : Shell :=
  { s with
    inputChar := s.inputChar + k
    tokenBuf := s.tokenBuf.store s.token w
    token := s.token + w.length }

section took
variable {s : Shell} {k k' : ℕ} {w w' bs r : List UInt8} {c d : UInt8}

theorem took_took : (s.took k w).took k' w' = s.took (k + k') (w ++ w') := by
  simp only [took, Buf.store_append, Nat.add_assoc, List.length_append]

theorem emit_eq (h : s.token < 2 * maxBuf) : s.emit c = some (s.took 0 [c]) := if_pos h

theorem advance_eq : s.advance = s.took 1 [] := by
  rw [took, Buf.store_nil]
  rfl

theorem peek_eq (h : s.inputBuf.byte.Holds s.inputChar (c :: r)) (hlt : s.inputChar < maxBuf) :
    s.peek = some c := by rw [peek, if_pos hlt, h.1]

theorem skipBlanks_eq (h : s.inputBuf.byte.Holds s.inputChar (bs ++ c :: r))
    (hbs : ∀ b ∈ bs, isBlank b = true) (hc : isBlank c = false)
    (hlt : s.inputChar + bs.length < maxBuf) : s.skipBlanks = s.took bs.length [] := by
  rw [skipBlanks, scan_holds h hbs hc (by omega), took, Buf.store_nil]
  rfl

/-- What is left after some characters. -/
theorem holds_took (w' : List UInt8) (h : s.inputBuf.byte.Holds s.inputChar (w ++ r))
    (hk : w.length = k) :
    (s.took k w').inputBuf.byte.Holds (s.took k w').inputChar r :=
  hk ▸ (holds_append.mp h).2

/-- The loop of `gettoken` copies the rest of the word. -/
theorem copyTrip_iter (h : s.inputBuf.byte.Holds s.inputChar (w ++ d :: r))
    (hw : ∀ x ∈ w, endOfToken x = false) (hd : endOfToken d = true)
    (hin : s.inputChar + w.length < maxBuf) (hout : s.token + w.length ≤ 2 * maxBuf) :
    iter copyTrip (w.length + 1) s = some (some (s.took w.length w)) := by
  induction w generalizing s with
  | nil =>
    have hpeek := peek_eq h hin
    refine iter_inr ?_
    rw [copyTrip, hpeek, took, Buf.store_nil]
    exact if_pos hd
  | cons c w ih =>
    rw [List.length_cons] at hin hout
    have hpeek := peek_eq h (by omega)
    have hgo : copyTrip s = .inl (s.took 1 [c]) := by
      rw [copyTrip, hpeek]
      dsimp only
      rw [if_neg (by rw [hw c (List.mem_cons_self ..)]; exact Bool.false_ne_true),
        emit_eq (by omega)]
      dsimp only
      rw [advance_eq, took_took]
      rfl
    rw [List.length_cons, iter_inl hgo, ih (s := s.took 1 [c]) (holds_took (w := [c]) [c] h rfl)
      (fun x hx => hw x (List.mem_cons_of_mem _ hx)) (by simp only [took]; omega)
      (by simp only [took, List.length_singleton]; omega), took_took, Nat.add_comm w.length]
    rfl

theorem copyWord_eq (h : s.inputBuf.byte.Holds s.inputChar (w ++ d :: r))
    (hw : ∀ x ∈ w, endOfToken x = false) (hd : endOfToken d = true)
    (hin : s.inputChar + w.length < maxBuf) (hout : s.token + w.length ≤ 2 * maxBuf) :
    s.copyWord = some (s.took w.length w) := by
  rw [copyWord, iter_mono (by omega) (copyTrip_iter h hw hd hin hout)]
  rfl

end took

end Shell

end OsLabs.Sh

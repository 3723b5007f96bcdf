import Mathlib.Data.List.Induction
import OsLabs.Schemes.Loop
import OsLabs.Schemes.Scanning
import OsLabs.Vm.Encoding
import OsLabs.Vm.Flat

/-! @src lab3_vm/c/machine.c | name:program | scheme:scanning

    `read_program`. A file is read in pieces, one call of `fgets` each; a piece that is no comment
    must scan as a known mnemonic and three numbers, and is stored as a word at the next address.
    Anything else ends in `error`, and the `int` that counts the lines stored must not overflow.
    What is written in a line is said by `Reads`, without reference to how it is scanned.

        ; comment                            skipped
        addi 1,0,1024       make_instr ──▶   memory[0]
        call 0,0,18         make_instr ──▶   memory[1]
        addi 1;0,1024       error, exit                  -/

namespace OsLabs.Vm
open Schemes

/-- What the C standard leaves to the library: the size of a buffer, and the `int` that `%d` stores
    for a number that is out of range. -/
structure Libc where
  bufsiz : ℕ
  stored : ℤ → ℤ
  bufsiz_le : 256 ≤ bufsiz
  stored_eq : ∀ v, FitsS 32 v → stored v = v

abbrev semicolon : UInt8 := 59

/-- The string in a buffer. -/
def chars (buf : List UInt8) : List UInt8 := buf.takeWhile (· ≠ 0)

def ofBytes (s : List UInt8) : String := String.ofList (s.map fun c => Char.ofNat c.toNat)

/-- `sscanf(buf, "%s %d,%d,%d", ..)`. The blank in the format skips what `%d` skips anyway. -/
def scanLine (buf : List UInt8) : Option (List UInt8 × ℤ × ℤ × ℤ) := do
  let text ← scanWord buf
  let a ← scanInt text.2
  let rest ← scanChar comma a.2
  let b ← scanInt rest
  let rest ← scanChar comma b.2
  let c ← scanInt rest
  some (text.1, a.1, b.1, c.1)

/-- How `read_program` ends. The text of an error may be too long for the buffer of `error`, and
    `line` may overflow. -/
inductive Reply (M : Type) where
  | done (mem : M) (log : List Access) (ninstr : ℕ)
  | error (msg : String)
  | overrun
  | overflow

/-- `error`, without the `exit`. -/
def Libc.error {M : Type} (lib : Libc) (msg : String) : Reply M :=
  if msg.length < lib.bufsiz then .error msg else .overrun

/-- `"syntax error near: \"%s\""` -/
def syntaxError (s : List UInt8) : String := "syntax error near: \"" ++ ofBytes s ++ "\""

/-- The file that is left, the memory, the writes to it, and `line`. -/
structure Reading (M : Type) where
  input : List UInt8
  mem : M
  log : List Access
  line : ℕ

def comment (buf : List UInt8) : Bool := buf.head? = some semicolon

section reading
variable {M : Type} (lib : Libc) (mm : Memory M)

/-- One trip of the loop of `read_program`. -/
def readTrip (s : Reading M) : Reading M ⊕ Reply M :=
  match fgets lib.bufsiz s.input with
  | none => .inr (.done s.mem s.log s.line)
  | some (buf, input) =>
    if comment buf then .inl { s with input := input }
    else
      match scanLine (chars buf) with
      | none => .inr (lib.error (syntaxError (chars buf)))
      | some (text, a, b, c) =>
        match assemble (ofBytes text) (lib.stored a) (lib.stored b) (lib.stored c) with
        | none => .inr (lib.error (syntaxError text))
        | some w =>
          let addr := BitVec.ofNat 32 s.line
          -- `line` is an `int`
          if s.line + 1 < 2 ^ 31 then
            .inl ⟨input, mm.writeMemory s.mem addr w, s.log ++ [.write addr w], s.line + 1⟩
          else .inr .overflow

/-- `read_program`; there is no file if it cannot be opened. -/
def readProgram (file : Option (List UInt8)) (m : M) : Option (Reply M) :=
  match file with
  | none => some (lib.error "cannot open file")
  | some input => iter (readTrip lib mm) (input.length + 1) ⟨input, m, [], 0⟩

end reading

/-! ### What a line says -/

def Blank (s : List UInt8) : Prop := ∀ c ∈ s, isSpace c = true

/-- The line says `text a,b,c`; anything may follow. -/
inductive Reads : List UInt8 → List UInt8 → ℤ → ℤ → ℤ → Prop
  | intro {s₀ s₁ s₂ s₃ text x y z r : List UInt8} {a b c : ℤ} : Blank s₀ → Blank s₁ → Blank s₂ →
      Blank s₃ → s₁ ≠ [] → text ≠ [] → (∀ c ∈ text, isSpace c = false) →
      Numeral (comma :: (s₂ ++ (y ++ comma :: (s₃ ++ (z ++ r))))) x a →
      Numeral (comma :: (s₃ ++ (z ++ r))) y b → Numeral r z c →
      Reads (s₀ ++ (text ++ (s₁ ++ (x ++ comma :: (s₂ ++ (y ++ comma :: (s₃ ++ (z ++ r))))))))
        text a b c

section scan
variable {l text : List UInt8} {a b c : ℤ}

/-- A blank ends a word. -/
theorem stretch_word {s r : List UInt8} (htext : ∀ c ∈ text, isSpace c = false) (hs : Blank s)
    (hne : s ≠ []) : Stretch (fun c => !isSpace c) text (s ++ r) := by
  obtain ⟨d, s, rfl⟩ := List.exists_cons_of_ne_nil hne
  refine ⟨fun c hc => by rw [htext c hc]; rfl, fun c hc => ?_⟩
  rw [← Option.some.inj hc, hs d (List.mem_cons_self ..)]
  rfl

/-- `sscanf` reads exactly the lines of this form. -/
theorem scanLine_iff : scanLine l = some (text, a, b, c) ↔ Reads l text a b c := by
  constructor
  · intro h
    obtain ⟨⟨w, l₁⟩, hw, h⟩ := Option.bind_eq_some_iff.mp h
    obtain ⟨⟨a', l₂⟩, ha, h⟩ := Option.bind_eq_some_iff.mp h
    obtain ⟨l₃, hl₃, h⟩ := Option.bind_eq_some_iff.mp h
    obtain ⟨⟨b', l₄⟩, hb, h⟩ := Option.bind_eq_some_iff.mp h
    obtain ⟨l₅, hl₅, h⟩ := Option.bind_eq_some_iff.mp h
    obtain ⟨⟨c', l₆⟩, hc, h⟩ := Option.bind_eq_some_iff.mp h
    cases h
    obtain ⟨s₀, rfl, hs₀, hne, htext⟩ := scanWord_iff.mp hw
    obtain ⟨s₁, x, rfl, hs₁, hx⟩ := scanInt_iff.mp ha
    obtain rfl := scanChar_iff.mp hl₃
    obtain ⟨s₂, y, rfl, hs₂, hy⟩ := scanInt_iff.mp hb
    obtain rfl := scanChar_iff.mp hl₅
    obtain ⟨s₃, z, rfl, hs₃, hz⟩ := scanInt_iff.mp hc
    refine .intro hs₀ hs₁ hs₂ hs₃ ?_ hne (fun c hc => ?_) hx hy hz
    · -- the word would go on with the numeral
      rintro rfl
      obtain ⟨d, x', rfl, hd⟩ := hx.head
      have hstop := htext.stop d rfl
      rw [hd] at hstop
      cases hstop
    · have hword := htext.all c hc
      rwa [Bool.not_eq_true'] at hword
  · rintro ⟨hs₀, hs₁, hs₂, hs₃, hne₁, hne, htext, hx, hy, hz⟩
    refine Option.bind_eq_some_iff.mpr
      ⟨_, scanWord_iff.mpr ⟨_, rfl, hs₀, hne, stretch_word htext hs₁ hne₁⟩, ?_⟩
    refine Option.bind_eq_some_iff.mpr ⟨_, scanInt_iff.mpr ⟨_, _, rfl, hs₁, hx⟩, ?_⟩
    refine Option.bind_eq_some_iff.mpr ⟨_, scanChar_iff.mpr rfl, ?_⟩
    refine Option.bind_eq_some_iff.mpr ⟨_, scanInt_iff.mpr ⟨_, _, rfl, hs₂, hy⟩, ?_⟩
    refine Option.bind_eq_some_iff.mpr ⟨_, scanChar_iff.mpr rfl, ?_⟩
    exact Option.bind_eq_some_iff.mpr ⟨_, scanInt_iff.mpr ⟨_, _, rfl, hs₃, hz⟩, rfl⟩

end scan

/-! ### The loop -/

/-- The lines that are no comments. -/
def code (ls : List (List UInt8)) : List (List UInt8) := ls.filter fun l => !comment l

/-- The line is no mnemonic with three numbers, or there is no such mnemonic. -/
def unknown (l : List UInt8) : Bool :=
  match scanLine (chars l) with
  | none => true
  | some r => !mnemonics.contains (ofBytes r.1)

/-- The part of such a line that the error quotes. -/
def offending (l : List UInt8) : List UInt8 :=
  match scanLine (chars l) with
  | none => chars l
  | some r => r.1

/-- The word for a line. -/
def Libc.word (lib : Libc) (l : List UInt8) : Option Word :=
  (scanLine (chars l)).bind fun r =>
    assemble (ofBytes r.1) (lib.stored r.2.1) (lib.stored r.2.2.1) (lib.stored r.2.2.2)

/-- Words are stored from address 0 on. -/
def writes (ws : List Word) : List Access := ws.mapIdx fun i w => .write (BitVec.ofNat 32 i) w

section loop
variable {M : Type} {lib : Libc} {mm : Memory M} {m : M} {ws : List Word} {w : Word}
  {input buf : List UInt8}

/-- The loop has stored `ws`. -/
def reading (mm : Memory M) (m : M) (ws : List Word) (input : List UInt8) : Reading M :=
  ⟨input, mm.after m (writes ws), writes ws, ws.length⟩

def finished (mm : Memory M) (m : M) (ws : List Word) : Reply M :=
  .done (mm.after m (writes ws)) (writes ws) ws.length

/-- What becomes of `ls` when `ws` has been stored: the first unknown line is reported, if `line`
    can count the lines before it. -/
def Libc.reply (lib : Libc) (mm : Memory M) (m : M) (ws : List Word) (ls : List (List UInt8)) :
    Reply M :=
  if ws.length + (ls.takeWhile fun l => !unknown l).length < 2 ^ 31 then
    match ls.find? unknown with
    | some l => lib.error (syntaxError (offending l))
    | none => finished mm m (ws ++ ls.map fun l => (lib.word l).getD 0)
  else .overflow

theorem assemble_eq_none {text : String} {a b c : ℤ} :
    assemble text a b c = none ↔ mnemonics.contains text = false := by
  rw [assemble, ← Bool.not_eq_true, List.contains_iff_mem]
  cases h : mnemonics.findIdx? (· == text) with
  | none =>
    refine iff_of_true rfl fun hmem => ?_
    have hne := List.findIdx?_eq_none_iff.mp h text hmem
    rw [beq_self_eq_true] at hne
    cases hne
  | some i =>
    refine iff_of_false (Option.some_ne_none _) fun hmem => hmem ?_
    obtain ⟨hi, heq, -⟩ := List.findIdx?_eq_some_iff_getElem.mp h
    rw [← eq_of_beq heq]
    exact List.getElem_mem hi

theorem word_eq_none : lib.word buf = none ↔ unknown buf = true := by
  rw [Libc.word, unknown]
  cases scanLine (chars buf) with
  | none => exact iff_of_true rfl rfl
  | some r => rw [Option.bind_some, assemble_eq_none, Bool.not_eq_true']

theorem writes_snoc : writes (ws ++ [w]) = writes ws ++ [.write (BitVec.ofNat 32 ws.length) w] :=
  List.mapIdx_concat

theorem reading_snoc : reading mm m (ws ++ [w]) input =
    ⟨input, mm.writeMemory (mm.after m (writes ws)) (BitVec.ofNat 32 ws.length) w,
      writes ws ++ [.write (BitVec.ofNat 32 ws.length) w], ws.length + 1⟩ := by
  rw [reading, writes_snoc, Memory.after, List.foldl_append, List.length_append,
    List.length_singleton]
  rfl

theorem reply_word {ls : List (List UInt8)} (hw : lib.word buf = some w) :
    lib.reply mm m ws (buf :: ls) = lib.reply mm m (ws ++ [w]) ls := by
  have hknown : ¬unknown buf = true := fun hu => by rw [word_eq_none.mpr hu] at hw; cases hw
  rw [Libc.reply, Libc.reply, List.find?_cons_of_neg hknown, List.map_cons, hw, Option.getD_some,
    List.append_assoc, List.singleton_append, List.takeWhile_cons_of_pos (by simp [hknown]),
    List.length_cons, List.length_append, List.length_singleton, Nat.add_assoc,
    Nat.add_comm 1]

/-- The line that `line` cannot count any more. -/
theorem reply_overflow {ls : List (List UInt8)} (hw : lib.word buf = some w)
    (hline : ¬(ws.length + 1 < 2 ^ 31)) : lib.reply mm m ws (buf :: ls) = .overflow := by
  rw [reply_word hw, Libc.reply, List.length_append, List.length_singleton, if_neg (by omega)]

theorem reply_error {ls : List (List UInt8)} (hu : unknown buf = true)
    (hws : ws.length < 2 ^ 31) :
    lib.reply mm m ws (buf :: ls) = lib.error (syntaxError (offending buf)) := by
  rw [Libc.reply, List.find?_cons_of_pos hu, List.takeWhile_cons_of_neg (by simp [hu])]
  exact if_pos hws

section trip
variable {rest : List UInt8} (h : fgets lib.bufsiz input = some (buf, rest))
include h

theorem readTrip_comment (hc : comment buf = true) :
    readTrip lib mm (reading mm m ws input) = .inl (reading mm m ws rest) := by
  rw [readTrip]
  simp only [reading, h, hc, if_true]

/-- A known line is stored after the others. -/
theorem readTrip_word (hc : comment buf = false) (hw : lib.word buf = some w) :
    readTrip lib mm (reading mm m ws input) =
      if ws.length + 1 < 2 ^ 31 then .inl (reading mm m (ws ++ [w]) rest) else .inr .overflow := by
  obtain ⟨⟨text, a, b, c⟩, hscan, hword⟩ := Option.bind_eq_some_iff.mp hw
  rw [readTrip, reading_snoc]
  simp only [reading, h, hc, hscan, hword]
  exact if_neg Bool.false_ne_true

/-- An unknown line is reported. -/
theorem readTrip_error (hc : comment buf = false) (hw : lib.word buf = none) :
    readTrip lib mm (reading mm m ws input) =
      .inr (lib.error (syntaxError (offending buf))) := by
  rw [readTrip, offending]
  simp only [reading, h, hc]
  rw [if_neg Bool.false_ne_true]
  rw [Libc.word] at hw
  cases hscan : scanLine (chars buf) with
  | none => rfl
  | some r =>
    rw [hscan, Option.bind_some] at hw
    obtain ⟨text, a, b, c⟩ := r
    simp only [hw]

end trip

/-- The whole loop, by induction on its fuel. -/
theorem iter_readTrip : ∀ {k : ℕ} (ws : List Word) {input : List UInt8}, input.length < k →
    ws.length < 2 ^ 31 → iter (readTrip lib mm) k (reading mm m ws input) =
      some (lib.reply mm m ws (code (pieces lib.bufsiz input)))
  | k + 1, ws, input, hk, hws => by
      have hbuf : 2 ≤ lib.bufsiz := le_trans (by decide) lib.bufsiz_le
      cases h : fgets lib.bufsiz input with
      | none =>
        obtain rfl := fgets_eq_none.mp h
        have hend : lib.reply mm m ws (code (pieces lib.bufsiz [])) = finished mm m ws :=
          (if_pos hws).trans (congrArg (finished mm m) (List.append_nil ws))
        rw [hend]
        exact iter_inr rfl
      | some r =>
        obtain ⟨buf, rest⟩ := r
        have hrest := (fgets_shorter hbuf h).2
        rw [pieces_cons hbuf h]
        cases hc : comment buf with
        | true =>
          rw [iter_inl (readTrip_comment h hc), iter_readTrip _ (by omega) hws, code, code,
            List.filter_cons_of_neg (by simp [hc])]
        | false =>
          have hcode : code (buf :: pieces lib.bufsiz rest) =
              buf :: code (pieces lib.bufsiz rest) :=
            List.filter_cons_of_pos (by simp [hc])
          rw [hcode]
          cases hw : lib.word buf with
          | none => rw [iter_inr (readTrip_error h hc hw), reply_error (word_eq_none.mp hw) hws]
          | some w =>
            have htrip : readTrip lib mm (reading mm m ws input) = _ := readTrip_word h hc hw
            by_cases hline : ws.length + 1 < 2 ^ 31
            · rw [if_pos hline] at htrip
              have hws' : (ws ++ [w]).length < 2 ^ 31 := by
                rwa [List.length_append, List.length_singleton]
              rw [iter_inl htrip, iter_readTrip _ (by omega) hws', reply_word hw]
            · rw [if_neg hline] at htrip
              rw [iter_inr htrip, reply_overflow hw hline]

end loop

/-! ### Faithfulness -/

/-- A known mnemonic and three numbers in the range of `int`. -/
def Instruction (l : List UInt8) : Prop :=
  ∃ text a b c, Reads (chars l) text a b c ∧ ofBytes text ∈ mnemonics ∧
    FitsS 32 a ∧ FitsS 32 b ∧ FitsS 32 c

/-- The lines fit the buffer, and each is a comment or an instruction. -/
def WellFormed (lib : Libc) (file : List UInt8) : Prop :=
  ∀ l ∈ lines file, l.length < lib.bufsiz ∧ (comment l = true ∨ Instruction l)

/-- Word `i` has been stored at address `i` and says what line `i` says. -/
structure Faithful {M : Type} (mm : Memory M) (m : M) (ls : List (List UInt8)) (mem : M)
    (log : List Access) (ninstr : ℕ) : Prop where
  after : mem = mm.after m log
  count : ninstr = ls.length
  length : log.length = ls.length
  decodes : ∀ i l, ls[i]? = some l → ∀ text a b c, Reads (chars l) text a b c →
    ∃ w, log[i]? = some (Access.write (BitVec.ofNat 32 i) w) ∧ C.Decodes w (ofBytes text) a b c

/-- A well-formed file is stored faithfully, any other is rejected. -/
def Assembles {M : Type} (lib : Libc) (mm : Memory M) (m : M) (file : List UInt8) : Prop :=
  (WellFormed lib file → ∃ mem log ninstr,
    readProgram lib mm (some file) m = some (.done mem log ninstr) ∧
    Faithful mm m (code (lines file)) mem log ninstr) ∧
  (¬WellFormed lib file → ∃ msg, readProgram lib mm (some file) m = some (.error msg))

/-- A well-formed file has fewer than 2^31 instructions, and all operands fit their fields. In any
    other some piece is unknown, `line` can count the instructions before the first such one, and
    the text of the error for it fits the buffer of `error`. -/
structure Assemblable (lib : Libc) (file : List UInt8) : Prop where
  counted : WellFormed lib file → (code (lines file)).length < 2 ^ 31
  fields : WellFormed lib file → ∀ l ∈ code (lines file), ∀ text a b c,
    Reads (chars l) text a b c → InFields a b c
  reported : ¬WellFormed lib file → ∃ l, (code (pieces lib.bufsiz file)).find? unknown = some l ∧
    ((code (pieces lib.bufsiz file)).takeWhile fun l => !unknown l).length < 2 ^ 31 ∧
    (offending l).length + 21 < lib.bufsiz

section faithful
variable {M : Type} {lib : Libc} {mm : Memory M} {m : M} {file l text : List UInt8} {a b c : ℤ}

theorem readProgram_eq : readProgram lib mm (some file) m =
    some (lib.reply mm m [] (code (pieces lib.bufsiz file))) :=
  iter_readTrip [] (Nat.lt_succ_self _) (Nat.two_pow_pos 31)

/-- An instruction is stored as the word for what it says. -/
theorem Instruction.word (lib : Libc) (h : Instruction l) (hr : Reads (chars l) text a b c) :
    ∃ op : Isa, ofBytes text = op.toStr ∧ lib.word l = some (C.makeInstr op.toInt
      (BitVec.ofInt 32 a) (BitVec.ofInt 32 b) (BitVec.ofInt 32 c)) := by
  obtain ⟨text', a', b', c', hr', hknown, ha, hb, hc⟩ := h
  have hscan := scanLine_iff.mpr hr
  rw [scanLine_iff.mpr hr'] at hscan
  cases hscan
  obtain ⟨op, hop⟩ := Isa.exists_toStr hknown
  refine ⟨op, hop.symm, ?_⟩
  rw [Libc.word, scanLine_iff.mpr hr, Option.bind_some, lib.stored_eq _ ha, lib.stored_eq _ hb,
    lib.stored_eq _ hc, ← hop, op.assemble_toStr]

theorem Instruction.known (h : Instruction l) : unknown l = false := by
  obtain ⟨text, a, b, c, hr, hknown, -⟩ := h
  rw [unknown, scanLine_iff.mpr hr, Bool.not_eq_false', List.contains_iff_mem]
  exact hknown

theorem code_instruction (h : WellFormed lib file) (hl : l ∈ code (lines file)) :
    Instruction l := by
  obtain ⟨hmem, hc⟩ := List.mem_filter.mp hl
  refine (h l hmem).2.resolve_left fun hcomment => ?_
  rw [hcomment] at hc
  cases hc

theorem WellFormed.pieces (h : WellFormed lib file) :
    Schemes.pieces lib.bufsiz file = lines file :=
  pieces_eq_lines (le_trans (by decide) lib.bufsiz_le) fun l hl => (h l hl).1

/-- A well-formed file is accepted when its instructions can be counted. -/
theorem WellFormed.reply (h : WellFormed lib file) :
    lib.reply mm m [] (code (Schemes.pieces lib.bufsiz file)) =
      if (code (lines file)).length < 2 ^ 31 then
        finished mm m ((code (lines file)).map fun l => (lib.word l).getD 0)
      else .overflow := by
  have hknown : ∀ l ∈ code (lines file), unknown l = false := fun l hl =>
    (code_instruction h hl).known
  have hfind : (code (lines file)).find? unknown = none := by
    refine List.find?_eq_none.mpr fun l hl => ?_
    rw [hknown l hl]
    exact Bool.false_ne_true
  have hall : (code (lines file)).takeWhile (fun l => !unknown l) = code (lines file) :=
    List.takeWhile_eq_self_iff.mpr fun l hl => by rw [hknown l hl]; rfl
  rw [h.pieces, Libc.reply, hfind, hall, List.length_nil, Nat.zero_add]
  rfl

/-- Of a well-formed file all operands fit if and only if the words say what the lines say. -/
theorem WellFormed.faithful_iff (h : WellFormed lib file) {mem : M} {log : List Access} {n : ℕ}
    (hdone : finished mm m ((code (lines file)).map fun l => (lib.word l).getD 0) =
      .done mem log n) : Faithful mm m (code (lines file)) mem log n ↔
    ∀ l ∈ code (lines file), ∀ text a b c, Reads (chars l) text a b c → InFields a b c := by
  cases hdone
  constructor
  · intro hf l hl text a b c hr
    obtain ⟨i, hi⟩ := List.getElem?_of_mem hl
    obtain ⟨w, -, hw⟩ := hf.decodes i l hi text a b c hr
    exact hw.inFields
  · intro hfields
    refine ⟨rfl, List.length_map _, ?_, fun i l hi text a b c hr => ?_⟩
    · rw [writes, List.length_mapIdx, List.length_map]
    · have hl := List.mem_of_getElem? hi
      obtain ⟨op, htext, hword⟩ := (code_instruction h hl).word lib hr
      refine ⟨C.makeInstr op.toInt (BitVec.ofInt 32 a) (BitVec.ofInt 32 b) (BitVec.ofInt 32 c),
        ?_, ?_⟩
      · rw [writes, List.getElem?_mapIdx, List.getElem?_map, hi, Option.map_some, Option.map_some,
          hword, Option.getD_some]
      · rw [htext]
        exact (makeInstr_inFields op (hfields l hl text a b c hr) rfl).2.1

theorem syntaxError_length (s : List UInt8) : (syntaxError s).length = s.length + 21 := by
  have hpre : "syntax error near: \"".length = 20 := rfl
  have hbytes : (ofBytes s).length = s.length := by
    rw [ofBytes, String.length_ofList, List.length_map]
  have hfront := String.length_append "syntax error near: \"" (ofBytes s)
  rw [hpre, hbytes, Nat.add_comm] at hfront
  have hback : (syntaxError s).length = ("syntax error near: \"" ++ ofBytes s).length + 1 :=
    String.length_append ("syntax error near: \"" ++ ofBytes s) "\""
  rw [hback, hfront]

/-- Where an error is reported. -/
theorem reply_error_iff {ls : List (List UInt8)} :
    (∃ msg, lib.reply mm m [] ls = .error msg) ↔
      ∃ l, ls.find? unknown = some l ∧ (ls.takeWhile fun l => !unknown l).length < 2 ^ 31 ∧
        (offending l).length + 21 < lib.bufsiz := by
  rw [Libc.reply, List.length_nil, Nat.zero_add]
  by_cases hline : (ls.takeWhile fun l => !unknown l).length < 2 ^ 31
  · rw [if_pos hline]
    cases ls.find? unknown with
    | none =>
      refine iff_of_false ?_ ?_
      · rintro ⟨msg, hmsg⟩
        cases hmsg
      · rintro ⟨l, hl, -⟩
        cases hl
    | some l =>
      dsimp only
      rw [Libc.error, syntaxError_length]
      constructor
      · rintro ⟨msg, hmsg⟩
        split at hmsg
        case isTrue hlt => exact ⟨l, rfl, hline, hlt⟩
        case isFalse => cases hmsg
      · rintro ⟨l', hl', -, hlt⟩
        obtain rfl := Option.some.inj hl'
        exact ⟨_, if_pos hlt⟩
  · rw [if_neg hline]
    refine iff_of_false ?_ fun ⟨_, _, hlt, _⟩ => hline hlt
    rintro ⟨msg, hmsg⟩
    cases hmsg

/-- CORRECT (assembler): a well-formed file is stored faithfully exactly when its instructions can
    be counted and their operands fit their fields, and any other is rejected exactly when the error
    for it is reached and can be printed. -/
theorem readProgram_faithful (lib : Libc) (mm : Memory M) (m : M) (file : List UInt8) :
    Assembles lib mm m file ↔ Assemblable lib file := by
  have hrun : readProgram lib mm (some file) m = _ := readProgram_eq
  constructor
  · rintro ⟨hgood, hbad⟩
    have hstored : ∀ h : WellFormed lib file, (code (lines file)).length < 2 ^ 31 ∧
        ∀ l ∈ code (lines file), ∀ text a b c, Reads (chars l) text a b c → InFields a b c := by
      intro h
      obtain ⟨mem, log, n, hdone, hf⟩ := hgood h
      rw [hrun, h.reply, Option.some.injEq] at hdone
      split at hdone
      case isTrue hfew => exact ⟨hfew, (h.faithful_iff hdone).mp hf⟩
      case isFalse => cases hdone
    refine ⟨fun h => (hstored h).1, fun h => (hstored h).2, fun h => ?_⟩
    obtain ⟨msg, hmsg⟩ := hbad h
    rw [hrun] at hmsg
    exact reply_error_iff.mp ⟨msg, Option.some.inj hmsg⟩
  · rintro ⟨hcounted, hfields, hreported⟩
    refine ⟨fun h => ?_, fun h => ?_⟩
    · rw [hrun, h.reply, if_pos (hcounted h)]
      exact ⟨_, _, _, rfl, (h.faithful_iff rfl).mpr (hfields h)⟩
    · obtain ⟨msg, hmsg⟩ := reply_error_iff.mpr (hreported h)
      exact ⟨msg, by rw [hrun, hmsg]⟩

/-- A buffer of 8192 bytes; numbers out of range wrap. -/
def Libc.wrapping : Libc where
  bufsiz := 8192
  stored v := (BitVec.ofInt 32 v).toInt
  bufsiz_le := by decide
  stored_eq _ h := BitVec.toInt_ofInt_eq_self (by decide) h.1 h.2

/-- `addi 64,0,0` spills into the opcode: it is stored as `subi 0,0,0`. -/
theorem readProgram_spill :
    let file := [97, 100, 100, 105, 32, 54, 52, 44, 48, 44, 48, 10]
    (∃ mem, readProgram .wrapping array (some file) (fun _ => 0) =
      some (.done mem [.write 0 (C.makeInstr C.SUBI 0 0 0)] 1)) ∧
    ¬Assembles .wrapping array (fun _ => 0) file := by
  intro file
  have hlines : lines file = [file] := rfl
  have hreads : Reads (chars file) [97, 100, 100, 105] 64 0 0 := scanLine_iff.mp rfl
  have hinstr : Instruction file :=
    ⟨_, _, _, _, hreads, by decide +kernel, by decide, by decide, by decide⟩
  have hgood : WellFormed .wrapping file := by
    intro l hl
    rw [hlines, List.mem_singleton] at hl
    subst hl
    exact ⟨by decide, .inr hinstr⟩
  refine ⟨⟨_, rfl⟩, fun h => ?_⟩
  obtain ⟨mem, log, n, -, hf⟩ := h.1 hgood
  obtain ⟨w, -, hw⟩ := hf.decodes 0 file (by rw [hlines]; rfl) _ _ _ _ hreads
  exact absurd hw.inFields.dest.2 (by decide)

/-! ### The program in memory -/

/-- In an array the words are where they have been stored. -/
theorem array_writes {arr : Word → Word} {ws : List Word} (hlen : ws.length ≤ 2 ^ 32) {i : ℕ}
    {w : Word} (hw : ws[i]? = some w) :
    array.after arr (writes ws) (BitVec.ofNat 32 i) = w := by
  induction ws using List.reverseRecOn with
  | nil => cases hw
  | append_singleton ws v ih =>
    have hset : array.after arr (writes (ws ++ [v])) = Function.update
        (array.after arr (writes ws)) (BitVec.ofNat 32 ws.length) v := by
      rw [writes_snoc, Memory.after, List.foldl_append]
      rfl
    rw [List.length_append, List.length_singleton] at hlen
    rw [hset]
    rcases Nat.lt_or_ge i ws.length with hlt | hge
    · have hne : BitVec.ofNat 32 i ≠ BitVec.ofNat 32 ws.length := by
        intro heq
        have hnat := congrArg BitVec.toNat heq
        rw [BitVec.toNat_ofNat, BitVec.toNat_ofNat] at hnat
        omega
      rw [Function.update_of_ne hne]
      rw [List.getElem?_append_left hlt] at hw
      exact ih (by omega) hw
    · obtain ⟨hlast, -⟩ := List.getElem?_eq_some_iff.mp hw
      rw [List.length_append, List.length_singleton] at hlast
      obtain rfl : i = ws.length := by omega
      rw [List.getElem?_concat_length] at hw
      rw [Function.update_self, Option.some.inj hw]

/-- The words of a well-formed file are found in any memory that behaves as an array of at least
    its size. -/
theorem WellFormed.loaded (h : WellFormed lib file) {size : ℕ} {view : M → Word → Word}
    (hF : Flat mm size view) (hsize : (code (lines file)).length ≤ size)
    (hfew : (code (lines file)).length < 2 ^ 31) :
    ∃ mem log n, readProgram lib mm (some file) m = some (.done mem log n) ∧
      ∀ i l w, (code (lines file))[i]? = some l → lib.word l = some w →
        view mem (BitVec.ofNat 32 i) = w := by
  refine ⟨_, _, _, by rw [readProgram_eq, h.reply, if_pos hfew, finished],
    fun i l w hl hw => ?_⟩
  generalize hws : (code (lines file)).map (fun l => (lib.word l).getD 0) = ws
  have hlen : ws.length = (code (lines file)).length := by rw [← hws, List.length_map]
  have hi : ws[i]? = some w := by
    rw [← hws, List.getElem?_map, hl, Option.map_some, hw, Option.getD_some]
  have hsmall : ∀ k < ws.length, (BitVec.ofNat 32 k).toNat < size := by
    intro k hk
    rw [BitVec.toNat_ofNat]
    omega
  have hbelow : Below size (writes ws) := by
    intro x hx
    obtain ⟨k, hk, rfl⟩ := List.mem_mapIdx.mp hx
    exact hsmall k hk
  have hagree := hF.after hbelow (fun a _ => rfl : Same size (view m) (view m))
  have hlt := (List.getElem?_eq_some_iff.mp hi).1
  exact (hagree _ (hsmall i hlt)).trans (array_writes (by omega) hi)

end faithful

end OsLabs.Vm

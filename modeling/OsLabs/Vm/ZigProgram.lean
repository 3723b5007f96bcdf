import OsLabs.Schemes.Tokens
import OsLabs.Vm.Program

/-! @src lab3_vm/zig/src/main.zig | name:program | scheme:scanning

    The other `read_program`. A line is what stands before its `;`, and an empty one is skipped. Its
    first four tokens, between blanks and commas, are a mnemonic and three numbers, each checked
    against the type of its field; further tokens are ignored. The word is stored at the next
    address, until a line is at fault.

        ; comment                skipped
        addi 1,0,1024  ; sp      mkInstr ──▶   memory[0]
        call 0 0 18              mkInstr ──▶   memory[1]
        addi 64,0,0              error.Overflow              -/

namespace OsLabs.Vm
open Schemes

namespace Zig

/-- The errors that `read_program` returns. -/
inductive ReadError where
  | streamTooLong
  | badOpcode
  | badDestination
  | badSource
  | badConstant
  | parse (e : ParseError)

/-- How it ends; `trap` is the overflow of `count`. -/
inductive ReadReply (M : Type) where
  | done (mem : M) (log : List Access) (count : ℕ)
  | error (e : ReadError)
  | trap

/-- The delimiters `" ,"`. -/
def separator (c : UInt8) : Bool := c = 32 || c = comma

/-- `asmiter.next() orelse return e` -/
def next (l : List UInt8) (e : ReadError) : Except ReadError (List UInt8 × List UInt8) :=
  match nextToken separator l with
  | some r => .ok r
  | none => .error e

/-- `try std.fmt.parseInt(T, l, 10)`, for a type `T` from `lo` to `hi`. -/
def parse (lo hi : ℤ) (l : List UInt8) : Except ReadError ℤ := (parseInt lo hi l).mapError .parse

/-- The instruction in a line without its comment. -/
def lineWord (half : List UInt8) : Except ReadError Word := do
  let op := (nextToken separator half).getD ([63, 63, 63], [])
  let mn ← (Isa.fromStr (ofBytes op.1)).elim (.error .badOpcode) .ok
  let sa ← next op.2 .badDestination
  let a ← parse 0 31 sa.1
  let sb ← next sa.2 .badSource
  let b ← parse 0 31 sb.1
  let sc ← next sb.2 .badConstant
  let c ← parse (-32768) 32767 sc.1
  .ok (mkInstr mn (BitVec.ofInt 5 a) (BitVec.ofInt 5 b) (BitVec.ofInt 16 c))

/-- `in_stream.readUntilDelimiterOrEof(&buf, '\n')`, with what is left of the stream. -/
def readUntilDelimiterOrEof (len : ℕ) (l : List UInt8) :
    Except ReadError (Option (List UInt8 × List UInt8)) :=
  if l = [] then .ok none
  else
    let line := l.takeWhile (· ≠ newline)
    if line.length < len then .ok (some (line, (l.dropWhile (· ≠ newline)).tail))
    else .error .streamTooLong

section reading
variable {M : Type} (mm : Memory M)

/-- One trip of the loop. -/
def readTrip (s : Reading M) : Reading M ⊕ ReadReply M :=
  match readUntilDelimiterOrEof 1024 s.input with
  | .error e => .inr (.error e)
  | .ok none => .inr (.done s.mem s.log s.line)
  | .ok (some (line, input)) =>
    let half := line.takeWhile (· ≠ semicolon)
    if half = [] then .inl { s with input := input }
    else
      match lineWord half with
      | .error e => .inr (.error e)
      | .ok instr =>
        let addr := BitVec.ofNat 32 s.line
        if s.line + 1 < 2 ^ 32 then
          .inl ⟨input, mm.writeMemory s.mem addr instr, s.log ++ [.write addr instr], s.line + 1⟩
        else .inr .trap

/-- `read_program`, with an open file. -/
def readProgram (file : List UInt8) (m : M) : Option (ReadReply M) :=
  iter (readTrip mm) (file.length + 1) ⟨file, m, [], 0⟩

end reading

/-! ### What a line says -/

/-- Behind separators `w` stands in front of `l`, and `r` follows it. -/
def Front (w r l : List UInt8) : Prop :=
  ∃ s, l = s ++ (w ++ r) ∧ (∀ c ∈ s, separator c = true) ∧ w ≠ [] ∧
    Stretch (fun c => !separator c) w r

/-- The line says `op a,b,c`; more tokens may follow. -/
inductive Says (half : List UInt8) (op : Isa) (a b c : ℤ) : Prop
  | intro {text x y z l₀ l₁ l₂ l₃ : List UInt8} : Front text l₀ half → ofBytes text = op.toStr →
      Front x l₁ l₀ → Spells x a → Front y l₂ l₁ → Spells y b → Front z l₃ l₂ → Spells z c →
      Says half op a b c

/-- A line of the file up to its comment. -/
def half (l : List UInt8) : List UInt8 := (l.takeWhile (· ≠ newline)).takeWhile (· ≠ semicolon)

/-- The word for a line; there is none if it is skipped or at fault. -/
def wordOf (l : List UInt8) : Option Word :=
  if half l = [] then none else (lineWord (half l)).toOption

/-- What is wrong with a line. -/
def fault (l : List UInt8) : Option ReadError :=
  if (l.takeWhile (· ≠ newline)).length < 1024 then
    if half l = [] then none
    else
      match lineWord (half l) with
      | .error e => some e
      | .ok _ => none
  else some .streamTooLong

/-- The lines that are not skipped. -/
def instructions (ls : List (List UInt8)) : List (List UInt8) := ls.filter fun l => half l ≠ []

section line
variable {l half text r : List UInt8} {op : Isa} {a b c v lo hi : ℤ} {w : Word}

theorem fromStr_iff {s : String} : Isa.fromStr s = some op ↔ s = op.toStr := by
  have hall : ∀ p ∈ Isa.mnemonics, p.1 = p.2.toStr := by decide +kernel
  constructor
  · intro h
    obtain ⟨l₁, l₂, hl, -⟩ := List.lookup_eq_some_iff.mp h
    exact hall (s, op) (hl ▸ List.mem_append_right _ (List.mem_cons_self ..))
  · rintro rfl
    exact op.toStr_known.2.2

theorem next_iff {e : ReadError} : next l e = .ok (text, r) ↔ Front text r l := by
  rw [next, Front, ← nextToken_iff]
  cases nextToken separator l with
  | none => exact iff_of_false (fun h => by cases h) fun h => by cases h
  | some p => rw [Except.ok.injEq, Option.some.injEq]

theorem parse_iff (hlo : lo ≤ 0) (hhi : 0 ≤ hi) :
    parse lo hi l = .ok v ↔ Spells l v ∧ lo ≤ v ∧ v ≤ hi := by
  rw [parse, ← parseInt_iff hlo hhi]
  cases parseInt lo hi l with
  | error e => exact iff_of_false (fun h => by cases h) fun h => by cases h
  | ok x => rw [Except.mapError, Except.ok.injEq, Except.ok.injEq]

/-- A line is accepted when it says an instruction whose operands fit their fields. -/
theorem lineWord_iff : lineWord half = .ok w ↔ ∃ op a b c, Says half op a b c ∧ InFields a b c ∧
    w = mkInstr op (BitVec.ofInt 5 a) (BitVec.ofInt 5 b) (BitVec.ofInt 16 c) := by
  rw [lineWord]
  constructor
  · intro h
    obtain ⟨op, hop, h⟩ := bind_ok_iff.mp h
    obtain ⟨⟨x, l₁⟩, hx, h⟩ := bind_ok_iff.mp h
    obtain ⟨a, ha, h⟩ := bind_ok_iff.mp h
    obtain ⟨⟨y, l₂⟩, hy, h⟩ := bind_ok_iff.mp h
    obtain ⟨b, hb, h⟩ := bind_ok_iff.mp h
    obtain ⟨⟨z, l₃⟩, hz, h⟩ := bind_ok_iff.mp h
    obtain ⟨c, hc, h⟩ := bind_ok_iff.mp h
    obtain ⟨hsa, ha⟩ := (parse_iff (by decide) (by decide)).mp ha
    obtain ⟨hsb, hb⟩ := (parse_iff (by decide) (by decide)).mp hb
    obtain ⟨hsc, hc⟩ := (parse_iff (by decide) (by decide)).mp hc
    refine ⟨op, a, b, c, ?_, ⟨ha, hb, hc⟩, (Except.ok.inj h).symm⟩
    cases htoken : nextToken separator half with
    | none =>
      -- "???" is no mnemonic
      rw [htoken] at hop
      cases hop
    | some p =>
      rw [htoken, Option.getD_some] at hop hx
      cases hfrom : Isa.fromStr (ofBytes p.1) with
      | none =>
        rw [hfrom] at hop
        cases hop
      | some op' =>
        rw [hfrom] at hop
        cases hop
        exact .intro (nextToken_iff.mp htoken) (fromStr_iff.mp hfrom) (next_iff.mp hx) hsa
          (next_iff.mp hy) hsb (next_iff.mp hz) hsc
  · rintro ⟨op, a, b, c, ⟨htext, hop, hx, ha, hy, hb, hz, hc⟩, hf, rfl⟩
    rw [nextToken_iff.mpr htext, Option.getD_some, fromStr_iff.mpr hop]
    refine bind_ok_iff.mpr ⟨_, rfl, bind_ok_iff.mpr ⟨_, next_iff.mpr hx, ?_⟩⟩
    refine bind_ok_iff.mpr ⟨_, (parse_iff (by decide) (by decide)).mpr ⟨ha, hf.dest⟩, ?_⟩
    refine bind_ok_iff.mpr ⟨_, next_iff.mpr hy, ?_⟩
    refine bind_ok_iff.mpr ⟨_, (parse_iff (by decide) (by decide)).mpr ⟨hb, hf.source1⟩, ?_⟩
    refine bind_ok_iff.mpr ⟨_, next_iff.mpr hz, ?_⟩
    exact bind_ok_iff.mpr ⟨_, (parse_iff (by decide) (by decide)).mpr ⟨hc, hf.constant⟩, rfl⟩

theorem Front.unique {w w' r r' : List UInt8} (h : Front w r l) (h' : Front w' r' l) :
    w = w' ∧ r = r' :=
  Prod.mk.inj (Option.some.inj ((nextToken_iff.mpr h).symm.trans (nextToken_iff.mpr h')))

theorem Isa.toStr_inj {op op' : Isa} (h : op.toStr = op'.toStr) : op = op' :=
  Option.some.inj ((fromStr_iff.mpr rfl).symm.trans (fromStr_iff.mpr h))

/-- A line says one instruction at most. -/
theorem Says.unique {op' : Isa} {a' b' c' : ℤ} (h : Says half op a b c)
    (h' : Says half op' a' b' c') : op = op' ∧ a = a' ∧ b = b' ∧ c = c' := by
  obtain ⟨ht, hop, hx, ha, hy, hb, hz, hc⟩ := h
  obtain ⟨ht', hop', hx', ha', hy', hb', hz', hc'⟩ := h'
  obtain ⟨rfl, rfl⟩ := ht.unique ht'
  obtain ⟨rfl, rfl⟩ := hx.unique hx'
  obtain ⟨rfl, rfl⟩ := hy.unique hy'
  obtain ⟨rfl, rfl⟩ := hz.unique hz'
  exact ⟨Isa.toStr_inj (hop.symm.trans hop'), ha.unique ha', hb.unique hb', hc.unique hc'⟩

end line

/-! ### The loop -/

section loop
variable {M : Type} {mm : Memory M} {m mem : M} {ws : List Word} {w : Word} {log : List Access}
  {n k : ℕ} {e : ReadError} {l line rest input : List UInt8} {ls : List (List UInt8)}

/-- What becomes of the lines `ls` when `ws` has been stored. -/
def reply (mm : Memory M) (m : M) (ws : List Word) : List (List UInt8) → ReadReply M
  | [] => .done (mm.after m (writes ws)) (writes ws) ws.length
  | l :: ls =>
    match fault l, wordOf l with
    | some e, _ => .error e
    | none, none => reply mm m ws ls
    | none, some w => if ws.length + 1 < 2 ^ 32 then reply mm m (ws ++ [w]) ls else .trap

/-- One trip takes the first line. -/
theorem readTrip_eq (hl : l.takeWhile (· ≠ newline) = input.takeWhile (· ≠ newline))
    (h : input ≠ []) :
    readTrip mm (Vm.reading mm m ws input) =
      match fault l, wordOf l with
      | some e, _ => .inr (.error e)
      | none, none => .inl (Vm.reading mm m ws (input.dropWhile (· ≠ newline)).tail)
      | none, some w =>
        if ws.length + 1 < 2 ^ 32 then
          .inl (Vm.reading mm m (ws ++ [w]) (input.dropWhile (· ≠ newline)).tail)
        else .inr .trap := by
  rw [readTrip, fault, wordOf, half, hl]
  simp only [readUntilDelimiterOrEof, reading_snoc]
  rw [Vm.reading]
  simp only [if_neg h]
  by_cases hlen : (input.takeWhile (· ≠ newline)).length < 1024
  · simp only [if_pos hlen]
    by_cases hhalf : (input.takeWhile (· ≠ newline)).takeWhile (· ≠ semicolon) = []
    · simp only [if_pos hhalf]
      rfl
    · simp only [if_neg hhalf]
      cases lineWord ((input.takeWhile (· ≠ newline)).takeWhile (· ≠ semicolon)) with
      | error e => rfl
      | ok w => rfl
  · simp only [if_neg hlen]

/-- The whole loop, by induction on its fuel. -/
theorem iter_readTrip : ∀ {k : ℕ} (ws : List Word) {input : List UInt8}, input.length < k →
    iter (readTrip mm) k (Vm.reading mm m ws input) = some (reply mm m ws (lines input))
  | k + 1, ws, input, hk => by
      rcases eq_or_ne input [] with rfl | h
      · exact iter_inr rfl
      · obtain ⟨l, hlines, hl⟩ := lines_of_ne_nil h
        have hrest := rest_shorter h
        have htrip : readTrip mm (Vm.reading mm m ws input) = _ := readTrip_eq hl h
        rw [hlines, reply, iter, htrip]
        cases fault l with
        | some e => rfl
        | none =>
          cases wordOf l with
          | none => exact iter_readTrip ws (by omega)
          | some w =>
            dsimp only
            by_cases hcount : ws.length + 1 < 2 ^ 32
            · rw [if_pos hcount, if_pos hcount]
              exact iter_readTrip _ (by omega)
            · rw [if_neg hcount, if_neg hcount]

theorem readProgram_eq (mm : Memory M) (m : M) (file : List UInt8) :
    readProgram mm file m = some (reply mm m [] (lines file)) :=
  iter_readTrip [] (Nat.lt_succ_self _)

/-- A line that is not at fault has a word unless it is skipped. -/
theorem wordOf_eq_none (h : fault l = none) : wordOf l = none ↔ half l = [] := by
  rw [wordOf]
  by_cases hhalf : half l = []
  · rw [if_pos hhalf]
    exact iff_of_true rfl hhalf
  · rw [if_neg hhalf]
    cases hw : lineWord (half l) with
    | ok w => exact iff_of_false (fun hw => by cases hw) hhalf
    | error e =>
      simp only [fault, if_neg hhalf, hw] at h
      split at h <;> cases h

theorem instructions_cons (h : fault l = none) (ls : List (List UInt8)) :
    (instructions (l :: ls)).length = (wordOf l).toList.length + (instructions ls).length := by
  have hnone := wordOf_eq_none h
  rw [instructions, instructions]
  cases hw : wordOf l with
  | none =>
    rw [List.filter_cons_of_neg (by simpa using hnone.mp hw)]
    exact (Nat.zero_add _).symm
  | some w =>
    have hne : half l ≠ [] := fun hhalf => by rw [hnone.mpr hhalf] at hw; cases hw
    rw [List.filter_cons_of_pos (by simpa using hne)]
    exact Nat.add_comm ..

/-- The file is read to its end when no line is at fault and `count` suffices. -/
theorem reply_done_iff (hws : ws.length < 2 ^ 32) : reply mm m ws ls = .done mem log n ↔
    (∀ l ∈ ls, fault l = none) ∧ ws.length + (instructions ls).length < 2 ^ 32 ∧
      mem = mm.after m log ∧ log = writes (ws ++ ls.filterMap wordOf) ∧
      n = (ws ++ ls.filterMap wordOf).length := by
  induction ls generalizing ws with
  | nil =>
    rw [reply, ReadReply.done.injEq, List.filterMap_nil, List.append_nil]
    constructor
    · rintro ⟨rfl, rfl, rfl⟩
      exact ⟨fun _ h => absurd h List.not_mem_nil, hws, rfl, rfl, rfl⟩
    · rintro ⟨-, -, rfl, rfl, rfl⟩
      exact ⟨rfl, rfl, rfl⟩
  | cons l ls ih =>
    rw [reply, List.forall_mem_cons]
    cases hf : fault l with
    | some e => exact iff_of_false (fun h => by cases h) fun h => by cases h.1.1
    | none =>
      have hcount := instructions_cons hf ls
      rw [hcount]
      cases hw : wordOf l with
      | none =>
        rw [List.filterMap_cons_none hw]
        simpa using ih hws
      | some w =>
        have hlen : (ws ++ [w]).length = ws.length + 1 := by simp
        have happ : ws ++ (w :: ls.filterMap wordOf) = ws ++ [w] ++ ls.filterMap wordOf := by simp
        have hone : (some w).toList.length = 1 := rfl
        rw [List.filterMap_cons_some hw, happ, hone]
        dsimp only
        by_cases hroom : ws.length + 1 < 2 ^ 32
        · rw [if_pos hroom, ih (hlen ▸ hroom), hlen, Nat.add_assoc]
          simp only [true_and]
        · rw [if_neg hroom]
          refine iff_of_false (fun h => by cases h) fun h => hroom ?_
          have hlt := h.2.1
          omega

/-- The first line at fault is reported. -/
theorem reply_error_iff (hfew : ws.length + (instructions ls).length < 2 ^ 32) :
    reply mm m ws ls = .error e ↔ ls.findSome? fault = some e := by
  induction ls generalizing ws with
  | nil => exact iff_of_false (fun h => by cases h) fun h => by cases h
  | cons l ls ih =>
    rw [reply, List.findSome?_cons]
    cases hf : fault l with
    | some e' => simp
    | none =>
      rw [instructions_cons hf ls] at hfew
      cases hw : wordOf l with
      | none =>
        rw [hw] at hfew
        exact ih (by simpa using hfew)
      | some w =>
        rw [hw] at hfew
        have hone : (some w).toList.length = 1 := rfl
        have hlen : (ws ++ [w]).length = ws.length + 1 := by simp
        dsimp only
        rw [if_pos (by omega)]
        exact ih (by rw [hlen]; omega)

theorem filterMap_wordOf (h : ∀ l ∈ ls, fault l = none) :
    ls.filterMap wordOf = (instructions ls).map fun l => (wordOf l).getD 0 := by
  induction ls with
  | nil => rfl
  | cons l ls ih =>
    obtain ⟨hl, hls⟩ := List.forall_mem_cons.mp h
    have hnone := wordOf_eq_none hl
    rw [instructions]
    cases hw : wordOf l with
    | none =>
      rw [List.filterMap_cons_none hw, List.filter_cons_of_neg (by simpa using hnone.mp hw)]
      exact ih hls
    | some w =>
      have hne : half l ≠ [] := fun hhalf => by rw [hnone.mpr hhalf] at hw; cases hw
      rw [List.filterMap_cons_some hw, List.filter_cons_of_pos (by simpa using hne), List.map_cons,
        hw]
      exact congrArg (w :: ·) (ih hls)

theorem fault_eq_none : fault l = none ↔ (l.takeWhile (· ≠ newline)).length < 1024 ∧
    (half l = [] ∨ ∃ op a b c, Says (half l) op a b c ∧ InFields a b c) := by
  have hword : (∃ w, lineWord (half l) = .ok w) ↔
      ∃ op a b c, Says (half l) op a b c ∧ InFields a b c := by
    constructor
    · rintro ⟨w, hw⟩
      obtain ⟨op, a, b, c, hs, hf, -⟩ := lineWord_iff.mp hw
      exact ⟨op, a, b, c, hs, hf⟩
    · rintro ⟨op, a, b, c, hs, hf⟩
      exact ⟨_, lineWord_iff.mpr ⟨op, a, b, c, hs, hf, rfl⟩⟩
  rw [← hword, fault]
  by_cases hlen : (l.takeWhile (· ≠ newline)).length < 1024
  · rw [if_pos hlen]
    by_cases hhalf : half l = []
    · rw [if_pos hhalf]
      exact iff_of_true rfl ⟨hlen, .inl hhalf⟩
    · rw [if_neg hhalf]
      cases lineWord (half l) with
      | error e => simp [hhalf]
      | ok w => exact iff_of_true rfl ⟨hlen, .inr ⟨w, rfl⟩⟩
  · rw [if_neg hlen]
    exact iff_of_false (fun h => by cases h) fun h => hlen h.1

end loop

/-! ### What is accepted, and what it is loaded as -/

/-- The lines fit the buffer, and each is skipped or says an instruction whose operands fit; they
    can be counted. -/
structure Accepted (file : List UInt8) : Prop where
  each : ∀ l ∈ lines file, (l.takeWhile (· ≠ newline)).length < 1024 ∧
    (half l = [] ∨ ∃ op a b c, Says (half l) op a b c ∧ InFields a b c)
  few : (instructions (lines file)).length < 2 ^ 32

/-- Word `i` has been stored at address `i` and says what line `i` says. -/
structure Loads {M : Type} (mm : Memory M) (m : M) (ls : List (List UInt8)) (mem : M)
    (log : List Access) (count : ℕ) : Prop where
  after : mem = mm.after m log
  count : count = ls.length
  length : log.length = ls.length
  decodes : ∀ i l, ls[i]? = some l → ∀ op a b c, Says (half l) op a b c →
    ∃ w, log[i]? = some (Access.write (BitVec.ofNat 32 i) w) ∧ Zig.Decodes w op.toStr a b c

section accepted
variable {M : Type} {mm : Memory M} {m mem : M} {log : List Access} {n : ℕ} {file : List UInt8}
  {ls : List (List UInt8)}

theorem done_iff : readProgram mm file m = some (.done mem log n) ↔ Accepted file ∧
    mem = mm.after m log ∧ log = writes ((lines file).filterMap wordOf) ∧
      n = ((lines file).filterMap wordOf).length := by
  have hnil : ([] : List Word).length < 2 ^ 32 := Nat.two_pow_pos 32
  rw [readProgram_eq, Option.some.injEq, reply_done_iff hnil, List.nil_append,
    List.length_nil, Nat.zero_add]
  simp only [fault_eq_none]
  constructor
  · rintro ⟨hlines, hfew, hdone⟩
    exact ⟨⟨hlines, hfew⟩, hdone⟩
  · rintro ⟨⟨hlines, hfew⟩, hdone⟩
    exact ⟨hlines, hfew, hdone⟩

theorem Accepted.faultless (h : Accepted file) : ∀ l ∈ lines file, fault l = none :=
  fun l hl => fault_eq_none.mpr (h.each l hl)

/-- The word for a line that says something. -/
theorem Says.wordOf {l : List UInt8} {op : Isa} {a b c : ℤ} (h : Says (half l) op a b c)
    (hf : InFields a b c) : wordOf l =
      some (mkInstr op (BitVec.ofInt 5 a) (BitVec.ofInt 5 b) (BitVec.ofInt 16 c)) := by
  have hne : half l ≠ [] := by
    obtain ⟨⟨s, happ, -, hne, -⟩, -⟩ := h
    intro hnil
    rw [hnil] at happ
    simp [hne] at happ
  rw [Zig.wordOf, if_neg hne, lineWord_iff.mpr ⟨op, a, b, c, h, hf, rfl⟩]
  rfl

/-- What is stored says what the lines say. -/
theorem Accepted.loads (h : Accepted file) (hmem : mem = mm.after m log)
    (hlog : log = writes ((lines file).filterMap wordOf))
    (hn : n = ((lines file).filterMap wordOf).length) :
    Loads mm m (instructions (lines file)) mem log n := by
  rw [filterMap_wordOf h.faultless] at hlog hn
  refine ⟨hmem, by rw [hn, List.length_map], ?_, fun i l hi op a b c hs => ?_⟩
  · rw [hlog, writes, List.length_mapIdx, List.length_map]
  · obtain ⟨hl, hhalf⟩ := List.mem_filter.mp (List.mem_of_getElem? hi)
    obtain ⟨op', a', b', c', hs', hf⟩ := (h.each l hl).2.resolve_left (by simpa using hhalf)
    obtain ⟨rfl, rfl, rfl, rfl⟩ := hs.unique hs'
    refine ⟨_, ?_, (makeInstr_inFields op hf rfl).2.2⟩
    rw [hlog, writes, List.getElem?_mapIdx, List.getElem?_map, hi, Option.map_some, Option.map_some,
      hs.wordOf hf, Option.getD_some, (makeInstr_inFields op hf rfl).1]

/-- CORRECT (checked assembler): a file is read to its end exactly when every line fits the buffer
    and is skipped or says an instruction with operands that fit their fields. Then every word
    decodes to what its line says. Otherwise the first line at fault decides the error, unless
    there are 2^32 instructions. -/
theorem readProgram_accepts (mm : Memory M) (m : M) (file : List UInt8) :
    ((∃ mem log n, readProgram mm file m = some (.done mem log n)) ↔ Accepted file) ∧
    (∀ mem log n, readProgram mm file m = some (.done mem log n) →
      Loads mm m (instructions (lines file)) mem log n) ∧
    (Accepted file ∨ 2 ^ 32 ≤ (instructions (lines file)).length ∨
      ∃ e, (lines file).findSome? fault = some e ∧ readProgram mm file m = some (.error e)) := by
  refine ⟨⟨?_, fun h => ?_⟩, fun mem log n h => ?_, ?_⟩
  · rintro ⟨mem, log, n, h⟩
    exact (done_iff.mp h).1
  · exact ⟨_, _, _, done_iff.mpr ⟨h, rfl, rfl, rfl⟩⟩
  · obtain ⟨hacc, hmem, hlog, hn⟩ := done_iff.mp h
    exact hacc.loads hmem hlog hn
  · rcases Nat.lt_or_ge (instructions (lines file)).length (2 ^ 32) with hfew | hmany
    · cases hfind : (lines file).findSome? fault with
      | none =>
        have hno := List.findSome?_eq_none_iff.mp hfind
        exact .inl ⟨fun l hl => fault_eq_none.mp (hno l hl), hfew⟩
      | some e =>
        refine .inr (.inr ⟨e, rfl, ?_⟩)
        rw [readProgram_eq, (reply_error_iff (by simpa using hfew)).mpr hfind]
    · exact .inr (.inl hmany)

end accepted

end Zig

end OsLabs.Vm

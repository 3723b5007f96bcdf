import OsLabs.Vm.Isa

/-! @src lab3_vm/c/machine.c, lab3_vm/zig/src/main.zig | name:encoding | scheme:checked

    Mnemonics, and what an instruction word says. The C machine looks a mnemonic up in a table that
    is indexed by the opcode, the Zig machine in a map to an enumeration; both pack and unpack the
    same four fields.

        31      26 25    21 20    16 15             0
        opcode     dest     source1  constant, signed   -/

namespace OsLabs.Vm
open Schemes

def mnemonics : List String := ["add", "addi", "sub", "subi", "sge", "sgt", "seq", "bt", "bf",
  "ba", "st", "ld", "call", "jmp", "mul", "seqi", "halt"]

/-- `read_program`: the word for a line, if there is such a mnemonic. -/
def assemble (text : String) (a b c : ℤ) : Option Word :=
  (mnemonics.findIdx? (· == text)).map fun opcode =>
    C.makeInstr opcode (BitVec.ofInt 32 a) (BitVec.ofInt 32 b) (BitVec.ofInt 32 c)

/-- The three operands fit into their fields. -/
structure InFields (a b c : ℤ) : Prop where
  dest : 0 ≤ a ∧ a ≤ 31
  source1 : 0 ≤ b ∧ b ≤ 31
  constant : -32768 ≤ c ∧ c ≤ 32767

namespace Isa

/-- `@tagName` -/
def toStr : Isa → String
  | add => "add" | addi => "addi" | sub => "sub" | subi => "subi" | sge => "sge" | sgt => "sgt"
  | seq => "seq" | bt => "bt" | bf => "bf" | ba => "ba" | st => "st" | ld => "ld" | call => "call"
  | jmp => "jmp" | mul => "mul" | seqi => "seqi" | halt => "halt"

/-- `Isa.mnemonics` -/
def mnemonics : List (String × Isa) := [("add", add), ("addi", addi), ("sub", sub), ("subi", subi),
  ("sge", sge), ("sgt", sgt), ("seq", seq), ("bt", bt), ("bf", bf), ("ba", ba), ("st", st),
  ("ld", ld), ("call", call), ("jmp", jmp), ("mul", mul), ("seqi", seqi), ("halt", halt)]

def fromStr (str : String) : Option Isa := mnemonics.lookup str

theorem ofInt_toInt (op : Isa) : ofInt op.toInt = some op := by cases op <;> rfl

/-- Both machines know the same mnemonics, in the same order. -/
theorem toStr_known (op : Isa) : Vm.mnemonics.findIdx? (· == op.toStr) = some op.toInt ∧
    Vm.mnemonics[op.toInt]? = some op.toStr ∧ fromStr op.toStr = some op := by
  cases op <;> decide +kernel

theorem assemble_toStr (op : Isa) (a b c : ℤ) : assemble op.toStr a b c =
    some (C.makeInstr op.toInt (BitVec.ofInt 32 a) (BitVec.ofInt 32 b) (BitVec.ofInt 32 c)) := by
  rw [assemble, op.toStr_known.1]
  rfl

theorem exists_toStr {text : String} (h : text ∈ Vm.mnemonics) : ∃ op : Isa, op.toStr = text := by
  have hall : ∀ text ∈ Vm.mnemonics, text ∈ mnemonics.map fun p => p.2.toStr := by decide +kernel
  obtain ⟨p, -, hp⟩ := List.mem_map.mp (hall text h)
  exact ⟨p.2, hp⟩

end Isa

/-- The word says `text a,b,c` to the C machine. -/
structure C.Decodes (w : Word) (text : String) (a b c : ℤ) : Prop where
  opcode : mnemonics[(extractOpcode w).toNat]? = some text
  dest : ((extractDest w).toNat : ℤ) = a
  source1 : ((extractSource1 w).toNat : ℤ) = b
  constant : (extractConstant w).toInt = c

/-- The word says `text a,b,c` to the Zig machine. -/
structure Zig.Decodes (w : Word) (text : String) (a b c : ℤ) : Prop where
  opcode : ∃ op, extractOpcode w = some op ∧ op.toStr = text
  dest : ((extractDest w).toNat : ℤ) = a
  source1 : ((extractSource1 w).toNat : ℤ) = b
  constant : (extractConstant w).toInt = c

section encode
variable {op : Isa} {a b c : ℤ} {w : Word}

/-- The constant of a word is that of its low half. -/
theorem mkInstr_eq (op : Isa) (d s : BitVec 5) (s2 : Word) :
    Zig.mkInstr op d s (s2.setWidth 16) = C.makeInstr op.toInt d.toNat s.toNat s2 := by
  have hlow : s2 &&& 0xffff = (s2.setWidth 16).setWidth 32 := by
    apply BitVec.eq_of_toNat_eq
    have hmask : (s2 &&& 0xffff).toNat = s2.toNat % 2 ^ 16 := by
      rw [BitVec.toNat_and]
      exact Nat.and_two_pow_sub_one_eq_mod _ 16
    rw [hmask, BitVec.toNat_setWidth, BitVec.toNat_setWidth]
    omega
  rw [Zig.mkInstr, C.makeInstr, hlow, BitVec.natCast_eq_ofNat, BitVec.natCast_eq_ofNat,
    BitVec.natCast_eq_ofNat, BitVec.ofNat_toNat, BitVec.ofNat_toNat]

theorem ofInt_setWidth (c : ℤ) : (BitVec.ofInt 32 c).setWidth 16 = BitVec.ofInt 16 c := by
  apply BitVec.eq_of_toNat_eq
  rw [BitVec.toNat_setWidth, BitVec.toNat_ofInt, BitVec.toNat_ofInt]
  omega

/-- A register number as an argument of `make_instr`. -/
theorem ofInt_register (ha : 0 ≤ a ∧ a ≤ 31) : BitVec.ofInt 32 a = (a.toNat : Word) ∧
    (BitVec.ofInt 5 a).toNat = a.toNat := by
  constructor
  · apply BitVec.eq_of_toNat_eq
    rw [BitVec.natCast_eq_ofNat, BitVec.toNat_ofInt, BitVec.toNat_ofNat]
    omega
  · rw [BitVec.toNat_ofInt]
    omega

theorem signExtend_toInt (h : -32768 ≤ c ∧ c ≤ 32767) :
    ((BitVec.ofInt 16 c).signExtend 32).toInt = c ∧ (BitVec.ofInt 16 c).toInt = c := by
  have hc : (BitVec.ofInt 16 c).toInt = c := by
    rw [BitVec.toInt_ofInt]
    exact Int.bmod_eq_of_le (by omega) (by omega)
  rw [BitVec.toInt_signExtend_of_le (by decide), hc]
  exact ⟨rfl, rfl⟩

/-- What a word says fits into its fields. -/
theorem C.Decodes.inFields {text : String} (h : C.Decodes w text a b c) : InFields a b c := by
  have hdest := extractDest_toNat w
  have hsource := extractSource1_toNat w
  have hconst := extractConstant_eq w
  have hlow := (Zig.extractConstant w).le_toInt
  have hhigh := (Zig.extractConstant w).toInt_lt
  have hc := h.constant
  rw [hconst, BitVec.toInt_signExtend_of_le (by decide)] at hc
  have ha := h.dest
  have hb := h.source1
  exact ⟨by omega, by omega, by omega⟩

/-- Sign extension can be undone. -/
theorem extractConstant_setWidth (w : Word) :
    (C.extractConstant w).setWidth 16 = w.setWidth 16 := by
  apply BitVec.eq_of_toNat_eq
  rw [extractConstant_eq, Zig.extractConstant, BitVec.toNat_setWidth, BitVec.toNat_signExtend,
    BitVec.toNat_setWidth, BitVec.toNat_setWidth]
  split <;> omega

/-- Operands that fit come out of the word again, in both machines. -/
theorem makeInstr_inFields (op : Isa) (h : InFields a b c) {w : Word}
    (hw : C.makeInstr op.toInt (BitVec.ofInt 32 a) (BitVec.ofInt 32 b) (BitVec.ofInt 32 c) = w) :
    Zig.mkInstr op (BitVec.ofInt 5 a) (BitVec.ofInt 5 b) (BitVec.ofInt 16 c) = w ∧
    C.Decodes w op.toStr a b c ∧ Zig.Decodes w op.toStr a b c := by
  obtain ⟨-, hget, -⟩ := op.toStr_known
  obtain ⟨ha, ha5⟩ := ofInt_register h.dest
  obtain ⟨hb, hb5⟩ := ofInt_register h.source1
  obtain ⟨hc, hc16⟩ := signExtend_toInt h.constant
  obtain ⟨hdest, hsource, -⟩ := h
  have hop := op.toInt_lt
  have hda : a.toNat < 32 := by omega
  have hsb : b.toNat < 32 := by omega
  rw [ha, hb] at hw
  subst hw
  have hopcode := C.extractOpcode_makeInstr (BitVec.ofInt 32 c) hop hda hsb
  have hd := C.extractDest_makeInstr (BitVec.ofInt 32 c) hop hda hsb
  have hs := C.extractSource1_makeInstr (BitVec.ofInt 32 c) hop hda hsb
  have hk := C.extractConstant_makeInstr (BitVec.ofInt 32 c) hop hda hsb
  rw [ofInt_setWidth] at hk
  refine ⟨?_, ⟨?_, ?_, ?_, ?_⟩, ⟨⟨op, ?_, rfl⟩, ?_, ?_, ?_⟩⟩
  · rw [← ofInt_setWidth, mkInstr_eq, ha5, hb5]
  · rw [hopcode, hget]
  · rw [hd]
    omega
  · rw [hs]
    omega
  · rw [hk, hc]
  · have hshift := hopcode
    rw [C.extractOpcode] at hshift
    rw [Zig.extractOpcode, hshift, Isa.ofInt_toInt]
  · rw [← extractDest_eq, hd]
    omega
  · rw [← extractSource1_eq, hs]
    omega
  · rw [Zig.extractConstant, C.low_makeInstr _ hop hda hsb, ofInt_setWidth, hc16]

end encode

/-- The four fields are the whole word. -/
theorem C.makeInstr_extract (w : Word) :
    C.makeInstr (C.extractOpcode w).toNat (C.extractDest w).toNat (C.extractSource1 w).toNat
      (C.extractConstant w) = w := by
  have hw := w.isLt
  have hop := C.extractOpcode_toNat w
  have hdest := C.extractDest_toNat w
  have hsource := C.extractSource1_toNat w
  have hlow : (C.extractConstant w).toNat % 2 ^ 16 = w.toNat % 2 ^ 16 := by
    rw [← BitVec.toNat_setWidth, extractConstant_setWidth, BitVec.toNat_setWidth]
  apply BitVec.eq_of_toNat_eq
  rw [C.makeInstr_toNat _ (by omega) (by omega) (by omega), hop, hdest, hsource, hlow]
  omega

/-- The same for the other machine, where the opcode is one of an instruction. -/
theorem Zig.mkInstr_extract {w : Word} {op : Isa} (h : op.toInt = (w >>> 26).toNat) :
    Zig.mkInstr op (Zig.extractDest w) (Zig.extractSource1 w) (Zig.extractConstant w) = w := by
  have hword := mkInstr_eq op (Zig.extractDest w) (Zig.extractSource1 w) (C.extractConstant w)
  rw [extractConstant_setWidth, h, ← extractDest_eq, ← extractSource1_eq] at hword
  exact hword.trans (C.makeInstr_extract w)

/-- CORRECT (encoding): both machines encode a mnemonic with operands that fit as the same word
    and read them from it again; a word with a known opcode is what its fields are encoded as. -/
theorem encoding :
    (∀ text ∈ mnemonics, ∀ a b c, InFields a b c →
      ∃ (opcode : ℕ) (w : Word) (op : Isa),
      mnemonics[opcode]? = some text ∧ Isa.fromStr text = some op ∧
      C.makeInstr opcode (BitVec.ofInt 32 a) (BitVec.ofInt 32 b) (BitVec.ofInt 32 c) = w ∧
      Zig.mkInstr op (BitVec.ofInt 5 a) (BitVec.ofInt 5 b) (BitVec.ofInt 16 c) = w ∧
      C.Decodes w text a b c ∧ Zig.Decodes w text a b c) ∧
    (∀ w : Word, (w >>> 26).toNat ≤ 16 →
      C.makeInstr (C.extractOpcode w) (C.extractDest w) (C.extractSource1 w)
        (C.extractConstant w) = w ∧
      ∃ op, Zig.extractOpcode w = some op ∧ Zig.mkInstr op (Zig.extractDest w)
        (Zig.extractSource1 w) (Zig.extractConstant w) = w) := by
  constructor
  · intro text htext a b c h
    obtain ⟨op, rfl⟩ := Isa.exists_toStr htext
    obtain ⟨-, hget, hfrom⟩ := op.toStr_known
    obtain ⟨hzig, hC, hZ⟩ := makeInstr_inFields op h rfl
    exact ⟨op.toInt, _, op, hget, hfrom, rfl, hzig, hC, hZ⟩
  · intro w hw
    obtain ⟨op, hop, hint⟩ := Isa.ofInt_of_le hw
    refine ⟨?_, op, hop, Zig.mkInstr_extract hint⟩
    have hword := C.makeInstr_extract w
    rw [BitVec.natCast_eq_ofNat, BitVec.natCast_eq_ofNat, BitVec.natCast_eq_ofNat,
      BitVec.ofNat_toNat, BitVec.ofNat_toNat, BitVec.ofNat_toNat, BitVec.setWidth_eq,
      BitVec.setWidth_eq, BitVec.setWidth_eq] at hword
    exact hword

/-- `add 1,2,-1`, and the word for it. -/
theorem encoding_add :
    (∃ (opcode : ℕ) (w : Word) (op : Isa),
      mnemonics[opcode]? = some "add" ∧ Isa.fromStr "add" = some op ∧
      C.makeInstr opcode (BitVec.ofInt 32 1) (BitVec.ofInt 32 2) (BitVec.ofInt 32 (-1)) = w ∧
      Zig.mkInstr op (BitVec.ofInt 5 1) (BitVec.ofInt 5 2) (BitVec.ofInt 16 (-1)) = w ∧
      C.Decodes w "add" 1 2 (-1) ∧ Zig.Decodes w "add" 1 2 (-1)) ∧
    C.makeInstr (C.extractOpcode 0x0022ffff) (C.extractDest 0x0022ffff)
      (C.extractSource1 0x0022ffff) (C.extractConstant 0x0022ffff) = 0x0022ffff :=
  ⟨encoding.1 "add" (by decide) 1 2 (-1) ⟨by decide, by decide, by decide⟩,
    (encoding.2 0x0022ffff (by decide)).1⟩

end OsLabs.Vm

import Mathlib.Tactic.IntervalCases
import OsLabs.Schemes.Checked

/-! @src lab3_vm/c/machine.c, lab3_vm/zig/src/main.zig | name:isa | scheme:checked

    Instruction words. Both machines put the opcode in the top six bits, then two register numbers
    of five bits and a constant of 16 bits; C keeps every field in an `unsigned` or `signed` word,
    Zig in a type of the width of the field. -/

namespace OsLabs.Vm
open Schemes

abbrev Word := BitVec 32

/-- The instructions, in the order of their opcodes. -/
inductive Isa where
  | add | addi | sub | subi | sge | sgt | seq | bt | bf | ba | st | ld | call | jmp | mul | seqi
  | halt
  deriving DecidableEq

namespace C

@[match_pattern] abbrev ADD : ℕ := 0
@[match_pattern] abbrev ADDI : ℕ := 1
@[match_pattern] abbrev SUB : ℕ := 2
@[match_pattern] abbrev SUBI : ℕ := 3
@[match_pattern] abbrev SGE : ℕ := 4
@[match_pattern] abbrev SGT : ℕ := 5
@[match_pattern] abbrev SEQ : ℕ := 6
@[match_pattern] abbrev BT : ℕ := 7
@[match_pattern] abbrev BF : ℕ := 8
@[match_pattern] abbrev BA : ℕ := 9
@[match_pattern] abbrev ST : ℕ := 10
@[match_pattern] abbrev LD : ℕ := 11
@[match_pattern] abbrev CALL : ℕ := 12
@[match_pattern] abbrev JMP : ℕ := 13
@[match_pattern] abbrev MUL : ℕ := 14
@[match_pattern] abbrev SEQI : ℕ := 15
@[match_pattern] abbrev HALT : ℕ := 16

def makeInstr (opcode dest s1 s2 : Word) : Word :=
  opcode <<< 26 ||| dest <<< 21 ||| s1 <<< 16 ||| (s2 &&& 0xffff)

def extractOpcode (instr : Word) : Word := instr >>> 26

def extractDest (instr : Word) : Word := (instr >>> 21) &&& 0x1f

def extractSource1 (instr : Word) : Word := (instr >>> 16) &&& 0x1f

/-- `(short)(instr & 0xffff)`, as a signed word. -/
def extractConstant (instr : Word) : Word := ((instr &&& 0xffff).setWidth 16).signExtend 32

end C

namespace Isa

/-- `@intFromEnum` -/
def toInt : Isa → ℕ
  | add => 0 | addi => 1 | sub => 2 | subi => 3 | sge => 4 | sgt => 5 | seq => 6 | bt => 7
  | bf => 8 | ba => 9 | st => 10 | ld => 11 | call => 12 | jmp => 13 | mul => 14 | seqi => 15
  | halt => 16

/-- `@enumFromInt`, which traps where there is no instruction. -/
def ofInt : ℕ → Option Isa
  | 0 => add | 1 => addi | 2 => sub | 3 => subi | 4 => sge | 5 => sgt | 6 => seq | 7 => bt
  | 8 => bf | 9 => ba | 10 => st | 11 => ld | 12 => call | 13 => jmp | 14 => mul | 15 => seqi
  | 16 => halt
  | _ => none

theorem ofInt_of_le {n : ℕ} (h : n ≤ 16) : ∃ op, ofInt n = some op ∧ op.toInt = n := by
  interval_cases n <;> exact ⟨_, rfl, rfl⟩

theorem toInt_lt (op : Isa) : op.toInt < 64 := by
  cases op <;> decide

end Isa

namespace Zig

def mkInstr (self : Isa) (dest s1 : BitVec 5) (s2 : BitVec 16) : Word :=
  BitVec.ofNat 32 self.toInt <<< 26 ||| dest.setWidth 32 <<< 21 ||| s1.setWidth 32 <<< 16 |||
    s2.setWidth 32

def extractOpcode (instr : Word) : Option Isa := Isa.ofInt (instr >>> 26).toNat

def extractDest (instr : Word) : BitVec 5 := (instr >>> 21).setWidth 5

def extractSource1 (instr : Word) : BitVec 5 := (instr >>> 16).setWidth 5

def extractConstant (instr : Word) : BitVec 16 := instr.setWidth 16

end Zig

/-! ### Both machines decode the same fields -/

theorem and_31 (x : Word) : (x &&& 31).toNat = x.toNat % 32 := by
  rw [BitVec.toNat_and]
  exact Nat.and_two_pow_sub_one_eq_mod _ 5

theorem extractDest_eq (instr : Word) :
    (C.extractDest instr).toNat = (Zig.extractDest instr).toNat := by
  rw [C.extractDest, Zig.extractDest, BitVec.toNat_setWidth]
  exact and_31 _

theorem extractSource1_eq (instr : Word) :
    (C.extractSource1 instr).toNat = (Zig.extractSource1 instr).toNat := by
  rw [C.extractSource1, Zig.extractSource1, BitVec.toNat_setWidth]
  exact and_31 _

theorem extractConstant_eq (instr : Word) :
    C.extractConstant instr = (Zig.extractConstant instr).signExtend 32 := by
  have hlow : (instr &&& 0xffff).setWidth 16 = instr.setWidth 16 := by
    apply BitVec.eq_of_toNat_eq
    have hmod := Nat.and_two_pow_sub_one_eq_mod instr.toNat 16
    have hmask : (0xffff : Word).toNat = 2 ^ 16 - 1 := rfl
    rw [BitVec.toNat_setWidth, BitVec.toNat_setWidth, BitVec.toNat_and, hmask, hmod, Nat.mod_mod]
  rw [C.extractConstant, Zig.extractConstant, hlow]

/-- The register a constant names. -/
theorem constant_reg_eq (c : BitVec 16) :
    ((c.signExtend 32) &&& 31).toNat = (c.setWidth 5).toNat := by
  rw [and_31, BitVec.toNat_signExtend, BitVec.toNat_setWidth, BitVec.toNat_setWidth]
  split <;> omega

/-! ### What `make_instr` puts into a word comes out again -/

namespace C

theorem or_eq_add {k a b n : ℕ} (hb : b < 2 ^ k) (hn : n = 2 ^ k * a) : n ||| b = n + b := by
  rw [hn]
  exact (Nat.two_pow_add_eq_or_of_lt hb a).symm

theorem shiftLeft_toNat {n k : ℕ} (h : n * 2 ^ k < 2 ^ 32) :
    ((n : Word) <<< k).toNat = n * 2 ^ k := by
  have hn : n < 2 ^ 32 := lt_of_le_of_lt (Nat.le_mul_of_pos_right n (Nat.two_pow_pos k)) h
  rw [BitVec.toNat_shiftLeft, Nat.shiftLeft_eq, BitVec.natCast_eq_ofNat, BitVec.toNat_ofNat,
    Nat.mod_eq_of_lt hn, Nat.mod_eq_of_lt h]

/-- The fields of an instruction word do not overlap. -/
theorem makeInstr_toNat {opcode dest s1 : ℕ} (s2 : Word) (hop : opcode < 64) (hd : dest < 32)
    (hs : s1 < 32) : (makeInstr opcode dest s1 s2).toNat =
      opcode * 2 ^ 26 + dest * 2 ^ 21 + s1 * 2 ^ 16 + s2.toNat % 2 ^ 16 := by
  have hmask : (s2 &&& 0xffff).toNat = s2.toNat % 2 ^ 16 := by
    rw [BitVec.toNat_and]
    exact Nat.and_two_pow_sub_one_eq_mod _ 16
  have hlow : s2.toNat % 2 ^ 16 < 2 ^ 16 := Nat.mod_lt _ (by decide)
  have hdest : opcode * 2 ^ 26 ||| dest * 2 ^ 21 = opcode * 2 ^ 26 + dest * 2 ^ 21 :=
    or_eq_add (k := 26) (a := opcode) (by omega) (by omega)
  have hsource : opcode * 2 ^ 26 + dest * 2 ^ 21 ||| s1 * 2 ^ 16 =
      opcode * 2 ^ 26 + dest * 2 ^ 21 + s1 * 2 ^ 16 :=
    or_eq_add (k := 21) (a := opcode * 32 + dest) (by omega) (by omega)
  rw [makeInstr, BitVec.toNat_or, BitVec.toNat_or, BitVec.toNat_or, hmask,
    shiftLeft_toNat (by omega), shiftLeft_toNat (by omega), shiftLeft_toNat (by omega), hdest,
    hsource]
  exact or_eq_add (k := 16) (a := (opcode * 32 + dest) * 32 + s1) hlow (by omega)

/-! The fields of a word, as numbers. -/

theorem extractOpcode_toNat (w : Word) : (extractOpcode w).toNat = w.toNat / 2 ^ 26 := by
  rw [extractOpcode, BitVec.toNat_ushiftRight, Nat.shiftRight_eq_div_pow]

theorem extractDest_toNat (w : Word) : (extractDest w).toNat = w.toNat / 2 ^ 21 % 32 := by
  rw [extractDest]
  refine (and_31 _).trans ?_
  rw [BitVec.toNat_ushiftRight, Nat.shiftRight_eq_div_pow]

theorem extractSource1_toNat (w : Word) : (extractSource1 w).toNat = w.toNat / 2 ^ 16 % 32 := by
  rw [extractSource1]
  refine (and_31 _).trans ?_
  rw [BitVec.toNat_ushiftRight, Nat.shiftRight_eq_div_pow]

section decode
variable {opcode dest s1 : ℕ} (s2 : Word) (hop : opcode < 64) (hd : dest < 32) (hs : s1 < 32)
include hop hd hs

theorem extractOpcode_makeInstr :
    (extractOpcode (makeInstr opcode dest s1 s2)).toNat = opcode := by
  rw [extractOpcode_toNat, makeInstr_toNat s2 hop hd hs]
  omega

theorem extractDest_makeInstr : (extractDest (makeInstr opcode dest s1 s2)).toNat = dest := by
  rw [extractDest_toNat, makeInstr_toNat s2 hop hd hs]
  omega

theorem extractSource1_makeInstr : (extractSource1 (makeInstr opcode dest s1 s2)).toNat = s1 := by
  rw [extractSource1_toNat, makeInstr_toNat s2 hop hd hs]
  omega

theorem low_makeInstr : (makeInstr opcode dest s1 s2).setWidth 16 = s2.setWidth 16 := by
  apply BitVec.eq_of_toNat_eq
  rw [BitVec.toNat_setWidth, BitVec.toNat_setWidth, makeInstr_toNat s2 hop hd hs]
  omega

theorem extractConstant_makeInstr : extractConstant (makeInstr opcode dest s1 s2) =
    (s2.setWidth 16).signExtend 32 := by
  rw [extractConstant_eq, Zig.extractConstant, low_makeInstr s2 hop hd hs]

end decode
end C

end OsLabs.Vm

import Mathlib.Logic.Function.Basic
import OsLabs.Vm.Isa

/-! @src lab3_vm/c/machine.c, lab3_vm/zig/src/main.zig | name:run | scheme:checked

    One iteration of the loop of `run`, in C and in Zig. The memory is anything that answers reads
    and takes writes; the accesses are logged. C words wrap. Zig traps (`none`) on a cast that does
    not fit and on a `+` that overflows, its instruction counter `icnt` included. C leaves the loop
    through `error` on an opcode it does not know (`none`). -/

namespace OsLabs.Vm
open Schemes

/-- Memory with states `M`: a read returns a word and, like a write, may change the state. -/
structure Memory (M : Type) where
  readMemory : M → Word → M × Word
  writeMemory : M → Word → Word → M

inductive Access where
  | read (addr : Word)
  | write (addr data : Word)
  deriving DecidableEq

structure Cpu where
  pc : Word
  reg : ℕ → Word

/-- The variables of an iteration, with the program counter and the memory. `dest` starts
    undefined in C; it is written back only where it has been set. -/
structure Vars (M : Type) where
  mem : M
  log : List Access
  pc : Word
  dest : Word
  destReg : ℕ
  incrementPc : Bool
  writeback : Bool
  proceed : Bool

/-- What an iteration leaves. -/
structure Outcome (M : Type) where
  mem : M
  log : List Access
  cpu : Cpu
  proceed : Bool

section machine
variable {M : Type} (mm : Memory M)

/-- Fetching an instruction, and the variables after that. -/
def fetch (m : M) (pc : Word) : Vars M × Word :=
  let r := mm.readMemory m pc
  ({ mem := r.1, log := [.read pc], pc := pc, dest := 0, destReg := 0, incrementPc := true,
     writeback := true, proceed := true }, r.2)

def Vars.load (s : Vars M) (addr : Word) : Vars M :=
  let r := mm.readMemory s.mem addr
  { s with mem := r.1, log := s.log ++ [.read addr], dest := r.2 }

def Vars.store (s : Vars M) (addr data : Word) : Vars M :=
  { s with mem := mm.writeMemory s.mem addr data, log := s.log ++ [.write addr data] }

/-- A truth value as an integer. -/
def ofBool (b : Bool) : Word := if b then 1 else 0

/-- The registers after the result has been written back. -/
def Vars.regs (s : Vars M) (reg : ℕ → Word) : ℕ → Word :=
  if s.writeback ∧ s.destReg ≠ 0 then Function.update reg s.destReg s.dest else reg

namespace C

/-- The `switch (opcode)`. -/
def execute (reg : ℕ → Word) (opcode : ℕ) (source1 source2 constant : Word) (s : Vars M) :
    Option (Vars M) :=
  match opcode with
  | ADD => some { s with dest := source1 + source2 }
  | ADDI => some { s with dest := source1 + constant }
  | SUB => some { s with dest := source1 - source2 }
  | SUBI => some { s with dest := source1 - constant }
  | MUL => some { s with dest := source1 * source2 }
  | SGE => some { s with dest := ofBool (source2.sle source1) }
  | SGT => some { s with dest := ofBool (source2.slt source1) }
  | SEQ => some { s with dest := ofBool (source1 = source2) }
  | SEQI => some { s with dest := ofBool (source1 = constant) }
  | BT =>
    if source1 ≠ 0 then some { s with writeback := false, pc := constant, incrementPc := false }
    else some { s with writeback := false }
  | BF =>
    if source1 = 0 then some { s with writeback := false, pc := constant, incrementPc := false }
    else some { s with writeback := false }
  | BA => some { s with writeback := false, incrementPc := false, pc := constant }
  | LD => some (s.load mm (source1 + constant))
  | ST =>
    some { s.store mm (source1 + constant) (reg s.destReg) with writeback := false }
  | CALL =>
    some { s with incrementPc := false, dest := s.pc + 1, destReg := 31, pc := constant }
  | JMP => some { s with incrementPc := false, writeback := false, pc := source1 }
  | HALT => some { s with incrementPc := false, writeback := false, proceed := false }
  | _ => none

/-- Writing the result back and moving on to the next instruction. -/
def finish (reg : ℕ → Word) (s : Vars M) : Outcome M where
  mem := s.mem
  log := s.log
  cpu := ⟨if s.incrementPc then s.pc + 1 else s.pc, s.regs reg⟩
  proceed := s.proceed

/-- One iteration of `while (proceed)`. -/
def step (m : M) (cpu : Cpu) : Option (Outcome M) :=
  let r := fetch mm m cpu.pc
  let instr := r.2
  let constant := extractConstant instr
  let source1 := cpu.reg (extractSource1 instr).toNat
  let source2 := cpu.reg (constant &&& 31).toNat
  (execute mm cpu.reg (extractOpcode instr).toNat source1 source2 constant
    { r.1 with destReg := (extractDest instr).toNat }).map (finish cpu.reg)

end C

namespace Zig

/-- `@as(i32, @intCast(source1)) + constant` -/
def address (source1 : Word) (constant : BitVec 16) : Option Word := do
  let cnv1 ← intCastS 32 source1
  sadd cnv1 (constant.signExtend 32)

/-- The `switch (opcode)`. -/
def execute (reg : ℕ → Word) (opcode : Isa) (source1 source2 : Word) (constant : BitVec 16)
    (s : Vars M) : Option (Vars M) :=
  match opcode with
  | .add => some { s with dest := source1 + source2 }
  | .addi => do
    let cnv2 ← intCastS 32 constant
    some { s with dest := source1 + cnv2 }
  | .sub => do
    let cnv2 ← intCastS 32 source2
    some { s with dest := source1 - cnv2 }
  | .subi => do
    let cnv2 ← intCastS 32 constant
    some { s with dest := source1 - cnv2 }
  | .mul => some { s with dest := source1 * source2 }
  | .sge => some { s with dest := ofBool (source2.sle source1) }
  | .sgt => some { s with dest := ofBool (source2.slt source1) }
  | .seq => some { s with dest := ofBool (source1 = source2) }
  | .seqi => do
    let cnv1 ← intCastS 16 source1
    some { s with dest := ofBool (cnv1 = constant) }
  | .bt =>
    if source1 ≠ 0 then do
      let target ← intCastU 32 constant
      some { s with writeback := false, pc := target, incrementPc := false }
    else some { s with writeback := false }
  | .bf =>
    if source1 = 0 then do
      let target ← intCastU 32 constant
      some { s with writeback := false, pc := target, incrementPc := false }
    else some { s with writeback := false }
  | .ba => do
    let target ← intCastU 32 constant
    some { s with writeback := false, incrementPc := false, pc := target }
  | .ld => do
    let addr ← address source1 constant
    some (s.load mm addr)
  | .st => do
    let addr ← address source1 constant
    some { s.store mm addr (reg s.destReg) with writeback := false }
  | .call => do
    let dest ← sadd s.pc 1
    let target ← intCastU 32 constant
    some { s with incrementPc := false, dest := dest, destReg := 31, pc := target }
  | .jmp => some { s with incrementPc := false, writeback := false, pc := source1 }
  | .halt => some { s with incrementPc := false, writeback := false, proceed := false }

/-- Writing the result back, moving on to the next instruction and counting it. -/
def finish (reg : ℕ → Word) (icnt : Word) (s : Vars M) : Option (Outcome M × Word) := do
  let pc ← if s.incrementPc then uadd s.pc 1 else some s.pc
  let icnt ← uadd icnt 1
  some ({ mem := s.mem, log := s.log, cpu := ⟨pc, s.regs reg⟩, proceed := s.proceed }, icnt)

/-- One iteration of `while (proceed)`, and `icnt` after it. -/
def step (m : M) (cpu : Cpu) (icnt : Word) : Option (Outcome M × Word) := do
  let r := fetch mm m cpu.pc
  let instr := r.2
  let opcode ← extractOpcode instr
  let constant := extractConstant instr
  let source1 := cpu.reg (extractSource1 instr).toNat
  let source2 := cpu.reg (constant.setWidth 5).toNat
  let s ← execute mm cpu.reg opcode source1 source2 constant
    { r.1 with destReg := (extractDest instr).toNat }
  finish cpu.reg icnt s

end Zig

end machine

end OsLabs.Vm

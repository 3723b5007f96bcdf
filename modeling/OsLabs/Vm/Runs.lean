import OsLabs.Vm.Agree

/-! @src lab3_vm/c/machine.c, lab3_vm/zig/src/main.zig | name:runs | scheme:checked

    Runs of the two loops, and register 0 in them. An iteration writes a register only when its
    number is not 0, so register 0 keeps what it held before the loop. C stores 0 there; in Zig the
    array of registers starts `undefined`. -/

namespace OsLabs.Vm
open Schemes

section runs
variable {M : Type} (mm : Memory M)

namespace C

/-- The memory and the registers after `n` iterations that all go on. -/
def runFor : ℕ → M × Cpu → Option (M × Cpu)
  | 0, s => some s
  | n + 1, s => (step mm s.1 s.2).bind fun o =>
    if o.proceed then runFor n (o.mem, o.cpu) else none

/-- The start of `run`: every register but 0 holds what it held. -/
def start (reg : ℕ → Word) : Cpu := ⟨0, Function.update reg 0 0⟩

end C

namespace Zig

/-- The same, with `icnt`. -/
def runFor : ℕ → M × Cpu × Word → Option (M × Cpu × Word)
  | 0, s => some s
  | n + 1, s => (step mm s.1 s.2.1 s.2.2).bind fun r =>
    if r.1.proceed then runFor n (r.1.mem, r.1.cpu, r.2) else none

/-- `cpu_t{}`, whose registers are undefined. -/
def start (reg : ℕ → Word) : Cpu := ⟨0, reg⟩

end Zig

/-- At the beginning of every iteration register 0 holds 0, in both machines, started with `m` in
    memory and `creg` and `zreg` in the registers that they leave undefined. -/
def RegisterZero (m : M) (creg zreg : ℕ → Word) : Prop :=
  (∀ n s, C.runFor mm n (m, C.start creg) = some s → s.2.reg 0 = 0) ∧
    ∀ n s, Zig.runFor mm n (m, Zig.start zreg, 0) = some s → s.2.1.reg 0 = 0

end runs

/-! ### Register 0 -/

section zero
variable {M : Type} {mm : Memory M} {m : M} {cpu : Cpu} {icnt : Word}

/-- The write-back spares register 0. -/
theorem Vars.regs_zero (s : Vars M) (reg : ℕ → Word) : s.regs reg 0 = reg 0 := by
  rw [Vars.regs]
  split
  case isTrue h => exact Function.update_of_ne h.2.symm ..
  case isFalse => rfl

theorem C.step_zero {o : Outcome M} (h : C.step mm m cpu = some o) : o.cpu.reg 0 = cpu.reg 0 := by
  rw [C.step] at h
  obtain ⟨s, -, rfl⟩ := Option.map_eq_some_iff.mp h
  exact s.regs_zero cpu.reg

theorem Zig.finish_regs {r : Outcome M × Word} {reg : ℕ → Word} {s : Vars M}
    (h : Zig.finish reg icnt s = some r) : r.1.cpu.reg = s.regs reg := by
  rw [Zig.finish] at h
  split at h
  all_goals
    obtain ⟨pc, -, h⟩ := Option.bind_eq_some_iff.mp h
    obtain ⟨icnt', -, h⟩ := Option.bind_eq_some_iff.mp h
    rw [← Option.some.inj h]

theorem Zig.step_zero {r : Outcome M × Word} (h : Zig.step mm m cpu icnt = some r) :
    r.1.cpu.reg 0 = cpu.reg 0 := by
  rw [Zig.step] at h
  obtain ⟨op, -, h⟩ := Option.bind_eq_some_iff.mp h
  obtain ⟨s, -, h⟩ := Option.bind_eq_some_iff.mp h
  rw [Zig.finish_regs h]
  exact s.regs_zero cpu.reg

theorem C.runFor_zero : ∀ (n : ℕ) {s s' : M × Cpu}, C.runFor mm n s = some s' →
    s'.2.reg 0 = s.2.reg 0
  | 0, _, _, h => by obtain rfl := Option.some.inj h; rfl
  | n + 1, s, s', h => by
      obtain ⟨o, hstep, hrest⟩ := Option.bind_eq_some_iff.mp h
      split at hrest
      · rw [C.runFor_zero n hrest, C.step_zero hstep]
      · cases hrest

theorem Zig.runFor_zero : ∀ (n : ℕ) {s s' : M × Cpu × Word}, Zig.runFor mm n s = some s' →
    s'.2.1.reg 0 = s.2.1.reg 0
  | 0, _, _, h => by obtain rfl := Option.some.inj h; rfl
  | n + 1, s, s', h => by
      obtain ⟨r, hstep, hrest⟩ := Option.bind_eq_some_iff.mp h
      split at hrest
      · rw [Zig.runFor_zero n hrest, Zig.step_zero hstep]
      · cases hrest

/-- CORRECT (register 0): over all runs of both machines register 0 is 0 exactly when it is 0 in the
    registers that Zig starts from; those that C starts from do not matter. -/
theorem registerZero_iff (mm : Memory M) (m : M) (creg zreg : ℕ → Word) :
    RegisterZero mm m creg zreg ↔ zreg 0 = 0 := by
  constructor
  · intro h
    exact h.2 0 _ rfl
  · intro hz
    refine ⟨fun n s h => ?_, fun n s h => ?_⟩
    · rw [C.runFor_zero n h, C.start]
      exact Function.update_self 0 0 creg
    · rw [Zig.runFor_zero n h]
      exact hz

end zero

/-- Started from a memory filled with 0xaa, the Zig machine has that in register 0, and
    `addi 1,0,1024` adds it to 1024. -/
theorem undefined_register_zero :
    let word := C.makeInstr C.ADDI 1 0 1024
    let reg : ℕ → Word := fun _ => 0xaaaaaaaa
    (Zig.start reg).reg 0 = 0xaaaaaaaa ∧
    (Zig.runFor (rom word) 1 ((), Zig.start reg, 0)).map (fun s => s.2.1.reg 1) =
      some 0xaaaaaeaa ∧
    (C.runFor (rom word) 1 ((), C.start reg)).map (fun s => s.2.reg 1) = some 1024 ∧
    ¬RegisterZero (rom word) () reg reg := by
  intro word reg
  refine ⟨rfl, by decide, by decide, fun h => ?_⟩
  exact absurd (h.2 0 _ rfl) (by decide)

end OsLabs.Vm

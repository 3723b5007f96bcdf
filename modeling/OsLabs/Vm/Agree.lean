import OsLabs.Vm.Machine

/-! @src lab3_vm/c/machine.c, lab3_vm/zig/src/main.zig | name:agree | scheme:checked

    One instruction in both machines. Where the Zig machine does not trap, it does what the C
    machine does. It traps on more than C does: `seqi` narrows the register instead of widening the
    constant, a branch target is cast from a signed constant, and an address, a return address, the
    program counter and the instruction counter are computed with the checked `+`, although the
    arithmetic instructions wrap (`@addWithOverflow`) and `jmp` reinterprets (`@bitCast`). -/

namespace OsLabs.Vm
open Schemes

/-- The instruction goes on to the next one. -/
def Increments (op : Isa) (source1 : Word) : Prop :=
  match op with
  | .bt => source1 = 0
  | .bf => source1 ≠ 0
  | .ba | .call | .jmp | .halt => False
  | _ => True

/-- The operands for which the Zig `switch` does not trap. -/
def NoTrap (op : Isa) (source1 : Word) (constant : BitVec 16) (pc : Word) : Prop :=
  match op with
  | .seqi => FitsS 16 source1.toInt
  | .bt => source1 ≠ 0 → 0 ≤ constant.toInt
  | .bf => source1 = 0 → 0 ≤ constant.toInt
  | .ba => 0 ≤ constant.toInt
  | .ld | .st => FitsS 32 (source1.toInt + constant.toInt)
  | .call => FitsS 32 (pc.toInt + 1) ∧ 0 ≤ constant.toInt
  | _ => True

section agree
variable {M : Type} {mm : Memory M} {m : M} {cpu : Cpu} {icnt : Word} {reg : ℕ → Word} {op : Isa}
  {source1 source2 : Word} {constant : BitVec 16} {s : Vars M}

/-- Both machines end the iteration in the same way, and the Zig machine does not trap. -/
def Agrees (mm : Memory M) (m : M) (cpu : Cpu) (icnt : Word) : Prop :=
  ∃ o icnt', C.step mm m cpu = some o ∧ Zig.step mm m cpu icnt = some (o, icnt')

/-- The instruction at `pc` does not trap, and neither do the two counters. -/
def Safe (mm : Memory M) (m : M) (cpu : Cpu) (icnt : Word) : Prop :=
  let instr := (mm.readMemory m cpu.pc).2
  let source1 := cpu.reg (Zig.extractSource1 instr).toNat
  ∃ op, Zig.extractOpcode instr = some op ∧
    NoTrap op source1 (Zig.extractConstant instr) cpu.pc ∧
    (Increments op source1 → cpu.pc.toNat + 1 < 2 ^ 32) ∧ icnt.toNat + 1 < 2 ^ 32

/-- The branches cast their constant to the target. -/
theorem intCastU_nonneg (h : 0 ≤ constant.toInt) :
    intCastU 32 constant = some (constant.signExtend 32) := by
  rw [intCastU_of_le (by decide), if_pos h]

theorem intCastU_neg (h : ¬0 ≤ constant.toInt) : intCastU 32 constant = none := by
  rw [intCastU_of_le (by decide), if_neg h]

/-- Loads and stores add the constant to the register. -/
theorem address_eq : Zig.address source1 constant =
    if FitsS 32 (source1.toInt + constant.toInt) then some (source1 + constant.signExtend 32)
    else none := by
  rw [Zig.address, intCastS_of_le le_rfl, BitVec.signExtend_eq, Option.bind_eq_bind,
    Option.bind_some, sadd_eq, BitVec.toInt_signExtend_of_le (by decide)]

/-- Where it does not trap, the Zig `switch` is the C one. -/
theorem execute_eq (h : NoTrap op source1 constant s.pc) :
    Zig.execute mm reg op source1 source2 constant s =
      C.execute mm reg op.toInt source1 source2 (constant.signExtend 32) s := by
  cases op with
  | add | mul | sge | sgt | seq | jmp | halt => rfl
  | addi | subi => rw [Zig.execute, intCastS_of_le (by decide)]; rfl
  | sub => rw [Zig.execute, intCastS_of_le le_rfl, BitVec.signExtend_eq]; rfl
  | seqi =>
    have hfits : FitsS 16 source1.toInt := h
    have hiff := signExtend_eq_iff (by decide) (by decide) hfits (y := constant)
    rw [Zig.execute, intCastS, if_pos hfits]
    refine congrArg some ?_
    simp only [hiff]
  | bt =>
    rw [Zig.execute]
    split
    case isTrue hne => rw [intCastU_nonneg (h hne)]; exact (if_pos hne).symm
    case isFalse hz => exact (if_neg hz).symm
  | bf =>
    rw [Zig.execute]
    split
    case isTrue hz => rw [intCastU_nonneg (h hz)]; exact (if_pos hz).symm
    case isFalse hne => exact (if_neg hne).symm
  | ba => rw [Zig.execute, intCastU_nonneg h]; rfl
  | ld | st =>
    have haddr := address_eq.trans (if_pos h)
    rw [Zig.execute, haddr]
    rfl
  | call =>
    have hret : sadd s.pc 1 = some (s.pc + 1) := by rw [sadd_eq]; exact if_pos h.1
    rw [Zig.execute, hret, intCastU_nonneg h.2]
    rfl

/-- Where it traps, there is no result. -/
theorem execute_none (h : ¬NoTrap op source1 constant s.pc) :
    Zig.execute mm reg op source1 source2 constant s = none := by
  cases op with
  | add | addi | sub | subi | mul | sge | sgt | seq | jmp | halt => exact absurd trivial h
  | seqi =>
    have hcast : intCastS 16 source1 = none := if_neg h
    rw [Zig.execute, hcast]
    rfl
  | bt =>
    obtain ⟨hne, hneg⟩ := Classical.not_imp.mp h
    rw [Zig.execute, if_pos hne, intCastU_neg hneg]
    rfl
  | bf =>
    obtain ⟨hz, hneg⟩ := Classical.not_imp.mp h
    rw [Zig.execute, if_pos hz, intCastU_neg hneg]
    rfl
  | ba =>
    rw [Zig.execute, intCastU_neg h]
    rfl
  | ld | st =>
    have haddr := address_eq.trans (if_neg h)
    rw [Zig.execute, haddr]
    rfl
  | call =>
    by_cases hret : FitsS 32 (s.pc.toInt + 1)
    · have hneg : ¬0 ≤ constant.toInt := fun h0 => h ⟨hret, h0⟩
      have hsum : sadd s.pc 1 = some (s.pc + 1) := (sadd_eq ..).trans (if_pos hret)
      rw [Zig.execute, hsum, intCastU_neg hneg]
      rfl
    · have hsum : sadd s.pc 1 = none := (sadd_eq ..).trans (if_neg hret)
      rw [Zig.execute, hsum]
      rfl

/-- The C `switch` knows every instruction; those that go on leave `pc` alone. -/
theorem execute_some (mm : Memory M) (reg : ℕ → Word) (op : Isa) (hs : s.incrementPc = true) : ∃ s',
    C.execute mm reg op.toInt source1 source2 (constant.signExtend 32) s = some s' ∧
      (s'.incrementPc = true ↔ Increments op source1) ∧ (s'.incrementPc = true → s'.pc = s.pc) := by
  cases op with
  | add | addi | sub | subi | mul | sge | sgt | seq | seqi | ld | st =>
    exact ⟨_, rfl, iff_of_true hs trivial, fun _ => rfl⟩
  | ba | call | jmp | halt =>
    exact ⟨_, rfl, iff_of_false Bool.false_ne_true id, fun h => absurd h Bool.false_ne_true⟩
  | bt =>
    by_cases hz : source1 = 0
    · exact ⟨_, if_neg (not_not.mpr hz), iff_of_true hs hz, fun _ => rfl⟩
    · exact ⟨_, if_pos hz, iff_of_false Bool.false_ne_true hz,
        fun h => absurd h Bool.false_ne_true⟩
  | bf =>
    by_cases hz : source1 = 0
    · exact ⟨_, if_pos hz, iff_of_false Bool.false_ne_true (not_not.mpr hz),
        fun h => absurd h Bool.false_ne_true⟩
    · exact ⟨_, if_neg hz, iff_of_true hs hz, fun _ => rfl⟩

/-- The Zig machine finishes as the C one, unless a counter is at its end. -/
theorem finish_eq (hpc : s.incrementPc = true → s.pc.toNat + 1 < 2 ^ 32)
    (hicnt : icnt.toNat + 1 < 2 ^ 32) :
    Zig.finish reg icnt s = some (C.finish reg s, icnt + 1) := by
  rw [Zig.finish, C.finish, uadd_one (by decide) icnt, if_pos hicnt]
  cases hinc : s.incrementPc with
  | false => rfl
  | true =>
    rw [uadd_one (by decide), if_pos (hpc hinc)]
    rfl

theorem finish_none
    (h : ¬((s.incrementPc = true → s.pc.toNat + 1 < 2 ^ 32) ∧ icnt.toNat + 1 < 2 ^ 32)) :
    Zig.finish reg icnt s = none := by
  rw [Zig.finish]
  by_cases hicnt : icnt.toNat + 1 < 2 ^ 32
  · obtain ⟨hinc, hpc⟩ := Classical.not_imp.mp fun hpc => h ⟨hpc, hicnt⟩
    rw [if_pos hinc, uadd_one (by decide), if_neg hpc]
    rfl
  · rw [uadd_one (by decide) icnt, if_neg hicnt]
    cases s.incrementPc with
    | false => rfl
    | true =>
      generalize uadd s.pc 1 = pc
      cases pc <;> rfl

/-- CORRECT (one instruction): on every word with a known opcode the iterations of the two machines
    agree exactly when nothing traps. -/
theorem step_agree_iff (hop : ((mm.readMemory m cpu.pc).2 >>> 26).toNat ≤ 16) :
    Agrees mm m cpu icnt ↔ Safe mm m cpu icnt := by
  obtain ⟨op, hdec, hnum⟩ := Isa.ofInt_of_le hop
  generalize hinstr : (mm.readMemory m cpu.pc).2 = instr at hdec hnum
  have hzig : Zig.extractOpcode instr = some op := hdec
  have hc : (C.extractOpcode instr).toNat = op.toInt := hnum.symm
  have hsafe : Safe mm m cpu icnt ↔
      NoTrap op (cpu.reg (Zig.extractSource1 instr).toNat) (Zig.extractConstant instr) cpu.pc ∧
        (Increments op (cpu.reg (Zig.extractSource1 instr).toNat) → cpu.pc.toNat + 1 < 2 ^ 32) ∧
        icnt.toNat + 1 < 2 ^ 32 := by
    simp only [Safe, hinstr, hzig, Option.some.injEq, exists_eq_left']
  rw [hsafe, Agrees]
  simp only [C.step, Zig.step, hzig, hc, fetch, hinstr, extractSource1_eq, extractConstant_eq,
    constant_reg_eq, extractDest_eq, Option.bind_eq_bind, Option.bind_some]
  obtain ⟨s, hs, hsi, hsp⟩ : ∃ s : Vars M, s = ⟨(mm.readMemory m cpu.pc).1, [.read cpu.pc], cpu.pc,
    0, (Zig.extractDest instr).toNat, true, true, true⟩ ∧ s.incrementPc = true ∧ s.pc = cpu.pc :=
    ⟨_, rfl, rfl, rfl⟩
  rw [← hs, ← hsp]
  by_cases hnt : NoTrap op (cpu.reg (Zig.extractSource1 instr).toNat)
      (Zig.extractConstant instr) s.pc
  · obtain ⟨s', hrun, hinc, hpc⟩ := execute_some mm cpu.reg op hsi
    rw [execute_eq hnt, hrun, Option.bind_some, Option.map_some, ← and_assoc]
    by_cases hcnt : (s'.incrementPc = true → s'.pc.toNat + 1 < 2 ^ 32) ∧ icnt.toNat + 1 < 2 ^ 32
    · refine iff_of_true ⟨_, _, rfl, finish_eq hcnt.1 hcnt.2⟩ ⟨⟨hnt, fun hi => ?_⟩, hcnt.2⟩
      exact hpc (hinc.mpr hi) ▸ hcnt.1 (hinc.mpr hi)
    · refine iff_of_false ?_ fun h => hcnt ⟨fun hi => ?_, h.2⟩
      · rintro ⟨o, icnt', -, hz⟩
        rw [finish_none hcnt] at hz
        cases hz
      · exact hpc hi ▸ h.1.2 (hinc.mp hi)
  · rw [execute_none hnt]
    exact iff_of_false (fun ⟨o, i, _, hz⟩ => by cases hz) (fun h => hnt h.1)

end agree

/-- A memory with one word in all places. -/
def rom (word : Word) : Memory Unit := ⟨fun _ _ => ((), word), fun _ _ _ => ()⟩

/-- `addi` agrees, `icnt` starting at zero. -/
theorem step_agree_iff_addi :
    Agrees (rom (C.makeInstr C.ADDI 2 0 5)) () ⟨0, fun _ => 0⟩ 0 :=
  (step_agree_iff (by decide)).mpr
    ⟨.addi, by decide, trivial, fun _ => by decide, by decide⟩

/-- `seqi` on a register that holds 40000: C compares, Zig traps. -/
theorem seqi_wide_traps :
    let word := C.makeInstr C.SEQI 2 1 5
    let cpu : Cpu := ⟨0, Function.update (fun _ => 0) 1 40000⟩
    cpu.reg 0 = 0 ∧ (word >>> 26).toNat ≤ 16 ∧
      ((C.step (rom word) () cpu).map fun o => o.cpu.reg 2) = some 0 ∧
      Zig.step (rom word) () cpu 0 = none ∧ ¬Agrees (rom word) () cpu 0 := by
  intro word cpu
  have hzig : Zig.step (rom word) () cpu 0 = none := by decide
  refine ⟨rfl, by decide, by decide, hzig, ?_⟩
  rintro ⟨o, icnt', -, hrun⟩
  rw [hzig] at hrun
  cases hrun

end OsLabs.Vm

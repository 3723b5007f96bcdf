import OsLabs.Vm.Runs

/-! @src lab3_vm/c/machine.c, lab3_vm/zig/src/main.zig | name:lockstep | scheme:checked

    The two loops, iteration by iteration, on one memory. The Zig machine goes with the C machine as
    long as every instruction on the way is safe, and stops with a trap at the first that is not; so
    it never goes where C does not, and its `icnt` is the number of iterations.

        C     s0 ──▶ s1 ──▶ s2 ──▶ s3 ──▶ ...
        Zig   s0 ──▶ s1 ──▶ s2 ──▶ trap          (s2 is not safe) -/

namespace OsLabs.Vm
open Schemes

namespace C

/-- The loop ends in its iteration `n + 1` with `o`. -/
def Halts {M : Type} (mm : Memory M) (n : ℕ) (s : M × Cpu) (o : Outcome M) : Prop :=
  ∃ t, runFor mm n s = some t ∧ step mm t.1 t.2 = some o ∧ o.proceed = false

end C

namespace Zig

/-- The same, with `icnt`. -/
def Halts {M : Type} (mm : Memory M) (n : ℕ) (s : M × Cpu × Word) (r : Outcome M × Word) : Prop :=
  ∃ t, runFor mm n s = some t ∧ step mm t.1 t.2.1 t.2.2 = some r ∧ r.1.proceed = false

end Zig

section lockstep
variable {M : Type} {mm : Memory M} {m : M} {cpu : Cpu} {icnt : Word}

/-- The first `n` instructions of the C run are safe for Zig, whose `icnt` counts them. -/
def SafeFor (mm : Memory M) (n : ℕ) (m : M) (cpu : Cpu) (icnt : Word) : Prop :=
  ∀ k < n, ∀ s, C.runFor mm k (m, cpu) = some s → Safe mm s.1 s.2 (icnt + BitVec.ofNat 32 k)

/-! ### One iteration -/

theorem Isa.toInt_of_ofInt {n : ℕ} {op : Isa} (h : Isa.ofInt n = some op) : op.toInt = n := by
  revert h
  unfold Isa.ofInt
  split
  case h_18 =>
    intro h
    cases h
  all_goals
    intro h
    obtain rfl := Option.some.inj h
    rfl

/-- The C iteration at an instruction that both machines know, with the fields as Zig has them. -/
theorem C.step_of_opcode {op : Isa}
    (hop : Zig.extractOpcode (mm.readMemory m cpu.pc).2 = some op) : C.step mm m cpu =
      (C.execute mm cpu.reg op.toInt
        (cpu.reg (Zig.extractSource1 (mm.readMemory m cpu.pc).2).toNat)
        (cpu.reg ((Zig.extractConstant (mm.readMemory m cpu.pc).2).setWidth 5).toNat)
        ((Zig.extractConstant (mm.readMemory m cpu.pc).2).signExtend 32)
        ⟨(mm.readMemory m cpu.pc).1, [.read cpu.pc], cpu.pc, 0,
          (Zig.extractDest (mm.readMemory m cpu.pc).2).toNat, true, true, true⟩).map
        (C.finish cpu.reg) := by
  have hnum : (C.extractOpcode (mm.readMemory m cpu.pc).2).toNat = op.toInt :=
    (Isa.toInt_of_ofInt hop).symm
  rw [C.step]
  simp only [fetch, hnum, extractSource1_eq, extractConstant_eq, constant_reg_eq, extractDest_eq]

/-- The Zig iteration there. -/
theorem Zig.step_of_opcode {op : Isa}
    (hop : Zig.extractOpcode (mm.readMemory m cpu.pc).2 = some op) : Zig.step mm m cpu icnt =
      (Zig.execute mm cpu.reg op
        (cpu.reg (Zig.extractSource1 (mm.readMemory m cpu.pc).2).toNat)
        (cpu.reg ((Zig.extractConstant (mm.readMemory m cpu.pc).2).setWidth 5).toNat)
        (Zig.extractConstant (mm.readMemory m cpu.pc).2)
        ⟨(mm.readMemory m cpu.pc).1, [.read cpu.pc], cpu.pc, 0,
          (Zig.extractDest (mm.readMemory m cpu.pc).2).toNat, true, true, true⟩).bind
        (Zig.finish cpu.reg icnt) := by
  rw [Zig.step]
  simp only [fetch, hop, Option.bind_eq_bind, Option.bind_some]

/-- From the `switch` on, where nothing traps. -/
theorem rest_eq {reg : ℕ → Word} {op : Isa} {source1 source2 : Word} {constant : BitVec 16}
    {s : Vars M} (hs : s.incrementPc = true) (hnt : NoTrap op source1 constant s.pc)
    (hpc : Increments op source1 → s.pc.toNat + 1 < 2 ^ 32) (hicnt : icnt.toNat + 1 < 2 ^ 32) :
    ∃ o, (C.execute mm reg op.toInt source1 source2 (constant.signExtend 32) s).map
        (C.finish reg) = some o ∧
      (Zig.execute mm reg op source1 source2 constant s).bind (Zig.finish reg icnt) =
        some (o, icnt + 1) := by
  obtain ⟨s', hrun, hinc, hkept⟩ := execute_some mm reg op hs
  rw [execute_eq hnt, hrun]
  refine ⟨_, rfl, finish_eq (fun hi => ?_) hicnt⟩
  rw [hkept hi]
  exact hpc (hinc.mp hi)

/-- And where something does. -/
theorem rest_none {reg : ℕ → Word} {op : Isa} {source1 source2 : Word} {constant : BitVec 16}
    {s : Vars M} (hs : s.incrementPc = true) (h : ¬(NoTrap op source1 constant s.pc ∧
      (Increments op source1 → s.pc.toNat + 1 < 2 ^ 32) ∧ icnt.toNat + 1 < 2 ^ 32)) :
    (Zig.execute mm reg op source1 source2 constant s).bind (Zig.finish reg icnt) = none := by
  by_cases hnt : NoTrap op source1 constant s.pc
  · obtain ⟨s', hrun, hinc, hkept⟩ := execute_some mm reg op hs
    rw [execute_eq hnt, hrun]
    refine finish_none fun hcnt => h ⟨hnt, fun hi => ?_, hcnt.2⟩
    rw [← hkept (hinc.mpr hi)]
    exact hcnt.1 (hinc.mpr hi)
  · rw [execute_none hnt]
    rfl

/-- A safe iteration is that of C and counts. -/
theorem Safe.step (h : Safe mm m cpu icnt) :
    ∃ o, C.step mm m cpu = some o ∧ Zig.step mm m cpu icnt = some (o, icnt + 1) := by
  obtain ⟨op, hop, hnt, hpc, hicnt⟩ := h
  rw [C.step_of_opcode hop, Zig.step_of_opcode hop]
  exact rest_eq rfl hnt hpc hicnt

/-- An unsafe one traps. -/
theorem step_of_not_safe (h : ¬Safe mm m cpu icnt) : Zig.step mm m cpu icnt = none := by
  cases hop : Zig.extractOpcode (mm.readMemory m cpu.pc).2 with
  | none =>
    rw [Zig.step]
    simp only [fetch, hop, Option.bind_eq_bind, Option.bind_none]
  | some op =>
    rw [Zig.step_of_opcode hop]
    exact rest_none rfl fun hop' => h ⟨op, hop, hop'⟩

/-- So the Zig iteration is the C one, with a guard before it. -/
theorem zig_step_iff {r : Outcome M × Word} : Zig.step mm m cpu icnt = some r ↔
    C.step mm m cpu = some r.1 ∧ Safe mm m cpu icnt ∧ r.2 = icnt + 1 := by
  by_cases h : Safe mm m cpu icnt
  · obtain ⟨o, hc, hz⟩ := h.step
    rw [hc, hz, Option.some.injEq, Option.some.injEq, Prod.ext_iff]
    simp only [h, true_and]
    exact and_congr_right fun _ => eq_comm
  · rw [step_of_not_safe h]
    exact iff_of_false (fun hz => by cases hz) fun hz => h hz.2.1

/-! ### Runs -/

theorem safeFor_zero : SafeFor mm 0 m cpu icnt := fun _ hk => absurd hk (Nat.not_lt_zero _)

/-- What `icnt` holds later. -/
theorem add_ofNat_succ (icnt : Word) (k : ℕ) :
    icnt + BitVec.ofNat 32 (k + 1) = icnt + 1 + BitVec.ofNat 32 k := by
  rw [BitVec.add_assoc, Nat.add_comm k 1, BitVec.ofNat_add]
  rfl

/-- The guard of a longer run, at an iteration that goes on. -/
theorem safeFor_succ {o : Outcome M} (hstep : C.step mm m cpu = some o) (hgo : o.proceed = true)
    (n : ℕ) : SafeFor mm (n + 1) m cpu icnt ↔
      Safe mm m cpu icnt ∧ SafeFor mm n o.mem o.cpu (icnt + 1) := by
  have hrun : ∀ k, C.runFor mm (k + 1) (m, cpu) = C.runFor mm k (o.mem, o.cpu) := by
    intro k
    rw [C.runFor, hstep, Option.bind_some, if_pos hgo]
  constructor
  · intro h
    refine ⟨?_, fun k hk s hs => ?_⟩
    · simpa using h 0 (Nat.succ_pos n) (m, cpu) rfl
    · rw [← add_ofNat_succ]
      exact h (k + 1) (Nat.succ_lt_succ hk) s ((hrun k).trans hs)
  · rintro ⟨hsafe, h⟩ k hk s hs
    cases k with
    | zero =>
      obtain rfl := Option.some.inj hs
      simpa using hsafe
    | succ k =>
      rw [add_ofNat_succ]
      exact h k (Nat.lt_of_succ_lt_succ hk) s ((hrun k).symm.trans hs)

/-- The Zig run is the C run under the guard, by induction on its length. -/
theorem zig_runFor_iff : ∀ (n : ℕ) {m : M} {cpu : Cpu} {icnt : Word} {t : M × Cpu × Word},
    Zig.runFor mm n (m, cpu, icnt) = some t ↔ C.runFor mm n (m, cpu) = some (t.1, t.2.1) ∧
      SafeFor mm n m cpu icnt ∧ t.2.2 = icnt + BitVec.ofNat 32 n
  | 0, m, cpu, icnt, t => by
      rw [Zig.runFor, C.runFor, Option.some.injEq, Option.some.injEq, Prod.ext_iff, Prod.ext_iff,
        Prod.ext_iff]
      simp only [safeFor_zero, true_and, BitVec.add_zero, and_assoc]
      exact and_congr_right fun _ => and_congr_right fun _ => eq_comm
  | n + 1, m, cpu, icnt, t => by
      rw [Zig.runFor, C.runFor]
      by_cases hsafe : Safe mm m cpu icnt
      · obtain ⟨o, hc, hz⟩ := hsafe.step
        rw [hc, hz, Option.bind_some, Option.bind_some]
        by_cases hgo : o.proceed = true
        · rw [if_pos hgo, if_pos hgo, zig_runFor_iff n, safeFor_succ hc hgo, add_ofNat_succ]
          simp only [hsafe, true_and]
        · rw [if_neg hgo, if_neg hgo]
          exact iff_of_false (fun h => by cases h) fun h => by cases h.1
      · rw [step_of_not_safe hsafe]
        refine iff_of_false (fun h => by cases h) fun h => hsafe ?_
        simpa using h.2.1 0 (Nat.succ_pos n) (m, cpu) rfl

/-- The guard over one more iteration. -/
theorem safeFor_last {n : ℕ} {s : M × Cpu} (hrun : C.runFor mm n (m, cpu) = some s) :
    SafeFor mm (n + 1) m cpu icnt ↔
      SafeFor mm n m cpu icnt ∧ Safe mm s.1 s.2 (icnt + BitVec.ofNat 32 n) := by
  constructor
  · intro h
    exact ⟨fun k hk => h k (Nat.lt_succ_of_lt hk), h n (Nat.lt_succ_self n) s hrun⟩
  · rintro ⟨h, hlast⟩ k hk t ht
    rcases Nat.lt_succ_iff_lt_or_eq.mp hk with hlt | rfl
    · exact h k hlt t ht
    · obtain rfl := Option.some.inj (ht.symm.trans hrun)
      exact hlast

/-- CORRECT (lockstep): on every memory and from every state, the Zig loop goes on for `n`
    iterations, or ends in iteration `n + 1`, exactly when the C loop does and every instruction on
    the way is safe; it then is in the same state, and `icnt` has counted the iterations. -/
theorem lockstep_iff (mm : Memory M) (n : ℕ) (m : M) (cpu : Cpu) (icnt : Word) :
    (∀ t, Zig.runFor mm n (m, cpu, icnt) = some t ↔
      C.runFor mm n (m, cpu) = some (t.1, t.2.1) ∧ SafeFor mm n m cpu icnt ∧
        t.2.2 = icnt + BitVec.ofNat 32 n) ∧
    ∀ r, Zig.Halts mm n (m, cpu, icnt) r ↔
      C.Halts mm n (m, cpu) r.1 ∧ SafeFor mm (n + 1) m cpu icnt ∧
        r.2 = icnt + BitVec.ofNat 32 (n + 1) := by
  refine ⟨fun t => zig_runFor_iff n, fun r => ?_⟩
  constructor
  · rintro ⟨⟨m', cpu', icnt'⟩, hrun, hstep, hend⟩
    obtain ⟨hc, hsafe, rfl⟩ := (zig_runFor_iff n).mp hrun
    obtain ⟨hcstep, hlast, hr⟩ := zig_step_iff.mp hstep
    refine ⟨⟨_, hc, hcstep, hend⟩, (safeFor_last hc).mpr ⟨hsafe, hlast⟩, ?_⟩
    rw [hr, BitVec.ofNat_add, ← BitVec.add_assoc]
    rfl
  · rintro ⟨⟨s, hc, hcstep, hend⟩, hsafe, hr⟩
    obtain ⟨hfirst, hlast⟩ := (safeFor_last hc).mp hsafe
    refine ⟨(s.1, s.2, icnt + BitVec.ofNat 32 n), (zig_runFor_iff n).mpr ⟨hc, hfirst, rfl⟩,
      zig_step_iff.mpr ⟨hcstep, hlast, ?_⟩, hend⟩
    rw [hr, BitVec.ofNat_add, ← BitVec.add_assoc]
    rfl

end lockstep

end OsLabs.Vm

import OsLabs.Vm.Flat
import OsLabs.Vm.Lockstep

/-! @src lab3_vm/c/machine.c, lab3_vm/zig/src/main.zig | name:alike | scheme:refinement

    Runs with their accesses, and memories that answer alike on some addresses. A machine only sees
    a memory through what it reads, so runs over the one that stay on these addresses are runs over
    the other, with the same registers and the same accesses.

        m    ── a₁ ──▶ ── a₂ ──▶ ── a₃ ──▶ m₁
        │R                                 │R            a₁, a₂, a₃ ∈ D
        m'   ── a₁ ──▶ ── a₂ ──▶ ── a₃ ──▶ m₁'                           -/

namespace OsLabs.Vm

/-- `n` iterations of the C loop that all go on, and what they access. -/
def Traces {M : Type} (mm : Memory M) : ℕ → M × Cpu → List Access → M × Cpu → Prop
  | 0, s, log, s' => log = [] ∧ s = s'
  | n + 1, s, log, s' => ∃ o rest, C.step mm s.1 s.2 = some o ∧ o.proceed = true ∧
      log = o.log ++ rest ∧ Traces mm n (o.mem, o.cpu) rest s'

/-- Related memories answer alike on the addresses in `D`. -/
structure Alike {M M' : Type} (mm : Memory M) (mm' : Memory M') (R : M → M' → Prop)
    (D : Set Word) : Prop where
  read : ∀ {m m' a}, R m m' → a ∈ D → (mm.readMemory m a).2 = (mm'.readMemory m' a).2 ∧
    R (mm.readMemory m a).1 (mm'.readMemory m' a).1
  write : ∀ {m m' a} v, R m m' → a ∈ D → R (mm.writeMemory m a v) (mm'.writeMemory m' a v)

/-- All accesses go to `D`. -/
def On (D : Set Word) (log : List Access) : Prop := ∀ x ∈ log, x.addr ∈ D

section traces
variable {M : Type} {mm : Memory M} {m : M} {s s' : M × Cpu} {log : List Access}

theorem runFor_iff_traces : ∀ {n : ℕ} {s : M × Cpu},
    C.runFor mm n s = some s' ↔ ∃ log, Traces mm n s log s'
  | 0, s => by simp [C.runFor, Traces]
  | n + 1, s => by
      rw [C.runFor]
      constructor
      · intro h
        obtain ⟨o, hstep, h⟩ := Option.bind_eq_some_iff.mp h
        split at h
        case isTrue hgo =>
          obtain ⟨rest, hrest⟩ := runFor_iff_traces.mp h
          exact ⟨o.log ++ rest, o, rest, hstep, hgo, rfl, hrest⟩
        case isFalse => cases h
      · rintro ⟨_, o, rest, hstep, hgo, -, hrest⟩
        rw [hstep, Option.bind_some, if_pos hgo]
        exact runFor_iff_traces.mpr ⟨rest, hrest⟩

theorem Memory.after_append (mm : Memory M) (m : M) (l l' : List Access) :
    mm.after m (l ++ l') = mm.after (mm.after m l) l' := List.foldl_append

/-- The `switch` goes through what it logs. -/
theorem C.execute_after {reg : ℕ → Word} {opcode : ℕ} {source1 source2 constant : Word}
    {t t' : Vars M} (h : C.execute mm reg opcode source1 source2 constant t = some t')
    (ht : t.mem = mm.after m t.log) : t'.mem = mm.after m t'.log ∧ t.log <+: t'.log := by
  revert h
  unfold C.execute
  split
  case h_10 | h_11 =>
    split
    all_goals
      intro h
      obtain rfl := Option.some.inj h
      exact ⟨ht, List.prefix_refl _⟩
  case h_13 =>
    intro h
    obtain rfl := Option.some.inj h
    refine ⟨?_, List.prefix_append ..⟩
    simp only [Vars.load, Memory.after_append, ← ht]
    rfl
  case h_14 =>
    intro h
    obtain rfl := Option.some.inj h
    refine ⟨?_, List.prefix_append ..⟩
    simp only [Vars.store, Memory.after_append, ← ht]
    rfl
  case h_18 =>
    intro h
    cases h
  all_goals
    intro h
    obtain rfl := Option.some.inj h
    exact ⟨ht, List.prefix_refl _⟩

theorem C.step_after {cpu : Cpu} {o : Outcome M} (h : C.step mm m cpu = some o) :
    o.mem = mm.after m o.log ∧ .read cpu.pc ∈ o.log := by
  obtain ⟨t, ht, rfl⟩ := Option.map_eq_some_iff.mp h
  obtain ⟨hmem, hlog⟩ := C.execute_after (m := m) ht rfl
  exact ⟨hmem, hlog.subset (List.mem_singleton_self _)⟩

/-- A run leaves the memory behind its accesses. -/
theorem Traces.after : ∀ {n : ℕ} {s : M × Cpu} {log : List Access}, Traces mm n s log s' →
    s'.1 = mm.after s.1 log
  | 0, _, _, ⟨hlog, hs⟩ => by rw [hlog, hs]; rfl
  | n + 1, _, _, ⟨o, rest, hstep, _, hlog, hrest⟩ => by
      rw [hlog, Memory.after_append, ← (C.step_after hstep).1]
      exact hrest.after

end traces

namespace Alike
variable {M M' : Type} {mm : Memory M} {mm' : Memory M'} {R : M → M' → Prop} {D : Set Word}
  {m : M} {m' : M'} {cpu : Cpu} {icnt : Word}

/-- The relation works in both directions. -/
theorem symm (h : Alike mm mm' R D) : Alike mm' mm (fun m' m => R m m') D where
  read hR ha := ⟨(h.read hR ha).1.symm, (h.read hR ha).2⟩
  write v hR ha := h.write v hR ha

/-- The variables of two machines that differ in the memory only. -/
structure Sim (R : M → M' → Prop) (t : Vars M) (t' : Vars M') : Prop where
  mem : R t.mem t'.mem
  log : t.log = t'.log
  pc : t.pc = t'.pc
  dest : t.dest = t'.dest
  destReg : t.destReg = t'.destReg
  incrementPc : t.incrementPc = t'.incrementPc
  writeback : t.writeback = t'.writeback
  proceed : t.proceed = t'.proceed

theorem execute (h : Alike mm mm' R D) {t : Vars M} {t' u' : Vars M'} (hsim : Sim R t t')
    {reg : ℕ → Word} {opcode : ℕ} {source1 source2 constant : Word}
    (hrun : C.execute mm' reg opcode source1 source2 constant t' = some u') (hlog : On D u'.log) :
    ∃ u, C.execute mm reg opcode source1 source2 constant t = some u ∧ Sim R u u' := by
  obtain ⟨mem, log, pc, dest, destReg, inc, wb, go⟩ := t
  obtain ⟨mem', log', pc', dest', destReg', inc', wb', go'⟩ := t'
  obtain ⟨hmem, rfl, rfl, rfl, rfl, rfl, rfl, rfl⟩ := hsim
  revert hrun
  unfold C.execute
  split
  case h_10 | h_11 =>
    split
    all_goals
      intro hrun
      obtain rfl := Option.some.inj hrun
      exact ⟨_, rfl, hmem, rfl, rfl, rfl, rfl, rfl, rfl, rfl⟩
  case h_13 =>
    intro hrun
    obtain rfl := Option.some.inj hrun
    have haddr : source1 + constant ∈ D :=
      hlog (.read _) (List.mem_append_right _ (List.mem_singleton_self _))
    obtain ⟨hword, hnext⟩ := h.read hmem haddr
    exact ⟨_, rfl, hnext, rfl, rfl, hword, rfl, rfl, rfl, rfl⟩
  case h_14 =>
    intro hrun
    obtain rfl := Option.some.inj hrun
    have haddr : source1 + constant ∈ D :=
      hlog (.write _ _) (List.mem_append_right _ (List.mem_singleton_self _))
    exact ⟨_, rfl, h.write _ hmem haddr, rfl, rfl, rfl, rfl, rfl, rfl, rfl⟩
  case h_18 =>
    intro hrun
    cases hrun
  all_goals
    intro hrun
    obtain rfl := Option.some.inj hrun
    exact ⟨_, rfl, hmem, rfl, rfl, rfl, rfl, rfl, rfl, rfl⟩

/-- One iteration. -/
theorem step (h : Alike mm mm' R D) (hR : R m m') {o' : Outcome M'}
    (hstep : C.step mm' m' cpu = some o') (hlog : On D o'.log) :
    ∃ o, C.step mm m cpu = some o ∧ R o.mem o'.mem ∧ o.log = o'.log ∧ o.cpu = o'.cpu ∧
      o.proceed = o'.proceed := by
  have hpc : cpu.pc ∈ D := hlog _ (C.step_after hstep).2
  obtain ⟨hword, hnext⟩ := h.read hR hpc
  obtain ⟨u', hrun, rfl⟩ := Option.map_eq_some_iff.mp hstep
  simp only [fetch] at hrun
  obtain ⟨u, hu, hsim⟩ := h.execute (t := ⟨(mm.readMemory m cpu.pc).1, [.read cpu.pc], cpu.pc, 0,
    (C.extractDest (mm'.readMemory m' cpu.pc).2).toNat, true, true, true⟩)
    ⟨hnext, rfl, rfl, rfl, rfl, rfl, rfl, rfl⟩ hrun hlog
  rw [C.step]
  simp only [fetch, hword]
  refine ⟨_, congrArg (Option.map (C.finish cpu.reg)) hu, hsim.mem, hsim.log, ?_, hsim.proceed⟩
  rw [C.finish, C.finish, Vars.regs, Vars.regs, hsim.pc, hsim.dest, hsim.destReg,
    hsim.incrementPc, hsim.writeback]

/-- A run. -/
theorem traces (h : Alike mm mm' R D) : ∀ {n : ℕ} {m : M} {m' m₁' : M'} {cpu cpu₁ : Cpu}
    {log : List Access}, R m m' → Traces mm' n (m', cpu) log (m₁', cpu₁) → On D log →
    ∃ m₁, Traces mm n (m, cpu) log (m₁, cpu₁) ∧ R m₁ m₁'
  | 0, m, _, _, _, _, _, hR, ⟨hnil, hs⟩, _ => by
      obtain ⟨rfl, rfl⟩ := Prod.mk.inj hs
      exact ⟨m, ⟨hnil, rfl⟩, hR⟩
  | n + 1, _, _, _, _, _, _, hR, ⟨o', rest, hstep, hgo, hlog, hrest⟩, hD => by
      subst hlog
      obtain ⟨ho, hr⟩ := List.forall_mem_append.mp hD
      obtain ⟨o, hstep', hR', hlog', hcpu, hgo'⟩ := h.step hR hstep ho
      rw [← hcpu] at hrest
      obtain ⟨m₁, htrace, hR₁⟩ := h.traces hR' hrest hr
      exact ⟨m₁, ⟨o, rest, hstep', hgo'.trans hgo, by rw [hlog'], htrace⟩, hR₁⟩

/-- An instruction that is fetched from `D` is as safe on the one as on the other. -/
theorem safe_iff (h : Alike mm mm' R D) (hR : R m m') (hpc : cpu.pc ∈ D) :
    Safe mm m cpu icnt ↔ Safe mm' m' cpu icnt := by
  rw [Safe, Safe, (h.read hR hpc).1]

/-- The guard of a Zig run. -/
theorem safeFor_iff (h : Alike mm mm' R D) : ∀ {n : ℕ} {m : M} {m' : M'} {s' : M' × Cpu}
    {cpu : Cpu} {icnt : Word} {log : List Access}, R m m' → Traces mm' n (m', cpu) log s' →
    On D log → (SafeFor mm n m cpu icnt ↔ SafeFor mm' n m' cpu icnt)
  | 0, _, _, _, _, _, _, _, _, _ => iff_of_true safeFor_zero safeFor_zero
  | n + 1, _, _, _, _, _, _, hR, ⟨o', rest, hstep, hgo, hlog, hrest⟩, hD => by
      subst hlog
      obtain ⟨ho, hr⟩ := List.forall_mem_append.mp hD
      obtain ⟨o, hstep', hR', -, hcpu, hgo'⟩ := h.step hR hstep ho
      rw [safeFor_succ hstep' (hgo'.trans hgo), safeFor_succ hstep hgo, hcpu,
        h.safe_iff hR (ho _ (C.step_after hstep).2), h.safeFor_iff hR' hrest hr]

end Alike

end OsLabs.Vm

import OsLabs.Vm.Flat
import OsLabs.Vm.Lockstep

/-! @src lab3_vm/c/machine.c, lab3_vm/zig/src/main.zig | name:portable | scheme:refinement

    Programs that run on both machines. A run that stays inside an array, with its data and with
    its instructions, cannot trap on a branch, an address or the program counter: an array ends
    below the middle of the address space, and only the upper half is reached by a negative target
    or by a sum that overflows. What is left of the traps are `seqi` on a register that does not
    hold 16 bits, and `icnt`.

        0            size        2^31 - 2^15                     2^32
        ├── program, data ──┤          ╎  negative targets and sums   │   -/

namespace OsLabs.Vm
open Schemes

/-- The largest array in which every sum of a register and a constant is also the checked one. -/
def Small (size : ℕ) : Prop := size ≤ 2 ^ 31 - 2 ^ 15

/-- If the instruction at `pc` is `seqi`, then its register holds a number of 16 bits. -/
def Narrow (arr : Word → Word) (cpu : Cpu) : Prop :=
  Zig.extractOpcode (arr cpu.pc) = some .seqi →
    FitsS 16 (cpu.reg (Zig.extractSource1 (arr cpu.pc)).toNat).toInt

section inside
variable {size : ℕ} {reg : ℕ → Word} {op : Isa} {source1 source2 : Word} {constant : BitVec 16}
  {s s' : Vars (Word → Word)} {arr : Word → Word} {cpu : Cpu} {icnt : Word}

/-! ### One iteration -/

theorem toInt_word (x : Word) :
    x.toInt = if x.toNat < 2 ^ 31 then (x.toNat : ℤ) else x.toNat - 2 ^ 32 := by
  rw [BitVec.toInt_eq_toNat_cond]
  split <;> split <;> omega

/-- A target inside an array is not negative. -/
theorem target_nonneg (hsize : Small size) (h : (constant.signExtend 32).toNat < size) :
    0 ≤ constant.toInt := by
  have hword := toInt_word (constant.signExtend 32)
  rw [BitVec.toInt_signExtend_of_le (by decide)] at hword
  rw [Small] at hsize
  split at hword <;> omega

/-- A sum that lands inside an array has not overflowed. -/
theorem sum_fits (hsize : Small size) (h : (source1 + constant.signExtend 32).toNat < size) :
    FitsS 32 (source1.toInt + constant.toInt) := by
  have hx := toInt_word source1
  have hc := toInt_word (constant.signExtend 32)
  have hlo := constant.le_toInt
  have hhi := constant.toInt_lt
  rw [BitVec.toInt_signExtend_of_le (by decide)] at hc
  rw [BitVec.toNat_add] at h
  rw [Small] at hsize
  rw [FitsS]
  split at hx <;> split at hc <;> omega

theorem return_fits (hsize : Small size) {pc : Word} (h : pc.toNat < size) :
    FitsS 32 (pc.toInt + 1) := by
  have hx := toInt_word pc
  rw [Small] at hsize
  rw [FitsS]
  split at hx <;> omega

/-- Inside an array only `seqi` can trap. -/
theorem noTrap_iff (hsize : Small size) (hpc : s.pc.toNat < size)
    (hrun : C.execute array reg op.toInt source1 source2 (constant.signExtend 32) s = some s')
    (hlog : Below size s'.log) (hnext : s'.incrementPc = false → s'.pc.toNat < size) :
    NoTrap op source1 constant s.pc ↔ (op = .seqi → FitsS 16 source1.toInt) := by
  cases op with
  | add | addi | sub | subi | mul | sge | sgt | seq | jmp | halt =>
    exact iff_of_true trivial fun h => by cases h
  | seqi => exact ⟨fun h _ => h, fun h => h rfl⟩
  | bt =>
    refine iff_of_true (fun hne => ?_) fun h => by cases h
    obtain rfl := Option.some.inj ((if_pos hne).symm.trans hrun)
    exact target_nonneg hsize (hnext rfl)
  | bf =>
    refine iff_of_true (fun hz => ?_) fun h => by cases h
    obtain rfl := Option.some.inj ((if_pos hz).symm.trans hrun)
    exact target_nonneg hsize (hnext rfl)
  | ba =>
    obtain rfl := Option.some.inj hrun
    exact iff_of_true (target_nonneg hsize (hnext rfl)) fun h => by cases h
  | ld =>
    obtain rfl := Option.some.inj hrun
    have haddr := hlog (.read _) (List.mem_append_right _ (List.mem_singleton_self _))
    exact iff_of_true (sum_fits hsize haddr) fun h => by cases h
  | st =>
    obtain rfl := Option.some.inj hrun
    have haddr := hlog (.write _ _) (List.mem_append_right _ (List.mem_singleton_self _))
    exact iff_of_true (sum_fits hsize haddr) fun h => by cases h
  | call =>
    obtain rfl := Option.some.inj hrun
    exact iff_of_true ⟨return_fits hsize hpc, target_nonneg hsize (hnext rfl)⟩
      fun h => by cases h

/-- C has no instruction that Zig does not know. -/
theorem opcode_of_execute {M : Type} {mm : Memory M} {opcode : ℕ} {constant : Word} {s s' : Vars M}
    (h : C.execute mm reg opcode source1 source2 constant s = some s') :
    ∃ op, Isa.ofInt opcode = some op := by
  revert h
  unfold C.execute
  split
  case h_18 =>
    intro h
    cases h
  all_goals exact fun _ => ⟨_, rfl⟩

/-- An iteration of C that stays inside the array is safe for Zig, on every memory with the same
    instruction at `pc`, but for `seqi` and `icnt`. -/
theorem safe_iff_narrow {M : Type} {mm : Memory M} {m : M} (icnt : Word)
    (hinstr : (mm.readMemory m cpu.pc).2 = arr cpu.pc) (hsize : Small size)
    {o : Outcome (Word → Word)} (hstep : C.step array arr cpu = some o) (hpc : cpu.pc.toNat < size)
    (hlog : Below size o.log) (hnext : o.cpu.pc.toNat < size) :
    Safe mm m cpu icnt ↔ Narrow arr cpu ∧ icnt.toNat + 1 < 2 ^ 32 := by
  have hop : ∃ op, Zig.extractOpcode (arr cpu.pc) = some op := by
    obtain ⟨s', hs', -⟩ := Option.map_eq_some_iff.mp hstep
    exact opcode_of_execute hs'
  obtain ⟨op, hop⟩ := hop
  have hread : Zig.extractOpcode (array.readMemory arr cpu.pc).2 = some op := hop
  rw [C.step_of_opcode hread] at hstep
  obtain ⟨s', hs', rfl⟩ := Option.map_eq_some_iff.mp hstep
  have hnt := noTrap_iff hsize hpc hs' hlog fun hstay => by
    have hkept : (C.finish cpu.reg s').cpu.pc = s'.pc := if_neg (by simp [hstay])
    rwa [hkept] at hnext
  have hsmall : cpu.pc.toNat + 1 < 2 ^ 32 := by
    rw [Small] at hsize
    omega
  simp only [Safe, Narrow, hinstr, hop, Option.some.injEq, exists_eq_left']
  constructor
  · rintro ⟨hseqi, -, hicnt⟩
    exact ⟨hnt.mp hseqi, hicnt⟩
  · rintro ⟨hseqi, hicnt⟩
    exact ⟨hnt.mpr hseqi, fun _ => hsmall, hicnt⟩

end inside

/-! ### Runs -/

/-- `seqi` is only used on narrow registers in the first `n` iterations. -/
def NarrowFor (size n : ℕ) (arr : Word → Word) (cpu : Cpu) : Prop :=
  ∀ k < n, ∀ s, Runs size k (arr, cpu) s → Narrow s.1 s.2

section runs
variable {M : Type} {mm : Memory M} {size : ℕ} {view : M → Word → Word} {m : M}
  {arr arr' : Word → Word} {cpu cpu' : Cpu} {icnt : Word}

theorem narrowFor_succ {o : Outcome (Word → Word)} (hstep : C.step array arr cpu = some o)
    (hgo : o.proceed = true) (hpc : cpu.pc.toNat < size) (hlog : Below size o.log) (n : ℕ) :
    NarrowFor size (n + 1) arr cpu ↔ Narrow arr cpu ∧ NarrowFor size n o.mem o.cpu := by
  constructor
  · intro h
    have hstart : Runs size 0 (arr, cpu) (arr, cpu) := rfl
    refine ⟨h 0 (Nat.succ_pos n) (arr, cpu) hstart, fun k hk s hs => ?_⟩
    have hlonger : Runs size (k + 1) (arr, cpu) s := ⟨o, hstep, hgo, hpc, hlog, hs⟩
    exact h (k + 1) (Nat.succ_lt_succ hk) s hlonger
  · rintro ⟨hfirst, h⟩ k hk s hs
    cases k with
    | zero =>
      obtain rfl := hs
      exact hfirst
    | succ k =>
      obtain ⟨o', hstep', -, -, -, hrest⟩ := hs
      obtain rfl := Option.some.inj (hstep.symm.trans hstep')
      exact h k (Nat.lt_of_succ_lt_succ hk) s hrest

/-- The array run is inside, so its start is. -/
theorem Runs.start_below {n : ℕ} (h : Runs size n (arr, cpu) (arr', cpu'))
    (hend : cpu'.pc.toNat < size) : cpu.pc.toNat < size := by
  cases n with
  | zero =>
    obtain ⟨-, rfl⟩ := Prod.mk.inj h
    exact hend
  | succ n =>
    obtain ⟨o, -, -, hpc, -⟩ := h
    exact hpc

/-- The guard of the Zig run, by induction on the run over the array. -/
theorem safeFor_iff_narrow (hF : Flat mm size view) (hsize : Small size) : ∀ {n : ℕ} {m : M}
    {arr arr' : Word → Word} {cpu cpu' : Cpu} (icnt : Word), Same size (view m) arr →
    Runs size n (arr, cpu) (arr', cpu') → cpu'.pc.toNat < size →
    (SafeFor mm n m cpu icnt ↔ NarrowFor size n arr cpu ∧ (n = 0 ∨ icnt.toNat + n < 2 ^ 32))
  | 0, _, _, _, _, _, _, _, _, _ =>
      iff_of_true safeFor_zero ⟨fun _ hk => absurd hk (Nat.not_lt_zero _), .inl rfl⟩
  | n + 1, m, arr, _, cpu, _, icnt, hm, ⟨o, hstep, hgo, hpc, hlog, hrest⟩, hend => by
      have hinstr := (hF.read m cpu.pc hpc).1.trans (hm _ hpc)
      obtain ⟨o', hstep', hm', hcpu', hgo'⟩ := hF.step hm hstep hpc hlog
      have hsafe := safe_iff_narrow icnt hinstr hsize hstep hpc hlog
        (hrest.start_below hend)
      have hrec := safeFor_iff_narrow hF hsize (icnt + 1) hm' hrest hend
      have hicnt : icnt.toNat + 1 < 2 ^ 32 → (icnt + 1).toNat = icnt.toNat + 1 := by
        intro h
        rw [BitVec.toNat_add]
        exact Nat.mod_eq_of_lt h
      rw [safeFor_succ hstep' (hgo'.trans hgo), hcpu', hrec, hsafe,
        narrowFor_succ hstep hgo hpc hlog]
      constructor
      · rintro ⟨⟨hfirst, h1⟩, hlater, hn⟩
        rw [hicnt h1] at hn
        exact ⟨⟨hfirst, hlater⟩, .inr (by omega)⟩
      · rintro ⟨⟨hfirst, hlater⟩, hn⟩
        have h1 : icnt.toNat + 1 < 2 ^ 32 := by omega
        rw [hicnt h1]
        exact ⟨⟨hfirst, h1⟩, hlater, .inr (by omega)⟩

/-- The Zig machine makes the run of an array. -/
theorem Runs.zig_iff {n : ℕ} (hrun : Runs size n (arr, cpu) (arr', cpu')) (hF : Flat mm size view)
    (hsize : Small size) (hm : Same size (view m) arr) (hend : cpu'.pc.toNat < size)
    (icnt : Word) : (∃ t, Zig.runFor mm n (m, cpu, icnt) = some t) ↔
      NarrowFor size n arr cpu ∧ icnt.toNat + n < 2 ^ 32 := by
  have hguard := safeFor_iff_narrow hF hsize icnt hm hrun hend
  -- a run of no iterations does not count
  have hcount : n = 0 ∨ icnt.toNat + n < 2 ^ 32 ↔ icnt.toNat + n < 2 ^ 32 := by
    have := icnt.isLt
    omega
  rw [hcount] at hguard
  constructor
  · rintro ⟨t, ht⟩
    exact hguard.mp ((zig_runFor_iff n).mp ht).2.1
  · intro hok
    obtain ⟨mz, hz, -⟩ := hrun.refine hF hm
    exact ⟨(mz, cpu', icnt + BitVec.ofNat 32 n),
      (zig_runFor_iff n).mpr ⟨hz, hguard.mpr hok, rfl⟩⟩

/-- It ends where the array does. -/
theorem Runs.zig_end {n : ℕ} (hrun : Runs size n (arr, cpu) (arr', cpu')) (hF : Flat mm size view)
    (hm : Same size (view m) arr) {icnt : Word} {t : M × Cpu × Word}
    (ht : Zig.runFor mm n (m, cpu, icnt) = some t) :
    t.2 = (cpu', icnt + BitVec.ofNat 32 n) ∧ Same size (view t.1) arr' := by
  obtain ⟨mz, hz, hsame⟩ := hrun.refine hF hm
  obtain ⟨hc, -, hicnt⟩ := (zig_runFor_iff n).mp ht
  obtain ⟨hmem, hcpu⟩ := Prod.mk.inj (Option.some.inj (hc.symm.trans hz))
  rw [hmem]
  exact ⟨Prod.ext hcpu hicnt, hsame⟩

/-- CORRECT (portable programs): take a run over an array that stays inside it, with the program
    counter too, and two memories that behave as that array. The C machine makes this run on the
    one; the Zig machine makes a run of this length on the other exactly when `seqi` is used only
    on registers that hold 16 bits and `icnt` does not reach its end, and then it ends with the same
    registers, the same program counter and the same data. -/
theorem portable_iff {M' : Type} {mm' : Memory M'} {view' : M' → Word → Word} {m' : M'}
    (icnt : Word) (hF : Flat mm size view) (hF' : Flat mm' size view') (hsize : Small size)
    {n : ℕ} (hm : Same size (view m) arr) (hm' : Same size (view' m') arr)
    (hrun : Runs size n (arr, cpu) (arr', cpu')) (hend : cpu'.pc.toNat < size) :
    (∃ mc, C.runFor mm n (m, cpu) = some (mc, cpu') ∧ Same size (view mc) arr') ∧
    ((∃ t, Zig.runFor mm' n (m', cpu, icnt) = some t) ↔
      NarrowFor size n arr cpu ∧ icnt.toNat + n < 2 ^ 32) ∧
    ∀ t, Zig.runFor mm' n (m', cpu, icnt) = some t →
      t.2 = (cpu', icnt + BitVec.ofNat 32 n) ∧ Same size (view' t.1) arr' :=
  ⟨hrun.refine hF hm, hrun.zig_iff hF' hsize hm' hend icnt, fun _ => hrun.zig_end hF' hm'⟩

end runs

/-- One `addi` in an array of 64 words full of it. -/
theorem portable_iff_addi :
    let arr : Word → Word := fun _ => C.makeInstr C.ADDI 1 0 5
    let cpu' : Cpu := ⟨1, Function.update (fun _ => 7) 1 12⟩
    (∃ mc, C.runFor array 1 (arr, ⟨0, fun _ => 7⟩) = some (mc, cpu') ∧ Same 64 mc arr) ∧
    ((∃ t, Zig.runFor array 1 (arr, ⟨0, fun _ => 7⟩, 0) = some t) ↔
      NarrowFor 64 1 arr ⟨0, fun _ => 7⟩ ∧ (0 : Word).toNat + 1 < 2 ^ 32) ∧
    ∀ t, Zig.runFor array 1 (arr, ⟨0, fun _ => 7⟩, 0) = some t →
      t.2 = (cpu', 0 + BitVec.ofNat 32 1) ∧ Same 64 t.1 arr := by
  intro arr cpu'
  have hat : At 64 arr 0 .addi 1 0 5 := ⟨rfl, by decide, by decide, by decide, by decide⟩
  have hrun : Runs 64 1 (arr, ⟨0, fun _ => 7⟩) (arr, cpu') := hat.addi (by decide) fun _ => 7
  exact portable_iff 0 (flat_array 64) (flat_array 64) (by unfold Small; decide) (fun _ _ => rfl)
    (fun _ _ => rfl) hrun (by decide)

end OsLabs.Vm

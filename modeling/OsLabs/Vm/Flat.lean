import OsLabs.Vm.Runs

/-! @src lab3_vm/c/machine.c | name:flat | scheme:refinement

    A memory that behaves as an array of `size` words, seen through `view`: what paging is for. A
    run over a plain array that only uses addresses below `size` is a run over such a memory, so
    programs can be reasoned about on the array. One lemma for each instruction says what it does
    there. -/

namespace OsLabs.Vm

/-- A plain array of words. -/
def array : Memory (Word → Word) where
  readMemory arr addr := (arr, arr addr)
  writeMemory arr addr data := Function.update arr addr data

/-- The memory after some accesses. -/
def Memory.after {M : Type} (mm : Memory M) (m : M) (log : List Access) : M :=
  log.foldl (fun m a =>
    match a with
    | .read addr => (mm.readMemory m addr).1
    | .write addr data => mm.writeMemory m addr data) m

/-- The two arrays agree below `size`. -/
def Same (size : ℕ) (f g : Word → Word) : Prop := ∀ a : Word, a.toNat < size → f a = g a

/-- The memory behaves as an array of `size` words. -/
structure Flat {M : Type} (mm : Memory M) (size : ℕ) (view : M → Word → Word) : Prop where
  read : ∀ m a, a.toNat < size → (mm.readMemory m a).2 = view m a ∧
    Same size (view (mm.readMemory m a).1) (view m)
  write : ∀ m a v, a.toNat < size →
    Same size (view (mm.writeMemory m a v)) (Function.update (view m) a v)

def Access.addr : Access → Word
  | read addr => addr
  | write addr _ => addr

/-- All accesses are below `size`. -/
def Below (size : ℕ) (log : List Access) : Prop := ∀ a ∈ log, a.addr.toNat < size

/-- `n` iterations over an array of `size` words that all go on. -/
def Runs (size : ℕ) : ℕ → (Word → Word) × Cpu → (Word → Word) × Cpu → Prop
  | 0, s, s' => s = s'
  | n + 1, s, s' => ∃ o, C.step array s.1 s.2 = some o ∧ o.proceed = true ∧
      s.2.pc.toNat < size ∧ Below size o.log ∧ Runs size n (o.mem, o.cpu) s'

/-! ### An array is as good as a memory that behaves as one -/

section refine
variable {M : Type} {mm : Memory M} {size : ℕ} {view : M → Word → Word} {m : M}
  {arr : Word → Word} {cpu : Cpu}

/-- The variables of the two machines differ only in the memory, and this only out of view. -/
structure Sim (size : ℕ) (view : M → Word → Word) (t : Vars M) (s : Vars (Word → Word)) : Prop where
  mem : Same size (view t.mem) s.mem
  pc : t.pc = s.pc
  dest : t.dest = s.dest
  destReg : t.destReg = s.destReg
  incrementPc : t.incrementPc = s.incrementPc
  writeback : t.writeback = s.writeback
  proceed : t.proceed = s.proceed

theorem Same.trans {f g h : Word → Word} (hfg : Same size f g) (hgh : Same size g h) :
    Same size f h := fun a ha => (hfg a ha).trans (hgh a ha)

theorem Same.update {f g : Word → Word} (h : Same size f g) (a v : Word) :
    Same size (Function.update f a v) (Function.update g a v) := by
  intro b hb
  rcases eq_or_ne b a with rfl | hne
  · rw [Function.update_self, Function.update_self]
  · rw [Function.update_of_ne hne, Function.update_of_ne hne, h b hb]

/-- The `switch` keeps the variables together. -/
theorem Flat.execute (hF : Flat mm size view) {t : Vars M} {s s' : Vars (Word → Word)}
    (hts : Sim size view t s) {reg : ℕ → Word} {opcode : ℕ} {source1 source2 constant : Word}
    (h : C.execute array reg opcode source1 source2 constant s = some s')
    (hlog : Below size s'.log) :
    ∃ t', C.execute mm reg opcode source1 source2 constant t = some t' ∧ Sim size view t' s' := by
  obtain ⟨tmem, tlog, tpc, tdest, tdestReg, tinc, twb, tpr⟩ := t
  obtain ⟨smem, slog, spc, sdest, sdestReg, sinc, swb, spr⟩ := s
  obtain ⟨hmem, rfl, rfl, rfl, rfl, rfl, rfl⟩ := hts
  revert h
  unfold C.execute
  split
  case h_10 | h_11 =>
    -- the branches
    split
    all_goals
      intro h
      obtain rfl := Option.some.inj h
      exact ⟨_, rfl, hmem, rfl, rfl, rfl, rfl, rfl, rfl⟩
  case h_13 =>
    intro h
    obtain rfl := Option.some.inj h
    have haddr : (source1 + constant).toNat < size :=
      hlog (.read (source1 + constant)) (List.mem_append_right _ (List.mem_singleton_self _))
    obtain ⟨hread, hkeep⟩ := hF.read tmem (source1 + constant) haddr
    refine ⟨_, rfl, hkeep.trans hmem, rfl, ?_, rfl, rfl, rfl, rfl⟩
    exact hread.trans (hmem _ haddr)
  case h_14 =>
    intro h
    obtain rfl := Option.some.inj h
    have haddr : (source1 + constant).toNat < size :=
      hlog (.write (source1 + constant) _) (List.mem_append_right _ (List.mem_singleton_self _))
    have hwrite := hF.write tmem (source1 + constant) (reg tdestReg) haddr
    exact ⟨_, rfl, hwrite.trans (hmem.update _ _), rfl, rfl, rfl, rfl, rfl, rfl⟩
  case h_18 =>
    intro h
    cases h
  all_goals
    intro h
    obtain rfl := Option.some.inj h
    exact ⟨_, rfl, hmem, rfl, rfl, rfl, rfl, rfl, rfl⟩

/-- An iteration over the array that stays below `size` is one over the memory. -/
theorem Flat.step (hF : Flat mm size view) (hm : Same size (view m) arr)
    {o : Outcome (Word → Word)} (h : C.step array arr cpu = some o) (hpc : cpu.pc.toNat < size)
    (hlog : Below size o.log) :
    ∃ o', C.step mm m cpu = some o' ∧ Same size (view o'.mem) o.mem ∧ o'.cpu = o.cpu ∧
      o'.proceed = o.proceed := by
  obtain ⟨hread, hkeep⟩ := hF.read m cpu.pc hpc
  have hinstr : (mm.readMemory m cpu.pc).2 = arr cpu.pc := hread.trans (hm _ hpc)
  obtain ⟨s', hs', rfl⟩ := Option.map_eq_some_iff.mp h
  rw [C.step]
  simp only [fetch, hinstr]
  obtain ⟨t', ht', hsim⟩ := hF.execute (t := ⟨(mm.readMemory m cpu.pc).1, [.read cpu.pc], cpu.pc, 0,
    (C.extractDest (arr cpu.pc)).toNat, true, true, true⟩)
    ⟨hkeep.trans hm, rfl, rfl, rfl, rfl, rfl, rfl⟩ hs' hlog
  refine ⟨_, congrArg (Option.map (C.finish cpu.reg)) ht', hsim.mem, ?_, hsim.proceed⟩
  rw [C.finish, C.finish, Vars.regs, Vars.regs, hsim.pc, hsim.dest, hsim.destReg, hsim.incrementPc,
    hsim.writeback]

/-- The same for runs. -/
theorem Runs.refine (hF : Flat mm size view) : ∀ {n : ℕ} {m : M} {arr arr' : Word → Word}
    {cpu cpu' : Cpu}, Runs size n (arr, cpu) (arr', cpu') → Same size (view m) arr →
    ∃ m', C.runFor mm n (m, cpu) = some (m', cpu') ∧ Same size (view m') arr'
  | 0, m, _, _, _, _, h, hm => by
      obtain ⟨rfl, rfl⟩ := Prod.mk.inj h
      exact ⟨m, rfl, hm⟩
  | n + 1, m, _, _, _, _, ⟨o, hstep, hgo, hpc, hlog, hrest⟩, hm => by
      obtain ⟨o', hstep', hm', hcpu, hgo'⟩ := hF.step hm hstep hpc hlog
      obtain ⟨m', hrun, hsame⟩ := Runs.refine hF hrest hm'
      refine ⟨m', ?_, hsame⟩
      rw [C.runFor, hstep', Option.bind_some, if_pos (hgo'.trans hgo), hcpu, hrun]

end refine

/-- An array behaves as one. -/
theorem flat_array (size : ℕ) : Flat array size id :=
  ⟨fun _ _ _ => ⟨rfl, fun _ _ => rfl⟩, fun _ _ _ _ _ _ => rfl⟩

/-- A memory that behaves as an array goes through the accesses of a run as the array does. -/
theorem Flat.after {M : Type} {mm : Memory M} {size : ℕ} {view : M → Word → Word}
    (hF : Flat mm size view) {log : List Access} (hlog : Below size log) {m : M}
    {arr : Word → Word} (h : Same size (view m) arr) :
    Same size (view (mm.after m log)) (array.after arr log) := by
  induction log generalizing m arr with
  | nil => exact h
  | cons x log ih =>
    have hx := hlog x (List.mem_cons_self ..)
    refine ih (fun y hy => hlog y (List.mem_cons_of_mem _ hy)) ?_
    cases x with
    | read a => exact (hF.read m a hx).2.trans h
    | write a data => exact (hF.write m a data hx).trans (h.update a data)

/-! ### The instructions -/

theorem Runs.trans {size k : ℕ} : ∀ {n : ℕ} {s t u : (Word → Word) × Cpu}, Runs size n s t →
    Runs size k t u → Runs size (n + k) s u
  | 0, _, _, _, h, h' => by
      obtain rfl := h
      rw [Nat.zero_add]
      exact h'
  | n + 1, _, _, _, ⟨o, hstep, hgo, hpc, hlog, hrest⟩, h' => by
      rw [Nat.add_right_comm]
      exact ⟨o, hstep, hgo, hpc, hlog, hrest.trans h'⟩

/-- At `pc` there is the instruction `op d,s,c`. -/
structure At (size : ℕ) (arr : Word → Word) (pc : Word) (op : Isa) (d s : ℕ) (c : Word) :
    Prop where
  word : arr pc = C.makeInstr op.toInt d s c
  below : pc.toNat < size
  dest : d < 32
  source : s < 32
  const : (c.setWidth 16).signExtend 32 = c

section instructions
variable {size : ℕ} {arr : Word → Word} {pc : Word} {op : Isa} {d s : ℕ} {c : Word}

/-- One iteration at a known instruction. -/
theorem At.runs (h : At size arr pc op d s c) {reg : ℕ → Word} {o : Outcome (Word → Word)}
    (ho : (C.execute array reg op.toInt (reg s) (reg (c &&& 31).toNat) c
      ⟨arr, [.read pc], pc, 0, d, true, true, true⟩).map (C.finish reg) = some o)
    (hgo : o.proceed = true) (hlog : Below size o.log) :
    Runs size 1 (arr, ⟨pc, reg⟩) (o.mem, o.cpu) := by
  refine ⟨o, ?_, hgo, h.below, hlog, rfl⟩
  have hop := op.toInt_lt
  rw [C.step]
  simp only [fetch, array, h.word, C.extractOpcode_makeInstr c hop h.dest h.source,
    C.extractDest_makeInstr c hop h.dest h.source, C.extractSource1_makeInstr c hop h.dest h.source,
    C.extractConstant_makeInstr c hop h.dest h.source, h.const]
  exact ho

theorem At.below_log (h : At size arr pc op d s c) : Below size [.read pc] := by
  intro a ha
  obtain rfl := List.mem_singleton.mp ha
  exact h.below

theorem At.below_log_append {a : Access} (h : At size arr pc op d s c) (ha : a.addr.toNat < size) :
    Below size [.read pc, a] := by
  intro b hb
  rcases List.mem_cons.mp hb with rfl | hb
  · exact h.below
  · obtain rfl := List.mem_singleton.mp hb
    exact ha

/-- An instruction that computes a register from registers. -/
theorem At.set (h : At size arr pc op d s c) (hd : d ≠ 0) {reg : ℕ → Word} {v : Word}
    (hv : ∀ s' : Vars (Word → Word), C.execute array reg op.toInt (reg s) (reg (c &&& 31).toNat) c
      s' = some { s' with dest := v }) :
    Runs size 1 (arr, ⟨pc, reg⟩) (arr, ⟨pc + 1, Function.update reg d v⟩) := by
  have hregs : Vars.regs (⟨arr, [.read pc], pc, v, d, true, true, true⟩ : Vars (Word → Word)) reg =
      Function.update reg d v := if_pos ⟨rfl, hd⟩
  refine h.runs (o := ⟨arr, [.read pc], ⟨pc + 1, Function.update reg d v⟩, true⟩) ?_ rfl h.below_log
  rw [hv, ← hregs]
  rfl

theorem At.addi (h : At size arr pc .addi d s c) (hd : d ≠ 0) (reg : ℕ → Word) :
    Runs size 1 (arr, ⟨pc, reg⟩) (arr, ⟨pc + 1, Function.update reg d (reg s + c)⟩) :=
  h.set hd fun _ => rfl

theorem At.subi (h : At size arr pc .subi d s c) (hd : d ≠ 0) (reg : ℕ → Word) :
    Runs size 1 (arr, ⟨pc, reg⟩) (arr, ⟨pc + 1, Function.update reg d (reg s - c)⟩) :=
  h.set hd fun _ => rfl

theorem At.seqi (h : At size arr pc .seqi d s c) (hd : d ≠ 0) (reg : ℕ → Word) :
    Runs size 1 (arr, ⟨pc, reg⟩) (arr, ⟨pc + 1, Function.update reg d (ofBool (reg s = c))⟩) :=
  h.set hd fun _ => rfl

theorem At.mul (h : At size arr pc .mul d s c) (hd : d ≠ 0) (reg : ℕ → Word) :
    Runs size 1 (arr, ⟨pc, reg⟩)
      (arr, ⟨pc + 1, Function.update reg d (reg s * reg (c &&& 31).toNat)⟩) :=
  h.set hd fun _ => rfl

theorem At.ld (h : At size arr pc .ld d s c) (hd : d ≠ 0) (reg : ℕ → Word)
    (ha : (reg s + c).toNat < size) : Runs size 1 (arr, ⟨pc, reg⟩)
      (arr, ⟨pc + 1, Function.update reg d (arr (reg s + c))⟩) := by
  have hregs : Vars.regs (⟨arr, [.read pc, .read (reg s + c)], pc, arr (reg s + c), d, true, true,
      true⟩ : Vars (Word → Word)) reg = Function.update reg d (arr (reg s + c)) := if_pos ⟨rfl, hd⟩
  refine h.runs (o := ⟨arr, [.read pc, .read (reg s + c)],
    ⟨pc + 1, Function.update reg d (arr (reg s + c))⟩, true⟩) ?_ rfl (h.below_log_append ha)
  rw [← hregs]
  rfl

theorem At.st (h : At size arr pc .st d s c) (reg : ℕ → Word) (ha : (reg s + c).toNat < size) :
    Runs size 1 (arr, ⟨pc, reg⟩)
      (Function.update arr (reg s + c) (reg d), ⟨pc + 1, reg⟩) :=
  h.runs (o := ⟨Function.update arr (reg s + c) (reg d), [.read pc, .write (reg s + c) (reg d)],
    ⟨pc + 1, reg⟩, true⟩) rfl rfl (h.below_log_append ha)

theorem At.bf (h : At size arr pc .bf d s c) (reg : ℕ → Word) :
    Runs size 1 (arr, ⟨pc, reg⟩) (arr, ⟨if reg s = 0 then c else pc + 1, reg⟩) := by
  refine h.runs (o := ⟨arr, [.read pc], ⟨if reg s = 0 then c else pc + 1, reg⟩, true⟩) ?_ rfl
    h.below_log
  by_cases hz : reg s = 0
  · rw [if_pos hz]
    exact congrArg (Option.map (C.finish reg)) (if_pos hz)
  · rw [if_neg hz]
    exact congrArg (Option.map (C.finish reg)) (if_neg hz)

theorem At.jmp (h : At size arr pc .jmp d s c) (reg : ℕ → Word) :
    Runs size 1 (arr, ⟨pc, reg⟩) (arr, ⟨reg s, reg⟩) :=
  h.runs (o := ⟨arr, [.read pc], ⟨reg s, reg⟩, true⟩) rfl rfl h.below_log

theorem At.call (h : At size arr pc .call d s c) (reg : ℕ → Word) :
    Runs size 1 (arr, ⟨pc, reg⟩) (arr, ⟨c, Function.update reg 31 (pc + 1)⟩) :=
  h.runs (o := ⟨arr, [.read pc], ⟨c, Function.update reg 31 (pc + 1)⟩, true⟩) rfl rfl h.below_log

end instructions

end OsLabs.Vm

import OsLabs.Vm.Fac
import OsLabs.Vm.Portable

/-! @src lab3_vm/zig/fac.s, lab3_vm/zig/src/main.zig | name:fac_zig | scheme:refinement

    The sample program on the Zig machine. It is the same text as for C, and of all that FAC does
    only instruction 6 can trap: `seqi 4,3,1` casts the parameter to 16 bits. The parameter of the
    outermost call is the largest, so the first call decides.

        N       1 ......... 2^15 - 1   2^15 .........
        C       N!                     N!
        Zig     N!                     traps                -/

namespace OsLabs.Vm
open Schemes

/-! ### Narrow runs, instruction by instruction -/

section steps
variable {size n k : ℕ} {arr : Word → Word} {pc : Word} {op : Isa} {d s : ℕ} {c : Word}
  {reg : ℕ → Word} {cpu : Cpu}

theorem narrowFor_zero : NarrowFor size 0 arr cpu := fun _ hk => absurd hk (Nat.not_lt_zero _)

/-- A run is narrow when its parts are. -/
theorem narrowFor_append : ∀ {n : ℕ} {x y : (Word → Word) × Cpu}, Runs size n x y →
    (NarrowFor size (n + k) x.1 x.2 ↔ NarrowFor size n x.1 x.2 ∧ NarrowFor size k y.1 y.2)
  | 0, _, _, h => by
      obtain rfl := h
      rw [Nat.zero_add]
      exact (and_iff_right narrowFor_zero).symm
  | n + 1, _, _, ⟨o, hstep, hgo, hpc, hlog, hrest⟩ => by
      rw [Nat.add_right_comm, narrowFor_succ hstep hgo hpc hlog, narrowFor_succ hstep hgo hpc hlog,
        narrowFor_append hrest, and_assoc]

/-- At a known instruction, only `seqi` asks for something. -/
theorem At.narrow (h : At size arr pc op d s c) :
    Narrow arr ⟨pc, reg⟩ ↔ (op = .seqi → FitsS 16 (reg s).toInt) := by
  have hlt := op.toInt_lt
  have hop : Zig.extractOpcode (arr pc) = some op := by
    have hfield := C.extractOpcode_makeInstr c hlt h.dest h.source
    rw [C.extractOpcode] at hfield
    rw [Zig.extractOpcode, h.word, hfield, Isa.ofInt_toInt]
  have hs : (Zig.extractSource1 (arr pc)).toNat = s := by
    rw [← extractSource1_eq, h.word, C.extractSource1_makeInstr c hlt h.dest h.source]
  rw [Narrow, hop, hs, Option.some.injEq]

theorem At.narrowFor (h : At size arr pc op d s c) {y : (Word → Word) × Cpu}
    (hrun : Runs size 1 (arr, ⟨pc, reg⟩) y) : NarrowFor size (n + 1) arr ⟨pc, reg⟩ ↔
      (op = .seqi → FitsS 16 (reg s).toInt) ∧ NarrowFor size n y.1 y.2 := by
  obtain ⟨o, hstep, hgo, hpc, hlog, rfl⟩ := hrun
  rw [narrowFor_succ hstep hgo hpc hlog, h.narrow]

/-- Any other instruction. -/
theorem At.narrowFor_of_ne (h : At size arr pc op d s c) (hop : op ≠ .seqi)
    {y : (Word → Word) × Cpu} (hrun : Runs size 1 (arr, ⟨pc, reg⟩) y) :
    NarrowFor size (n + 1) arr ⟨pc, reg⟩ ↔ NarrowFor size n y.1 y.2 :=
  (h.narrowFor hrun).trans (and_iff_right fun heq => absurd heq hop)

end steps

/-! ### The parts of FAC -/

section parts
variable {size sp : ℕ} {arr : Word → Word} {reg : ℕ → Word}

/-- Instructions 3 to 7: the parameter is cast. -/
theorem narrowFor_enter (hl : Loaded arr) (hroom : 28 ≤ sp) (hsp : sp ≤ size)
    (hsize : size < 2 ^ 31) (h1 : reg 1 = BitVec.ofNat 32 sp) :
    NarrowFor size 5 arr ⟨3, reg⟩ ↔ FitsS 16 (reg 3).toInt := by
  have hprog : 26 ≤ size := by omega
  have haddr : ∀ k ≤ 2, (BitVec.ofNat 32 sp - BitVec.ofNat 32 k).toNat = sp - k := by
    intro k hk
    rw [addr_sub (by omega) (by omega), addr_toNat (by omega)]
  have ha1 : (reg 1 + -1).toNat = sp - 1 := by
    rw [h1, ← BitVec.sub_eq_add_neg]
    exact haddr 1 (by omega)
  have ha2 : (reg 1 + -2).toNat = sp - 2 := by
    rw [h1, ← BitVec.sub_eq_add_neg]
    exact haddr 2 le_rfl
  have hl1 : Loaded (Function.update arr (reg 1 + -1) (reg 31)) := hl.update (by omega) _
  have hl2 : Loaded (Function.update (Function.update arr (reg 1 + -1) (reg 31)) (reg 1 + -2)
      (reg 3)) := hl1.update (by omega) _
  have i3 := hl.at hprog 3 .st 31 1 (-1) rfl (by decide)
  have i4 := hl1.at hprog 4 .st 3 1 (-2) rfl (by decide)
  have i5 := hl2.at hprog 5 .subi 1 1 2 rfl (by decide)
  have i6 := hl2.at hprog 6 .seqi 4 3 1 rfl (by decide)
  have i7 := hl2.at hprog 7 .bf 0 4 11 rfl (by decide)
  have hseqi : Function.update reg 1 (reg 1 - 2) 3 = reg 3 := Function.update_of_ne (by decide) ..
  refine (i3.narrowFor_of_ne (by decide) (i3.st reg (by omega))).trans ?_
  refine (i4.narrowFor_of_ne (by decide) (i4.st reg (by omega))).trans ?_
  refine (i5.narrowFor_of_ne (by decide) (i5.subi (by decide) reg)).trans ?_
  refine (i6.narrowFor (i6.seqi (by decide) _)).trans ?_
  rw [hseqi]
  have hlast := (i7.narrowFor_of_ne (by decide) (i7.bf (Function.update (Function.update reg 1
    (reg 1 - 2)) 4 (ofBool (reg 3 = 1))))).mpr narrowFor_zero
  exact ⟨fun h => h.1 rfl, fun h => ⟨fun _ => h, hlast⟩⟩

/-- Instructions 8 to 10. -/
theorem narrowFor_leaf (hl : Loaded arr) (hprog : 26 ≤ size) (reg : ℕ → Word) :
    NarrowFor size 3 arr ⟨8, reg⟩ := by
  have i8 := hl.at hprog 8 .addi 3 0 1 rfl (by decide)
  have i9 := hl.at hprog 9 .addi 1 1 2 rfl (by decide)
  have i10 := hl.at hprog 10 .jmp 0 31 0 rfl (by decide)
  refine (i8.narrowFor_of_ne (by decide) (i8.addi (by decide) reg)).mpr ?_
  refine (i9.narrowFor_of_ne (by decide) (i9.addi (by decide) _)).mpr ?_
  exact (i10.narrowFor_of_ne (by decide) (i10.jmp _)).mpr narrowFor_zero

/-- Instructions 11 and 12. -/
theorem narrowFor_call (hl : Loaded arr) (hprog : 26 ≤ size) (reg : ℕ → Word) :
    NarrowFor size 2 arr ⟨11, reg⟩ := by
  have i11 := hl.at hprog 11 .subi 3 3 1 rfl (by decide)
  have i12 := hl.at hprog 12 .call 0 0 3 rfl (by decide)
  refine (i11.narrowFor_of_ne (by decide) (i11.subi (by decide) reg)).mpr ?_
  exact (i12.narrowFor_of_ne (by decide) (i12.call _)).mpr narrowFor_zero

/-- Instructions 13 to 17. -/
theorem narrowFor_return (hl : Loaded arr) (h2 : 28 ≤ sp) (hsp : sp ≤ size) (hsize : size < 2 ^ 31)
    (h1 : reg 1 = BitVec.ofNat 32 (sp - 2)) : NarrowFor size 5 arr ⟨13, reg⟩ := by
  have hprog : 26 ≤ size := by omega
  have haddr : ∀ k ≤ 1, (reg 1 + BitVec.ofNat 32 k).toNat = sp - 2 + k := by
    intro k hk
    rw [h1, addr_add rfl, addr_toNat (by omega)]
  have ha0 : (reg 1 + 0).toNat = sp - 2 := haddr 0 (by omega)
  have ha1 : (reg 1 + 1).toNat = sp - 2 + 1 := haddr 1 le_rfl
  have i13 := hl.at hprog 13 .ld 4 1 0 rfl (by decide)
  have i14 := hl.at hprog 14 .mul 3 3 4 rfl (by decide)
  have i15 := hl.at hprog 15 .ld 5 1 1 rfl (by decide)
  have i16 := hl.at hprog 16 .addi 1 1 2 rfl (by decide)
  have i17 := hl.at hprog 17 .jmp 0 5 0 rfl (by decide)
  refine (i13.narrowFor_of_ne (by decide) (i13.ld (by decide) reg (by omega))).mpr ?_
  refine (i14.narrowFor_of_ne (by decide) (i14.mul (by decide) _)).mpr ?_
  refine (i15.narrowFor_of_ne (by decide) (i15.ld (by decide) _ ?_)).mpr ?_
  · have hkept : ∀ v w : Word, Function.update (Function.update reg 4 v) 3 w 1 = reg 1 := by
      intro v w
      simp
    rw [hkept]
    omega
  refine (i16.narrowFor_of_ne (by decide) (i16.addi (by decide) _)).mpr ?_
  exact (i17.narrowFor_of_ne (by decide) (i17.jmp _)).mpr narrowFor_zero

end parts

/-! ### FAC -/

theorem narrow_param {n : ℕ} (hn : n < 2 ^ 31) :
    FitsS 16 (BitVec.ofNat 32 n).toInt ↔ n < 2 ^ 15 := by
  rw [toInt_word, addr_toNat hn, if_pos hn, FitsS]
  omega

/-- The run of FAC is narrow, by induction on its parameter: the outermost is the largest. -/
theorem narrowFor_fac {size : ℕ} (hsize : size < 2 ^ 31) : ∀ (k : ℕ) {sp : ℕ} {ra : Word}
    {arr : Word → Word} {reg : ℕ → Word}, Loaded arr → Called reg (k + 1) sp ra → sp ≤ size →
    26 + 2 * (k + 1) ≤ sp → (NarrowFor size (12 * k + 8) arr ⟨3, reg⟩ ↔ k + 1 < 2 ^ 15)
  | 0, sp, _, arr, reg, hl, hc, hsp, hroom => by
      have hprog : 26 ≤ size := by omega
      have hone : reg 3 = 1 := hc.param
      have henter := fac_enter hl (by omega) hsp hsize hc.stack
      rw [if_pos hone] at henter
      have hl' : Loaded (saved arr reg sp) :=
        hl.kept fun a ha => saved_kept (by omega) (by omega) (.inl ha)
      have hparts := narrowFor_append (k := 3) henter
      rw [narrowFor_enter hl (by omega) hsp hsize hc.stack, hc.param, narrow_param (by omega)]
        at hparts
      exact hparts.trans (and_iff_left (narrowFor_leaf hl' hprog _))
  | k + 1, sp, ra, arr, reg, hl, hc, hsp, hroom => by
      have hprog : 26 ≤ size := by omega
      have hmore : reg 3 ≠ 1 := by
        rw [hc.param]
        exact fun h => absurd ((one_param (by omega)).mp h) (Nat.succ_ne_zero k)
      have henter := fac_enter hl (by omega) hsp hsize hc.stack
      rw [if_neg hmore] at henter
      have hl' : Loaded (saved arr reg sp) :=
        hl.kept fun a ha => saved_kept (by omega) (by omega) (.inl ha)
      have hcall := fac_call hl' hprog (decided reg sp)
      have hcallee := hc.callee (by omega)
      obtain ⟨arr', reg', hrun, hret⟩ := fac_runs hsize k hl' hcallee (by omega) (by omega)
      have hl'' : Loaded arr' := hl'.kept fun a ha => hret.kept a (.inl ha)
      have hinner := narrowFor_fac hsize k hl' hcallee (by omega) (by omega)
      have hback := narrowFor_return hl'' (by omega) hsp hsize hret.stack
      have hcount : 12 * (k + 1) + 8 = 5 + (2 + (12 * k + 8 + 5)) := by omega
      rw [hcount, narrowFor_append henter, narrowFor_append hcall, narrowFor_append hrun,
        narrowFor_enter hl (by omega) hsp hsize hc.stack, hc.param, narrow_param (by omega), hinner,
        and_iff_right (narrowFor_call hl' hprog _), and_iff_left hback]
      omega

/-- CORRECT (factorial, Zig): FAC called with N makes its 12 N - 4 instructions on the Zig machine
    exactly when N is below 2^15 and `icnt` does not reach its end, and then it returns N!, as on
    the C machine: on every small memory that behaves as an array and has room for 2 N words between
    the program and the stack pointer. -/
theorem fac_zig_iff {M : Type} {mm : Memory M} {size : ℕ} {view : M → Word → Word}
    (hF : Flat mm size view) (hsize : Small size) {m : M} (hl : Loaded (view m)) {n sp : ℕ}
    (hn : 1 ≤ n) (hsp : sp ≤ size) (hroom : 26 + 2 * n ≤ sp) {ra : Word} (hra : ra.toNat < size)
    {cpu : Cpu} (hpc : cpu.pc = 3) (hc : Called cpu.reg n sp ra) (icnt : Word) :
    ((∃ t, Zig.runFor mm (12 * n - 4) (m, cpu, icnt) = some t) ↔
      n < 2 ^ 15 ∧ icnt.toNat + (12 * n - 4) < 2 ^ 32) ∧
    ∀ t, Zig.runFor mm (12 * n - 4) (m, cpu, icnt) = some t →
      t.2.1.pc = ra ∧ t.2.1.reg 3 = BitVec.ofNat 32 n.factorial ∧
      t.2.1.reg 1 = BitVec.ofNat 32 sp ∧ t.2.1.reg 0 = 0 ∧
      t.2.2 = icnt + BitVec.ofNat 32 (12 * n - 4) ∧ ∀ a : Word, a.toNat < size →
        a.toNat < 26 ∨ sp ≤ a.toNat → view t.1 a = view m a := by
  obtain ⟨k, rfl⟩ := Nat.exists_eq_add_of_le' hn
  obtain ⟨pc, reg⟩ := cpu
  obtain rfl : pc = 3 := hpc
  have hlt : size < 2 ^ 31 := by
    rw [Small] at hsize
    omega
  have hcount : 12 * (k + 1) - 4 = 12 * k + 8 := by omega
  rw [hcount]
  obtain ⟨arr', reg', hrun, hret⟩ := fac_runs hlt k hl hc hsp hroom
  have hsame : Same size (view m) (view m) := fun _ _ => rfl
  have hiff := hrun.zig_iff hF hsize hsame hra icnt
  rw [narrowFor_fac hlt k hl hc hsp hroom] at hiff
  refine ⟨hiff, fun t ht => ?_⟩
  obtain ⟨hcpu, hmem⟩ := hrun.zig_end hF hsame ht
  rw [hcpu]
  refine ⟨rfl, hret.result, hret.stack, hret.zero, rfl, fun a ha hout => ?_⟩
  rw [hmem a ha, hret.kept a hout]

/-- FAC(3) with the stack at the end of 64 words. -/
theorem fac_zig_iff_three :
    let cpu : Cpu := ⟨3, fun i => if i = 1 then 64 else if i = 3 then 3 else 0⟩
    ∃ t, Zig.runFor array 32 (facMemory, cpu, 0) = some t ∧ t.2.1.reg 3 = 6 := by
  intro cpu
  have hsize : Small 64 := by unfold Small; decide
  have hc : Called cpu.reg 3 64 0 := ⟨rfl, rfl, rfl, rfl⟩
  obtain ⟨hiff, hend⟩ := fac_zig_iff (flat_array 64) hsize loaded_facMemory (by decide) (by decide)
    (by decide) (by decide) rfl hc 0
  obtain ⟨t, ht⟩ := hiff.mpr (by decide)
  exact ⟨t, ht, (hend t ht).2.1⟩

end OsLabs.Vm

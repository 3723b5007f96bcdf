import Mathlib.Data.Nat.Factorial.Basic
import OsLabs.Vm.Encoding
import OsLabs.Vm.Flat

/-! @src lab3_vm/c/fac.s, lab3_vm/c/machine.c | name:fac | scheme:refinement

    The sample program. `FAC` takes its parameter in R3 and its return address in R31, saves both
    below the stack pointer R1, and multiplies on the way back. A call with N uses 2 N words of
    stack and 12 N - 4 instructions.

        3  4  5  6  7       save R31 and R3, N = 1?
                     ├── 8  9 10                     return 1
                     └── 11 12  ▶ FAC(N - 1) ▶  13 14 15 16 17   return N * FAC(N - 1)   -/

namespace OsLabs.Vm
open Schemes

/-! ### The program in memory -/

/-- The lines of `fac.s` that are not comments. -/
def facLines : List (String × ℤ × ℤ × ℤ) := [
  ("addi", 1, 0, 1024), ("call", 0, 0, 18), ("call", 0, 0, 25),
  ("st", 31, 1, -1), ("st", 3, 1, -2), ("subi", 1, 1, 2), ("seqi", 4, 3, 1), ("bf", 0, 4, 11),
  ("addi", 3, 0, 1), ("addi", 1, 1, 2), ("jmp", 0, 31, 0),
  ("subi", 3, 3, 1), ("call", 0, 0, 3), ("ld", 4, 1, 0), ("mul", 3, 3, 4), ("ld", 5, 1, 1),
  ("addi", 1, 1, 2), ("jmp", 0, 5, 0),
  ("st", 31, 1, -1), ("subi", 1, 1, 1), ("addi", 3, 0, 12), ("call", 0, 0, 3), ("ld", 5, 1, 0),
  ("addi", 1, 1, 1), ("jmp", 0, 5, 0), ("halt", 0, 0, 0)]

/-- The word at address `i`. -/
def facWord (i : ℕ) : Option Word := facLines[i]?.bind fun (text, a, b, c) => assemble text a b c

/-- The program is at the addresses from 0 on. -/
def Loaded (arr : Word → Word) : Prop := ∀ i w, facWord i = some w → arr (BitVec.ofNat 32 i) = w

section loaded
variable {size : ℕ} {arr : Word → Word}

theorem facWord_lt {i : ℕ} {w : Word} (h : facWord i = some w) : i < 26 := by
  obtain ⟨line, hline, -⟩ := Option.bind_eq_some_iff.mp h
  exact (List.getElem?_eq_some_iff.mp hline).1

/-- Storing at or above address 26 leaves the program alone. -/
theorem Loaded.update (hl : Loaded arr) {a : Word} (ha : 26 ≤ a.toNat) (v : Word) :
    Loaded (Function.update arr a v) := by
  intro i w hw
  have hi := facWord_lt hw
  have hne : BitVec.ofNat 32 i ≠ a := by
    rintro rfl
    rw [BitVec.toNat_ofNat] at ha
    omega
  rw [Function.update_of_ne hne]
  exact hl i w hw

theorem Loaded.at (hl : Loaded arr) (hsize : 26 ≤ size) (i : ℕ) (op : Isa) (d s : ℕ) (c : Word)
    (hw : facWord i = some (C.makeInstr op.toInt d s c))
    (hf : d < 32 ∧ s < 32 ∧ (c.setWidth 16).signExtend 32 = c) :
    At size arr (BitVec.ofNat 32 i) op d s c := by
  have hi := facWord_lt hw
  refine ⟨hl i _ hw, ?_, hf.1, hf.2.1, hf.2.2⟩
  rw [BitVec.toNat_ofNat]
  omega

end loaded

/-! ### The parts of FAC -/

section parts
variable {size sp : ℕ} {arr : Word → Word} {reg : ℕ → Word}

theorem addr_sub {k : ℕ} (hk : k ≤ sp) (hsp : sp < 2 ^ 31) :
    BitVec.ofNat 32 sp - BitVec.ofNat 32 k = BitVec.ofNat 32 (sp - k) := by
  apply BitVec.eq_of_toNat_eq
  rw [BitVec.toNat_sub, BitVec.toNat_ofNat, BitVec.toNat_ofNat, BitVec.toNat_ofNat]
  omega

theorem addr_add {a k b : ℕ} (h : a + k = b) :
    BitVec.ofNat 32 a + BitVec.ofNat 32 k = BitVec.ofNat 32 b := by
  rw [← h, BitVec.ofNat_add]

theorem addr_toNat {a : ℕ} (h : a < 2 ^ 31) : (BitVec.ofNat 32 a).toNat = a := by
  rw [BitVec.toNat_ofNat]
  omega

/-- The array after FAC has saved its return address and its parameter. -/
def saved (arr : Word → Word) (reg : ℕ → Word) (sp : ℕ) : Word → Word :=
  Function.update (Function.update arr (BitVec.ofNat 32 (sp - 1)) (reg 31))
    (BitVec.ofNat 32 (sp - 2)) (reg 3)

/-- The registers when it has decided what to do. -/
def decided (reg : ℕ → Word) (sp : ℕ) : ℕ → Word :=
  Function.update (Function.update reg 1 (BitVec.ofNat 32 (sp - 2))) 4 (ofBool (reg 3 = 1))

theorem decided_one : decided reg sp 1 = BitVec.ofNat 32 (sp - 2) := by
  simp [decided]

theorem decided_of_ne {i : ℕ} (h1 : i ≠ 1) (h4 : i ≠ 4) : decided reg sp i = reg i := by
  rw [decided, Function.update_of_ne h4, Function.update_of_ne h1]

theorem saved_param : saved arr reg sp (BitVec.ofNat 32 (sp - 2)) = reg 3 :=
  Function.update_self ..

theorem saved_ret (h2 : 2 ≤ sp) (hsp : sp < 2 ^ 31) :
    saved arr reg sp (BitVec.ofNat 32 (sp - 1)) = reg 31 := by
  have hne : BitVec.ofNat 32 (sp - 1) ≠ BitVec.ofNat 32 (sp - 2) := by
    intro h
    have := congrArg BitVec.toNat h
    rw [addr_toNat (by omega), addr_toNat (by omega)] at this
    omega
  rw [saved, Function.update_of_ne hne, Function.update_self]

/-- Only the two words below the stack pointer are written. -/
theorem saved_kept (hroom : 28 ≤ sp) (hsp : sp < 2 ^ 31) {a : Word}
    (ha : a.toNat < 26 ∨ sp ≤ a.toNat) : saved arr reg sp a = arr a := by
  have h1 : a ≠ BitVec.ofNat 32 (sp - 1) := by
    rintro rfl
    rw [addr_toNat (by omega)] at ha
    omega
  have h2 : a ≠ BitVec.ofNat 32 (sp - 2) := by
    rintro rfl
    rw [addr_toNat (by omega)] at ha
    omega
  rw [saved, Function.update_of_ne h2, Function.update_of_ne h1]

/-- Instructions 3 to 7 save both words and branch. -/
theorem fac_enter (hl : Loaded arr) (hroom : 28 ≤ sp) (hsp : sp ≤ size) (hsize : size < 2 ^ 31)
    (h1 : reg 1 = BitVec.ofNat 32 sp) : Runs size 5 (arr, ⟨3, reg⟩)
      (saved arr reg sp, ⟨if reg 3 = 1 then 8 else 11, decided reg sp⟩) := by
  have hprog : 26 ≤ size := by omega
  have ha1 : reg 1 + -1 = BitVec.ofNat 32 (sp - 1) := by
    rw [h1, ← BitVec.sub_eq_add_neg]
    exact addr_sub (k := 1) (by omega) (by omega)
  have ha2 : reg 1 + -2 = BitVec.ofNat 32 (sp - 2) := by
    rw [h1, ← BitVec.sub_eq_add_neg]
    exact addr_sub (k := 2) (by omega) (by omega)
  have hs1 : (BitVec.ofNat 32 (sp - 1)).toNat = sp - 1 := addr_toNat (by omega)
  have hs2 : (BitVec.ofNat 32 (sp - 2)).toNat = sp - 2 := addr_toNat (by omega)
  have hl1 := hl.update (a := BitVec.ofNat 32 (sp - 1)) (by omega) (reg 31)
  have hl2 : Loaded (saved arr reg sp) := hl1.update (by omega) (reg 3)
  have h3 := (hl.at hprog 3 .st 31 1 (-1) rfl (by decide)).st reg
    (by rw [ha1, hs1]; omega)
  have h4 := (hl1.at hprog 4 .st 3 1 (-2) rfl (by decide)).st reg
    (by rw [ha2, hs2]; omega)
  rw [ha1] at h3
  rw [ha2] at h4
  have h5 := (hl2.at hprog 5 .subi 1 1 2 rfl (by decide)).subi (by decide) reg
  have hsub : reg 1 - 2 = BitVec.ofNat 32 (sp - 2) := by
    rw [h1]
    exact addr_sub (k := 2) (by omega) (by omega)
  rw [hsub] at h5
  have h6 := (hl2.at hprog 6 .seqi 4 3 1 rfl (by decide)).seqi (by decide)
    (Function.update reg 1 (BitVec.ofNat 32 (sp - 2)))
  have hn : Function.update reg 1 (BitVec.ofNat 32 (sp - 2)) 3 = reg 3 :=
    Function.update_of_ne (by decide) ..
  rw [hn] at h6
  have h7 := (hl2.at hprog 7 .bf 0 4 11 rfl (by decide)).bf (decided reg sp)
  have hpc : (if decided reg sp 4 = 0 then (11 : Word) else BitVec.ofNat 32 7 + 1) =
      if reg 3 = 1 then 8 else 11 := by
    rw [decided, Function.update_self]
    by_cases hone : reg 3 = 1
    · rw [if_pos hone, decide_eq_true hone]
      rfl
    · rw [if_neg hone, decide_eq_false hone]
      rfl
  rw [hpc] at h7
  exact (((h3.trans h4).trans h5).trans h6).trans h7

/-- Instructions 8 to 10 return 1. -/
theorem fac_leaf (hl : Loaded arr) (hprog : 26 ≤ size) (h0 : reg 0 = 0) (h2 : 2 ≤ sp)
    (h1 : reg 1 = BitVec.ofNat 32 (sp - 2)) : Runs size 3 (arr, ⟨8, reg⟩) (arr, ⟨reg 31,
      Function.update (Function.update reg 3 1) 1 (BitVec.ofNat 32 sp)⟩) := by
  have h8 := (hl.at hprog 8 .addi 3 0 1 rfl (by decide)).addi (by decide) reg
  have hone : reg 0 + 1 = 1 := by rw [h0]; rfl
  rw [hone] at h8
  have h9 := (hl.at hprog 9 .addi 1 1 2 rfl (by decide)).addi (by decide) (Function.update reg 3 1)
  have hsp : Function.update reg 3 1 1 + 2 = BitVec.ofNat 32 sp := by
    rw [Function.update_of_ne (by decide), h1]
    exact addr_add (k := 2) (by omega)
  rw [hsp] at h9
  have h10 := (hl.at hprog 10 .jmp 0 31 0 rfl (by decide)).jmp
    (Function.update (Function.update reg 3 1) 1 (BitVec.ofNat 32 sp))
  have hra : Function.update (Function.update reg 3 1) 1 (BitVec.ofNat 32 sp) 31 = reg 31 := by
    simp
  rw [hra] at h10
  exact (h8.trans h9).trans h10

/-- Instructions 11 and 12 call FAC for one less. -/
theorem fac_call (hl : Loaded arr) (hprog : 26 ≤ size) (reg : ℕ → Word) :
    Runs size 2 (arr, ⟨11, reg⟩)
      (arr, ⟨3, Function.update (Function.update reg 3 (reg 3 - 1)) 31 13⟩) := by
  have h11 := (hl.at hprog 11 .subi 3 3 1 rfl (by decide)).subi (by decide) reg
  have h12 := (hl.at hprog 12 .call 0 0 3 rfl (by decide)).call
    (Function.update reg 3 (reg 3 - 1))
  exact h11.trans h12

/-- Instructions 13 to 17 multiply the result with the saved parameter and return to the saved
    address. -/
theorem fac_return (hl : Loaded arr) (h2 : 28 ≤ sp) (hsp : sp ≤ size) (hsize : size < 2 ^ 31)
    (h1 : reg 1 = BitVec.ofNat 32 (sp - 2)) {n ra : Word}
    (hn : arr (BitVec.ofNat 32 (sp - 2)) = n) (hra : arr (BitVec.ofNat 32 (sp - 1)) = ra) :
    ∃ reg', Runs size 5 (arr, ⟨13, reg⟩) (arr, ⟨ra, reg'⟩) ∧ reg' 3 = reg 3 * n ∧
      reg' 1 = BitVec.ofNat 32 sp ∧ reg' 0 = reg 0 := by
  have hprog : 26 ≤ size := by omega
  have ha0 : reg 1 + 0 = BitVec.ofNat 32 (sp - 2) := by
    rw [h1]
    exact addr_add rfl
  have hs1 : (BitVec.ofNat 32 (sp - 1)).toNat = sp - 1 := addr_toNat (by omega)
  have hs2 : (BitVec.ofNat 32 (sp - 2)).toNat = sp - 2 := addr_toNat (by omega)
  have h13 := (hl.at hprog 13 .ld 4 1 0 rfl (by decide)).ld (by decide) reg
    (by rw [ha0, hs2]; omega)
  rw [ha0, hn] at h13
  have h14 := (hl.at hprog 14 .mul 3 3 4 rfl (by decide)).mul (by decide) (Function.update reg 4 n)
  have hprod : Function.update reg 4 n 3 * Function.update reg 4 n ((4 : Word) &&& 31).toNat =
      reg 3 * n := by
    simp
  rw [hprod] at h14
  obtain ⟨r, hr⟩ : ∃ r, r = Function.update (Function.update reg 4 n) 3 (reg 3 * n) := ⟨_, rfl⟩
  have hr1 : r 1 = BitVec.ofNat 32 (sp - 2) := by
    simp [hr, h1]
  have ha1 : r 1 + 1 = BitVec.ofNat 32 (sp - 1) := by
    rw [hr1]
    exact addr_add (k := 1) (by omega)
  rw [← hr] at h14
  have h15 := (hl.at hprog 15 .ld 5 1 1 rfl (by decide)).ld (by decide) r
    (by rw [ha1, hs1]; omega)
  rw [ha1, hra] at h15
  have h16 := (hl.at hprog 16 .addi 1 1 2 rfl (by decide)).addi (by decide)
    (Function.update r 5 ra)
  have hback : Function.update r 5 ra 1 + 2 = BitVec.ofNat 32 sp := by
    rw [Function.update_of_ne (by decide), hr1]
    exact addr_add (k := 2) (by omega)
  rw [hback] at h16
  have h17 := (hl.at hprog 17 .jmp 0 5 0 rfl (by decide)).jmp
    (Function.update (Function.update r 5 ra) 1 (BitVec.ofNat 32 sp))
  have h5 : Function.update (Function.update r 5 ra) 1 (BitVec.ofNat 32 sp) 5 = ra := by
    simp
  rw [h5] at h17
  refine ⟨_, (((h13.trans h14).trans h15).trans h16).trans h17, ?_, Function.update_self .., ?_⟩
  · simp [hr]
  · simp [hr]

end parts

/-! ### FAC -/

/-- A call of FAC with the parameter `n`, the stack pointer `sp` and the return address `ra`. -/
structure Called (reg : ℕ → Word) (n sp : ℕ) (ra : Word) : Prop where
  zero : reg 0 = 0
  stack : reg 1 = BitVec.ofNat 32 sp
  param : reg 3 = BitVec.ofNat 32 n
  ret : reg 31 = ra

/-- What it leaves: the factorial, the stack pointer and the memory that is not its own. -/
structure Returned (arr arr' : Word → Word) (reg' : ℕ → Word) (n sp : ℕ) : Prop where
  zero : reg' 0 = 0
  stack : reg' 1 = BitVec.ofNat 32 sp
  result : reg' 3 = BitVec.ofNat 32 n.factorial
  kept : ∀ a : Word, a.toNat < 26 ∨ sp ≤ a.toNat → arr' a = arr a

/-- Memory that is kept below address 26 keeps the program. -/
theorem Loaded.kept {arr arr' : Word → Word} (hl : Loaded arr)
    (h : ∀ a : Word, a.toNat < 26 → arr' a = arr a) : Loaded arr' := by
  intro i w hw
  have hi := facWord_lt hw
  rw [h _ (by rw [BitVec.toNat_ofNat]; omega)]
  exact hl i w hw

theorem one_param {k : ℕ} (hk : k < 2 ^ 31) : BitVec.ofNat 32 (k + 1) = (1 : Word) ↔ k = 0 := by
  constructor
  · intro h
    have := congrArg BitVec.toNat h
    rw [BitVec.toNat_ofNat] at this
    have hone : (1 : Word).toNat = 1 := rfl
    omega
  · rintro rfl
    rfl

section frames
variable {size sp k : ℕ} {ra : Word} {arr : Word → Word} {reg : ℕ → Word}

/-- FAC(1). -/
theorem Called.leaf (hsize : size < 2 ^ 31) (hl : Loaded arr) (hc : Called reg 1 sp ra)
    (hsp : sp ≤ size) (hroom : 28 ≤ sp) : ∃ arr' reg',
      Runs size 8 (arr, ⟨3, reg⟩) (arr', ⟨ra, reg'⟩) ∧ Returned arr arr' reg' 1 sp := by
  have hprog : 26 ≤ size := by omega
  have hone : reg 3 = 1 := hc.param
  have henter := fac_enter hl hroom hsp hsize hc.stack
  rw [if_pos hone] at henter
  have hl' : Loaded (saved arr reg sp) :=
    hl.kept fun a ha => saved_kept hroom (by omega) (.inl ha)
  have hzero : decided reg sp 0 = 0 := by rw [decided_of_ne (by decide) (by decide), hc.zero]
  have hra : decided reg sp 31 = ra := by rw [decided_of_ne (by decide) (by decide), hc.ret]
  have hleaf := fac_leaf hl' hprog hzero (by omega) decided_one
  rw [hra] at hleaf
  refine ⟨_, _, henter.trans hleaf, ?_, Function.update_self .., ?_, fun a ha => ?_⟩
  · simp [hzero]
  · simp
  · exact saved_kept hroom (by omega) ha

/-- What FAC leaves its callee: a parameter less by one, and a stack less by its own two words. -/
theorem Called.callee (hc : Called reg (k + 2) sp ra) (hk : k + 2 < 2 ^ 31) :
    Called (Function.update (Function.update (decided reg sp) 3 (decided reg sp 3 - 1)) 31 13)
      (k + 1) (sp - 2) 13 := by
  refine ⟨?_, ?_, ?_, Function.update_self ..⟩
  · simp [decided_of_ne, hc.zero]
  · simp [decided_one]
  · rw [Function.update_of_ne (by decide), Function.update_self,
      decided_of_ne (by decide) (by decide), hc.param]
    exact addr_sub (k := 1) (by omega) hk

/-- FAC(k + 2), around a call that returns (k + 1)!. -/
theorem Called.frame (hsize : size < 2 ^ 31) (hl : Loaded arr) (hc : Called reg (k + 2) sp ra)
    (hsp : sp ≤ size) (hroom : 26 + 2 * (k + 2) ≤ sp) {n : ℕ}
    (hcallee : ∀ {arr : Word → Word} {reg : ℕ → Word}, Loaded arr → Called reg (k + 1) (sp - 2) 13 →
      ∃ arr' reg', Runs size n (arr, ⟨3, reg⟩) (arr', ⟨13, reg'⟩) ∧
        Returned arr arr' reg' (k + 1) (sp - 2)) : ∃ arr' reg',
      Runs size (5 + 2 + n + 5) (arr, ⟨3, reg⟩) (arr', ⟨ra, reg'⟩) ∧
        Returned arr arr' reg' (k + 2) sp := by
  have hprog : 26 ≤ size := by omega
  have hroom' : 28 ≤ sp := by omega
  have henter := fac_enter hl hroom' hsp hsize hc.stack
  have hmore : reg 3 ≠ 1 := by
    rw [hc.param]
    intro h
    exact absurd ((one_param (k := k + 1) (by omega)).mp h) (by omega)
  rw [if_neg hmore] at henter
  have hl' : Loaded (saved arr reg sp) :=
    hl.kept fun a ha => saved_kept hroom' (by omega) (.inl ha)
  have hcall := fac_call hl' hprog (decided reg sp)
  obtain ⟨arr', reg', hrun, hret⟩ := hcallee hl' (hc.callee (by omega))
  have hl'' : Loaded arr' := hl'.kept fun a ha => hret.kept a (.inl ha)
  -- the callee has kept the two words of the frame
  have hn : arr' (BitVec.ofNat 32 (sp - 2)) = reg 3 := by
    rw [hret.kept _ (.inr (by rw [addr_toNat (by omega)])), saved_param]
  have hra : arr' (BitVec.ofNat 32 (sp - 1)) = ra := by
    rw [hret.kept _ (.inr (by rw [addr_toNat (by omega)]; omega)),
      saved_ret (by omega) (by omega), hc.ret]
  obtain ⟨reg'', hback, h3, h1, h0⟩ := fac_return hl'' hroom' hsp hsize hret.stack hn hra
  refine ⟨arr', reg'', ((henter.trans hcall).trans hrun).trans hback, h0.trans hret.zero, h1, ?_,
    fun a ha => ?_⟩
  · rw [h3, hret.result, hc.param, ← BitVec.ofNat_mul, Nat.factorial_succ (k + 1), Nat.mul_comm]
  · rw [hret.kept a (by omega), saved_kept hroom' (by omega) ha]

end frames

/-- FAC on the array, by induction on its parameter. -/
theorem fac_runs {size : ℕ} (hsize : size < 2 ^ 31) : ∀ (k : ℕ) {sp : ℕ} {ra : Word}
    {arr : Word → Word} {reg : ℕ → Word}, Loaded arr → Called reg (k + 1) sp ra → sp ≤ size →
    26 + 2 * (k + 1) ≤ sp → ∃ arr' reg', Runs size (12 * k + 8) (arr, ⟨3, reg⟩)
      (arr', ⟨ra, reg'⟩) ∧ Returned arr arr' reg' (k + 1) sp
  | 0, _, _, _, _, hl, hc, hsp, hroom => hc.leaf hsize hl hsp hroom
  | k + 1, _, _, _, _, hl, hc, hsp, hroom => by
      have hcount : 12 * (k + 1) + 8 = 5 + 2 + (12 * k + 8) + 5 := by omega
      rw [hcount]
      exact hc.frame hsize hl hsp hroom fun hl' hc' =>
        fac_runs hsize k hl' hc' (by omega) (by omega)

/-- CORRECT (factorial): FAC called with N returns N! after exactly 12 N - 4 instructions, on every
    memory that behaves as an array and has room for 2 N words between the program and the stack
    pointer. Everything below the program's end and from the stack pointer on is kept. -/
theorem fac_correct {M : Type} {mm : Memory M} {size : ℕ} {view : M → Word → Word}
    (hF : Flat mm size view) (hsize : size < 2 ^ 31) {m : M} (hl : Loaded (view m)) {n sp : ℕ}
    (hn : 1 ≤ n) (hsp : sp ≤ size) (hroom : 26 + 2 * n ≤ sp) {ra : Word} {cpu : Cpu}
    (hpc : cpu.pc = 3) (hc : Called cpu.reg n sp ra) :
    ∃ m' cpu', C.runFor mm (12 * n - 4) (m, cpu) = some (m', cpu') ∧ cpu'.pc = ra ∧
      cpu'.reg 3 = BitVec.ofNat 32 n.factorial ∧ cpu'.reg 1 = BitVec.ofNat 32 sp ∧
      cpu'.reg 0 = 0 ∧ ∀ a : Word, a.toNat < size → a.toNat < 26 ∨ sp ≤ a.toNat →
        view m' a = view m a := by
  obtain ⟨k, rfl⟩ := Nat.exists_eq_add_of_le' hn
  obtain ⟨pc, reg⟩ := cpu
  obtain rfl : pc = 3 := hpc
  obtain ⟨arr', reg', hrun, hret⟩ := fac_runs hsize k hl hc hsp hroom
  obtain ⟨m', hrun', hsame⟩ := hrun.refine hF fun a _ => rfl
  have hcount : 12 * (k + 1) - 4 = 12 * k + 8 := by omega
  rw [hcount]
  refine ⟨m', _, hrun', rfl, hret.result, hret.stack, hret.zero, fun a ha hout => ?_⟩
  rw [hsame a ha, hret.kept a hout]

/-- The program followed by zeros. -/
def facMemory (a : Word) : Word := (facWord a.toNat).getD 0

theorem loaded_facMemory : Loaded facMemory := by
  intro i w hw
  have hi := facWord_lt hw
  rw [facMemory, addr_toNat (by omega), hw, Option.getD_some]

/-- FAC(3) with the stack at the end of 64 words. -/
theorem fac_correct_three :
    let cpu : Cpu := ⟨3, fun i => if i = 1 then 64 else if i = 3 then 3 else 0⟩
    ∃ m' cpu', C.runFor array 32 (facMemory, cpu) = some (m', cpu') ∧ cpu'.pc = 0 ∧
      cpu'.reg 3 = 6 ∧ cpu'.reg 1 = 64 ∧ cpu'.reg 0 = 0 ∧
      ∀ a : Word, a.toNat < 64 → a.toNat < 26 ∨ 64 ≤ a.toNat → m' a = facMemory a :=
  fac_correct (n := 3) (flat_array 64) (by decide) loaded_facMemory (by decide) (by decide)
    (by decide) rfl ⟨rfl, rfl, rfl, rfl⟩

end OsLabs.Vm

import OsLabs.Vm.Alike
import OsLabs.Vm.Paging

/-! @src lab3_vm/c/machine.c, lab3_vm/zig/src/main.zig | name:virtual | scheme:refinement

    The two machines on their page tables. A page fault ends the program, so the machine goes on
    exactly as long as everything that it accesses is on a page in memory, and until then it runs as
    on a plain array: the words that are seen through the page table. In Zig this array is seen
    through the low 29 bits of the addresses.

        array     pc ──▶ 12 ──▶ 40 ──▶ 5000 ──▶ 8     accesses of the run
        resident       ✓      ✓      ✗                page fault: `assert` fails -/

namespace OsLabs.Vm
open Schemes

namespace Zig

def readMemory (vm : Vmem) (addr : Word) : Option (Vmem × Word) := do
  let r ← translate vm addr false
  let data ← r.1.cell r.2.toNat
  some (r.1, data)

def writeMemory (vm : Vmem) (addr data : Word) : Option Vmem := do
  let r ← translate vm addr true
  r.1.store r.2.toNat data

end Zig

/-- A memory that ends the program when it cannot serve an access. -/
def ending (read : Vmem → Word → Option (Vmem × Word)) (write : Vmem → Word → Word → Option Vmem) :
    Memory (Option Vmem) where
  readMemory m a :=
    match m.bind fun vm => read vm a with
    | some (vm, data) => (some vm, data)
    | none => (none, 0)
  writeMemory m a data := m.bind fun vm => write vm a data

def C.vmem : Memory (Option Vmem) := ending C.readMemory C.writeMemory

def Zig.vmem : Memory (Option Vmem) := ending Zig.readMemory Zig.writeMemory

/-- An array that sees the image of an address. -/
def aliased (g : Word → Word) : Memory (Word → Word) where
  readMemory arr addr := (arr, arr (g addr))
  writeMemory arr addr data := Function.update arr (g addr) data

/-- The same access at the image of its address. -/
def Access.map (g : Word → Word) : Access → Access
  | read a => .read (g a)
  | write a data => .write (g a) data

/-- What is served are the addresses whose image is on a page in memory. -/
structure Serving (g : Word → Word) (read : Vmem → Word → Option (Vmem × Word))
    (write : Vmem → Word → Word → Option Vmem) : Prop where
  reads : ∀ {vm : Vmem} {a : Word}, vm.Mapped → Resident vm (g a) →
    read vm a = some (vm.access (.read (g a)), vm.view (g a))
  writes : ∀ {vm : Vmem} {a : Word} (data : Word), vm.Mapped → Resident vm (g a) →
    write vm a data = some (vm.access (.write (g a) data))
  readFault : ∀ {vm : Vmem} {a : Word}, ¬Resident vm (g a) → read vm a = none
  writeFault : ∀ {vm : Vmem} {a : Word} (data : Word), ¬Resident vm (g a) → write vm a data = none

/-! ### The page tables -/

section translate
variable {vm : Vmem} {a : Word} {write : Bool}

theorem C.pagefault_none (vm : Vmem) : C.pagefault vm = none := by
  rw [C.pagefault, C.takePhysPage]
  cases vm.replace <;> rfl

theorem C.translate_fault (ha : ¬Resident vm a) : C.translate vm a write = none := by
  have hpage : (a / BitVec.ofNat 32 pagesize).toNat = pageOf a := BitVec.toNat_udiv
  rw [C.translate, hpage]
  exact translate_absent (mt resident_iff.mpr ha) (C.pagefault_none vm)

theorem Zig.translate_fault (ha : ¬Resident vm (low a)) : Zig.translate vm a write = none := by
  rw [Zig.translate, zig_virtPage]
  exact translate_absent (mt resident_iff.mpr ha) (Zig.pagefault_none vm)

theorem Zig.translate_eq (h : vm.Mapped) (ha : Resident vm (low a)) : Zig.translate vm a write =
    some (vm.touch (pageOf (low a)) write, BitVec.ofNat 32 (vm.place (low a))) := by
  have hoffset : a.toNat % 4 = (low a).toNat % 4 := by
    rw [low_toNat]
    omega
  have haddr := zig_physAddr (h.frame _ ha.page) a
  rw [hoffset] at haddr
  rw [Zig.translate, zig_virtPage]
  exact translate_resident ha.page haddr

theorem C.serving : Serving id C.readMemory C.writeMemory where
  reads h ha := C.readMemory_eq h ha
  writes data h ha := C.writeMemory_eq h ha data
  readFault ha := by
    rw [id_eq] at ha
    rw [C.readMemory, C.translate_fault ha]
    rfl
  writeFault data ha := by
    rw [id_eq] at ha
    rw [C.writeMemory, C.translate_fault ha]
    rfl

theorem Zig.serving : Serving low Zig.readMemory Zig.writeMemory where
  reads h ha := by
    rw [Zig.readMemory, Zig.translate_eq h ha]
    simp only [Option.bind_eq_bind, Option.bind_some, place_toNat h ha, Vmem.cell,
      if_pos (h.place_lt ha)]
    rfl
  writes data h ha := by
    rw [Zig.writeMemory, Zig.translate_eq h ha]
    simp only [Option.bind_eq_bind, Option.bind_some, place_toNat h ha, Vmem.store,
      if_pos (h.place_lt ha)]
    rfl
  readFault ha := by rw [Zig.readMemory, Zig.translate_fault ha]; rfl
  writeFault data ha := by rw [Zig.writeMemory, Zig.translate_fault ha]; rfl

/-- Below the last page an address is its own image. -/
theorem low_of_resident (ha : Resident vm a) : low a = a := by
  have hlt : a.toNat < 8192 := ha.1
  apply BitVec.eq_of_toNat_eq
  rw [low_toNat]
  omega

end translate

/-! ### Accesses -/

/-- The memory in the middle of a run that began with `vm`, and the array that is seen in it. -/
def Seen (vm : Vmem) (m : Option Vmem) (arr : Word → Word) : Prop :=
  ∃ v, m = some v ∧ v.Mapped ∧ (∀ a, Resident v a ↔ Resident vm a) ∧
    Set.EqOn v.view arr {a | Resident vm a}

section serving
variable {g : Word → Word} {read : Vmem → Word → Option (Vmem × Word)}
  {write : Vmem → Word → Word → Option Vmem} {vm vm' : Vmem} {log : List Access} {a : Word}

theorem resident_access (x : Access) : Resident (vm.access x) a ↔ Resident vm a :=
  and_congr_right fun _ => by rw [access_map.2]

/-- On the pages in memory the page table is as good as an array. -/
theorem Serving.alike (hs : Serving g read write) (vm : Vmem) :
    Alike (ending read write) (aliased g) (Seen vm) {a | Resident vm (g a)} where
  read := by
    rintro _ arr a ⟨v, rfl, hv, hres, hview⟩ ha
    have hread := hs.reads hv ((hres (g a)).mpr ha)
    simp only [ending, Option.bind_some, hread]
    refine ⟨hview ha, _, rfl, hv.access, fun b => (resident_access _).trans (hres b), ?_⟩
    intro b hb
    have hkeep := hv.view (x := .read (g a)) ((hres _).mpr ha) ((hres b).mpr hb)
    exact hkeep.trans (hview hb)
  write := by
    rintro _ arr a data ⟨v, rfl, hv, hres, hview⟩ ha
    have hwrite := hs.writes data hv ((hres (g a)).mpr ha)
    simp only [ending, Option.bind_some, hwrite]
    refine ⟨_, rfl, hv.access, fun b => (resident_access _).trans (hres b), ?_⟩
    intro b hb
    have hput := hv.view (x := .write (g a) data) ((hres _).mpr ha) ((hres b).mpr hb)
    refine hput.trans ?_
    change Function.update v.view (g a) data b = Function.update arr (g a) data b
    rcases eq_or_ne b (g a) with rfl | hne
    · rw [Function.update_self, Function.update_self]
    · rw [Function.update_of_ne hne, Function.update_of_ne hne, hview hb]

/-- A program that has ended stays so. -/
theorem after_none : ∀ log : List Access, (ending read write).after none log = none
  | [] => rfl
  | .read _ :: log => after_none log
  | .write _ _ :: log => after_none log

/-- One access. -/
theorem Serving.after_served (hs : Serving g read write) (h : vm.Mapped) {x : Access}
    (ha : Resident vm (g x.addr)) :
    (ending read write).after (some vm) [x] = some (vm.access (x.map g)) := by
  cases x with
  | read a =>
    have hread := hs.reads h ha
    simp only [Access.addr] at hread
    simp [Memory.after, ending, hread, Access.map]
  | write a data => exact hs.writes data h ha

theorem Serving.after_fault (hs : Serving g read write) {x : Access}
    (ha : ¬Resident vm (g x.addr)) : (ending read write).after (some vm) [x] = none := by
  cases x with
  | read a =>
    have hread := hs.readFault ha
    simp only [Access.addr] at hread
    simp [Memory.after, ending, hread]
  | write a data => exact hs.writeFault data ha

/-- The program goes through some accesses exactly if all of them are on pages in memory. -/
theorem Serving.after_iff (hs : Serving g read write) (h : vm.Mapped) :
    (ending read write).after (some vm) log = some vm' ↔
      On {a | Resident vm (g a)} log ∧ vm' = (log.map (Access.map g)).foldl Vmem.access vm := by
  induction log generalizing vm with
  | nil =>
    have hnil : On {a | Resident vm (g a)} [] := List.forall_mem_nil _
    simp [Memory.after, hnil, eq_comm]
  | cons x log ih =>
    have hcons : (ending read write).after (some vm) (x :: log) =
        (ending read write).after ((ending read write).after (some vm) [x]) log := rfl
    have hon : On {a | Resident vm (g a)} (x :: log) ↔
        Resident vm (g x.addr) ∧ On {a | Resident vm (g a)} log := List.forall_mem_cons
    rw [hcons, hon]
    by_cases ha : Resident vm (g x.addr)
    · have hsame : {a | Resident (vm.access (x.map g)) (g a)} = {a | Resident vm (g a)} :=
        Set.ext fun b => resident_access _
      rw [hs.after_served h ha, ih h.access, hsame]
      simp [ha]
    · rw [hs.after_fault ha, after_none]
      simp [ha]

/-! ### Runs -/

/-- `n` iterations on the array that is seen through a page table, all of whose accesses are on
    pages in memory, and the page table behind them. -/
def Served (g : Word → Word) (n : ℕ) (vm : Vmem) (cpu : Cpu) (vm' : Vmem) (cpu' : Cpu) : Prop :=
  ∃ arr' log, Traces (aliased g) n (vm.view, cpu) log (arr', cpu') ∧
    On {a | Resident vm (g a)} log ∧ vm' = (log.map (Access.map g)).foldl Vmem.access vm

variable {n : ℕ} {cpu cpu' : Cpu} {icnt : Word}

theorem Vmem.Mapped.seen (h : vm.Mapped) : Seen vm (some vm) vm.view :=
  ⟨vm, rfl, h, fun _ => Iff.rfl, fun _ _ => rfl⟩

theorem Serving.runFor_iff (hs : Serving g read write) (h : vm.Mapped) :
    C.runFor (ending read write) n (some vm, cpu) = some (some vm', cpu') ↔
      Served g n vm cpu vm' cpu' := by
  rw [runFor_iff_traces]
  constructor
  · rintro ⟨log, htrace⟩
    obtain ⟨hon, hvm'⟩ := (hs.after_iff h).mp htrace.after.symm
    obtain ⟨arr', harr, -⟩ := (hs.alike vm).symm.traces h.seen htrace hon
    exact ⟨arr', log, harr, hon, hvm'⟩
  · rintro ⟨arr', log, harr, hon, hvm'⟩
    obtain ⟨m, htrace, -⟩ := (hs.alike vm).traces h.seen harr hon
    have hm : m = some vm' := htrace.after.trans ((hs.after_iff h).mpr ⟨hon, hvm'⟩)
    exact ⟨log, hm ▸ htrace⟩

theorem Serving.zig_runFor_iff (hs : Serving g read write) (h : vm.Mapped) {icnt' : Word} :
    Zig.runFor (ending read write) n (some vm, cpu, icnt) = some (some vm', cpu', icnt') ↔
      Served g n vm cpu vm' cpu' ∧ SafeFor (aliased g) n vm.view cpu icnt ∧
        icnt' = icnt + BitVec.ofNat 32 n := by
  rw [Vm.zig_runFor_iff, hs.runFor_iff h]
  refine and_congr_right fun hserved => and_congr_left fun _ => ?_
  obtain ⟨arr', log, harr, hon, -⟩ := hserved
  exact (hs.alike vm).safeFor_iff h.seen harr hon

theorem serveAll_foldl (h : vm.Mapped) (hon : ∀ x ∈ log, Resident vm x.addr) :
    ∃ out, C.serveAll log vm = some (log.foldl Vmem.access vm, out) := by
  induction log generalizing vm with
  | nil => exact ⟨[], rfl⟩
  | cons x log ih =>
    obtain ⟨hx, hlog⟩ := List.forall_mem_cons.mp hon
    obtain ⟨out, hout⟩ := ih h.access fun y hy => (hlog y hy).access
    rw [C.serveAll, C.serve_eq h hx, Option.bind_eq_bind, Option.bind_some, hout]
    exact ⟨_, rfl⟩

/-- What accesses to pages in memory leave behind. -/
theorem ran_foldl (h : vm.Mapped) (hon : ∀ x ∈ log, Resident vm x.addr) :
    Ran vm (log.foldl Vmem.access vm) log := by
  obtain ⟨v, hrun, hran⟩ := C.serveAll_eq h hon
  obtain ⟨out, hout⟩ := serveAll_foldl h hon
  obtain ⟨rfl, -⟩ := Prod.mk.inj (Option.some.inj (hrun.symm.trans hout))
  exact hran

end serving

/-! ### Both machines -/

section both
variable {vm vm' : Vmem} {n : ℕ} {cpu cpu' : Cpu} {icnt : Word} {log : List Access}
  {arr' : Word → Word}

/-- Below the last page nothing is aliased. -/
theorem low_alike (vm : Vmem) : Alike (aliased low) array (fun arr arr' => arr = arr')
    {a | Resident vm a} where
  read := by
    rintro arr _ a rfl ha
    exact ⟨congrArg arr (low_of_resident ha), rfl⟩
  write := by
    rintro arr _ a data rfl ha
    exact congrArg (Function.update arr · data) (low_of_resident ha)

theorem map_low (hon : On {a | Resident vm a} log) : log.map (Access.map low) = log := by
  have hsame : log.map (Access.map low) = log.map id := by
    refine List.map_congr_left fun x hx => ?_
    have ha := low_of_resident (hon x hx)
    cases x with
    | read a => exact congrArg Access.read ha
    | write a data => exact congrArg (Access.write · data) ha
  rw [hsame, List.map_id]

theorem map_id_access : log.map (Access.map id) = log := by
  have hsame : Access.map id = id := by
    funext x
    cases x <;> rfl
  rw [hsame, List.map_id]

/-- A run below the last page is the same for Zig. -/
theorem Served.low (h : Served id n vm cpu vm' cpu') : Served low n vm cpu vm' cpu' := by
  obtain ⟨arr', log, harr, hon, rfl⟩ := h
  obtain ⟨arr₁, hlow, rfl⟩ := (low_alike vm).traces rfl harr hon
  refine ⟨arr₁, log, hlow, fun x hx => ?_, ?_⟩
  · have hx : Resident vm x.addr := hon x hx
    change Resident vm (Vm.low x.addr)
    rwa [low_of_resident hx]
  · rw [map_low hon, map_id_access]

/-- CORRECT (virtual memory): from any page table that gives each page in memory a frame for itself,
    the C machine goes through `n` iterations exactly when the plain array that is seen through the
    page table does and all accesses are on pages in memory, and the Zig machine when the array seen
    through the low 29 bits does, with the same condition, and every instruction is safe. The page
    table then has marked the accesses, the words are those of the array, and no page fault has been
    taken. Where C goes on, Zig does so exactly when the instructions are safe, and is in the same
    state. -/
theorem virtual_iff (h : vm.Mapped) (n : ℕ) (cpu : Cpu) (icnt : Word) :
    (∀ vm' cpu', C.runFor C.vmem n (some vm, cpu) = some (some vm', cpu') ↔
      ∃ arr' log, Traces array n (vm.view, cpu) log (arr', cpu') ∧ On {a | Resident vm a} log ∧
        vm' = log.foldl Vmem.access vm) ∧
    (∀ vm' cpu' icnt', Zig.runFor Zig.vmem n (some vm, cpu, icnt) = some (some vm', cpu', icnt') ↔
      Served low n vm cpu vm' cpu' ∧ SafeFor (aliased low) n vm.view cpu icnt ∧
        icnt' = icnt + BitVec.ofNat 32 n) ∧
    ∀ arr' cpu' log, Traces array n (vm.view, cpu) log (arr', cpu') → On {a | Resident vm a} log →
      Ran vm (log.foldl Vmem.access vm) log ∧
      ∀ t, Zig.runFor Zig.vmem n (some vm, cpu, icnt) = some t ↔
        SafeFor array n vm.view cpu icnt ∧
          t = (some (log.foldl Vmem.access vm), cpu', icnt + BitVec.ofNat 32 n) := by
  refine ⟨fun vm' cpu' => ?_, fun vm' cpu' icnt' => Zig.serving.zig_runFor_iff h,
    fun arr' cpu' log harr hon => ⟨ran_foldl h hon, fun t => ?_⟩⟩
  · refine (C.serving.runFor_iff h).trans (exists₂_congr fun arr' log => ?_)
    rw [map_id_access]
    rfl
  · have hserved : Served id n vm cpu (log.foldl Vmem.access vm) cpu' :=
      ⟨arr', log, harr, hon, by rw [map_id_access]⟩
    have hrun : C.runFor Zig.vmem n (some vm, cpu) = some (some (log.foldl Vmem.access vm), cpu') :=
      (Zig.serving.runFor_iff h).mpr hserved.low
    have hsafe : SafeFor Zig.vmem n (some vm) cpu icnt ↔ SafeFor array n vm.view cpu icnt := by
      obtain ⟨arr₁, log₁, hlow, hon₁, -⟩ := hserved.low
      exact ((Zig.serving.alike vm).safeFor_iff h.seen hlow hon₁).trans
        ((low_alike vm).safeFor_iff rfl harr hon)
    rw [zig_runFor_iff, hrun, hsafe, Option.some.injEq]
    constructor
    · rintro ⟨heq, hs, hicnt⟩
      obtain ⟨hmem, hcpu⟩ := Prod.mk.inj heq
      exact ⟨hs, Prod.ext hmem.symm (Prod.ext hcpu.symm hicnt)⟩
    · rintro ⟨hs, rfl⟩
      exact ⟨rfl, hs, rfl⟩

end both

/-- From address 31, which is in the last frame, the machine goes on, and at 32 it ends. -/
theorem virtual_iff_firstPages :
    (∃ vm', C.runFor C.vmem 1 (some firstPages, ⟨31, fun _ => 0⟩) =
      some (some vm', ⟨32, fun _ => 0⟩)) ∧
    ∀ vm' cpu', C.runFor C.vmem 2 (some firstPages, ⟨31, fun _ => 0⟩) ≠ some (some vm', cpu') := by
  have hfirst : C.step array firstPages.view ⟨31, fun _ => 0⟩ =
      some ⟨firstPages.view, [.read 31], ⟨32, fun _ => 0⟩, true⟩ := rfl
  have hiff (n : ℕ) := (virtual_iff firstPages_mapped n ⟨31, fun _ => 0⟩ 0).1
  constructor
  · refine ⟨_, (hiff 1 _ _).mpr ⟨firstPages.view, [.read 31], ⟨_, [], hfirst, rfl, rfl, rfl, rfl⟩,
      ?_, rfl⟩⟩
    intro x hx
    obtain rfl := List.mem_singleton.mp hx
    exact ⟨by decide, by decide⟩
  · intro vm' cpu' hrun
    obtain ⟨arr', log, ⟨o, rest, hstep, -, rfl, o', rest', hstep', -, rfl, -⟩, hon, -⟩ :=
      (hiff 2 _ _).mp hrun
    obtain rfl := Option.some.inj (hfirst.symm.trans hstep)
    have hread : .read 32 ∈ o'.log := (C.step_after hstep').2
    have hfault : Resident firstPages 32 :=
      hon _ (List.mem_append_right _ (List.mem_append_left _ hread))
    exact absurd hfault.2 (by decide)

end OsLabs.Vm

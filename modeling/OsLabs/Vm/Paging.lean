import OsLabs.Schemes.Checked
import OsLabs.Schemes.Paged
import OsLabs.Vm.Flat

/-! @src lab3_vm/c/machine.c, lab3_vm/zig/src/main.zig | name:paging | scheme:paged

    Virtual memory. `translate` looks the page of a virtual address up in the page table, takes a
    page fault if the page is not in memory, marks the page and gives the physical address. A page
    fault never returns: both replacement algorithms are unfinished and fail their own assertion
    (`none`). So does an index outside the page table or RAM. Zig keeps only 27 bits of the number
    of the page.

                  virtual address                        page table
        C      virt_page (30 bits)   │ offset           virt_page ──▶ page
        Zig       │ virt_page (27)   │ offset
                                         physical address = page * PAGESIZE + offset     -/

namespace OsLabs.Vm
open Schemes

abbrev pagesize : ℕ := 4
abbrev npages : ℕ := 2048
abbrev ramPages : ℕ := 8
abbrev ramSize : ℕ := ramPages * pagesize

/-- `page_table_entry_t` -/
structure PageTableEntry where
  page : BitVec 27
  inmemory : Bool
  ondisk : Bool
  modified : Bool
  referenced : Bool
  readonly : Bool
  deriving DecidableEq

/-- The functions that `replace` can point to. -/
inductive Replace where
  | fifo | secondChance
  deriving DecidableEq

/-- The variables that `translate` and its callers use, in C global, in Zig those of `vmem_t`. -/
structure Vmem where
  numPagefault : BitVec 64
  pageTable : ℕ → PageTableEntry
  memory : ℕ → Word
  replace : Replace

namespace Vmem

/-- `page_table[i]` -/
def entry (vm : Vmem) (i : ℕ) : Option PageTableEntry :=
  if i < npages then some (vm.pageTable i) else none

def modify (vm : Vmem) (i : ℕ) (f : PageTableEntry → PageTableEntry) : Vmem :=
  { vm with pageTable := Function.update vm.pageTable i (f (vm.pageTable i)) }

/-- `memory[i]` -/
def cell (vm : Vmem) (i : ℕ) : Option Word := if i < ramSize then some (vm.memory i) else none

/-- `memory[i] = data` -/
def store (vm : Vmem) (i : ℕ) (data : Word) : Option Vmem :=
  if i < ramSize then some { vm with memory := Function.update vm.memory i data } else none

/-- `translate`, for a way to take page faults and to compute addresses. The index is checked once;
    it does not change. -/
def translate (pagefault : Vmem → Option Vmem) (physAddr : BitVec 27 → Option Word)
    (vm : Vmem) (virtPage : ℕ) (write : Bool) : Option (Vmem × Word) := do
  let e ← vm.entry virtPage
  let vm ← if e.inmemory then some vm else pagefault vm
  let vm := vm.modify virtPage fun e => { e with referenced := true }
  let vm := if write then vm.modify virtPage fun e => { e with modified := true } else vm
  let addr ← physAddr (vm.pageTable virtPage).page
  some (vm, addr)

end Vmem

/-- `assert(page < RAM_PAGES)`, before the page is returned. -/
def assertPage {w : ℕ} (page : BitVec w) : Option (BitVec w) :=
  if page.toNat < ramPages then some page else none

namespace C

/-- `page = INT_MAX` -/
def fifoPageReplace : Option Word := assertPage 0x7fffffff

def secondChanceReplace : Option Word := assertPage 0x7fffffff

def takePhysPage (vm : Vmem) : Option Word :=
  match vm.replace with
  | .fifo => fifoPageReplace
  | .secondChance => secondChanceReplace

def pagefault (vm : Vmem) : Option Vmem := do
  let vm := { vm with numPagefault := vm.numPagefault + 1 }
  let _ ← takePhysPage vm
  some vm

def translate (vm : Vmem) (virtAddr : Word) (write : Bool) : Option (Vmem × Word) :=
  let virtPage := virtAddr / BitVec.ofNat 32 pagesize
  let offset := virtAddr &&& BitVec.ofNat 32 (pagesize - 1)
  vm.translate pagefault
    (fun page => some (page.setWidth 32 * BitVec.ofNat 32 pagesize + offset)) virtPage.toNat write

def readMemory (vm : Vmem) (addr : Word) : Option (Vmem × Word) := do
  let r ← translate vm addr false
  let data ← r.1.cell r.2.toNat
  some (r.1, data)

def writeMemory (vm : Vmem) (addr data : Word) : Option Vmem := do
  let r ← translate vm addr true
  r.1.store r.2.toNat data

end C

namespace Zig

/-- `page = maxInt(u27)` -/
def fifoPageReplace : Option (BitVec 27) := assertPage 0x7ffffff

def secondChanceReplace : Option (BitVec 27) := assertPage 0x7ffffff

def takePhysPage (vm : Vmem) : Option (BitVec 27) :=
  match vm.replace with
  | .fifo => fifoPageReplace
  | .secondChance => secondChanceReplace

def pagefault (vm : Vmem) : Option Vmem := do
  let _ ← takePhysPage vm
  let numPagefault ← uadd vm.numPagefault 1
  some { vm with numPagefault := numPagefault }

/-- `page * PAGESIZE + offset`, the product in 27 bits and the sum in 32. -/
def physAddr (offset : Word) (page : BitVec 27) : Option Word := do
  let base ← if page.toNat * pagesize < 2 ^ 27 then some (page * BitVec.ofNat 27 pagesize) else none
  uadd (base.setWidth 32) offset

def translate (vm : Vmem) (virtAddr : Word) (write : Bool) : Option (Vmem × Word) :=
  let virtPage := (virtAddr / BitVec.ofNat 32 pagesize).setWidth 27
  let offset := virtAddr &&& BitVec.ofNat 32 (pagesize - 1)
  vm.translate pagefault (physAddr offset) virtPage.toNat write

end Zig

/-! ### The page table as a map -/

namespace Vmem

/-- The pages that are in memory. -/
def resident (vm : Vmem) : Set ℕ := {p | p < npages ∧ (vm.pageTable p).inmemory = true}

def frame (vm : Vmem) (p : ℕ) : ℕ := (vm.pageTable p).page.toNat

/-- The physical address for a virtual address. -/
def place (vm : Vmem) (a : Word) : ℕ := Schemes.place pagesize vm.frame a.toNat

/-- The word at a virtual address. -/
def view (vm : Vmem) (a : Word) : Word := vm.memory (vm.place a)

/-- The page has been accessed; nothing else changes. -/
def touch (vm : Vmem) (p : ℕ) (write : Bool) : Vmem :=
  { vm with
    pageTable := Function.update vm.pageTable p
      { vm.pageTable p with referenced := true, modified := (vm.pageTable p).modified || write } }

/-- Each page in memory has a frame of RAM for itself. -/
structure Mapped (vm : Vmem) : Prop where
  frame : ∀ p ∈ vm.resident, vm.frame p < ramPages
  apart : Set.InjOn vm.frame vm.resident

end Vmem

/-- The number of the page of an address. -/
def pageOf (a : Word) : ℕ := a.toNat / pagesize

/-- The address is below `NPAGES * PAGESIZE` and its page is in memory. -/
def Resident (vm : Vmem) (a : Word) : Prop :=
  a.toNat < npages * pagesize ∧ (vm.pageTable (pageOf a)).inmemory = true

section translate
variable {vm : Vmem} {a b : Word} {p : ℕ} {write : Bool} {addr : Word}
  {pagefault : Vmem → Option Vmem} {physAddr : BitVec 27 → Option Word}

/-- A page in memory is translated without a page fault. -/
theorem translate_resident (hp : p ∈ vm.resident)
    (h : physAddr (vm.pageTable p).page = some addr) :
    vm.translate pagefault physAddr p write = some (vm.touch p write, addr) := by
  obtain ⟨hlt, hin⟩ := hp
  rw [Vmem.translate, Vmem.entry, if_pos hlt]
  simp only [Option.bind_eq_bind, Option.bind_some, hin, if_true]
  cases write with
  | false =>
    simp only [Vmem.modify, Function.update_self, h, Bool.false_eq_true, if_false,
      Option.bind_some, Vmem.touch, Bool.or_false]
  | true =>
    simp only [Vmem.modify, Function.update_self, Function.update_idem, h, if_true,
      Option.bind_some, Vmem.touch, Bool.or_true]

/-- Any other page is not. -/
theorem translate_absent (hp : p ∉ vm.resident) (h : pagefault vm = none) :
    vm.translate pagefault physAddr p write = none := by
  rw [Vmem.translate, Vmem.entry]
  split
  case isTrue hlt =>
    have hin : ¬(vm.pageTable p).inmemory = true := fun hin => hp ⟨hlt, hin⟩
    simp only [Option.bind_eq_bind, Option.bind_some, if_neg hin, h, Option.bind_none]
  case isFalse => rfl

theorem offset_toNat (a : Word) : (a &&& BitVec.ofNat 32 (pagesize - 1)).toNat = a.toNat % 4 := by
  rw [BitVec.toNat_and]
  exact Nat.and_two_pow_sub_one_eq_mod _ 2

/-- The physical address, for a page of RAM. -/
theorem c_physAddr {page : BitVec 27} (h : page.toNat < ramPages) (a : Word) :
    page.setWidth 32 * BitVec.ofNat 32 pagesize + (a &&& BitVec.ofNat 32 (pagesize - 1)) =
      BitVec.ofNat 32 (page.toNat * 4 + a.toNat % 4) := by
  have h8 : page.toNat < 8 := h
  have hsize : (BitVec.ofNat 32 pagesize).toNat = 4 := rfl
  apply BitVec.eq_of_toNat_eq
  rw [BitVec.toNat_add, BitVec.toNat_mul, BitVec.toNat_setWidth, hsize, offset_toNat,
    BitVec.toNat_ofNat]
  omega

/-- In Zig nothing overflows there. -/
theorem zig_physAddr {page : BitVec 27} (h : page.toNat < ramPages) (a : Word) :
    Zig.physAddr (a &&& BitVec.ofNat 32 (pagesize - 1)) page =
      some (BitVec.ofNat 32 (page.toNat * 4 + a.toNat % 4)) := by
  have h8 : page.toNat < 8 := h
  have hsize : (BitVec.ofNat 27 pagesize).toNat = 4 := rfl
  have hfits : page.toNat * pagesize < 2 ^ 27 :=
    (Nat.mul_lt_mul_of_pos_right h (by decide)).trans (by decide)
  have hbase : ((page * BitVec.ofNat 27 pagesize).setWidth 32).toNat = page.toNat * 4 := by
    rw [BitVec.toNat_setWidth, BitVec.toNat_mul, hsize]
    omega
  have hadd := uadd_of_lt (x := (page * BitVec.ofNat 27 pagesize).setWidth 32)
    (y := a &&& BitVec.ofNat 32 (pagesize - 1)) (by rw [hbase, offset_toNat]; omega)
  rw [Zig.physAddr, if_pos hfits]
  refine hadd.trans (congrArg some (BitVec.eq_of_toNat_eq ?_))
  rw [BitVec.toNat_add, hbase, offset_toNat, BitVec.toNat_ofNat]

end translate

/-! ### The C machine: an array -/

/-- What an access returns. -/
def Access.out (f : Word → Word) : Access → List Word
  | read a => [f a]
  | write .. => []

def Access.isWrite : Access → Bool
  | read _ => false
  | write .. => true

/-- What the reads of a run over an array return. -/
def answers : List Access → (Word → Word) → List Word
  | [], _ => []
  | x :: xs, f => x.out f ++ answers xs (array.after f [x])

/-- The entry of page `p` after a run: the bits that say how it was accessed, and nothing else. -/
def marked (xs : List Access) (p : ℕ) (e : PageTableEntry) : PageTableEntry :=
  { e with
    referenced := e.referenced || xs.any fun x => pageOf x.addr = p
    modified := e.modified || xs.any fun x => x.isWrite && pageOf x.addr = p }

namespace C

def serve (vm : Vmem) : Access → Option (Vmem × List Word)
  | .read a => (readMemory vm a).map fun r => (r.1, [r.2])
  | .write a data => (writeMemory vm a data).map fun vm => (vm, [])

/-- A run of accesses, with what the reads return. -/
def serveAll : List Access → Vmem → Option (Vmem × List Word)
  | [], vm => some (vm, [])
  | x :: xs, vm => do
    let r ← serve vm x
    let r' ← serveAll xs r.1
    some (r'.1, r.2 ++ r'.2)

end C

namespace Vmem

/-- `data` has been stored at a virtual address. -/
def put (vm : Vmem) (a data : Word) : Vmem :=
  { vm.touch (pageOf a) true with memory := Function.update vm.memory (vm.place a) data }

def access (vm : Vmem) : Access → Vmem
  | .read a => vm.touch (pageOf a) false
  | .write a data => vm.put a data

end Vmem

section array
variable {vm : Vmem} {a b data : Word} {p : ℕ} {write : Bool} {x : Access}

theorem resident_iff : Resident vm a ↔ pageOf a ∈ vm.resident := by
  have hpage : pageOf a = a.toNat / 4 := rfl
  refine and_congr_left fun _ => ?_
  constructor
  · intro h
    have hlt : a.toNat < 2048 * 4 := h
    have hdiv : pageOf a < 2048 := by omega
    exact hdiv
  · intro h
    have hlt : pageOf a < 2048 := h
    have hmul : a.toNat < 2048 * 4 := by omega
    exact hmul

theorem Resident.page (h : Resident vm a) : pageOf a ∈ vm.resident := resident_iff.mp h

theorem Vmem.Mapped.place_lt (h : vm.Mapped) (ha : Resident vm a) : vm.place a < ramSize :=
  Schemes.place_lt (by decide) (h.frame _ ha.page)

/-- Different addresses are in different places. -/
theorem Vmem.Mapped.place_injOn (h : vm.Mapped) : Set.InjOn vm.place {a | Resident vm a} := by
  intro a ha b hb hab
  have hpages : Set.InjOn (Schemes.place pagesize vm.frame) _ :=
    Schemes.place_injOn (by decide) h.apart
  exact BitVec.eq_of_toNat_eq (hpages ha.page hb.page hab)

theorem marked_cons (x : Access) (xs : List Access) (q : ℕ) (e : PageTableEntry) :
    marked (x :: xs) q e = marked xs q (marked [x] q e) := by
  simp only [marked, List.any_cons, List.any_nil, Bool.or_false, Bool.or_assoc]

/-- An access marks its page only. -/
theorem access_pageTable (q : ℕ) : (vm.access x).pageTable q = marked [x] q (vm.pageTable q) := by
  have htouch : (vm.access x).pageTable = (vm.touch (pageOf x.addr) x.isWrite).pageTable := by
    cases x <;> rfl
  rw [htouch, Vmem.touch]
  simp only [marked, List.any_cons, List.any_nil, Bool.or_false]
  rcases eq_or_ne q (pageOf x.addr) with rfl | hne
  · simp only [Function.update_self, decide_true, Bool.or_true, Bool.and_true]
  · simp only [Function.update_of_ne hne, decide_eq_false hne.symm, Bool.or_false, Bool.and_false]

/-- An access does not move pages. -/
theorem access_map : (vm.access x).frame = vm.frame ∧
    ∀ q, ((vm.access x).pageTable q).inmemory = (vm.pageTable q).inmemory := by
  refine ⟨funext fun q => ?_, fun q => ?_⟩
  · rw [Vmem.frame, access_pageTable]
    rfl
  · rw [access_pageTable]
    rfl

theorem Resident.access (h : Resident vm a) : Resident (vm.access x) a :=
  ⟨h.1, (access_map.2 _).trans h.2⟩

theorem Vmem.Mapped.access (h : vm.Mapped) : (vm.access x).Mapped := by
  have hres : (vm.access x).resident = vm.resident := by
    ext q
    exact and_congr_right fun _ => by rw [access_map.2]
  constructor
  · rw [hres, access_map.1]
    exact h.frame
  · rw [hres, access_map.1]
    exact h.apart

/-- An access to the memory is one to the array that is seen in it. -/
theorem Vmem.Mapped.view (h : vm.Mapped) (hx : Resident vm x.addr) :
    Set.EqOn (vm.access x).view (array.after vm.view [x]) {a | Resident vm a} := by
  have hplace : (vm.access x).place = vm.place := by
    funext a
    rw [Vmem.place, access_map.1, Vmem.place]
  intro a ha
  rw [Vmem.view, hplace]
  cases x with
  | read => rfl
  | write b data => exact update_comp h.place_injOn hx vm.memory data ha

theorem C.translate_eq (h : vm.Mapped) (ha : Resident vm a) :
    C.translate vm a write = some (vm.touch (pageOf a) write, BitVec.ofNat 32 (vm.place a)) := by
  have hpage : (a / BitVec.ofNat 32 pagesize).toNat = pageOf a := BitVec.toNat_udiv
  rw [C.translate, hpage]
  exact translate_resident ha.page (congrArg some (c_physAddr (h.frame _ ha.page) a))

/-- A physical address is an index of `memory`. -/
theorem place_toNat (h : vm.Mapped) (ha : Resident vm a) :
    (BitVec.ofNat 32 (vm.place a)).toNat = vm.place a := by
  have hlt : vm.place a < 32 := h.place_lt ha
  rw [BitVec.toNat_ofNat]
  omega

theorem C.readMemory_eq (h : vm.Mapped) (ha : Resident vm a) :
    C.readMemory vm a = some (vm.access (.read a), vm.view a) := by
  rw [C.readMemory, C.translate_eq h ha]
  simp only [Option.bind_eq_bind, Option.bind_some, place_toNat h ha, Vmem.cell,
    if_pos (h.place_lt ha)]
  rfl

theorem C.writeMemory_eq (h : vm.Mapped) (ha : Resident vm a) (data : Word) :
    C.writeMemory vm a data = some (vm.access (.write a data)) := by
  rw [C.writeMemory, C.translate_eq h ha]
  simp only [Option.bind_eq_bind, Option.bind_some, place_toNat h ha, Vmem.store,
    if_pos (h.place_lt ha)]
  rfl

theorem C.serve_eq (h : vm.Mapped) (hx : Resident vm x.addr) :
    C.serve vm x = some (vm.access x, x.out vm.view) := by
  cases x with
  | read a => exact congrArg (Option.map _) (C.readMemory_eq h hx)
  | write a data => exact congrArg (Option.map _) (C.writeMemory_eq h hx data)

/-- Arrays that agree where a run goes answer it alike. -/
theorem answers_congr {D : Set Word} {xs : List Access} {f g : Word → Word} (hfg : Set.EqOn f g D)
    (hxs : ∀ x ∈ xs, x.addr ∈ D) :
    answers xs f = answers xs g ∧ Set.EqOn (array.after f xs) (array.after g xs) D := by
  induction xs generalizing f g with
  | nil => exact ⟨rfl, hfg⟩
  | cons x xs ih =>
    have hx := hxs x (List.mem_cons_self ..)
    have hout : x.out f = x.out g := by
      cases x with
      | read a => exact congrArg (fun w => [w]) (hfg hx)
      | write => rfl
    have hafter : Set.EqOn (array.after f [x]) (array.after g [x]) D := by
      cases x with
      | read => exact hfg
      | write b data =>
        intro a ha
        have hset : ∀ f, array.after f [.write b data] = Function.update f b data := fun _ => rfl
        rw [hset, hset]
        rcases eq_or_ne a b with rfl | hne
        · rw [Function.update_self, Function.update_self]
        · rw [Function.update_of_ne hne, Function.update_of_ne hne, hfg ha]
    obtain ⟨hans, hlast⟩ := ih hafter fun y hy => hxs y (List.mem_cons_of_mem _ hy)
    exact ⟨by rw [answers, answers, hout, hans], hlast⟩

/-- What a run leaves behind. -/
structure Ran (vm vm' : Vmem) (xs : List Access) : Prop where
  mapped : vm'.Mapped
  numPagefault : vm'.numPagefault = vm.numPagefault
  pageTable : ∀ p, vm'.pageTable p = marked xs p (vm.pageTable p)
  view : Set.EqOn vm'.view (array.after vm.view xs) {a | Resident vm a}

theorem C.serveAll_eq {xs : List Access} (h : vm.Mapped) (hxs : ∀ x ∈ xs, Resident vm x.addr) :
    ∃ vm', C.serveAll xs vm = some (vm', answers xs vm.view) ∧ Ran vm vm' xs := by
  induction xs generalizing vm with
  | nil =>
    refine ⟨vm, rfl, h, rfl, fun p => ?_, fun a _ => rfl⟩
    simp only [marked, List.any_nil, Bool.or_false]
  | cons x xs ih =>
    have hx := hxs x (List.mem_cons_self ..)
    obtain ⟨vm', hrun, hran⟩ := ih h.access fun y hy =>
      (hxs y (List.mem_cons_of_mem _ hy)).access
    obtain ⟨hans, hlast⟩ := answers_congr (h.view hx) fun y hy =>
      hxs y (List.mem_cons_of_mem _ hy)
    refine ⟨vm', ?_, hran.mapped, ?_, fun p => ?_, fun a ha => ?_⟩
    · rw [C.serveAll, C.serve_eq h hx, Option.bind_eq_bind, Option.bind_some, hrun, answers, hans]
      rfl
    · rw [hran.numPagefault]
      cases x <;> rfl
    · rw [hran.pageTable, access_pageTable, ← marked_cons]
    · exact (hran.view ha.access).trans (hlast ha)

/-- A read takes no page fault and marks its page as referenced; a write marks it as modified too;
    a read after a write returns what was written there; and so it goes on. -/
structure ArrayLaws (vm : Vmem) : Prop where
  read : ∀ a, Resident vm a → vm.place a < ramSize ∧
    C.readMemory vm a = some (vm.touch (pageOf a) false, vm.memory (vm.place a)) ∧
    (vm.touch (pageOf a) false).Mapped
  write : ∀ b v, Resident vm b → vm.place b < ramSize ∧ ∃ vm', C.writeMemory vm b v = some vm' ∧
    vm' = { vm.touch (pageOf b) true with memory := Function.update vm.memory (vm.place b) v } ∧
    vm'.Mapped
  law : ∀ a b v, Resident vm a → Resident vm b → ∃ r r' vm' data,
    C.readMemory vm a = some (r, data) ∧ C.writeMemory vm b v = some vm' ∧
    C.readMemory vm' a = some (r', if a = b then v else data)
  run : ∀ xs, (∀ x ∈ xs, Resident vm x.addr) →
    ∃ vm', C.serveAll xs vm = some (vm', answers xs vm.view) ∧ Ran vm vm' xs

/-- CORRECT (array): the resident addresses behave as an array. -/
theorem memory_array (h : vm.Mapped) : ArrayLaws vm where
  read a ha := ⟨h.place_lt ha, C.readMemory_eq h ha, h.access (x := .read a)⟩
  write b v hb := ⟨h.place_lt hb, _, C.writeMemory_eq h hb v, rfl, h.access⟩
  law a b v ha hb := by
    have hread := C.readMemory_eq (h.access (x := .write b v)) ha.access
    have hview : (vm.access (.write b v)).view a = Function.update vm.view b v a :=
      h.view (x := .write b v) hb ha
    rw [hview, Function.update_apply] at hread
    exact ⟨_, _, _, _, C.readMemory_eq h ha, C.writeMemory_eq h hb v, hread⟩
  run _ hxs := C.serveAll_eq h hxs

/-- The first eight pages are in memory, each in the frame of its number. -/
def firstPages : Vmem where
  numPagefault := 0
  pageTable p := ⟨BitVec.ofNat 27 p, p < ramPages, false, false, false, false⟩
  memory _ := 0
  replace := .fifo

theorem firstPages_mapped : firstPages.Mapped := by
  have hframe : ∀ p ∈ firstPages.resident, p < 8 ∧ firstPages.frame p = p := by
    rintro p ⟨-, hin⟩
    have hlt : p < 8 := of_decide_eq_true hin
    refine ⟨hlt, (BitVec.toNat_ofNat p 27).trans ?_⟩
    omega
  constructor
  · intro p hp
    rw [(hframe p hp).2]
    exact (hframe p hp).1
  · intro p hp q hq hpq
    rw [(hframe p hp).2, (hframe q hq).2] at hpq
    exact hpq

/-- There the laws hold of address 31, the last of RAM, and the others. -/
theorem memory_array_firstPages : ArrayLaws firstPages ∧ Resident firstPages 31 :=
  ⟨memory_array firstPages_mapped, by decide, by decide⟩

/-- A memory of which the first `size` addresses are resident. -/
structure Paged (size : ℕ) where
  vm : Vmem
  mapped : vm.Mapped
  resident : ∀ a : Word, a.toNat < size → Resident vm a

def Paged.access {size : ℕ} (m : Paged size) (x : Access) : Paged size :=
  ⟨m.vm.access x, m.mapped.access, fun a ha => (m.resident a ha).access⟩

/-- `read_memory` and `write_memory`, below `size`. -/
def paged (size : ℕ) : Memory (Paged size) where
  readMemory m a := (m.access (.read a), m.vm.view a)
  writeMemory m a data := m.access (.write a data)

theorem paged_eq {size : ℕ} (m : Paged size) (ha : a.toNat < size) :
    C.readMemory m.vm a =
      some (((paged size).readMemory m a).1.vm, ((paged size).readMemory m a).2) ∧
    ∀ data, C.writeMemory m.vm a data = some ((paged size).writeMemory m a data).vm :=
  ⟨C.readMemory_eq m.mapped (m.resident a ha), C.writeMemory_eq m.mapped (m.resident a ha)⟩

/-- So what is shown of programs on an array holds of them on the pages in memory. -/
theorem flat_paged (size : ℕ) : Flat (paged size) size fun m => m.vm.view where
  read m a ha := ⟨rfl, fun b hb => m.mapped.view (x := .read a) (m.resident a ha) (m.resident b hb)⟩
  write m a data ha := fun b hb =>
    m.mapped.view (x := .write a data) (m.resident a ha) (m.resident b hb)

end array

/-! ### The Zig machine: 29 bits -/

/-- What is left of an address when the number of its page is cut to 27 bits. -/
def low (a : Word) : Word := (a.setWidth 29).setWidth 32

/-- `translate` returns, without a page fault. -/
def Zig.Serves (vm : Vmem) (a : Word) (write : Bool) (physAddr : Word) : Prop :=
  ∃ vm', Zig.translate vm a write = some (vm', physAddr) ∧ vm'.numPagefault = vm.numPagefault

section zig
variable {vm : Vmem} {a b x : Word} {write : Bool}

theorem low_toNat (a : Word) : (low a).toNat = a.toNat % 2 ^ 29 := by
  rw [low, BitVec.toNat_setWidth, BitVec.toNat_setWidth]
  omega

theorem zig_virtPage (a : Word) :
    ((a / BitVec.ofNat 32 pagesize).setWidth 27).toNat = pageOf (low a) := by
  have hdiv : (a / BitVec.ofNat 32 pagesize).toNat = a.toNat / 4 := BitVec.toNat_udiv
  have hpage : pageOf (low a) = (low a).toNat / 4 := rfl
  rw [BitVec.toNat_setWidth, hdiv, hpage, low_toNat]
  omega

theorem Zig.pagefault_none (vm : Vmem) : Zig.pagefault vm = none := by
  rw [Zig.pagefault, Zig.takePhysPage]
  cases vm.replace <;> rfl

/-- Only a resident page is served, and an address as its low bits are. -/
theorem Zig.serves_iff (h : vm.Mapped) : Zig.Serves vm a write x ↔
    Resident vm (low a) ∧ x = BitVec.ofNat 32 (vm.place (low a)) := by
  rw [Zig.Serves, Zig.translate, zig_virtPage]
  by_cases hlow : pageOf (low a) ∈ vm.resident
  · have hoffset : a.toNat % 4 = (low a).toNat % 4 := by
      rw [low_toNat]
      omega
    have haddr := zig_physAddr (h.frame _ hlow) a
    rw [hoffset] at haddr
    rw [translate_resident hlow haddr]
    constructor
    · rintro ⟨vm', h', -⟩
      obtain ⟨-, rfl⟩ := Prod.mk.inj (Option.some.inj h')
      exact ⟨resident_iff.mpr hlow, rfl⟩
    · rintro ⟨-, rfl⟩
      exact ⟨_, rfl, rfl⟩
  · rw [translate_absent hlow (Zig.pagefault_none vm)]
    refine iff_of_false ?_ fun hres => hlow hres.1.page
    rintro ⟨vm', h', -⟩
    cases h'

/-- CORRECT (alias): two addresses are kept apart unless they agree in their low 29 bits, on a
    page in memory; an address past the last page is served if and only if its low bits are. -/
theorem Zig.translate_alias (h : vm.Mapped) :
    (∀ a b, a ≠ b → ((∀ write write' x y, Zig.Serves vm a write x → Zig.Serves vm b write' y →
      x ≠ y) ↔ ¬(low a = low b ∧ Resident vm (low a)))) ∧
    ∀ a : Word, npages * pagesize ≤ a.toNat →
      ((∀ write x, ¬Zig.Serves vm a write x) ↔ ¬Resident vm (low a)) := by
  refine ⟨fun a b _ => ?_, fun a _ => ?_⟩
  · constructor
    · rintro happart ⟨hlow, hres⟩
      refine happart false false _ _ ((Zig.serves_iff h).mpr ⟨hres, rfl⟩)
        ((Zig.serves_iff h).mpr ⟨hlow ▸ hres, rfl⟩) ?_
      rw [hlow]
    · intro hlow write write' x y hx hy hxy
      obtain ⟨ha, rfl⟩ := (Zig.serves_iff h).mp hx
      obtain ⟨hb, rfl⟩ := (Zig.serves_iff h).mp hy
      have hplace := congrArg BitVec.toNat hxy
      rw [place_toNat h ha, place_toNat h hb] at hplace
      exact hlow ⟨h.place_injOn ha hb hplace, ha⟩
  · constructor
    · intro hserves hres
      exact hserves false _ ((Zig.serves_iff h).mpr ⟨hres, rfl⟩)
    · intro hres write x hx
      exact hres ((Zig.serves_iff h).mp hx).1

/-- Addresses 0 and 4 are kept apart, and address 8192 is not served. -/
theorem Zig.translate_alias_firstPages :
    (∀ write write' x y, Zig.Serves firstPages 0 write x → Zig.Serves firstPages 4 write' y →
      x ≠ y) ∧ ∀ write x, ¬Zig.Serves firstPages 8192 write x :=
  ⟨((Zig.translate_alias firstPages_mapped).1 0 4 (by decide)).mpr fun h =>
      absurd h.1 (by decide),
    ((Zig.translate_alias firstPages_mapped).2 8192 (by decide)).mpr fun h =>
      absurd h.1 (by decide)⟩

/-- Addresses 0 and 2 ^ 29 are both served from address 0 of RAM. -/
theorem Zig.translate_wraps : firstPages.Mapped ∧ (0 : Word) ≠ 0x20000000 ∧
    npages * pagesize ≤ (0x20000000 : Word).toNat ∧
    Zig.Serves firstPages 0 false 0 ∧ Zig.Serves firstPages 0x20000000 false 0 :=
  ⟨firstPages_mapped, by decide, by decide, ⟨_, rfl, rfl⟩, ⟨_, rfl, rfl⟩⟩

end zig

end OsLabs.Vm

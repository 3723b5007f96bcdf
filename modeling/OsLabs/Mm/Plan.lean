import OsLabs.Schemes.Arena
import OsLabs.Schemes.Refines
import OsLabs.Mm.Data
import OsLabs.Mm.Find

/-! @src lab5_mm/ll-mm.c | name:plan | scheme:refines

    What the heap is for, without memory: a plan knows the break, the blocks in order and the bytes
    that users have stored. Its blocks are cells: no header, no link, no wrapping number, no loop.
    It promises every answer, pointers and signed rests included, for the calls that the operations
    are made for, and the heap with its headers in memory keeps all of that in any run.

        plan     p ──request / answer──▶ p'      cells, break, known bytes
                 │ Holds                 │ Holds
        heap     h ──request / answer──▶ h'      headers, links and data in memory        -/

namespace OsLabs.Mm
open Schemes

/-! ### Requests -/

inductive Request where
  | call (op : Op)
  | store (b i : ℕ) (v : UInt8)
  | load (b i : ℕ)
  | usedSize
  | unusedSize
  | findBlock (ptr : ℕ)

inductive Answer where
  | done
  | pointer (p : ℕ)
  | rest (n : ℤ)
  | bytes (n : ℕ)
  | byte (v : UInt8)

/-- What the operation returns. -/
def Op.answer (h : Heap) : Op → Answer
  | newBlock ok size => .pointer (Mm.newBlock ok size h).2
  | splitBlock pb size => .rest (Mm.splitBlock pb size h).2
  | _ => .done

/-- The heap as a component. No list has more blocks than there are bytes below the break. -/
def Heap.serve : Component Heap Request Answer
  | h, .call op => (op.exec (h.brk + 1) h).map fun h' => (h', op.answer h)
  | h, .store b i v => some (h.store b i v, .done)
  | h, .load b i => some (h, .byte (h.mem (blockToData b + i)))
  | h, .usedSize => (Mm.usedSize (h.brk + 1) h).map fun n => (h, .bytes n)
  | h, .unusedSize => (Mm.unusedSize (h.brk + 1) h).map fun n => (h, .bytes n)
  | h, .findBlock ptr => (Mm.findBlock (h.brk + 1) ptr h).map fun b => (h, .pointer b)

/-! ### The plan -/

structure Plan where
  brk : ℕ
  cells : List Cell
  known : Known

/-- A block for `size` bytes: with a header, and in steps of 16. -/
def lengthFor (size : ℕ) : ℕ := (size + 16 + 15) / 16 * 16

instance (cs : List Cell) (b i : ℕ) : Decidable (DataIn cs b i) :=
  inferInstanceAs (Decidable (∃ c ∈ cs, c.lo = b ∧ c.free = false ∧ c.lo + 16 + i < c.hi))

namespace Plan

/-- Where the blocks start. -/
def start (p : Plan) : ℕ := (p.cells.head?.map Cell.lo).getD p.brk

/-- A new block at the break. -/
def add (p : Plan) (t : ℕ) : Plan :=
  { p with brk := p.brk + t, cells := p.cells ++ [⟨p.brk, p.brk + t, false⟩] }

def change (p : Plan) (a : ℕ) (f : List Cell → List Cell) : Plan :=
  { p with cells := changeFrom a f p.cells }

/-- What an operation on the list does and returns; nothing is promised outside the plan's blocks,
    for a size beyond 2^62, or for a split that leaves the block as large as it was. -/
def call (p : Plan) : Op → Option (Plan × Answer)
  | .newBlock ok size =>
    if size ≤ 2 ^ 62 then
      if ok ∧ p.brk + lengthFor size < 2 ^ 63 then some (p.add (lengthFor size), .pointer p.brk)
      else some (p, .pointer null)
    else none
  | .setFree pb free => (cellAt pb p.cells).map fun c =>
    (p.change pb fun cs => { c with free := free } :: cs.tail, .done)
  | .splitBlock pb size => (cellAt pb p.cells).bind fun c =>
    if size < c.hi - c.lo - 16 then
      let rest : ℤ := (c.hi - c.lo - 16 : ℕ) - lengthFor size
      let pn := pb + lengthFor size
      let cut := p.change pb fun cs => { c with hi := pn } :: ⟨pn, c.hi, true⟩ :: cs.tail
      some (if 0 ≤ rest then cut else p, .rest rest)
    else none
  | .mergeBlocks pb => (cellAt pb p.cells).map fun _ => (p.change pb merged, .done)
  | .reset ok => some ({ p with brk := if ok then p.start else p.brk, cells := [] }, .done)

/-- The block with its data at `ptr`. -/
def find (p : Plan) (ptr : ℕ) : ℕ :=
  ((p.cells.find? fun c => c.lo + 16 = ptr).map Cell.lo).getD null

def step : Component Plan Request Answer
  | p, .call op => (p.call op).map fun r => ({ r.1 with known := p.known.after op }, r.2)
  | p, .store b i v =>
    if DataIn p.cells b i then some ({ p with known := p.known.store b i v }, .done) else none
  | p, .load b i => (p.known b i).map fun v => (p, .byte v)
  | p, .usedSize => some (p, .bytes (payload 16 (fun c => !c.free) p.cells))
  | p, .unusedSize => some (p, .bytes (payload 16 (fun c => c.free) p.cells))
  | p, .findBlock ptr => if ptr < 2 ^ 64 then some (p, .pointer (p.find ptr)) else none

end Plan

/-- The blocks of the heap are `cs`: no list, or a chain. -/
def Heap.Lists (h : Heap) (cs : List Cell) : Prop := h.first = null ∧ cs = [] ∨ Chain h cs

/-- The heap shows the plan. -/
structure Holds (p : Plan) (h : Heap) : Prop where
  inv : Inv h
  brk : h.brk = p.brk
  lists : h.Lists p.cells
  knows : h.Knows p.known

/-! ### The blocks of a plan in the heap -/

section lists
variable {h h' : Heap} {cs : List Cell} {c : Cell} {pb b i size fuel : ℕ} {ok : Bool}

namespace Heap.Lists

theorem mem_iff (hl : h.Lists cs) : pb ∈ cs.map Cell.lo ↔ h.InChain pb := by
  rcases hl with ⟨hnull, rfl⟩ | hc
  · exact iff_of_false List.not_mem_nil fun hin => hin.1 hnull
  · constructor
    · exact fun hmem => ⟨hc.first_ne_null, _, hc.walk, hmem⟩
    · rintro ⟨-, bs, hwalk, hmem⟩
      rwa [hwalk.unique hc.walk] at hmem

theorem data_iff (hl : h.Lists cs) : h.Data b i ↔ DataIn cs b i := by
  rcases hl with ⟨hnull, rfl⟩ | hc
  · refine iff_of_false (fun hd => hd.1.1 hnull) ?_
    rintro ⟨c, hc, -⟩
    cases hc
  · exact hc.data_iff

theorem store (hl : h.Lists cs) (hd : DataIn cs b i) {v : UInt8} : (h.store b i v).Lists cs := by
  rcases hl with ⟨hnull, rfl⟩ | hc
  · exact .inl ⟨hnull, rfl⟩
  · exact .inr (hc.store hd)

/-- A block found at an address, between the blocks before and after it. -/
theorem split (hl : h.Lists cs) (hat : cellAt pb cs = some c) : ∃ l r, cs = l ++ c :: r ∧
    Chain h (l ++ c :: r) ∧ c.lo = pb ∧ ∀ f, changeFrom pb f cs = l ++ f (c :: r) := by
  obtain ⟨rfl, l, r, rfl, hne⟩ := cellAt_split hat
  rcases hl with ⟨-, hnil⟩ | hc
  · simp at hnil
  · exact ⟨l, r, rfl, hc, rfl, fun f => changeFrom_split f hne⟩

/-- The traversals have trips enough. -/
theorem length_le (hl : h.Lists cs) : cs.length ≤ h.brk := by
  rcases hl with ⟨-, rfl⟩ | hc
  · exact Nat.zero_le _
  · have hlen := hc.tiles.length_le
    omega

end Heap.Lists

/-- Above the base, the break goes where it is asked to, if it goes. -/
theorem sbrk_to {n : ℤ} (ok : Bool) (hb : (b : ℤ) = h.brk + n) (hbase : h.base ≤ b) :
    sbrk ok n h = if ok ∧ b < 2 ^ 63 then ({ h with brk := b }, h.brk) else (h, sbrkFailed) := by
  have hgo : ok = true ∧ (h.base : ℤ) ≤ h.brk + n ∧ h.brk + n < 2 ^ 63 ↔
      ok = true ∧ b < 2 ^ 63 := and_congr_right fun _ => by omega
  have hnat : (h.brk + n).toNat = b := by omega
  rw [sbrk, if_congr hgo rfl rfl, hnat]

/-- `new_block` to the byte. -/
theorem newBlock_exact (hi : Inv h) (ok : Bool) (hsize : size ≤ 2 ^ 62) : newBlock ok size h =
    if ok ∧ h.brk + lengthFor size < 2 ^ 63 then (Chain.grow h (lengthFor size), h.brk)
    else (h, null) := by
  have hbase := hi.base_le
  have hwrap : (size + metaSize) % 2 ^ 64 = size + 16 := Linked.size_wrap (by omega)
  obtain ⟨t, ht⟩ : ∃ t, t = lengthFor size := ⟨_, rfl⟩
  have hlen : t = (size + 16 + 15) / 16 * 16 := ht
  have hbmod : (t : ℤ).bmod (2 ^ 64) = t := Int.bmod_eq_of_le (by omega) (by omega)
  have hmove := sbrk_to (h := h) (b := h.brk + t) (n := t) ok (by omega) (by omega)
  rw [newBlock, hwrap, alignedSize_eq (by omega), ← hlen, ← ht, hbmod, hmove]
  by_cases hgo : ok = true ∧ h.brk + t < 2 ^ 63
  · have hne : h.brk ≠ 2 ^ 64 - 1 := by omega
    rw [if_pos hgo, if_pos hgo]
    exact if_neg hne
  · rw [if_neg hgo, if_neg hgo]
    exact if_pos rfl

theorem exec_newBlock {nb : ℕ} (hnew : newBlock ok size h = (h', nb)) :
    (Op.newBlock ok size).exec fuel h =
      some (if h'.first = null then { h' with first := nb } else h') := by
  rw [Op.exec, hnew]

/-- A new block comes behind the others. -/
theorem Heap.Lists.add (hl : h.Lists cs) (hi : Inv h) {t : ℕ} (ht : 16 ≤ t)
    (hlt : h.brk + t < 2 ^ 63) : Heap.Lists (if (Chain.grow h t).first = null
      then { Chain.grow h t with first := h.brk } else Chain.grow h t)
      (cs ++ [⟨h.brk, h.brk + t, false⟩]) := by
  have hpos := hi.base_pos
  have hle := hi.base_le
  rcases hl with ⟨hnull, rfl⟩ | hc
  · have hfirst : (Chain.grow h t).first = null := hnull
    have hnone : Tiles 16 h.brk h.brk ([] : List Cell) := rfl
    rw [if_pos hfirst]
    exact .inr (Chain.of_grow hnone (by simp) (by simp) (by omega) hi.brk_aligned ht hlt)
  · have hfirst : ¬(Chain.grow h t).first = null := hc.first_ne_null
    rw [if_neg hfirst]
    exact .inr (Chain.of_grow hc.tiles hc.aligned hc.header hc.first_pos hi.brk_aligned ht hlt)

end lists

/-! ### The operations -/

/-- The operation makes the break and the blocks those of `p`, and returns `a`. -/
def Does (h : Heap) (op : Op) (p : Plan) (a : Answer) : Prop :=
  ∃ h', op.exec (h.brk + 1) h = some h' ∧ op.answer h = a ∧ h'.brk = p.brk ∧ h'.Lists p.cells

section calls
variable {p p' : Plan} {h : Heap} {a : Answer} {op : Op} {ok free : Bool} {pb size : ℕ}

theorem Holds.newBlock (hh : Holds p h) (hcall : p.call (.newBlock ok size) = some (p', a)) :
    Does h (.newBlock ok size) p' a := by
  obtain ⟨brk, cells, known⟩ := p
  obtain ⟨hi, hbrk, hl, -⟩ := hh
  obtain rfl : h.brk = brk := hbrk
  simp only [Plan.call] at hcall
  split at hcall
  case isFalse => cases hcall
  case isTrue hsize =>
    have hnew := newBlock_exact hi ok hsize
    split at hcall
    case isTrue hgo =>
      obtain ⟨rfl, rfl⟩ := Prod.mk.inj (Option.some.inj hcall)
      have hlen : 16 ≤ lengthFor size := by rw [lengthFor]; omega
      rw [if_pos hgo] at hnew
      refine ⟨_, exec_newBlock hnew, by rw [Op.answer, hnew], ?_, hl.add hi hlen hgo.2⟩
      split <;> rfl
    case isFalse hno =>
      obtain ⟨rfl, rfl⟩ := Prod.mk.inj (Option.some.inj hcall)
      rw [if_neg hno] at hnew
      refine ⟨h, (exec_newBlock hnew).trans ?_, by rw [Op.answer, hnew], rfl, hl⟩
      split
      case isTrue hnull =>
        have hsame : { h with first := h.first } = h := rfl
        rw [← hnull, hsame]
      case isFalse => rfl

theorem Holds.setFree (hh : Holds p h) (hcall : p.call (.setFree pb free) = some (p', a)) :
    Does h (.setFree pb free) p' a := by
  obtain ⟨c, hat, hp⟩ := Option.map_eq_some_iff.mp hcall
  obtain ⟨rfl, rfl⟩ := Prod.mk.inj hp
  obtain ⟨l, r, -, hc, rfl, hchange⟩ := hh.lists.split hat
  refine ⟨_, rfl, rfl, hh.brk, .inr ?_⟩
  rw [Plan.change, hchange]
  exact hc.setFree free

theorem Holds.splitBlock (hh : Holds p h) (hcall : p.call (.splitBlock pb size) = some (p', a)) :
    Does h (.splitBlock pb size) p' a := by
  obtain ⟨c, hat, hp⟩ := Option.bind_eq_some_iff.mp hcall
  obtain ⟨l, r, hcs, hc, rfl, hchange⟩ := hh.lists.split hat
  have hbounds := hc.bounds (c := c) (by simp)
  have hdata := hc.linked.dataSize (c := c) (by simp)
  split at hp
  case isFalse => cases hp
  case isTrue hsize =>
    obtain ⟨rfl, rfl⟩ := Prod.mk.inj (Option.some.inj hp)
    obtain ⟨t, ht, hrest, hneg, hpos⟩ := hc.linked.splitBlock_eq (hc.aligned c (by simp))
      (by rw [hdata]; exact hsize)
    obtain rfl : t = lengthFor size := ht
    have hlen : lengthFor size = (size + 31) / 16 * 16 := rfl
    rw [Int.bmod_eq_of_le (by omega) (by omega)] at hrest
    rw [hrest] at hneg hpos
    refine ⟨_, rfl, by rw [Op.answer, hrest], ?_⟩
    split
    case isTrue hge =>
      -- the block is cut, and the rest becomes a free block
      obtain ⟨hroom, hcut⟩ := hpos hge
      rw [hcut, Plan.change, hchange]
      refine ⟨hh.brk, .inr (hc.cutAt ?_ ?_ hroom)⟩
      · have ha := hc.aligned c (by simp)
        omega
      · omega
    case isFalse hlt =>
      rw [hneg (by omega)]
      exact ⟨hh.brk, hh.lists⟩

theorem Holds.mergeBlocks (hh : Holds p h) (hcall : p.call (.mergeBlocks pb) = some (p', a)) :
    Does h (.mergeBlocks pb) p' a := by
  obtain ⟨c, hat, hp⟩ := Option.map_eq_some_iff.mp hcall
  obtain ⟨rfl, rfl⟩ := Prod.mk.inj hp
  obtain ⟨l, r, hcs, hc, rfl, hchange⟩ := hh.lists.split hat
  obtain ⟨mem, hrun, -⟩ := hc.linked.mergeBlocks (by decide) hc.linked.apart
  obtain ⟨fuel, mem', hrun', hchain⟩ := hc.mergeBlocks
  obtain rfl : mem' = mem := congrArg Heap.mem (mergeBlocks_det hrun' hrun)
  have hlen := hh.lists.length_le
  rw [hcs, List.length_append, List.length_cons] at hlen
  refine ⟨_, mergeBlocks_mono (by omega) hrun, rfl, hh.brk, .inr ?_⟩
  rw [Plan.change, hchange]
  exact hchain

theorem Holds.reset (hh : Holds p h) (hcall : p.call (.reset ok) = some (p', a)) :
    Does h (.reset ok) p' a := by
  obtain ⟨brk, cells, known⟩ := p
  obtain ⟨hi, hbrk, hl, -⟩ := hh
  obtain rfl : h.brk = brk := hbrk
  obtain ⟨rfl, rfl⟩ := Prod.mk.inj (Option.some.inj hcall)
  refine ⟨_, rfl, rfl, ?_⟩
  rcases hl with ⟨hnull, rfl⟩ | hc
  · have hsame : Mm.reset ok h = h := if_neg (not_not.mpr hnull)
    rw [hsame]
    exact ⟨(ite_self _).symm, .inl ⟨hnull, rfl⟩⟩
  · have hfirst := hc.first_ne_null
    have hbase := (hi.chain hfirst).1
    have hlt := hc.brk_lt
    have hle := hc.tiles.le
    have hstart : Plan.start ⟨h.brk, cells, known⟩ = h.first := by
      cases cells with
      | nil => exact hc.tiles.symm
      | cons c cs => exact hc.tiles.1
    have hmove := sbrk_to (h := h) (b := h.first) (n := (h.first : ℤ) - h.brk) ok (by omega) hbase
    rw [Mm.reset, if_pos hfirst, hmove, hstart]
    refine ⟨?_, .inl ⟨rfl, rfl⟩⟩
    cases ok with
    | true => rw [if_pos ⟨rfl, by omega⟩, if_pos rfl]
    | false => rw [if_neg (by simp), if_neg (by simp)]

/-- The plan has a promise exactly for the calls that the operations are made for. -/
theorem Holds.allowed (hh : Holds p h) : (p.call op).isSome ↔ op.Allowed h := by
  have hmem : ∀ pb, (cellAt pb p.cells).isSome ↔ h.InChain pb := fun pb =>
    cellAt_isSome.trans hh.lists.mem_iff
  cases op with
  | newBlock ok size =>
    rw [Plan.call, Op.Allowed]
    split
    case isTrue hsize => split <;> exact iff_of_true rfl hsize
    case isFalse hno => exact iff_of_false Bool.false_ne_true hno
  | setFree pb free =>
    rw [Plan.call, Option.isSome_map]
    exact hmem pb
  | splitBlock pb size =>
    rw [Op.Allowed, ← hmem pb, Plan.call]
    cases hat : cellAt pb p.cells with
    | none => exact iff_of_false Bool.false_ne_true fun hin => Bool.false_ne_true hin.1
    | some c =>
      obtain ⟨l, r, -, hc, rfl, -⟩ := hh.lists.split hat
      rw [hc.linked.dataSize (c := c) (by simp), Option.bind_some]
      split
      case isTrue hsize => exact iff_of_true rfl ⟨rfl, hsize⟩
      case isFalse hno => exact iff_of_false Bool.false_ne_true fun hin => hno hin.2
  | mergeBlocks pb =>
    rw [Plan.call, Option.isSome_map]
    exact hmem pb
  | reset ok => exact iff_of_true rfl trivial

/-- One operation. -/
theorem Holds.call (hh : Holds p h) (hcall : p.call op = some (p', a)) :
    ∃ h', op.exec (h.brk + 1) h = some h' ∧ op.answer h = a ∧
      Holds { p' with known := p.known.after op } h' := by
  have hallowed : op.Allowed h := hh.allowed.mp (by rw [hcall]; rfl)
  have hdoes : Does h op p' a := by
    cases op with
    | newBlock ok size => exact hh.newBlock hcall
    | setFree pb free => exact hh.setFree hcall
    | splitBlock pb size => exact hh.splitBlock hcall
    | mergeBlocks pb => exact hh.mergeBlocks hcall
    | reset ok => exact hh.reset hcall
  obtain ⟨h', hx, ha, hbrk, hlists⟩ := hdoes
  exact ⟨h', hx, ha, (hh.inv.exec hallowed).2 _ _ hx, hbrk, hlists,
    hh.knows.call hh.inv hallowed hx⟩

/-! ### The traversals -/

theorem Holds.sizeWhere_eq (hh : Holds p h) (free : Bool) : sizeWhere free (h.brk + 1) h =
    some (payload 16 (fun c => c.free == free) p.cells) := by
  have hlen := hh.lists.length_le
  rcases hh.lists with ⟨hnull, hnil⟩ | hc
  · rw [sizeWhere, if_pos hnull, hnil]
    rfl
  · exact sizeWhere_mono (by omega) (hc.linked.sizeWhere_eq free)

theorem Holds.findBlock_eq (hh : Holds p h) {ptr : ℕ} (hptr : ptr < 2 ^ 64) :
    findBlock (h.brk + 1) ptr h = some (p.find ptr) := by
  have hlen := hh.lists.length_le
  rcases hh.lists with ⟨hnull, hnil⟩ | hc
  · rw [findBlock, if_pos hnull, Plan.find, hnil]
    rfl
  · have hiff : ∀ c ∈ p.cells, dataToBlock ptr = c.lo ↔ c.lo + 16 = ptr := by
      intro c hmem
      have hb := hc.bounds hmem
      rw [dataToBlock_eq_iff hb.1 (by omega) hptr, hc.data_eq hmem]
      exact eq_comm
    rw [findBlock_mono (by omega) (hc.linked.findBlock_eq (by decide) ptr), Plan.find]
    cases hfind : p.cells.find? fun c => c.lo + 16 = ptr with
    | none =>
      refine congrArg some (if_neg fun hmem => ?_)
      obtain ⟨c, hcs, hlo⟩ := List.mem_map.mp hmem
      have hno := List.find?_eq_none.mp hfind c hcs
      exact hno (decide_eq_true ((hiff c hcs).mp hlo.symm))
    | some c =>
      have hcs := List.mem_of_find?_eq_some hfind
      have hptr : c.lo + 16 = ptr := by simpa using List.find?_some hfind
      have hlo := (hiff c hcs).mpr hptr
      rw [hlo, if_pos (List.mem_map_of_mem hcs)]
      rfl

end calls

/-! ### Runs -/

section runs
variable {p : Plan} {h : Heap} {rs : List Request} {as : List Answer}

/-- One request. -/
theorem heap_refines : Refines (fun _ => True) Holds Plan.step Heap.serve := by
  intro p h r p' a hh _ hstep
  cases r with
  | call op =>
    obtain ⟨⟨q, b⟩, hcall, hq⟩ := Option.map_eq_some_iff.mp hstep
    obtain ⟨rfl, rfl⟩ := Prod.mk.inj hq
    obtain ⟨h', hx, ha, hh'⟩ := hh.call hcall
    exact ⟨h', by rw [Heap.serve, hx, ← ha]; rfl, hh'⟩
  | store b i v =>
    rw [Plan.step] at hstep
    split at hstep
    case isFalse => cases hstep
    case isTrue hdata =>
      obtain ⟨rfl, rfl⟩ := Prod.mk.inj (Option.some.inj hstep)
      have hd := hh.lists.data_iff.mpr hdata
      exact ⟨_, rfl, hh.inv.store hd v, hh.brk, hh.lists.store hdata, hh.knows.store hh.inv hd v⟩
  | load b i =>
    obtain ⟨v, hk, hp⟩ := Option.map_eq_some_iff.mp hstep
    obtain ⟨rfl, rfl⟩ := Prod.mk.inj hp
    exact ⟨h, by rw [Heap.serve, (hh.knows b i v hk).2], hh⟩
  | usedSize =>
    obtain ⟨rfl, rfl⟩ := Prod.mk.inj (Option.some.inj hstep)
    have hfree : (fun c : Cell => c.free == false) = fun c => !c.free := by
      funext c; cases c.free <;> rfl
    exact ⟨h, by rw [Heap.serve, usedSize, hh.sizeWhere_eq false, hfree]; rfl, hh⟩
  | unusedSize =>
    obtain ⟨rfl, rfl⟩ := Prod.mk.inj (Option.some.inj hstep)
    have hfree : (fun c : Cell => c.free == true) = fun c => c.free := by
      funext c; cases c.free <;> rfl
    exact ⟨h, by rw [Heap.serve, unusedSize, hh.sizeWhere_eq true, hfree]; rfl, hh⟩
  | findBlock ptr =>
    rw [Plan.step] at hstep
    split at hstep
    case isFalse => cases hstep
    case isTrue hptr =>
      obtain ⟨rfl, rfl⟩ := Prod.mk.inj (Option.some.inj hstep)
      exact ⟨h, by rw [Heap.serve, hh.findBlock_eq hptr]; rfl, hh⟩

/-- CORRECT (plan): on an empty heap, every run that the plan has promises for is a run of the heap
    with the same pointers, rests, sizes and bytes, and the heap shows the plan after it; the plan
    has a promise for the calls that are allowed then, and for no others. -/
theorem plan_refined (hfirst : h.first = null) (hbrk : h.brk = h.base)
    (ha : h.base % alignment = 0) (hpos : 0 < h.base)
    (hrun : Component.run Plan.step ⟨h.brk, [], fun _ _ => none⟩ rs = some (p, as)) :
    ∃ h', Component.run Heap.serve h rs = some (h', as) ∧ Holds p h' ∧
      ∀ op, (p.call op).isSome ↔ op.Allowed h' := by
  have hstart : Holds ⟨h.brk, [], fun _ _ => none⟩ h :=
    ⟨(Reach.start hfirst hbrk ha hpos).inv, rfl, .inl ⟨hfirst, rfl⟩, fun _ _ _ hk => by cases hk⟩
  obtain ⟨h', hrun', hh⟩ := heap_refines.run hstart (fun _ _ => trivial) hrun
  exact ⟨h', hrun', hh, fun _ => hh.allowed⟩

end runs

/-- Store a letter in a block and cut the block behind it; free both parts and merge them. -/
def letterRun : List Request :=
  [.call (.newBlock true 100), .store 4096 0 65, .call (.splitBlock 4096 16), .load 4096 0,
    .usedSize, .findBlock 4144, .call (.setFree 4096 true), .call (.mergeBlocks 4096), .unusedSize,
    .findBlock 4144]

theorem plan_refined_letterRun : ∃ h', Component.run Heap.serve emptyHeap letterRun =
    some (h', [.pointer 4096, .done, .rest 80, .byte 65, .bytes 16, .pointer 4128, .done, .done,
      .bytes 112, .pointer null]) := by
  obtain ⟨p, hplan⟩ : ∃ p, Component.run Plan.step ⟨4096, [], fun _ _ => none⟩ letterRun =
      some (p, [.pointer 4096, .done, .rest 80, .byte 65, .bytes 16, .pointer 4128, .done, .done,
        .bytes 112, .pointer null]) := ⟨_, rfl⟩
  obtain ⟨h', hrun, -⟩ := plan_refined (h := emptyHeap) rfl rfl rfl (by decide) hplan
  exact ⟨h', hrun⟩

end OsLabs.Mm

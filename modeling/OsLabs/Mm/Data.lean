import OsLabs.Mm.Sizes
import OsLabs.Mm.Split

/-! @src lab5_mm/ll-mm.c | name:data | scheme:tiling

    The heap and its users. Between the list operations they store bytes into the data of occupied
    blocks, and what they rely on is said by `Known`: the bytes of each block that have been stored
    and not been given away since, by freeing the block, by splitting it in front of them, or by a
    reset. The operations write headers only, and the users data only, so neither spoils the other's
    bytes: the chain stays what it is, and every known byte is in memory.

        list operations    [ is_free next | ........ ][ is_free next | .... ]   headers
        users              [ ............ | a b c    ][ ............ | x    ]   data      -/

namespace OsLabs.Mm
open Schemes

/-- Byte `i` of the data of `b`, an occupied block of the chain. -/
def Heap.Data (h : Heap) (b i : ℕ) : Prop :=
  h.InChain b ∧ h.isFree b = false ∧ i < h.blockDataSize b

/-- A user stores a byte. -/
def Heap.store (h : Heap) (b i : ℕ) (v : UInt8) : Heap :=
  { h with mem := Function.update h.mem (blockToData b + i) v }

/-! ### What users know -/

/-- The byte at an offset in the data of a block. -/
abbrev Known := ℕ → ℕ → Option UInt8

/-- The operation leaves the byte to its user. -/
def Op.keeps (b i : ℕ) : Op → Bool
  | newBlock _ _ => true
  | setFree pb free => b ≠ pb || !free
  | splitBlock pb size => b ≠ pb || i < size
  | mergeBlocks _ => true
  | reset _ => false

namespace Known

def after (k : Known) (op : Op) : Known := fun b i => if op.keeps b i then k b i else none

def store (k : Known) (b i : ℕ) (v : UInt8) : Known :=
  fun b' i' => if b' = b ∧ i' = i then some v else k b' i'

end Known

/-- The heaps that operations and stores reach from an empty one, with what is known of them. -/
inductive Uses : Heap → Known → Prop
  | start {h : Heap} (hfirst : h.first = null) (hbrk : h.brk = h.base)
      (ha : h.base % alignment = 0) (hpos : 0 < h.base) : Uses h fun _ _ => none
  | call {h h' : Heap} {k : Known} {op : Op} {fuel : ℕ} (hu : Uses h k) (ha : op.Allowed h)
      (hx : op.exec fuel h = some h') : Uses h' (k.after op)
  | store {h : Heap} {k : Known} {b i : ℕ} (v : UInt8) (hu : Uses h k) (hd : h.Data b i) :
      Uses (h.store b i v) (k.store b i v)

/-! ### Data, by cells -/

section cells
variable {h h' : Heap} {b i b' j : ℕ} {v : UInt8} {c : Cell} {cs l r : List Cell}

/-- Byte `i` of the data of `b`, in a list of blocks. -/
def DataIn (cs : List Cell) (b i : ℕ) : Prop :=
  ∃ c ∈ cs, c.lo = b ∧ c.free = false ∧ c.lo + 16 + i < c.hi

theorem Chain.first_ne_null (hc : Chain h cs) : h.first ≠ null := hc.linked.first_ne_null

theorem Chain.data_iff (hc : Chain h cs) : h.Data b i ↔ DataIn cs b i := by
  constructor
  · rintro ⟨⟨-, bs, hwalk, hmem⟩, hfree, hi⟩
    rw [hwalk.unique hc.walk] at hmem
    obtain ⟨c, hcs, rfl⟩ := List.mem_map.mp hmem
    rw [hc.linked.dataSize hcs] at hi
    exact ⟨c, hcs, rfl, (hc.header c hcs).2.symm.trans hfree, by omega⟩
  · rintro ⟨c, hcs, rfl, hfree, hi⟩
    refine ⟨⟨hc.first_ne_null, _, hc.walk, List.mem_map_of_mem hcs⟩, ?_, ?_⟩
    · rw [(hc.header c hcs).2, hfree]
    · rw [hc.linked.dataSize hcs]
      omega

/-- Where there is data, there is a chain. -/
theorem Inv.data (hi : Inv h) (hd : h.Data b i) : ∃ cs, Chain h cs ∧ DataIn cs b i := by
  obtain ⟨-, cs, hc⟩ := hi.chain hd.1.1
  exact ⟨cs, hc, hc.data_iff.mp hd⟩

theorem Chain.data_eq (hc : Chain h cs) (hmem : c ∈ cs) : blockToData c.lo = c.lo + 16 := by
  have hb := hc.bounds hmem
  rw [blockToData, if_neg (by have hnull : null = 0 := rfl; omega)]
  exact Nat.mod_eq_of_lt (show c.lo + 16 < 2 ^ 64 by omega)

/-- A byte of data lies in no header. -/
theorem Chain.outside (hc : Chain h cs) (hmem : c ∈ cs) {a : ℕ} (hlo : c.lo + 16 ≤ a)
    (hhi : a < c.hi) : ∀ x ∈ cs, a < x.lo ∨ x.lo + 16 ≤ a := by
  intro x hx
  rcases eq_or_ne c x with rfl | hne
  · exact .inr hlo
  · have hdisj := hc.tiles.disjoint hmem hx hne
    have hbound := hc.bounds hx
    omega

/-- The data of the blocks does not overlap. -/
theorem Inv.data_inj (hi : Inv h) (hd : h.Data b i) (hd' : h.Data b' j)
    (heq : blockToData b + i = blockToData b' + j) : b = b' ∧ i = j := by
  obtain ⟨cs, hc, c, hcs, rfl, -, hlt⟩ := hi.data hd
  obtain ⟨d, hds, rfl, -, hlt'⟩ := hc.data_iff.mp hd'
  rw [hc.data_eq hcs, hc.data_eq hds] at heq
  rcases eq_or_ne c d with rfl | hne
  · exact ⟨rfl, by omega⟩
  · have hdisj := hc.tiles.disjoint hcs hds hne
    omega

/-- A store into data keeps the chain. -/
theorem Chain.store (hc : Chain h cs) (hd : DataIn cs b i) : Chain (h.store b i v) cs := by
  obtain ⟨c, hcs, rfl, -, hlt⟩ := hd
  have hout := hc.outside hcs (a := c.lo + 16 + i) (by omega) hlt
  have hkeep : ∀ x ∈ cs, ∀ a, x.lo ≤ a → a < x.lo + 16 → (h.store c.lo i v).mem a = h.mem a := by
    intro x hx a hlo hhi
    refine Function.update_of_ne ?_ ..
    rw [hc.data_eq hcs]
    have := hout x hx
    omega
  refine ⟨hc.tiles, hc.aligned, fun x hx => ?_, hc.first_pos, hc.brk_lt⟩
  have hnext : (h.store c.lo i v).next x.lo = h.next x.lo :=
    Mem.getLE_congr fun a hlo hhi => hkeep x hx a (by omega) (by omega)
  have hfree : (h.store c.lo i v).isFree x.lo = h.isFree x.lo := by
    rw [Heap.isFree, Heap.isFree, hkeep x hx x.lo le_rfl (by omega)]
  rw [hnext, hfree]
  exact hc.header x hx

end cells

/-! ### What each operation leaves to the users -/

section operations
variable {h h' : Heap} {b i pb size fuel : ℕ} {ok free : Bool} {c : Cell} {cs l r : List Cell}
  {op : Op}

/-- A new block has room for its size. -/
theorem newBlock_room (hsize : size ≤ 2 ^ 62) {t : ℕ} (ht : 16 ≤ t)
    (h' : newBlock ok size h = (Chain.grow h t, h.brk)) : size + 16 ≤ t := by
  have hbrk : (newBlock ok size h).1.brk = (sbrk ok (increment size) h).1.brk := by
    unfold newBlock increment
    dsimp only
    split <;> rfl
  have hgrow : (newBlock ok size h).1.brk = h.brk + t := by rw [h']; rfl
  rw [hgrow, increment_pos (by omega)] at hbrk
  rcases sbrk_cases (h := h) ok ((size + 31) / 16 * 16 : ℕ) with hsame | ⟨e, he, -, hmove⟩
  · rw [hsame] at hbrk
    omega
  · have hend : h.brk + t = e := by rw [hbrk, hmove]
    omega

/-- `new_block` fails and changes nothing, or adds a block behind the others. -/
theorem Inv.newBlock_added (hi : Inv h) (hsize : size ≤ 2 ^ 62)
    (hx : (Op.newBlock ok size).exec fuel h = some h') :
    ((Mm.newBlock ok size h).2 = null ∧ h' = h) ∨
      ∃ cs t, (∀ b i, h.Data b i → DataIn cs b i) ∧ (∀ b, h.InChain b → b ∈ cs.map Cell.lo) ∧
        (∀ x ∈ cs, x.hi ≤ h.brk ∧ x.lo < h.brk) ∧ size + 16 ≤ t ∧
        Chain h' (cs ++ [⟨h.brk, h.brk + t, false⟩]) ∧ (Mm.newBlock ok size h).2 = h.brk ∧
        ∀ a < h.brk, h'.mem a = h.mem a := by
  obtain rfl := Option.some.inj hx
  rcases newBlock_cases (h := h) ok hsize with hfail | ⟨t, hm, hta, hlt, hgrow⟩
  · left
    rw [hfail]
    refine ⟨rfl, ?_⟩
    split
    case isTrue hfirst => exact congrArg (fun f => { h with first := f }) hfirst.symm
    case isFalse => rfl
  · right
    have hroom := newBlock_room hsize hm hgrow
    have hpos := hi.base_pos
    have hle := hi.base_le
    have hmem : ∀ a < h.brk, (Chain.grow h t).mem a = h.mem a := by
      intro a ha
      rw [Chain.grow, Heap.setNext_mem (by omega), Heap.setFree_mem (by omega)]
    rw [hgrow]
    split
    case isTrue hfirst =>
      -- the first block of the heap
      have hnull : h.first = null := hfirst
      have hnone : Tiles 16 h.brk h.brk ([] : List Cell) := rfl
      exact ⟨[], t, fun b i hd => absurd hnull hd.1.1, fun b hb => absurd hnull hb.1, by simp,
        hroom, Chain.of_grow hnone (by simp) (by simp) (by omega) hi.brk_aligned hm hlt, rfl, hmem⟩
    case isFalse hfirst =>
      obtain ⟨-, cs, hc⟩ := hi.chain hfirst
      refine ⟨cs, t, fun b i hd => hc.data_iff.mp hd, fun b hb => ?_, fun x hx => ?_, hroom,
        Chain.of_grow hc.tiles hc.aligned hc.header hc.first_pos hi.brk_aligned hm hlt, rfl, hmem⟩
      · obtain ⟨-, bs, hwalk, hmemb⟩ := hb
        rwa [hwalk.unique hc.walk] at hmemb
      · have hb := hc.linked.bounds hx
        omega

/-- Marking a block writes its flag. -/
theorem Chain.setFree_kept (hc : Chain h (l ++ c :: r)) (hd : DataIn (l ++ c :: r) b i)
    (hk : (Op.setFree c.lo free).keeps b i = true) :
    DataIn (l ++ { c with free := free } :: r) b i ∧
      (h.setFree c.lo free).mem (b + 16 + i) = h.mem (b + 16 + i) := by
  obtain ⟨x, hx, rfl, hocc, hlt⟩ := hd
  refine ⟨?_, ?_⟩
  · rw [List.mem_append, List.mem_cons] at hx
    rcases hx with hx | rfl | hx
    · exact ⟨x, List.mem_append_left _ hx, rfl, hocc, hlt⟩
    · have hfree : free = false := by simpa [Op.keeps] using hk
      exact ⟨{ x with free := free }, by simp, rfl, hfree, hlt⟩
    · exact ⟨x, List.mem_append_right _ (List.mem_cons_of_mem _ hx), rfl, hocc, hlt⟩
  · have hout := hc.outside hx (a := x.lo + 16 + i) (by omega) hlt c (by simp)
    exact Heap.setFree_mem (by omega)

/-- Splitting a block writes its `next` and a header behind the first part. -/
theorem Chain.split_kept (hc : Chain h (l ++ c :: r)) (hd : DataIn (l ++ c :: r) b i)
    (hsize : size < h.blockDataSize c.lo) (hk : (Op.splitBlock c.lo size).keeps b i = true) :
    ∃ cs, Chain (splitBlock c.lo size h).1 cs ∧ DataIn cs b i ∧
      (splitBlock c.lo size h).1.mem (b + 16 + i) = h.mem (b + 16 + i) := by
  have ha := hc.aligned c (by simp)
  obtain ⟨t, ht, -, hneg, hpos⟩ := hc.linked.splitBlock_eq ha hsize
  rcases lt_or_ge (splitBlock c.lo size h).2 0 with hlow | hge
  · rw [hneg hlow]
    exact ⟨_, hc, hd, rfl⟩
  · obtain ⟨hroom, hcut⟩ := hpos hge
    rw [hcut]
    have halign : (c.lo + t) % 16 = 0 := by omega
    have hhead : c.lo + 16 ≤ c.lo + t := by omega
    refine ⟨_, hc.cutAt halign hhead hroom, ?_⟩
    obtain ⟨x, hx, rfl, hocc, hlt⟩ := hd
    have hcases : x = c ∧ i < size ∨ x ∈ l ++ r ∧ (x.hi ≤ c.lo ∨ c.hi ≤ x.lo) := by
      rw [List.mem_append, List.mem_cons] at hx
      rcases hx with hx | rfl | hx
      · exact .inr ⟨List.mem_append_left _ hx, .inl (hc.tiles.cut.1.bounds hx).2.2⟩
      · exact .inl ⟨rfl, by simpa [Op.keeps] using hk⟩
      · exact .inr ⟨List.mem_append_right _ hx, .inr (hc.tiles.after hx)⟩
    rcases hcases with ⟨rfl, hi⟩ | ⟨hx, hdisj⟩
    · refine ⟨⟨{ x with hi := x.lo + t }, by simp, rfl, hocc, ?_⟩, cutAt_mem (by omega) (by omega)⟩
      dsimp only
      omega
    · refine ⟨⟨x, ?_, rfl, hocc, hlt⟩, cutAt_mem (by omega) (by omega)⟩
      simp only [List.mem_append, List.mem_cons] at hx ⊢
      tauto

/-- Merging writes only into free blocks. -/
theorem Chain.merge_kept (hc : Chain h (l ++ c :: r)) (hd : DataIn (l ++ c :: r) b i)
    (hx : Mm.mergeBlocks fuel c.lo h = some h') :
    ∃ cs, Chain h' cs ∧ DataIn cs b i ∧ h'.mem (b + 16 + i) = h.mem (b + 16 + i) := by
  obtain ⟨fuel', mem, hrun, hchain⟩ := hc.mergeBlocks
  obtain rfl := mergeBlocks_det hrun hx
  obtain ⟨mem', hrun', -, hframe⟩ := hc.linked.mergeBlocks (by decide) hc.linked.apart
  obtain rfl : mem = mem' := congrArg Heap.mem (mergeBlocks_det hrun hrun')
  refine ⟨_, hchain, ?_⟩
  obtain ⟨x, hx, rfl, hocc, hlt⟩ := hd
  refine ⟨⟨x, ?_, rfl, hocc, hlt⟩, hframe _ ?_⟩
  · rw [List.mem_append] at hx ⊢
    rcases hx with hx | hx
    · exact .inl hx
    · have hmem : x ∈ (c :: r).filter fun x => !x.free :=
        List.mem_filter.mpr ⟨hx, by simp [hocc]⟩
      rw [← filter_coalesce] at hmem
      exact .inr (List.mem_filter.mp hmem).1
  · exact outside_headers hc.linked hx (.inr hocc) (by omega) hlt

/-- An operation leaves every byte it keeps where and what it was. -/
theorem Inv.kept (hi : Inv h) (ha : op.Allowed h) (hx : op.exec fuel h = some h')
    (hd : h.Data b i) (hk : op.keeps b i = true) :
    h'.Data b i ∧ h'.mem (b + 16 + i) = h.mem (b + 16 + i) := by
  cases op with
  | newBlock ok size =>
    rcases hi.newBlock_added ha hx with ⟨-, rfl⟩ | ⟨cs, t, hcs, -, hbelow, -, hc, -, hmem⟩
    · exact ⟨hd, rfl⟩
    · obtain ⟨x, hxcs, rfl, hocc, hlt⟩ := hcs b i hd
      have hxb := hbelow x hxcs
      exact ⟨hc.data_iff.mpr ⟨x, List.mem_append_left _ hxcs, rfl, hocc, hlt⟩,
        hmem _ (by omega)⟩
  | setFree pb free =>
    obtain rfl := Option.some.inj hx
    obtain ⟨l, c, r, hc, rfl⟩ := hi.inChain ha
    obtain ⟨hd', hmem⟩ := hc.setFree_kept (hc.data_iff.mp hd) hk
    exact ⟨(hc.setFree free).data_iff.mpr hd', hmem⟩
  | splitBlock pb size =>
    obtain rfl := Option.some.inj hx
    obtain ⟨l, c, r, hc, rfl⟩ := hi.inChain ha.1
    obtain ⟨cs, hc', hd', hmem⟩ := hc.split_kept (hc.data_iff.mp hd) ha.2 hk
    exact ⟨hc'.data_iff.mpr hd', hmem⟩
  | mergeBlocks pb =>
    obtain ⟨l, c, r, hc, rfl⟩ := hi.inChain ha
    obtain ⟨cs, hc', hd', hmem⟩ := hc.merge_kept (hc.data_iff.mp hd) hx
    exact ⟨hc'.data_iff.mpr hd', hmem⟩
  | reset ok => cases hk

end operations

/-! ### Runs -/

section runs
variable {h h' : Heap} {k : Known} {op : Op} {b i fuel : ℕ}

/-- What is known is there. -/
def Heap.Knows (h : Heap) (k : Known) : Prop :=
  ∀ b i v, k b i = some v → h.Data b i ∧ h.mem (blockToData b + i) = v

/-- An operation keeps what is known after it. -/
theorem Heap.Knows.call (hk : h.Knows k) (hi : Inv h) (ha : op.Allowed h)
    (hx : op.exec fuel h = some h') : h'.Knows (k.after op) := by
  intro b i v hafter
  rw [Known.after] at hafter
  split at hafter
  case isFalse => cases hafter
  case isTrue hkeep =>
    obtain ⟨hd, hmem⟩ := hk b i v hafter
    obtain ⟨hd', hmem'⟩ := hi.kept ha hx hd hkeep
    obtain ⟨cs, hc, c, hcs, rfl, -⟩ := hi.data hd
    rw [hc.data_eq hcs] at hmem ⊢
    exact ⟨hd', hmem'.trans hmem⟩

/-- A store adds its byte and spoils no other. -/
theorem Heap.Knows.store (hk : h.Knows k) (hi : Inv h) (hd : h.Data b i) (v : UInt8) :
    (h.store b i v).Knows (k.store b i v) := by
  obtain ⟨cs, hc, hdc⟩ := hi.data hd
  have hc' : Chain (h.store b i v) cs := hc.store hdc
  intro b' i' v' hstore
  rw [Known.store] at hstore
  split at hstore
  case isTrue heq =>
    obtain ⟨rfl, rfl⟩ := heq
    obtain rfl := Option.some.inj hstore
    exact ⟨hc'.data_iff.mpr hdc, Function.update_self (β := fun _ => UInt8) ..⟩
  case isFalse hne =>
    obtain ⟨hd', hmem⟩ := hk b' i' v' hstore
    refine ⟨hc'.data_iff.mpr (hc.data_iff.mp hd'), ?_⟩
    rw [← hmem]
    exact Function.update_of_ne (fun heq => hne (hi.data_inj hd' hd heq)) ..

theorem Inv.store (hi : Inv h) (hd : h.Data b i) (v : UInt8) : Inv (h.store b i v) := by
  obtain ⟨cs, hc, hdc⟩ := hi.data hd
  exact hi.of_chain (hi.chain hd.1.1).1 (hc.store hdc)

/-- What the users know is there, and the heap is as the operations need it. -/
theorem Uses.inv (hu : Uses h k) : Inv h ∧ h.Knows k := by
  induction hu with
  | start hfirst hbrk ha hpos =>
    refine ⟨(Reach.start hfirst hbrk ha hpos).inv, fun b i v hk => ?_⟩
    cases hk
  | call _ ha hx ih => exact ⟨(ih.1.exec ha).2 _ _ hx, ih.2.call ih.1 ha hx⟩
  | store v _ hd ih => exact ⟨ih.1.store hd v, ih.2.store ih.1 hd v⟩

end runs

end OsLabs.Mm

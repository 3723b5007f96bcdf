import OsLabs.Schemes.Stock
import OsLabs.Ssfs.Reach

/-! @src lab4_fs/fs_support.c, lab4_fs/format_myfs.c | name:alloc | scheme:stock

    The allocator alone: a fresh map of `n` blocks, and any interleaving of `allocateBlock` and
    `freeBlock` in which a block is freed only while it is handed out. The map is a stock, with
    block 0 as the head of the free list and its end.

        allocateBlock   0 → x → y → ..     ⇒   0 → y → ..        x → EOF
        freeBlock       0 → y → ..  x      ⇒   0 → x → y → ..                  -/

namespace OsLabs.Ssfs
open Schemes

/-- The blocks a map of `n` blocks deals with. -/
def stockIds (n : ℕ) : Set ℕ := {x | 2 ≤ x ∧ x < n}

/-- The maps, with the blocks handed out, that calls reach from a fresh map of `n` blocks. -/
inductive Served (n : ℕ) : Block → Set ℕ → Prop
  | start (blk : Block) : Served n (formatMap n blk) ∅
  | alloc {b : Block} {held : Set ℕ} (h : Served n b held) (hok : (allocateBlock b).2 ≠ eofBlock) :
      Served n (allocateBlock b).1 (insert (allocateBlock b).2 held)
  | full {b : Block} {held : Set ℕ} (h : Served n b held) (hno : (allocateBlock b).2 = eofBlock) :
      Served n (allocateBlock b).1 held
  | free {b : Block} {held : Set ℕ} {x : ℕ} (h : Served n b held) (hx : x ∈ held) :
      Served n (freeBlock b x).1 (held \ {x})

/-- What the allocator promises for a map `b` of `n` blocks of which `held` are handed out. -/
structure Promised (n : ℕ) (b : Block) (held : Set ℕ) : Prop where
  /-- a block that is handed out was free -/
  fresh : (allocateBlock b).2 ≠ eofBlock → (allocateBlock b).2 ∈ stockIds n \ held
  /-- the allocator fails exactly when all blocks are handed out -/
  full : (allocateBlock b).2 = eofBlock ↔ held = stockIds n
  idle : (allocateBlock b).2 = eofBlock → (allocateBlock b).1 = b
  closed : ∀ x ∈ held, b.blockmap x = eofBlock
  /-- the free list visits the other blocks once -/
  free : ∃ fl, Walk b.blockmap 0 (b.blockmap 0) fl ∧ fl.Nodup ∧
    ∀ x, x ∈ fl ↔ x ∈ stockIds n \ held
  undo : (allocateBlock b).2 ≠ eofBlock → (freeBlock (allocateBlock b).1 (allocateBlock b).2).1 = b

section blocks
variable {b b' : Block}

/-- A block is determined by its view as a map. -/
theorem Block.ext_blockmap (h : b.blockmap = b'.blockmap) : b = b' := by
  have hpair : ∀ i, (b.byte (2 * i)).toNat + 256 * (b.byte (2 * i + 1)).toNat =
      (b'.byte (2 * i)).toNat + 256 * (b'.byte (2 * i + 1)).toNat := by
    intro i
    have hi := congrFun h i
    simpa only [blockmap, Buf.getLE, Mem.getLE, Nat.mul_zero, Nat.add_zero] using hi
  ext1; funext j
  have hlo := hpair (j / 2)
  have hlt := fun k => UInt8.toNat_lt (b.byte k)
  have hlt' := fun k => UInt8.toNat_lt (b'.byte k)
  have h0 := hlt (2 * (j / 2))
  have h0' := hlt' (2 * (j / 2))
  have hj : j = 2 * (j / 2) ∨ j = 2 * (j / 2) + 1 := by omega
  apply UInt8.toNat_inj.mp
  rcases hj with hj | hj
  · rw [hj]; omega
  · rw [hj]; omega

theorem freeBlock_blockmap {x : ℕ} (hx : x < 256) :
    (freeBlock b x).1.blockmap = push 0 b.blockmap x := by
  rw [freeBlock]
  simp only
  rw [Block.blockmap_setBlockmap _ (by decide) (by omega),
    Block.blockmap_setBlockmap _ hx (Block.blockmap_lt ..), push]

end blocks

section stock
variable {n : ℕ} {b : Block} {held : Set ℕ} {fl : List ℕ}

/-- The map as a stock. -/
abbrev MapStock (n : ℕ) (b : Block) (held : Set ℕ) (fl : List ℕ) : Prop :=
  Stock (stockIds n) 0 0 eofBlock b.blockmap held fl

theorem zero_not_stock : 0 ∉ stockIds n := fun h => absurd h.1 (by decide)

theorem mapStock_format (hlo : 3 ≤ n) (hhi : n ≤ 256) (blk : Block) :
    MapStock n (formatMap n blk) ∅ (List.range' 2 (n - 2)) := by
  have hlen : n - 2 = n - 3 + 1 := by omega
  refine ⟨?_, List.nodup_range', fun x => ?_, Set.empty_subset _, by simp⟩
  · rw [blockmap_formatMap hlo hhi, if_neg (by omega), if_neg (by omega), if_pos rfl, hlen]
    exact walk_formatMap hlo hhi blk (n - 3) 2 le_rfl (by omega)
  · rw [List.mem_range'_1]
    have hids : x ∈ stockIds n ↔ 2 ≤ x ∧ x < n := Iff.rfl
    rw [hids, and_iff_left (Set.notMem_empty x)]
    omega

/-- An allocation from a non-empty stock takes its first block. -/
theorem MapStock.alloc {x : ℕ} (hhi : n ≤ 256) (h : MapStock n b held (x :: fl)) :
    (allocateBlock b).2 = x ∧ (allocateBlock b).1.blockmap = pop 0 eofBlock b.blockmap ∧
      x ≠ eofBlock := by
  have hx : 2 ≤ x ∧ x < n := ((h.cover x).mp (List.mem_cons_self ..)).1
  obtain ⟨hid, hmap⟩ := allocateBlock_some h.free.head_eq (by omega) (by omega)
  exact ⟨hid, hmap, by show x ≠ 65535; omega⟩

theorem MapStock.alloc_nil (h : MapStock n b held []) : allocateBlock b = (b, eofBlock) :=
  allocateBlock_none h.free

/-- Every map the calls reach is a stock. -/
theorem Served.stock (hlo : 3 ≤ n) (hhi : n ≤ 256) (h : Served n b held) :
    ∃ fl, MapStock n b held fl := by
  induction h with
  | start blk => exact ⟨_, mapStock_format hlo hhi blk⟩
  | alloc _ hok ih =>
    obtain ⟨fl, hst⟩ := ih
    cases fl with
    | nil => exact absurd (congrArg Prod.snd hst.alloc_nil) hok
    | cons x fl =>
      obtain ⟨hid, hmap, -⟩ := hst.alloc hhi
      refine ⟨fl, ?_⟩
      rw [MapStock, hid, hmap]
      exact hst.pop zero_not_stock
  | full _ hno ih =>
    obtain ⟨fl, hst⟩ := ih
    cases fl with
    | nil => exact ⟨[], by rw [hst.alloc_nil]; exact hst⟩
    | cons x fl =>
      obtain ⟨hid, -, hne⟩ := hst.alloc hhi
      exact absurd (hid.symm.trans hno) hne
  | @free b held x _ hx ih =>
    obtain ⟨fl, hst⟩ := ih
    have hids : 2 ≤ x ∧ x < n := hst.sub hx
    refine ⟨x :: fl, ?_⟩
    rw [MapStock, freeBlock_blockmap (by omega)]
    exact hst.push zero_not_stock zero_not_stock hx

/-- A stock keeps the promises. -/
theorem MapStock.promised (hhi : n ≤ 256) (h : MapStock n b held fl) : Promised n b held := by
  cases fl with
  | nil =>
    have hnil := h.alloc_nil
    have hall := h.nil_iff.mp rfl
    refine ⟨fun hok => absurd (congrArg Prod.snd hnil) hok, ?_, fun _ => congrArg Prod.fst hnil,
      h.closed, ⟨[], h.free, h.nodup, h.cover⟩, fun hok => absurd (congrArg Prod.snd hnil) hok⟩
    exact iff_of_true (congrArg Prod.snd hnil) hall
  | cons x fl =>
    obtain ⟨hid, hmap, hne⟩ := h.alloc hhi
    have hx := (h.cover x).mp (List.mem_cons_self ..)
    have hids : 2 ≤ x ∧ x < n := hx.1
    have hok : (allocateBlock b).2 ≠ eofBlock := by rw [hid]; exact hne
    refine ⟨fun _ => by rw [hid]; exact hx, ?_, fun hno => absurd hno hok, h.closed,
      ⟨_, h.free, h.nodup, h.cover⟩, fun _ => ?_⟩
    · refine iff_of_false hok fun hall => ?_
      exact absurd (h.nil_iff.mpr hall) (List.cons_ne_nil x fl)
    · apply Block.ext_blockmap
      rw [hid, freeBlock_blockmap (by omega), hmap]
      exact push_pop h.free.head_eq (by omega)

/-- CORRECT (allocator): on every map that allocations and frees reach from a fresh one, the
    allocator keeps its promises. -/
theorem served_promised (hlo : 3 ≤ n) (hhi : n ≤ 256) (h : Served n b held) :
    Promised n b held := by
  obtain ⟨fl, hst⟩ := h.stock hlo hhi
  exact hst.promised hhi

end stock

/-- Ten blocks, of which the first three are handed out. -/
def usedMap : Block :=
  (allocateBlock (allocateBlock (allocateBlock (formatMap 10 (Buf.zero 512))).1).1).1

theorem served_usedMap : Served 10 usedMap {4, 3, 2} := by
  have hone : (allocateBlock (formatMap 10 (Buf.zero 512))).2 = 2 := by decide +kernel
  have htwo : (allocateBlock (allocateBlock (formatMap 10 (Buf.zero 512))).1).2 = 3 := by
    decide +kernel
  have hthree : (allocateBlock (allocateBlock
      (allocateBlock (formatMap 10 (Buf.zero 512))).1).1).2 = 4 := by decide +kernel
  have hs := (((Served.start (Buf.zero 512)).alloc (by rw [hone]; decide)).alloc
    (by rw [htwo]; decide)).alloc (by rw [hthree]; decide)
  rw [hone, htwo, hthree, insert_empty_eq] at hs
  exact hs

/-- Block 3 comes back, and is the next one to be handed out. -/
theorem served_promised_usedMap : Promised 10 (freeBlock usedMap 3).1 ({4, 3, 2} \ {3}) ∧
    (allocateBlock (freeBlock usedMap 3).1).2 = 3 :=
  ⟨served_promised (by decide) (by decide) (served_usedMap.free (by simp)), by decide +kernel⟩

end OsLabs.Ssfs

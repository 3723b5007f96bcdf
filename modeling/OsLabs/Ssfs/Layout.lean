import OsLabs.Schemes.Pool
import OsLabs.Ssfs.Ops

/-! @src lab4_fs/fs_support.c, lab4_fs/ssfs.c | name:layout | scheme:pool

    A disk is laid out as a pool: the block map is the table, entry 0 of it the head of the free
    list, and the chains hang from the `first_block` fields of the non-empty directory entries.
    The allocator and the `while (blkoffs)` loop of `do_write` are `pop` and `seek` on that table;
    both are simulated on the bytes of the cached map as long as the ids stay inside it. -/

namespace OsLabs.Ssfs
open Schemes

/-- The blocks that can hold file data. -/
def dataIds : Set ℕ := {x | 2 ≤ x ∧ x < fsNblocks}

/-- The non-empty entries of a directory. -/
def live (dir : ℕ → DirEntry) : Set ℕ := {i | i < dirEntriesPerBlock ∧ (dir i).isEmpty = false}

theorem not_mem_live {dir : ℕ → DirEntry} {i : ℕ} (h : (dir i).isEmpty = true) : i ∉ live dir := by
  rintro ⟨-, hlive⟩
  rw [h] at hlive
  cases hlive

/-- The free list is `fl`, the chain of the non-empty entry `i` is `ch i`, all of them disjoint and
    made of data blocks. -/
abbrev Chains (d : Disk) (fl : List ℕ) (ch : ℕ → List ℕ) : Prop :=
  Pool dataIds 0 0 eofBlock d.map (live d.dir) (fun i => (d.dir i).firstBlock) fl ch

/-- Chains under which a file without blocks has no bytes. -/
structure Layout (d : Disk) (fl : List ℕ) (ch : ℕ → List ℕ) : Prop where
  pool : Chains d fl ch
  size : ∀ i ∈ live d.dir, ch i = [] → (d.dir i).sizeBytes = 0

/-- A well-formed disk: it has a layout, and its non-empty entries come first. -/
structure WellFormed (d : Disk) : Prop where
  layout : ∃ fl ch, Layout d fl ch
  entries : ∀ i j, i < j → j ∈ live d.dir → i ∈ live d.dir

theorem ne_rootdirBid {x : ℕ} (h : 2 ≤ x) : x ≠ rootdirBid := Nat.ne_of_gt h

theorem ne_eofBlock {x : ℕ} (h : x < fsNblocks) : x ≠ eofBlock :=
  Nat.ne_of_lt (h.trans (by decide))

/-- The map and the directory are read off the first two blocks. -/
theorem Disk.map_dir_congr {d d' : Disk} (h : ∀ b < 2, d'.blk b = d.blk b) :
    d'.map = d.map ∧ d'.dir = d.dir := by
  rw [Disk.map, Disk.map, Disk.dir, Disk.dir, h blkmapBid (by decide), h rootdirBid (by decide)]
  exact ⟨rfl, rfl⟩

/-! ### Loading and saving -/

namespace Fs
variable (fs : Fs) (a : Access)

@[simp] theorem note_disk : (fs.note a).disk = fs.disk := rfl
@[simp] theorem note_bdir : (fs.note a).bdir = fs.bdir := rfl
@[simp] theorem note_bmap : (fs.note a).bmap = fs.bmap := rfl
@[simp] theorem note_log : (fs.note a).log = fs.log ++ [a] := rfl

@[simp] theorem loadDirectory_disk : fs.loadDirectory.disk = fs.disk := rfl
@[simp] theorem loadDirectory_bmap : fs.loadDirectory.bmap = fs.bmap := rfl
@[simp] theorem loadDirectory_bdir : fs.loadDirectory.bdir = fs.disk.blk rootdirBid :=
  Disk.readBlock_of_lt (by decide) _
@[simp] theorem loadDirectory_log :
    fs.loadDirectory.log = fs.log ++ [.read rootdirBid .bdir] := rfl

@[simp] theorem loadBlockmap_disk : fs.loadBlockmap.disk = fs.disk := rfl
@[simp] theorem loadBlockmap_bdir : fs.loadBlockmap.bdir = fs.bdir := rfl
@[simp] theorem loadBlockmap_bmap : fs.loadBlockmap.bmap = fs.disk.blk blkmapBid :=
  Disk.readBlock_of_lt (by decide) _
@[simp] theorem loadBlockmap_log :
    fs.loadBlockmap.log = fs.log ++ [.read blkmapBid .bmap] := rfl

@[simp] theorem saveDirectory_disk :
    fs.saveDirectory.disk = fs.disk.writeBlock rootdirBid fs.bdir := rfl
@[simp] theorem saveDirectory_bdir : fs.saveDirectory.bdir = fs.bdir := rfl
@[simp] theorem saveDirectory_bmap : fs.saveDirectory.bmap = fs.bmap := rfl
@[simp] theorem saveDirectory_log :
    fs.saveDirectory.log = fs.log ++ [.write rootdirBid .bdir] := rfl

@[simp] theorem saveBlockmap_disk :
    fs.saveBlockmap.disk = fs.disk.writeBlock blkmapBid fs.bmap := rfl
@[simp] theorem saveBlockmap_log :
    fs.saveBlockmap.log = fs.log ++ [.write blkmapBid .bmap] := rfl

@[simp] theorem allocBlock_disk : fs.allocBlock.1.disk = fs.disk := rfl
@[simp] theorem allocBlock_bdir : fs.allocBlock.1.bdir = fs.bdir := rfl

end Fs

/-! ### The allocator is `pop`, the navigation is `seek` -/

theorem allocateBlock_none {b : Block} (h : b.blockmap 0 = 0) :
    allocateBlock b = (b, eofBlock) := by rw [allocateBlock]; simp [h]

theorem allocateBlock_some {b : Block} {bid : ℕ} (h : b.blockmap 0 = bid) (h0 : bid ≠ 0)
    (hlt : bid < 256) : (allocateBlock b).2 = bid ∧
      (allocateBlock b).1.blockmap = pop 0 eofBlock b.blockmap := by
  rw [allocateBlock]
  simp only [h, if_neg h0, true_and]
  rw [Block.blockmap_setBlockmap _ hlt (by decide),
    Block.blockmap_setBlockmap _ (by decide) (Block.blockmap_lt ..), pop, h]

theorem Fs.allocBlock_none (fs : Fs) (h : fs.bmap.blockmap 0 = 0) :
    fs.allocBlock.2 = eofBlock ∧ fs.allocBlock.1.bmap = fs.bmap := by
  simp [Fs.allocBlock, allocateBlock_none h]

theorem Fs.allocBlock_some (fs : Fs) {bid : ℕ} (h : fs.bmap.blockmap 0 = bid) (h0 : bid ≠ 0)
    (hlt : bid < 256) : fs.allocBlock.2 = bid ∧
      fs.allocBlock.1.bmap.blockmap = pop 0 eofBlock fs.bmap.blockmap :=
  allocateBlock_some h h0 hlt

/-- Ids that index the map. -/
def Indexed (S : Set ℕ) : Prop := ∀ x ∈ S, x < 256

/-- One trip of the loop at the end of a chain: a block is allocated and linked. -/
def Fs.append (crt : ℕ) (fs : Fs) : Fs :=
  let r := (fs.note (.index crt)).allocBlock
  { r.1 with bmap := r.1.bmap.setBlockmap crt r.2 }

section navigate
variable {fs : Fs} {crt n : ℕ}

/-- What such a trip does to a closed table: the first free block is linked behind `crt`. -/
theorem Fs.append_spec {S : Set ℕ} (hS : Indexed S) {b : ℕ} {fl : List ℕ} (hcrt : crt ∈ S)
    (hcl : Closed S 0 0 eofBlock fs.bmap.blockmap (b :: fl)) :
    (fs.note (.index crt)).allocBlock.2 = b ∧ b ≠ eofBlock ∧
      (fs.append crt).bmap.blockmap = extend 0 eofBlock fs.bmap.blockmap crt := by
  have hbS : b ∈ S := hcl.sub b (by simp)
  obtain ⟨h2, h1⟩ := Fs.allocBlock_some (fs.note (.index crt)) hcl.free.head_eq
    hcl.free.2.1 (hS b hbS)
  refine ⟨h2, fun he => hcl.eof_out (he ▸ hbS), ?_⟩
  rw [Fs.append]
  simp only [h2]
  rw [Block.blockmap_setBlockmap _ (hS crt hcrt) (by have := hS b hbS; omega), h1, extend,
    hcl.free.head_eq]
  rfl

theorem navigate_follow (h : fs.bmap.blockmap crt ≠ eofBlock) : navigate crt fs (n + 1) =
    navigate (fs.bmap.blockmap crt) (fs.note (.index crt)) n := by
  rw [navigate]; exact if_pos h

theorem navigate_full (h : fs.bmap.blockmap crt = eofBlock)
    (ha : (fs.note (.index crt)).allocBlock.2 = eofBlock) :
    navigate crt fs (n + 1) = ((fs.note (.index crt)).allocBlock.1, none) := by
  rw [navigate]; exact (if_neg (not_not.mpr h)).trans (if_pos ha)

theorem navigate_append (h : fs.bmap.blockmap crt = eofBlock)
    (ha : (fs.note (.index crt)).allocBlock.2 ≠ eofBlock) : navigate crt fs (n + 1) =
      navigate (fs.note (.index crt)).allocBlock.2 (fs.append crt) n := by
  rw [navigate]; exact (if_neg (not_not.mpr h)).trans (if_neg ha)

/-- The loop touches only the cached map and the log. -/
theorem navigate_frame : ∀ (n crt : ℕ) (fs : Fs), (navigate crt fs n).1.disk = fs.disk ∧
    (navigate crt fs n).1.bdir = fs.bdir
  | 0, _, _ => ⟨rfl, rfl⟩
  | n + 1, crt, fs => by
      by_cases hend : fs.bmap.blockmap crt = eofBlock
      · by_cases ha : (fs.note (.index crt)).allocBlock.2 = eofBlock
        · rw [navigate_full hend ha]; exact ⟨rfl, rfl⟩
        · rw [navigate_append hend ha]; exact navigate_frame n ..
      · rw [navigate_follow hend]; exact navigate_frame n ..

/-- On a closed table the loop computes `seek`, the table stays closed, and the block it stops at
    is inside. -/
theorem navigate_seek {S : Set ℕ} (hS : Indexed S) : ∀ {n crt : ℕ} (fs : Fs) {fl : List ℕ},
    crt ∈ S → Closed S 0 0 eofBlock fs.bmap.blockmap fl →
    ((navigate crt fs n).1.bmap.blockmap, (navigate crt fs n).2) =
        seek 0 0 eofBlock fs.bmap.blockmap crt n ∧
      (∃ fl', Closed S 0 0 eofBlock (navigate crt fs n).1.bmap.blockmap fl') ∧
      ∀ y, (navigate crt fs n).2 = some y → y ∈ S
  | 0, crt, fs, fl, hcrt, hcl => ⟨rfl, ⟨fl, hcl⟩, fun y hy => by
      obtain rfl := Option.some.inj hy; exact hcrt⟩
  | n + 1, crt, fs, fl, hcrt, hcl => by
      by_cases hend : fs.bmap.blockmap crt = eofBlock
      · cases fl with
        | nil =>
          obtain ⟨h2, h1⟩ := Fs.allocBlock_none (fs.note (.index crt)) hcl.free
          rw [seek_full hend hcl.free, navigate_full hend h2, h1]
          exact ⟨rfl, ⟨[], hcl⟩, fun y hy => by cases hy⟩
        | cons b fl =>
          obtain ⟨h2, hbe, hext⟩ := Fs.append_spec hS hcrt hcl
          have hbS : b ∈ S := hcl.sub b (by simp)
          rw [seek_extend hend hcl.free.head_eq hcl.free.2.1,
            navigate_append hend (by rw [h2]; exact hbe), h2, ← hext]
          exact navigate_seek hS _ hbS (hext ▸ hcl.extend hend)
      · rw [seek_follow rfl hend, navigate_follow hend]
        exact navigate_seek hS (fs.note (.index crt))
          ((hcl.step crt hcrt).resolve_right hend) hcl

end navigate

end OsLabs.Ssfs

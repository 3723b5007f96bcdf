import OsLabs.Schemes.CStr
import OsLabs.Schemes.Loop
import OsLabs.Ssfs.Disk

/-! @src lab4_fs/fs_support.c, lab4_fs/format_myfs.c | name:support

    The state of the file system: the disk, the two cached blocks `bdir` and `bmap`, and the log of
    every block transfer (with the buffer it uses) and of every index into the block map, in the
    order the code makes them. Block reads and writes are taken to succeed. -/

namespace OsLabs.Ssfs
open Schemes

/-- The buffer of a block transfer. -/
inductive Buffer where | bdir | bmap | bcache | rootb
  deriving DecidableEq

/-- One access: a block read, a block written, or an index into `bmap.blockmap`. -/
inductive Access where
  | read (bid : ℕ) (b : Buffer)
  | write (bid : ℕ) (b : Buffer)
  | index (i : ℕ)
  deriving DecidableEq

structure Fs where
  disk : Disk
  bdir : Block
  bmap : Block
  log : List Access

/-- Record one access. -/
def Fs.note (fs : Fs) (a : Access) : Fs := { fs with log := fs.log ++ [a] }

/-- Return a block to the head of the free list; the result is what the freed block pointed to. -/
def freeBlock (blocks : Block) (freedId : ℕ) : Block × ℕ :=
  ((blocks.setBlockmap freedId (blocks.blockmap 0)).setBlockmap 0 freedId, blocks.blockmap freedId)

/-- Take the block at the head of the free list, or `EOF_BLOCK` when entry 0 is 0. -/
def allocateBlock (blocks : Block) : Block × ℕ :=
  let bid := blocks.blockmap 0
  if bid = 0 then (blocks, eofBlock)
  else ((blocks.setBlockmap 0 (blocks.blockmap bid)).setBlockmap bid eofBlock, bid)

/-- The map indices `allocateBlock` uses. -/
def allocateIndices (blocks : Block) : List Access :=
  if blocks.blockmap 0 = 0 then [.index 0] else [.index 0, .index (blocks.blockmap 0)]

namespace Fs

def loadBlockmap (fs : Fs) : Fs :=
  { fs with bmap := fs.disk.readBlock blkmapBid fs.bmap }.note (.read blkmapBid .bmap)

def saveBlockmap (fs : Fs) : Fs :=
  { fs with disk := fs.disk.writeBlock blkmapBid fs.bmap }.note (.write blkmapBid .bmap)

def loadDirectory (fs : Fs) : Fs :=
  { fs with bdir := fs.disk.readBlock rootdirBid fs.bdir }.note (.read rootdirBid .bdir)

def saveDirectory (fs : Fs) : Fs :=
  { fs with disk := fs.disk.writeBlock rootdirBid fs.bdir }.note (.write rootdirBid .bdir)

/-- `alloc_block`: allocate from the loaded map. -/
def allocBlock (fs : Fs) : Fs × ℕ :=
  ({ fs with bmap := (allocateBlock fs.bmap).1, log := fs.log ++ allocateIndices fs.bmap },
    (allocateBlock fs.bmap).2)

end Fs

/-- The index of the entry named `path`, or `none` for the C result -1. -/
def findDirEntry (bdir : Block) (path : CStr) : Option ℕ :=
  let di := scan (fun i => !(bdir.directory i).isEmpty &&
    strncmp path.byte (bdir.directory i).name.byte fsNameLen ≠ 0) dirEntriesPerBlock 0
  if di = dirEntriesPerBlock ∨ (bdir.directory di).isEmpty then none else some di

/-- The index of the first empty entry, or `none` for the C result -1. -/
def firstEmptyDirEntry (bdir : Block) : Option ℕ :=
  let di := scan (fun i => !(bdir.directory i).isEmpty) dirEntriesPerBlock 0
  if di = dirEntriesPerBlock then none else some di

/-- The block map `format_myfs` builds in the buffer `blk` for `n` blocks. -/
def formatMap (n : ℕ) (blk : Block) : Block :=
  Block.setBlockmap ((List.range' 2 (n - 2)).foldl (fun b bid => b.setBlockmap bid (bid + 1))
    (blk.setBlockmap 0 2)) (n - 1) 0

/-- `main` of `format_myfs`: a fresh map in block 0, then zeros in block 1. -/
def formatMyfs (d : Disk) (blk : Block) : Disk :=
  (d.writeBlock blkmapBid (formatMap fsNblocks blk)).writeBlock rootdirBid (Buf.zero 512)

/-! ### What the lookups return -/

section lookup
variable {b : Block} {p q : CStr} {i : ℕ}

theorem findDirEntry_some (h : findDirEntry b p = some i) :
    i < 16 ∧ (b.directory i).isEmpty = false ∧
      strncmp p.byte (b.directory i).name.byte fsNameLen = 0 := by
  rw [findDirEntry] at h
  split at h
  · cases h
  · rename_i hne
    obtain rfl := Option.some.inj h
    rw [not_or] at hne
    have hlt : scan _ dirEntriesPerBlock 0 < 0 + dirEntriesPerBlock :=
      lt_of_le_of_ne (scan_le ..) (by rw [Nat.zero_add]; exact hne.1)
    have hlive : (b.directory _).isEmpty = false := Bool.eq_false_iff.mpr hne.2
    refine ⟨by simpa using hlt, hlive, ?_⟩
    rcases Bool.and_eq_false_iff.mp (scan_stop hlt) with hempty | hname
    · rw [Bool.not_eq_false'] at hempty; exact absurd hempty hne.2
    · simpa using hname

/-- Before the entry that is found there are only entries with other names. -/
theorem findDirEntry_before (h : findDirEntry b p = some i) {j : ℕ} (hj : j < i) :
    (b.directory j).isEmpty = false ∧
      strncmp p.byte (b.directory j).name.byte fsNameLen ≠ 0 := by
  rw [findDirEntry] at h
  split at h
  · cases h
  · obtain rfl := Option.some.inj h
    simpa using scan_passed (Nat.zero_le j) hj

theorem findDirEntry_eq_some (hi : i < 16) (hlive : (b.directory i).isEmpty = false)
    (hname : strncmp p.byte (b.directory i).name.byte fsNameLen = 0)
    (hbefore : ∀ j < i, (b.directory j).isEmpty = false ∧
      strncmp p.byte (b.directory j).name.byte fsNameLen ≠ 0) : findDirEntry b p = some i := by
  have hscan : scan (fun i => !(b.directory i).isEmpty &&
      strncmp p.byte (b.directory i).name.byte fsNameLen ≠ 0) dirEntriesPerBlock 0 = i := by
    refine scan_eq (Nat.zero_le i) (by simpa using hi.le) (fun j _ hj => ?_) (Or.inr ?_)
    · simpa using hbefore j hj
    · simp [hname]
  rw [findDirEntry, hscan]
  exact if_neg (by rw [hlive]; simp only [Bool.false_eq_true, or_false]; exact hi.ne)

theorem findDirEntry_eq_none_iff : findDirEntry b p = none ↔
    ∀ i < 16, (∀ j ≤ i, (b.directory j).isEmpty = false) →
      strncmp p.byte (b.directory i).name.byte fsNameLen ≠ 0 := by
  constructor
  · intro h i hi hlive hname
    -- the least entry with that name would be found
    classical
    have hex : ∃ k, k ≤ i ∧ strncmp p.byte (b.directory k).name.byte fsNameLen = 0 :=
      ⟨i, le_rfl, hname⟩
    obtain ⟨hk, hkname⟩ := Nat.find_spec hex
    have hsome := findDirEntry_eq_some (i := Nat.find hex) (by omega) (hlive _ hk) hkname
      (fun j hj => ⟨hlive j (by omega), fun hz => Nat.find_min hex hj ⟨by omega, hz⟩⟩)
    rw [h] at hsome; cases hsome
  · intro h
    cases hf : findDirEntry b p with
    | none => rfl
    | some i =>
      obtain ⟨hi, hlive, hname⟩ := findDirEntry_some hf
      refine absurd hname (h i hi (fun j hj => ?_))
      rcases Nat.lt_or_eq_of_le hj with hlt | rfl
      · exact (findDirEntry_before hf hlt).1
      · exact hlive

theorem firstEmptyDirEntry_some (h : firstEmptyDirEntry b = some i) :
    i < 16 ∧ (b.directory i).isEmpty = true ∧ ∀ j < i, (b.directory j).isEmpty = false := by
  rw [firstEmptyDirEntry] at h
  split at h
  · cases h
  · rename_i hne
    obtain rfl := Option.some.inj h
    have hlt : scan _ dirEntriesPerBlock 0 < 0 + dirEntriesPerBlock :=
      lt_of_le_of_ne (scan_le ..) (by rw [Nat.zero_add]; exact hne)
    have hstop := scan_stop hlt
    exact ⟨by simpa using hlt, by simpa using hstop,
      fun j hj => by simpa using scan_passed (Nat.zero_le j) hj⟩

end lookup

end OsLabs.Ssfs

import OsLabs.Ssfs.Landing
import OsLabs.Ssfs.Names

/-! @src lab4_fs/ssfs.c, lab4_fs/fs-test.py | name:lengths | scheme:store

    The size in a directory entry is the length of its file, and two operations do not ask for it.
    `do_read` returns as many bytes as it was asked for, up to a block, however few the file has;
    for an empty file these come from the buffer it did not fill. `do_truncate` cuts every file down
    to nothing, whatever length it was given. So a read is right up to the end of the file, and a
    truncation when the length is 0. -/

namespace OsLabs.Ssfs
open Schemes

/-- A read of `size` bytes at offset 0 returns the bytes the file has there, whatever the cache
    buffer held. -/
def ReadsFile (fs : Fs) (path : CStr) (i size : ℕ) (bs : List ℕ) : Prop :=
  ∀ bcache, (doRead path size bcache fs).2.2 = (min size (fs.disk.dir i).sizeBytes : ℕ) ∧
    (doRead path size bcache fs).2.1.map some =
      (List.range (min size (fs.disk.dir i).sizeBytes)).map (fileByte fs.disk bs)

/-- If the truncation to `n` succeeds, the file has the length `n` and the bytes it had below. -/
def SetsLength (fs : Fs) (path : CStr) (i n : ℕ) (bs : List ℕ) : Prop :=
  (doTruncate path n fs).2 = 0 →
    (∀ env st, (doGetattr env path st (doTruncate path n fs).1).2.2 = 0 ∧
      (doGetattr env path st (doTruncate path n fs).1).2.1.size = n) ∧
    ∃ bs', Walk (doTruncate path n fs).1.disk.map eofBlock
        ((doTruncate path n fs).1.disk.dir i).firstBlock bs' ∧
      ∀ p < min n (fs.disk.dir i).sizeBytes, p < 512 * bs.length →
        fileByte (doTruncate path n fs).1.disk bs' p = fileByte fs.disk bs p

/-! ### Reading -/

section read
variable {fs : Fs} {fl : List ℕ} {ch : ℕ → List ℕ} {path : CStr} {i size : ℕ}

theorem doRead_found (size : ℕ) (bcache : Block)
    (hf : findDirEntry (fs.disk.blk rootdirBid) path.tail = some i) :
    (doRead path size bcache fs).2.1 = (List.range (min size blockSize)).map
      (fs.disk.readBlock (fs.disk.dir i).firstBlock bcache).byte ∧
    (doRead path size bcache fs).2.2 = (min size blockSize : ℕ) := by
  unfold doRead
  simp only [Fs.loadDirectory_bdir, hf]
  exact ⟨rfl, trivial⟩

/-- The first block of a file that has one holds its first bytes. -/
theorem Chains.readBlock_first (hC : Chains fs.disk fl ch) (hi : i ∈ live fs.disk.dir)
    (hne : ch i ≠ []) (bcache : Block) {p : ℕ} (hp : p < 512) :
    some ((fs.disk.readBlock (fs.disk.dir i).firstBlock bcache).byte p) =
      fileByte fs.disk (ch i) p := by
  have hfile := hC.file i hi
  have hids := hC.file_ids i hi
  cases hc : ch i with
  | nil => exact absurd hc hne
  | cons b post =>
    rw [hc] at hfile hids
    have hb : b < 10 := (hids b (List.mem_cons_self ..)).2
    rw [hfile.head_eq, Disk.readBlock_of_lt hb, fileByte, Nat.div_eq_of_lt hp,
      Nat.mod_eq_of_lt hp]
    rfl

/-- CORRECT (read): a read of at most a block from an existing file returns what the file holds
    exactly when it does not reach past the end of the file. -/
theorem doRead_file_iff (hL : Layout fs.disk fl ch)
    (hf : findDirEntry (fs.disk.blk rootdirBid) path.tail = some i) (hsize : size ≤ blockSize) :
    ReadsFile fs path i size (ch i) ↔ size ≤ (fs.disk.dir i).sizeBytes := by
  have hi := live_of_find hf
  constructor
  · intro h
    have hret := (h (Buf.zero 512)).1
    rw [(doRead_found size _ hf).2, min_eq_left hsize] at hret
    exact min_eq_left_iff.mp (Int.ofNat_inj.mp hret).symm
  · intro hle bcache
    obtain ⟨hbytes, hret⟩ := doRead_found size bcache hf
    rw [hbytes, hret, min_eq_left hsize, min_eq_left hle, List.map_map]
    refine ⟨rfl, ?_⟩
    refine List.map_congr_left fun p hp => ?_
    rw [List.mem_range] at hp
    -- a file that has bytes has a block
    have hne : ch i ≠ [] := fun hc => by
      have hzero := hL.size i hi hc
      omega
    exact hL.pool.readBlock_first hi hne bcache (hp.trans_le hsize)

end read

/-- The file `/a` with four blocks and 1537 bytes. -/
def fourBlocksFs : Fs := (writeBlock3.exec emptyFileFs).1

theorem wellFormed_fourBlocksFs : WellFormed fourBlocksFs.disk :=
  wellFormed_exec wellFormed_emptyFileFs ⟨by decide, by decide⟩ trivial (by decide +kernel)

theorem find_fourBlocksFs :
    findDirEntry (fourBlocksFs.disk.blk rootdirBid) pathA.tail = some 0 := by decide +kernel

/-- The first block of the 1537 bytes is read. -/
theorem doRead_file_iff_block : ∃ fl ch, Layout fourBlocksFs.disk fl ch ∧
    (ReadsFile fourBlocksFs pathA 0 512 (ch 0) ↔ 512 ≤ (fourBlocksFs.disk.dir 0).sizeBytes) := by
  obtain ⟨fl, ch, hL⟩ := wellFormed_fourBlocksFs.layout
  exact ⟨fl, ch, hL, doRead_file_iff hL find_fourBlocksFs (by decide)⟩

/-- Reading a byte of an empty file returns one, the first of the buffer that was not filled. -/
theorem doRead_past_end : WellFormed emptyFileFs.disk ∧
    findDirEntry (emptyFileFs.disk.blk rootdirBid) pathA.tail = some 0 ∧
    Walk emptyFileFs.disk.map eofBlock (emptyFileFs.disk.dir 0).firstBlock [] ∧
    (∀ bcache, (doRead pathA 1 bcache emptyFileFs).2 = ([bcache.byte 0], 1)) ∧
    ¬ReadsFile emptyFileFs pathA 0 1 [] := by
  have hsize : (emptyFileFs.disk.dir 0).sizeBytes = 0 := by decide +kernel
  have hfirst : (emptyFileFs.disk.dir 0).firstBlock = eofBlock := by decide +kernel
  have hfind : findDirEntry (emptyFileFs.disk.blk rootdirBid) pathA.tail = some 0 := by
    decide +kernel
  have hnblk : ¬eofBlock < emptyFileFs.disk.nblk := by decide +kernel
  refine ⟨wellFormed_emptyFileFs, hfind, hfirst, fun bcache => ?_, fun h => ?_⟩
  · obtain ⟨hbytes, hret⟩ := doRead_found 1 bcache hfind
    rw [hfirst, Disk.readBlock, if_neg hnblk] at hbytes
    exact Prod.ext hbytes hret
  · have hret := (h (Buf.zero 512)).1
    rw [(doRead_found 1 _ hfind).2, hsize] at hret
    exact absurd hret (by decide)

/-! ### Truncating -/

section truncate
variable {fs : Fs} {path : CStr} {i : ℕ}

/-- A path that names an entry is not the root. -/
theorem not_isRoot_of_find {bdir : Block} (hf : findDirEntry bdir path.tail = some i) :
    isRoot path = false := by
  obtain ⟨-, hlive, hname⟩ := findDirEntry_some hf
  rw [isRoot, decide_eq_false_iff_not]
  intro hroot
  have hnul : path.tail.byte 0 = 0 := by
    rw [CStr.byte_eq_zero_iff, CStr.tail_chars, hroot]
    exact Nat.zero_le _
  rw [strncmp, strncmpFrom_eq_zero_iff] at hname
  have hbyte := hname 0 (by decide) fun j hj => absurd hj (Nat.not_lt_zero j)
  rw [Nat.add_zero] at hbyte
  rw [DirEntry.isEmpty, ← hbyte, hnul] at hlive
  cases hlive

/-- `do_getattr` reports the size in the entry of the path. -/
theorem doGetattr_size (env : Env) (st : Stat)
    (hf : findDirEntry (fs.disk.blk rootdirBid) path.tail = some i) :
    (doGetattr env path st fs).2.1.size = (fs.disk.dir i).sizeBytes := by
  rw [doGetattr, if_neg (by rw [not_isRoot_of_find hf]; decide)]
  simp only [Fs.loadDirectory_bdir, hf]
  rfl

/-- CORRECT (truncation): truncating an existing file to `n`, whatever blocks it has, sets its
    length and keeps the bytes below exactly when `n` is 0. -/
theorem doTruncate_length_iff {bs : List ℕ}
    (hf : findDirEntry (fs.disk.blk rootdirBid) path.tail = some i) (n : ℕ) :
    SetsLength fs path i n bs ↔ n = 0 := by
  obtain ⟨fs', hw, hs, -⟩ := doTruncate_found n hf
  have hname : ∀ j, ((fs'.disk.blk rootdirBid).directory j).name =
      ((fs.disk.blk rootdirBid).directory j).name := by
    intro j
    have hdir := congrFun hs.dir j
    rw [Disk.dir] at hdir
    rw [hdir]
    rcases eq_or_ne j i with rfl | hne
    · rw [grownDir_self]; rfl
    · rw [grownDir_of_ne hne]; rfl
  have hf' : findDirEntry (fs'.disk.blk rootdirBid) path.tail = some i := by
    rw [findDirEntry_congr hname, hf]
  have hentry : fs'.disk.dir i = { fs.disk.dir i with sizeBytes := 0, firstBlock := eofBlock } := by
    rw [hs.dir, grownDir_self]
  rw [SetsLength, hw]
  constructor
  · intro h
    have hsize := ((h rfl).1 ⟨0, 0, 0⟩ ⟨0, 0, 0, 0, 0, 0, 0⟩).2
    rw [doGetattr_size _ _ hf', hentry] at hsize
    exact hsize.symm
  · rintro rfl -
    refine ⟨fun env st => ⟨doGetattr_found hf', ?_⟩, [], by rw [hentry]; rfl, fun p hp => ?_⟩
    · rw [doGetattr_size _ _ hf', hentry]
    · rw [Nat.zero_min] at hp
      exact absurd hp (Nat.not_lt_zero p)

end truncate

/-- The file of 1537 bytes is truncated to nothing. -/
theorem doTruncate_length_iff_fourBlocks :
    SetsLength fourBlocksFs pathA 0 0 [2, 3, 4, 5] ↔ 0 = 0 :=
  doTruncate_length_iff find_fourBlocksFs 0

/-- Truncating the file to 100 bytes leaves none. -/
theorem doTruncate_drops : WellFormed fourBlocksFs.disk ∧
    findDirEntry (fourBlocksFs.disk.blk rootdirBid) pathA.tail = some 0 ∧
    Walk fourBlocksFs.disk.map eofBlock (fourBlocksFs.disk.dir 0).firstBlock [2, 3, 4, 5] ∧
    (doTruncate pathA 100 fourBlocksFs).2 = 0 ∧
    ((doTruncate pathA 100 fourBlocksFs).1.disk.dir 0).sizeBytes = 0 ∧
    ¬SetsLength fourBlocksFs pathA 0 100 [2, 3, 4, 5] := by
  have hret : (doTruncate pathA 100 fourBlocksFs).2 = 0 := by decide +kernel
  have hsize : ((doTruncate pathA 100 fourBlocksFs).1.disk.dir 0).sizeBytes = 0 := by
    decide +kernel
  refine ⟨wellFormed_fourBlocksFs, find_fourBlocksFs, ?_, hret, hsize, fun h => ?_⟩
  · have hend : fourBlocksFs.disk.map 5 = eofBlock := by decide +kernel
    exact ⟨by decide +kernel, by decide, by decide +kernel, by decide, by decide +kernel,
      by decide, by decide +kernel, by decide, hend⟩
  · have hst := ((h hret).1 ⟨0, 0, 0⟩ ⟨0, 0, 0, 0, 0, 0, 0⟩).2
    revert hst
    decide +kernel

end OsLabs.Ssfs

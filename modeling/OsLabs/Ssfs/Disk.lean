import OsLabs.Schemes.Bytes

/-! @src lab4_fs/rawdisk.c, lab4_fs/fs_support.h | name:disk | scheme:bytes

    The raw disk is a file read and written a block of 512 bytes at a time. A block has three views
    (`union fs_block_t`): its bytes, 256 block ids of two bytes, and 16 directory entries of 32
    bytes. The offsets in an entry are those of the struct on a 64-bit machine: the name in bytes
    0..11, the mode in 12..15, the size in 16..23, the first block in 24..25, and padding. -/

namespace OsLabs.Ssfs
open Schemes

abbrev blockSize : ℕ := 512
abbrev fsNblocks : ℕ := 10
abbrev blkmapBid : ℕ := 0
abbrev rootdirBid : ℕ := 1
abbrev fsNameLen : ℕ := 12
abbrev eofBlock : ℕ := 0xFFFF
abbrev dirEntriesPerBlock : ℕ := 16

/-- `union fs_block_t`, bytewise: `BLOCK_SIZE` bytes. -/
abbrev Block := Buf 512

/-- `dir_entry`, without its padding. -/
@[ext] structure DirEntry where
  name : Buf 12
  mode : ℕ
  sizeBytes : ℕ
  firstBlock : ℕ

/-- `dir_entry_is_empty`. -/
def DirEntry.isEmpty (d : DirEntry) : Bool := d.name.byte 0 = 0

namespace Block

/-- `blk.blockmap[i]`; an index past the block reads as 0 here. -/
def blockmap (b : Block) (i : ℕ) : ℕ := b.getLE (2 * i) 2

/-- `blk.blockmap[i] = v`. -/
def setBlockmap (b : Block) (i v : ℕ) : Block := b.putLE (2 * i) 2 v

/-- `blk.directory[i]`. -/
def directory (b : Block) (i : ℕ) : DirEntry :=
  { name := b.slice (32 * i) 12
    mode := b.getLE (32 * i + 12) 4
    sizeBytes := b.getLE (32 * i + 16) 8
    firstBlock := b.getLE (32 * i + 24) 2 }

/-- `blk.directory[i].name`, written as a whole. -/
def setName (b : Block) (i : ℕ) (src : Mem) : Block := b.copy (32 * i) 12 src

/-- `blk.directory[i].mode = v`. -/
def setMode (b : Block) (i v : ℕ) : Block := b.putLE (32 * i + 12) 4 v

/-- `blk.directory[i].size_bytes = v`. -/
def setSizeBytes (b : Block) (i v : ℕ) : Block := b.putLE (32 * i + 16) 8 v

/-- `blk.directory[i].first_block = v`. -/
def setFirstBlock (b : Block) (i v : ℕ) : Block := b.putLE (32 * i + 24) 2 v

theorem blockmap_lt (b : Block) (i : ℕ) : b.blockmap i < 65536 := Mem.getLE_lt ..

/-- Below 256, a map entry is a variable of its own. -/
theorem blockmap_setBlockmap (b : Block) {i v : ℕ} (hi : i < 256) (hv : v < 65536) :
    (b.setBlockmap i v).blockmap = Function.update b.blockmap i v := by
  funext j
  rcases eq_or_ne j i with rfl | hne
  · rw [Function.update_self, blockmap, setBlockmap, Buf.getLE_putLE (by omega)]
    exact Nat.mod_eq_of_lt hv
  · rw [Function.update_of_ne hne, blockmap, blockmap, setBlockmap, Buf.getLE_putLE_out (by omega)]

/-- A write that stays inside one field of entry `i` changes no other entry. -/
theorem directory_copy_out {b : Block} {i j off k : ℕ} {src : Mem} (hne : j ≠ i)
    (hlo : 32 * i ≤ off) (hhi : off + k ≤ 32 * i + 32) :
    directory (b.copy off k src) j = b.directory j := by
  simp only [directory]
  rw [Buf.slice_copy_out (by omega), Buf.getLE_copy_out (by omega), Buf.getLE_copy_out (by omega),
    Buf.getLE_copy_out (by omega)]

theorem directory_setName (b : Block) {i : ℕ} (hi : i < 16) (src : Mem) :
    (b.setName i src).directory =
      Function.update b.directory i { b.directory i with name := Buf.ofMem 12 src } := by
  funext j
  rcases eq_or_ne j i with rfl | hne
  · rw [Function.update_self]
    ext1 <;> simp only [directory, setName]
    · exact Buf.slice_copy (by omega)
    all_goals exact Buf.getLE_copy_out (by omega)
  · rw [Function.update_of_ne hne]
    exact directory_copy_out hne (by omega) (by omega)

theorem directory_setMode (b : Block) {i : ℕ} (hi : i < 16) (v : ℕ) :
    (b.setMode i v).directory =
      Function.update b.directory i { b.directory i with mode := v % 2 ^ 32 } := by
  funext j
  rcases eq_or_ne j i with rfl | hne
  · rw [Function.update_self]
    ext1 <;> simp only [directory, setMode]
    · exact Buf.slice_putLE_out (by omega)
    · exact Buf.getLE_putLE (by omega)
    all_goals exact Buf.getLE_putLE_out (by omega)
  · rw [Function.update_of_ne hne]
    exact directory_copy_out hne (by omega) (by omega)

theorem directory_setSizeBytes (b : Block) {i : ℕ} (hi : i < 16) (v : ℕ) :
    (b.setSizeBytes i v).directory =
      Function.update b.directory i { b.directory i with sizeBytes := v % 2 ^ 64 } := by
  funext j
  rcases eq_or_ne j i with rfl | hne
  · rw [Function.update_self]
    ext1 <;> simp only [directory, setSizeBytes]
    · exact Buf.slice_putLE_out (by omega)
    · exact Buf.getLE_putLE_out (by omega)
    · exact Buf.getLE_putLE (by omega)
    · exact Buf.getLE_putLE_out (by omega)
  · rw [Function.update_of_ne hne]
    exact directory_copy_out hne (by omega) (by omega)

theorem directory_setFirstBlock (b : Block) {i : ℕ} (hi : i < 16) (v : ℕ) :
    (b.setFirstBlock i v).directory =
      Function.update b.directory i { b.directory i with firstBlock := v % 2 ^ 16 } := by
  funext j
  rcases eq_or_ne j i with rfl | hne
  · rw [Function.update_self]
    ext1 <;> simp only [directory, setFirstBlock]
    · exact Buf.slice_putLE_out (by omega)
    · exact Buf.getLE_putLE_out (by omega)
    · exact Buf.getLE_putLE_out (by omega)
    · exact Buf.getLE_putLE (by omega)
  · rw [Function.update_of_ne hne]
    exact directory_copy_out hne (by omega) (by omega)

end Block

/-- The open disk file: `nblk` blocks, at least the `FS_NBLOCKS` that `openDisk` asks for. -/
structure Disk where
  nblk : ℕ
  blk : ℕ → Block
  enough : fsNblocks ≤ nblk

namespace Disk

/-- `readBlock`: past the end of the file nothing is read and the buffer keeps what it held. -/
def readBlock (d : Disk) (blocknr : ℕ) (block : Block) : Block :=
  if blocknr < d.nblk then d.blk blocknr else block

/-- `writeBlock`: past its end the file grows, with a hole of zeros before the block. -/
def writeBlock (d : Disk) (blocknr : ℕ) (block : Block) : Disk where
  nblk := max d.nblk (blocknr + 1)
  blk := fun i => if i = blocknr then block else if i < d.nblk then d.blk i else Buf.zero 512
  enough := le_trans d.enough (le_max_left ..)

/-- The block map on the disk. -/
def map (d : Disk) : ℕ → ℕ := (d.blk blkmapBid).blockmap

/-- The directory on the disk. -/
def dir (d : Disk) : ℕ → DirEntry := (d.blk rootdirBid).directory

theorem readBlock_of_lt {d : Disk} {i : ℕ} (hi : i < 10) (b : Block) :
    d.readBlock i b = d.blk i := if_pos (lt_of_lt_of_le hi d.enough)

@[simp] theorem writeBlock_self (d : Disk) (i : ℕ) (b : Block) : (d.writeBlock i b).blk i = b :=
  if_pos rfl

theorem writeBlock_of_ne {d : Disk} {i j : ℕ} {b : Block} (hj : j < 10) (hne : j ≠ i) :
    (d.writeBlock i b).blk j = d.blk j := by
  rw [writeBlock]
  simp only
  rw [if_neg hne, if_pos (lt_of_lt_of_le hj d.enough)]

end Disk

end OsLabs.Ssfs

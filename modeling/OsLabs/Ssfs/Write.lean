import Mathlib.Tactic.Linarith
import OsLabs.Ssfs.Layout

/-! @src lab4_fs/ssfs.c | name:do_write | scheme:pool

    What one `do_write` on a laid-out disk does. With `c` the chain of the file, `fl` the free list
    and `k` the (wrapped) block counter, the write stands at block `k` of `c ++ fl`: it links the
    `k + 1 - c.length` blocks it is short of, or fails when there are not that many. The file size
    and a first block are saved before that loop, the map after it.

        find ──none──▶ -ENOENT
         │
        grow ──no first block──▶ -ENOSPC         (nothing saved)
         │ directory saved if the size grows
        navigate ──free list runs out──▶ -ENOSPC (map not saved)
         │
        patch block k, save map ──▶ size -/

namespace OsLabs.Ssfs
open Schemes

/-! ### The blocks file data is written to -/

/-- The blocks written from `bcache`, in order. -/
def dataWrites (log : List Access) : List ℕ :=
  log.filterMap fun a => match a with
    | .write bid .bcache => some bid
    | _ => none

theorem dataWrites_append (l l' : List Access) :
    dataWrites (l ++ l') = dataWrites l ++ dataWrites l' := List.filterMap_append ..

theorem allocBlock_dataWrites (fs : Fs) :
    dataWrites fs.allocBlock.1.log = dataWrites fs.log := by
  simp only [Fs.allocBlock, allocateIndices]
  split <;> simp [dataWrites]

theorem navigate_dataWrites : ∀ (n crt : ℕ) (fs : Fs),
    dataWrites (navigate crt fs n).1.log = dataWrites fs.log
  | 0, _, _ => rfl
  | n + 1, crt, fs => by
      have hnote : dataWrites (fs.note (.index crt)).log = dataWrites fs.log := by
        simp [dataWrites]
      by_cases hend : fs.bmap.blockmap crt = eofBlock
      · by_cases ha : (fs.note (.index crt)).allocBlock.2 = eofBlock
        · rw [navigate_full hend ha, allocBlock_dataWrites, hnote]
        · rw [navigate_append hend ha, navigate_dataWrites]
          exact (allocBlock_dataWrites _).trans hnote
      · rw [navigate_follow hend, navigate_dataWrites, hnote]

theorem growFile_dataWrites (di size offset : ℕ) (fs : Fs) :
    dataWrites (growFile di size offset fs).1.log = dataWrites fs.log := by
  have hstart : dataWrites (startFile di fs).1.log = dataWrites fs.log := by
    rw [startFile]
    split
    · exact allocBlock_dataWrites fs
    · rfl
  rw [growFile]
  split
  · split
    · rename_i heq; rw [← hstart, heq]
    · rename_i heq
      rw [Fs.saveDirectory_log, dataWrites_append, ← hstart, heq]
      simp [dataWrites]
  · rfl

/-! ### The exits of `do_write` -/

section exits
variable {path : CStr} {buffer : Mem} {size offset di : ℕ} {bcache : Block} {fs : Fs}

theorem doWrite_absent (hf : findDirEntry (fs.disk.blk rootdirBid) path.tail = none) :
    doWrite path buffer size offset bcache fs = (fs.loadDirectory, -enoent) := by
  rw [doWrite]
  simp only [Fs.loadDirectory_bdir, hf]

/-- The state `growFile` starts from. -/
def loaded (fs : Fs) : Fs := fs.loadDirectory.loadBlockmap

variable {g g' : Fs}

theorem doWrite_ungrown (hf : findDirEntry (fs.disk.blk rootdirBid) path.tail = some di)
    (hg : growFile di size offset (loaded fs) = (g, false)) :
    doWrite path buffer size offset bcache fs = (g, -enospc) := by
  rw [loaded] at hg
  rw [doWrite]
  simp only [Fs.loadDirectory_bdir, hf, hg]

theorem doWrite_stuck (hf : findDirEntry (fs.disk.blk rootdirBid) path.tail = some di)
    (hg : growFile di size offset (loaded fs) = (g, true))
    (hn : navigate (g.bdir.directory di).firstBlock g (offset / 512 % 2 ^ 16) = (g', none)) :
    doWrite path buffer size offset bcache fs = (g', -enospc) := by
  rw [loaded] at hg
  rw [doWrite]
  simp only [Fs.loadDirectory_bdir, hf, hg, hn]

theorem doWrite_written {y : ℕ}
    (hf : findDirEntry (fs.disk.blk rootdirBid) path.tail = some di)
    (hg : growFile di size offset (loaded fs) = (g, true))
    (hn : navigate (g.bdir.directory di).firstBlock g (offset / 512 % 2 ^ 16) = (g', some y)) :
    doWrite path buffer size offset bcache fs =
      ((patchBlock y (offset % 512) (min size (512 - offset % 512)) buffer bcache g').saveBlockmap,
        (size : ℤ).bmod (2 ^ 32)) := by
  rw [loaded] at hg
  rw [doWrite]
  simp only [Fs.loadDirectory_bdir, hf, hg, hn]

end exits

/-! ### Patching a block and saving the map -/

section patch
variable {y off k : ℕ} {buffer : Mem} {bcache : Block} {fs : Fs}

/-- The state after the last two steps of a write. -/
def patched (y off k : ℕ) (buffer : Mem) (bcache : Block) (fs : Fs) : Fs :=
  (patchBlock y off k buffer bcache fs).saveBlockmap

theorem patched_mapBlock : (patched y off k buffer bcache fs).disk.blk blkmapBid = fs.bmap := by
  rw [patched, Fs.saveBlockmap_disk, Disk.writeBlock_self]; rfl

theorem patched_map : (patched y off k buffer bcache fs).disk.map = fs.bmap.blockmap := by
  rw [Disk.map, patched_mapBlock]

theorem patched_block (hy : y < 10) (h0 : y ≠ 0) :
    (patched y off k buffer bcache fs).disk.blk y = (fs.disk.blk y).copy off k buffer := by
  rw [patched, Fs.saveBlockmap_disk, Disk.writeBlock_of_ne hy h0]
  simp only [patchBlock, Fs.note_disk, Disk.writeBlock_self, Disk.readBlock_of_lt hy]

theorem patched_other {b : ℕ} (hb : b < 10) (h0 : b ≠ 0) (hy : b ≠ y) :
    (patched y off k buffer bcache fs).disk.blk b = fs.disk.blk b := by
  rw [patched, Fs.saveBlockmap_disk, Disk.writeBlock_of_ne hb h0]
  simp only [patchBlock, Fs.note_disk, Disk.writeBlock_of_ne hb hy]

theorem patched_dataWrites :
    dataWrites (patched y off k buffer bcache fs).log = dataWrites fs.log ++ [y] := by
  simp [patched, patchBlock, dataWrites]

end patch

/-! ### Growing the file -/

section grow
variable {size offset i n : ℕ} {fs : Fs}

@[simp] theorem loaded_disk : (loaded fs).disk = fs.disk := rfl
@[simp] theorem loaded_dir : (loaded fs).bdir.directory = fs.disk.dir := by
  simp [loaded, Disk.dir]
@[simp] theorem loaded_map : (loaded fs).bmap.blockmap = fs.disk.map := by
  simp [loaded, Disk.map]

@[simp] theorem loaded_dataWrites : dataWrites (loaded fs).log = dataWrites fs.log := by
  simp [loaded, dataWrites]

theorem grown_dataWrites {g : Fs} {ok : Bool} (h : growFile i size offset (loaded fs) = (g, ok)) :
    dataWrites g.log = dataWrites fs.log := by
  have hgd := growFile_dataWrites i size offset (loaded fs)
  rw [h] at hgd
  exact hgd.trans loaded_dataWrites

theorem startFile_nonempty (h : (fs.disk.dir i).firstBlock ≠ eofBlock) :
    startFile i (loaded fs) = (loaded fs, true) := by
  rw [startFile, loaded_dir, if_neg h]

/-- An empty file gets the block the allocator returns, if that is one. -/
theorem startFile_empty (hi : i < 16) (h : (fs.disk.dir i).firstBlock = eofBlock) {b : ℕ}
    (hb : b < 2 ^ 16) (halloc : (loaded fs).allocBlock.2 = b) : ∃ g,
    startFile i (loaded fs) = (g, decide (b ≠ eofBlock)) ∧ g.disk = fs.disk ∧
      g.bdir.directory = Function.update fs.disk.dir i { fs.disk.dir i with firstBlock := b } ∧
      g.bmap = (loaded fs).allocBlock.1.bmap := by
  have hdir : (Block.setFirstBlock (loaded fs).allocBlock.1.bdir i b).directory =
      Function.update fs.disk.dir i { fs.disk.dir i with firstBlock := b } := by
    rw [Block.directory_setFirstBlock _ hi, Fs.allocBlock_bdir, loaded_dir, Nat.mod_eq_of_lt hb]
  rw [startFile, loaded_dir, if_pos h]
  simp only [halloc, hdir, Function.update_self]
  exact ⟨_, rfl, rfl, hdir, rfl⟩

theorem growFile_same (hle : (offset + size) % 2 ^ 64 ≤ (fs.disk.dir i).sizeBytes) :
    growFile i size offset (loaded fs) = (loaded fs, true) := by
  rw [growFile, loaded_dir]
  exact if_neg (not_lt.mpr hle)

theorem growFile_grow {g : Fs} {ok : Bool} (hn : (offset + size) % 2 ^ 64 = n)
    (hlt : (fs.disk.dir i).sizeBytes < n) (hs : startFile i (loaded fs) = (g, ok)) :
    growFile i size offset (loaded fs) = if ok = false then (g, false) else
      ({ g with bdir := g.bdir.setSizeBytes i (offset + size) }.saveDirectory, true) := by
  rw [growFile, loaded_dir, hn, hs]
  exact (if_pos hlt).trans (by cases ok <;> rfl)

theorem growFile_noBlock (hn : (offset + size) % 2 ^ 64 = n)
    (hlt : (fs.disk.dir i).sizeBytes < n) (hi : i < 16)
    (hfirst : (fs.disk.dir i).firstBlock = eofBlock) (hfree : fs.disk.map 0 = 0) :
    ∃ g, growFile i size offset (loaded fs) = (g, false) ∧ g.disk = fs.disk := by
  have halloc := (Fs.allocBlock_none (loaded fs) (by rw [loaded_map]; exact hfree)).1
  obtain ⟨g, hs, hd, -, -⟩ := startFile_empty hi hfirst (by decide) halloc
  exact ⟨g, (growFile_grow hn hlt hs).trans (if_pos (by decide)), hd⟩

/-- The directory after a file has grown: only its size and first block differ. -/
def grownDir (d : Disk) (i newSize crt : ℕ) : ℕ → DirEntry :=
  Function.update d.dir i { d.dir i with sizeBytes := newSize, firstBlock := crt }

theorem growFile_start {b : ℕ} (hn : (offset + size) % 2 ^ 64 = n)
    (hlt : (fs.disk.dir i).sizeBytes < n) (hi : i < 16)
    (hfirst : (fs.disk.dir i).firstBlock = eofBlock)
    (hfree : fs.disk.map 0 = b) (h0 : b ≠ 0) (hb : b < 256) :
    ∃ g, growFile i size offset (loaded fs) = (g, true) ∧
      g.disk = fs.disk.writeBlock rootdirBid g.bdir ∧
      g.bdir.directory = grownDir fs.disk i n b ∧
      g.bmap.blockmap = pop 0 eofBlock fs.disk.map := by
  obtain ⟨h2, h1⟩ := Fs.allocBlock_some (loaded fs) (by rw [loaded_map]; exact hfree) h0 hb
  obtain ⟨g, hs, hd, hdir, hmap⟩ := startFile_empty hi hfirst (by omega) h2
  refine ⟨_, (growFile_grow hn hlt hs).trans (if_neg ?_), ?_, ?_, ?_⟩
  · have hne : b ≠ 65535 := by omega
    simp [hne]
  · rw [Fs.saveDirectory_disk, Fs.saveDirectory_bdir, hd]
  · rw [Fs.saveDirectory_bdir, Block.directory_setSizeBytes _ hi, hdir, Function.update_self,
      Function.update_idem, hn, grownDir]
  · rw [Fs.saveDirectory_bmap, hmap, h1, loaded_map]

theorem growFile_more (hn : (offset + size) % 2 ^ 64 = n)
    (hlt : (fs.disk.dir i).sizeBytes < n) (hi : i < 16)
    (hfirst : (fs.disk.dir i).firstBlock ≠ eofBlock) :
    ∃ g, growFile i size offset (loaded fs) = (g, true) ∧
      g.disk = fs.disk.writeBlock rootdirBid g.bdir ∧
      g.bdir.directory = grownDir fs.disk i n (fs.disk.dir i).firstBlock ∧
      g.bmap.blockmap = fs.disk.map := by
  refine ⟨_, (growFile_grow hn hlt (startFile_nonempty hfirst)).trans (if_neg (by decide)),
    rfl, ?_, loaded_map⟩
  rw [Fs.saveDirectory_bdir, Block.directory_setSizeBytes _ hi, loaded_dir, hn]
  rfl

end grow

/-! ### From a layout to the block that is written -/

/-- The state after a successful `growFile`: the file has a first block `crt`, and its chain and the
    free list together are still the blocks `c ++ fl` they were. -/
structure Ready (d : Disk) (i newSize : ℕ) (c fl : List ℕ) (g : Fs) (crt : ℕ) (post fl' : List ℕ) :
    Prop where
  blocks : crt :: post ++ fl' = c ++ fl
  len : post.length = c.length - 1
  free : Walk g.bmap.blockmap 0 (g.bmap.blockmap 0) fl'
  chain : Walk g.bmap.blockmap eofBlock crt (crt :: post)
  frame : ∀ x, x ≠ 0 → x ∉ c → x ∉ fl → g.bmap.blockmap x = d.map x
  first : (g.bdir.directory i).firstBlock = crt
  dir : g.disk.dir = grownDir d i (max (d.dir i).sizeBytes newSize) crt
  data : ∀ b < 10, b ≠ rootdirBid → g.disk.blk b = d.blk b
  same : newSize ≤ (d.dir i).sizeBytes → g.disk = d

section ready
variable {fs : Fs} {fl : List ℕ} {ch : ℕ → List ℕ} {i size offset : ℕ}

theorem Chains.block_range (hL : Chains fs.disk fl ch) (hi : i ∈ live fs.disk.dir) {x : ℕ}
    (hx : x ∈ ch i ++ fl) : 2 ≤ x ∧ x < 10 :=
  (List.mem_append.mp hx).elim (hL.file_ids i hi x) (hL.free_ids x)

theorem Chains.nodup (hL : Chains fs.disk fl ch) (hi : i ∈ live fs.disk.dir) :
    (0 :: (ch i ++ fl)).Nodup :=
  List.nodup_cons.mpr ⟨fun h => by have := hL.block_range hi h; omega, hL.nodup_append hi⟩

theorem ready_same (hL : Chains fs.disk fl ch) (hi : i ∈ live fs.disk.dir)
    (hle : offset + size ≤ (fs.disk.dir i).sizeBytes) {crt : ℕ} {post : List ℕ}
    (hc : ch i = crt :: post) :
    Ready fs.disk i (offset + size) (ch i) fl (loaded fs) crt post fl := by
  have hfile := hL.file i hi
  rw [hc] at hfile
  have hfirst : (fs.disk.dir i).firstBlock = crt := hfile.head_eq
  refine ⟨by rw [hc], by rw [hc]; rfl, by rw [loaded_map]; exact hL.free,
    by rw [loaded_map]; exact ⟨rfl, hfile.2⟩, fun _ _ _ _ => by rw [loaded_map],
    by rw [loaded_dir]; exact hfirst, ?_, fun _ _ _ => rfl, fun _ => rfl⟩
  rw [loaded_disk, grownDir, max_eq_left hle, ← hfirst, Function.update_eq_self]

theorem ready_more (hL : Chains fs.disk fl ch) (hi : i ∈ live fs.disk.dir)
    (hlt : (fs.disk.dir i).sizeBytes < offset + size) (hr : offset + size < 2 ^ 64) {crt : ℕ}
    {post : List ℕ} (hc : ch i = crt :: post) :
    ∃ g, growFile i size offset (loaded fs) = (g, true) ∧
      Ready fs.disk i (offset + size) (ch i) fl g crt post fl := by
  have hfile := hL.file i hi
  rw [hc] at hfile
  have hfirst : (fs.disk.dir i).firstBlock = crt := hfile.head_eq
  have hne : (fs.disk.dir i).firstBlock ≠ eofBlock := by
    rw [hfirst]
    exact hfile.2.1
  obtain ⟨g, hg, hdisk, hdir, hmap⟩ := growFile_more (Nat.mod_eq_of_lt hr) hlt hi.1 hne
  refine ⟨g, hg, by rw [hc], by rw [hc]; rfl, by rw [hmap]; exact hL.free,
    by rw [hmap]; exact ⟨rfl, hfile.2⟩, fun _ _ _ _ => by rw [hmap], ?_, ?_, ?_, fun h => by omega⟩
  · rw [hdir, grownDir, Function.update_self]; exact hfirst
  · rw [hdisk, Disk.dir, Disk.writeBlock_self, hdir, hfirst, max_eq_right hlt.le]
  · intro b hb hne
    rw [hdisk, Disk.writeBlock_of_ne hb hne]

theorem ready_start (hL : Chains fs.disk fl ch) (hi : i ∈ live fs.disk.dir)
    (hlt : (fs.disk.dir i).sizeBytes < offset + size) (hr : offset + size < 2 ^ 64)
    (hc : ch i = []) {b : ℕ} {rest : List ℕ} (hfl : fl = b :: rest) :
    ∃ g, growFile i size offset (loaded fs) = (g, true) ∧
      Ready fs.disk i (offset + size) (ch i) fl g b [] rest := by
  have hfirst : (fs.disk.dir i).firstBlock = eofBlock := by
    have hfile := hL.file i hi
    rw [hc] at hfile; exact hfile
  have hfree := hL.free
  have hnd := hL.nodup hi
  have hb := hL.block_range hi (x := b) (by simp [hfl])
  rw [hc, List.nil_append, hfl] at hnd
  rw [hfl] at hfree
  obtain ⟨g, hg, hdisk, hdir, hmap⟩ := growFile_start (Nat.mod_eq_of_lt hr) hlt hi.1 hfirst
    hfree.head_eq (by omega) (by omega)
  refine ⟨g, hg, by rw [hc, hfl]; rfl, by rw [hc]; rfl, ?_, ?_, ?_, ?_, ?_, ?_, fun h => by omega⟩
  · rw [hmap]; exact pop_free _ hfree hnd
  · rw [hmap]; exact ⟨rfl, ne_eofBlock hb.2, pop_block hfree.head_eq⟩
  · intro x hx _ hxf
    rw [hmap]; exact pop_out hfree.head_eq hx (fun he => hxf (by simp [hfl, he]))
  · rw [hdir, grownDir, Function.update_self]
  · rw [hdisk, Disk.dir, Disk.writeBlock_self, hdir, max_eq_right hlt.le]
  · intro x hx hne
    rw [hdisk, Disk.writeBlock_of_ne hx hne]

/-- The table a ready file is written with is closed over 0 and the blocks of the file and the free
    list. -/
theorem Ready.closed {d : Disk} {newSize crt : ℕ} {c fl post fl' : List ℕ} {g : Fs}
    (h : Ready d i newSize c fl g crt post fl') (hids : ∀ x ∈ c ++ fl, 2 ≤ x ∧ x < 10)
    (hnd : (0 :: (c ++ fl)).Nodup) :
    Closed {x | x ∈ 0 :: (c ++ fl)} 0 0 eofBlock g.bmap.blockmap fl' := by
  rw [← h.blocks] at hids hnd ⊢
  refine Closed.of_walks h.free h.chain hnd (fun he => ?_)
  rcases List.mem_cons.mp he with h0 | hmem
  · exact absurd h0 (by decide)
  · exact absurd (hids _ hmem).2 (by decide)

/-- What a write that returns its size has done: the file stands on `c` and the first blocks of the
    free list, block `k` of it is patched, and the rest of the disk is as it was. -/
structure Wrote (d d' : Disk) (i newSize k : ℕ) (c fl : List ℕ) (patch : Block → Block) (y : ℕ) :
    Prop where
  block : (c ++ fl)[k]? = some y
  dir : ∃ crt, d'.dir = grownDir d i (max (d.dir i).sizeBytes newSize) crt ∧
    Walk d'.map eofBlock crt (c ++ fl.take (k + 1 - c.length))
  free : Walk d'.map 0 (d'.map 0) (fl.drop (k + 1 - c.length))
  frame : ∀ x, x ≠ 0 → x ∉ c → x ∉ fl → d'.map x = d.map x
  patched : d'.blk y = patch (d.blk y)
  data : ∀ b, 2 ≤ b → b < 10 → b ≠ y → d'.blk b = d.blk b

variable {path : CStr} {buffer : Mem} {bcache : Block} {g : Fs} {crt : ℕ} {post fl' : List ℕ}

/-- Either the file was empty and `crt` is its new first block, or it stands as it was. -/
theorem Ready.split {d : Disk} {newSize : ℕ} {c : List ℕ}
    (h : Ready d i newSize c fl g crt post fl') :
    (c = [] ∧ post = [] ∧ fl = crt :: fl') ∨ (c = crt :: post ∧ fl' = fl) := by
  have hb := h.blocks
  have hlen := h.len
  cases c with
  | nil =>
    obtain rfl : post = [] := List.length_eq_zero_iff.mp hlen
    exact Or.inl ⟨rfl, rfl, hb.symm⟩
  | cons a c =>
    rw [List.cons_append, List.cons_append] at hb
    obtain ⟨rfl, htail⟩ := List.cons.inj hb
    obtain ⟨rfl, hfl⟩ := List.append_inj htail (by simpa using hlen)
    exact Or.inr ⟨rfl, hfl⟩

/-- On a ready file the loop computes `seek`. -/
theorem Ready.navigate_eq (hL : Chains fs.disk fl ch) (hi : i ∈ live fs.disk.dir)
    (h : Ready fs.disk i (offset + size) (ch i) fl g crt post fl') (n : ℕ) :
    ((navigate crt g n).1.bmap.blockmap, (navigate crt g n).2) =
      seek 0 0 eofBlock g.bmap.blockmap crt n := by
  refine (navigate_seek ?_ _ ?_ (h.closed (fun x hx => hL.block_range hi hx) (hL.nodup hi))).1
  · intro x hx
    rcases List.mem_cons.mp hx with rfl | hx
    · decide
    · have := hL.block_range hi hx; omega
  · have hcrt : crt ∈ 0 :: (ch i ++ fl) := by
      rw [← h.blocks]
      simp
    exact hcrt

theorem Ready.eof_not_free (hL : Chains fs.disk fl ch) (hi : i ∈ live fs.disk.dir)
    (h : Ready fs.disk i (offset + size) (ch i) fl g crt post fl') : eofBlock ∉ fl' := by
  intro he
  have hmem : eofBlock ∈ ch i ++ fl := by rw [← h.blocks]; simp [he]
  exact absurd (hL.block_range hi hmem).2 (by decide)

section loop
variable (hL : Chains fs.disk fl ch) (hi : i ∈ live fs.disk.dir)
  (hf : findDirEntry (fs.disk.blk rootdirBid) path.tail = some i)
  (hg : growFile i size offset (loaded fs) = (g, true))
  (hready : Ready fs.disk i (offset + size) (ch i) fl g crt post fl')
include hL hi hf hg hready

/-- The write fails in the loop when the chain and the free list are too short. -/
theorem doWrite_outOfBlocks (hk : (ch i ++ fl).length ≤ offset / 512 % 2 ^ 16) : ∃ fs',
    doWrite path buffer size offset bcache fs = (fs', -enospc) ∧ fs'.disk = g.disk ∧
      dataWrites fs'.log = dataWrites fs.log := by
  have hnd := hL.nodup hi
  rw [← hready.blocks] at hk hnd
  have hnone := seek_none (n := offset / 512 % 2 ^ 16) hready.free hready.chain hnd
    (hready.eof_not_free hL hi) (by
      simp only [List.length_append, List.length_cons] at hk; omega)
  have hn2 : (navigate crt g (offset / 512 % 2 ^ 16)).2 = none :=
    (congrArg Prod.snd (hready.navigate_eq hL hi _)).trans hnone
  have hnav : navigate (g.bdir.directory i).firstBlock g (offset / 512 % 2 ^ 16) =
      ((navigate crt g (offset / 512 % 2 ^ 16)).1, none) := by rw [hready.first, ← hn2]
  refine ⟨_, doWrite_stuck hf hg hnav, (navigate_frame ..).1, ?_⟩
  rw [navigate_dataWrites, grown_dataWrites hg]

/-- Otherwise the write lands on block `k` of the chain followed by the free list. -/
theorem doWrite_wrote (hk : offset / 512 % 2 ^ 16 < (ch i ++ fl).length) : ∃ fs' y,
    doWrite path buffer size offset bcache fs = (fs', (size : ℤ).bmod (2 ^ 32)) ∧
      Wrote fs.disk fs'.disk i (offset + size) (offset / 512 % 2 ^ 16) (ch i) fl
        (fun b => b.copy (offset % 512) (min size (512 - offset % 512)) buffer) y ∧
      dataWrites fs'.log = dataWrites fs.log ++ [y] := by
  have hnd := hL.nodup hi
  have hlen := congrArg List.length hready.blocks
  simp only [List.length_append, List.length_cons] at hlen hk
  rw [← hready.blocks] at hnd
  obtain ⟨nx', y, hs, hy, hgrown⟩ := seek_some (n := offset / 512 % 2 ^ 16) hready.free
    hready.chain hnd (hready.eof_not_free hL hi) (by omega)
  have hnav := (hready.navigate_eq hL hi (offset / 512 % 2 ^ 16)).trans hs
  set n := navigate crt g (offset / 512 % 2 ^ 16) with hn
  obtain ⟨hmap, hsome⟩ := Prod.mk.inj hnav
  obtain ⟨hdisk, -⟩ := navigate_frame (offset / 512 % 2 ^ 16) crt g
  rw [← hn] at hdisk
  have hyr : 2 ≤ y ∧ y < 10 := hL.block_range hi (by
    rw [← hready.blocks]; exact List.mem_of_getElem? hy)
  have hgy : g.disk.blk y = fs.disk.blk y := hready.data y hyr.2 (ne_rootdirBid hyr.1)
  refine ⟨patched y (offset % 512) (min size (512 - offset % 512)) buffer bcache n.1, y,
    doWrite_written hf hg (by rw [hready.first, ← hsome]), ?_, ?_⟩
  · -- the blocks beyond the old chain come from the free list
    have htake : crt :: post ++ fl'.take (offset / 512 % 2 ^ 16 - post.length) =
        ch i ++ fl.take (offset / 512 % 2 ^ 16 + 1 - (ch i).length) ∧
        fl'.drop (offset / 512 % 2 ^ 16 - post.length) =
          fl.drop (offset / 512 % 2 ^ 16 + 1 - (ch i).length) := by
      rcases hready.split with ⟨hc, rfl, hfl⟩ | ⟨hc, rfl⟩
      · rw [hc, hfl]; exact ⟨rfl, rfl⟩
      · rw [hc, List.length_cons, Nat.add_sub_add_right]; exact ⟨rfl, rfl⟩
    refine ⟨by rw [← hready.blocks]; exact hy, ⟨crt, ?_, ?_⟩, ?_, ?_, ?_, ?_⟩
    · rw [← hready.dir, Disk.dir, Disk.dir,
        patched_other (by decide) (by decide) (ne_rootdirBid hyr.1).symm, hdisk]
    · rw [patched_map, hmap, ← htake.1]; exact hgrown.chain
    · rw [patched_map, hmap, ← htake.2]; exact hgrown.free
    · intro x hx hxc hxf
      have hout : x ∉ crt :: post ++ fl' := by
        rw [hready.blocks, List.mem_append, not_or]; exact ⟨hxc, hxf⟩
      rw [List.mem_append, not_or] at hout
      rw [patched_map, hmap, hgrown.frame x hx hout.1 hout.2, hready.frame x hx hxc hxf]
    · rw [patched_block hyr.2 (by omega), hdisk, hgy]
    · intro b hb2 hb hne
      rw [patched_other hb (by omega) hne, hdisk]
      exact hready.data b hb (ne_rootdirBid hb2)
  · rw [patched_dataWrites, hn, navigate_dataWrites, grown_dataWrites hg]

end loop

/-- The exits of a write to file `i` of a laid-out disk `d`: the disk it leaves, its result, and the
    blocks it has written data to. -/
inductive WriteExit (d : Disk) (i : ℕ) (c fl : List ℕ) (buffer : Mem) (size offset : ℕ) :
    Disk → ℤ → List ℕ → Prop
  /-- an empty file, and no block to start it with -/
  | noBlock (hc : c = []) (hfl : fl = []) (hlt : (d.dir i).sizeBytes < offset + size) :
      WriteExit d i c fl buffer size offset d (-enospc) []
  /-- an empty write to an empty file: the data goes to block `EOF_BLOCK`, outside the disk -/
  | idle (hc : c = []) (hsize : size = 0) (hoffset : offset = 0) {d' : Disk}
      (hsame : ∀ b < 10, d'.blk b = d.blk b) :
      WriteExit d i c fl buffer size offset d' 0 [eofBlock]
  /-- the blocks run out in the loop: the directory may be saved, the map is not -/
  | stuck (hne : c ++ fl ≠ []) (hk : (c ++ fl).length ≤ offset / 512 % 2 ^ 16) {d' : Disk} {crt : ℕ}
      (hdata : ∀ b < 10, b ≠ rootdirBid → d'.blk b = d.blk b)
      (hdir : d'.dir = grownDir d i (max (d.dir i).sizeBytes (offset + size)) crt)
      (hsame : offset + size ≤ (d.dir i).sizeBytes → d' = d) :
      WriteExit d i c fl buffer size offset d' (-enospc) []
  | wrote (hk : offset / 512 % 2 ^ 16 < (c ++ fl).length) {d' : Disk} {y : ℕ}
      (hw : Wrote d d' i (offset + size) (offset / 512 % 2 ^ 16) c fl
        (fun b => b.copy (offset % 512) (min size (512 - offset % 512)) buffer) y) :
      WriteExit d i c fl buffer size offset d' ((size : ℤ).bmod (2 ^ 32)) [y]

/-- Once the file is ready, the loop decides. -/
theorem doWrite_ready_exit (hL : Chains fs.disk fl ch) (hi : i ∈ live fs.disk.dir)
    (hf : findDirEntry (fs.disk.blk rootdirBid) path.tail = some i)
    (hg : growFile i size offset (loaded fs) = (g, true))
    (hready : Ready fs.disk i (offset + size) (ch i) fl g crt post fl') : ∃ fs' ret ws,
    doWrite path buffer size offset bcache fs = (fs', ret) ∧
      dataWrites fs'.log = dataWrites fs.log ++ ws ∧
      WriteExit fs.disk i (ch i) fl buffer size offset fs'.disk ret ws := by
  rcases lt_or_ge (offset / 512 % 2 ^ 16) (ch i ++ fl).length with hk | hk
  · obtain ⟨fs', y, hw, hwrote, hlog⟩ := doWrite_wrote hL hi hf hg hready hk
    exact ⟨fs', _, [y], hw, hlog, .wrote hk hwrote⟩
  · obtain ⟨fs', hw, hdisk, hlog⟩ := doWrite_outOfBlocks hL hi hf hg hready hk
    refine ⟨fs', _, [], hw, by rw [hlog, List.append_nil], ?_⟩
    rw [hdisk]
    exact .stuck (by rw [← hready.blocks]; simp) hk hready.data hready.dir hready.same

/-- A file that grows or has blocks is ready, unless it is empty and there is no block to start it
    with. -/
theorem growFile_ready (hL : Chains fs.disk fl ch) (hi : i ∈ live fs.disk.dir)
    (hr : offset + size < 2 ^ 63) (hb : (fs.disk.dir i).sizeBytes < offset + size ∨ ch i ≠ []) :
    (∃ g, growFile i size offset (loaded fs) = (g, false) ∧ ch i = [] ∧ fl = [] ∧
      (fs.disk.dir i).sizeBytes < offset + size ∧ g.disk = fs.disk) ∨
    ∃ g crt post fl', growFile i size offset (loaded fs) = (g, true) ∧
      Ready fs.disk i (offset + size) (ch i) fl g crt post fl' := by
  cases hc : ch i with
  | cons crt post =>
    rw [← hc]
    rcases lt_or_ge (fs.disk.dir i).sizeBytes (offset + size) with hlt | hle
    · obtain ⟨g, hg, hready⟩ := ready_more hL hi hlt (by omega) hc
      exact Or.inr ⟨g, crt, post, fl, hg, hready⟩
    · exact Or.inr ⟨loaded fs, crt, post, fl, growFile_same ((Nat.mod_le ..).trans hle),
        ready_same hL hi hle hc⟩
  | nil =>
    have hlt := hb.resolve_right (not_not.mpr hc)
    cases hfl : fl with
    | cons b rest =>
      obtain ⟨g, hg, hready⟩ := ready_start hL hi hlt (by omega) hc hfl
      rw [← hc, ← hfl]
      exact Or.inr ⟨g, b, [], rest, hg, hready⟩
    | nil =>
      have hfirst := hL.file i hi
      have hfree := hL.free
      rw [hc] at hfirst
      rw [hfl] at hfree
      obtain ⟨g, hg, hdisk⟩ := growFile_noBlock (Nat.mod_eq_of_lt (by omega)) hlt hi.1
        hfirst hfree
      exact Or.inl ⟨g, hg, rfl, rfl, hlt, hdisk⟩

/-- A write that grows its file, or goes to a file that has blocks, takes one of the exits. -/
theorem doWrite_backed_exit (buffer : Mem) (bcache : Block) (hL : Chains fs.disk fl ch)
    (hi : i ∈ live fs.disk.dir) (hf : findDirEntry (fs.disk.blk rootdirBid) path.tail = some i)
    (hr : offset + size < 2 ^ 63) (hb : (fs.disk.dir i).sizeBytes < offset + size ∨ ch i ≠ []) :
    ∃ fs' ret ws, doWrite path buffer size offset bcache fs = (fs', ret) ∧
      dataWrites fs'.log = dataWrites fs.log ++ ws ∧
      WriteExit fs.disk i (ch i) fl buffer size offset fs'.disk ret ws := by
  rcases growFile_ready hL hi hr hb with ⟨g, hg, hc, hfl, hlt, hdisk⟩ |
    ⟨g, crt, post, fl', hg, hready⟩
  · refine ⟨g, _, [], doWrite_ungrown hf hg, ?_, by rw [hdisk]; exact .noBlock hc hfl hlt⟩
    rw [grown_dataWrites hg, List.append_nil]
  · exact doWrite_ready_exit hL hi hf hg hready

/-- Every write to a file of a laid-out disk takes one of the exits. -/
theorem doWrite_exit (buffer : Mem) (bcache : Block) (hL : Layout fs.disk fl ch)
    (hi : i ∈ live fs.disk.dir) (hf : findDirEntry (fs.disk.blk rootdirBid) path.tail = some i)
    (hr : offset + size < 2 ^ 63) : ∃ fs' ret ws,
    doWrite path buffer size offset bcache fs = (fs', ret) ∧
      dataWrites fs'.log = dataWrites fs.log ++ ws ∧
      WriteExit fs.disk i (ch i) fl buffer size offset fs'.disk ret ws := by
  by_cases hb : (fs.disk.dir i).sizeBytes < offset + size ∨ ch i ≠ []
  · exact doWrite_backed_exit buffer bcache hL.pool hi hf hr hb
  · -- nothing to write and nowhere to write it
    rw [not_or, not_lt, not_not] at hb
    obtain ⟨hle, hc⟩ := hb
    have hfirst := hL.pool.file i hi
    have hsize := hL.size i hi hc
    obtain rfl : size = 0 := by omega
    obtain rfl : offset = 0 := by omega
    rw [hc] at hfirst ⊢
    have hnav : navigate ((loaded fs).bdir.directory i).firstBlock (loaded fs)
        (0 / 512 % 2 ^ 16) = (loaded fs, some eofBlock) := by
      rw [loaded_dir]; exact congrArg (fun b => navigate b (loaded fs) 0) hfirst
    refine ⟨_, 0, [eofBlock], doWrite_written hf (growFile_same (Nat.zero_le _)) hnav, ?_,
      .idle rfl rfl rfl ?_⟩
    · rw [← patched, patched_dataWrites, loaded_dataWrites]
    · intro b hb
      rw [← patched]
      rcases eq_or_ne b 0 with rfl | h0
      · rw [patched_mapBlock, loaded, Fs.loadBlockmap_bmap, Fs.loadDirectory_disk]
      · rw [patched_other hb h0 (ne_eofBlock hb), loaded_disk]

end ready

end OsLabs.Ssfs

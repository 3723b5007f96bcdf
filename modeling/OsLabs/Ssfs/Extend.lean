import OsLabs.Ssfs.Atomic

/-! @src lab4_fs/ssfs.c, lab4_fs/fs_support.c | name:extend | scheme:pool

    How many blocks a write takes. With `c` blocks in the chain and block `k` asked for, it needs
    `k + 1 - c` more, whether the first of them starts an empty file or all of them are linked in
    the loop. It takes exactly these, from the head of the free list and in their order, or none.

        need = 2     a → b → EOF        0 → x → y → z → 0
                     a → b → x → y → EOF        0 → z → 0                            -/

namespace OsLabs.Ssfs
open Schemes

/-- The map entries in use: the head of the free list, the free blocks and the chains. -/
def InUse (d : Disk) (fl : List ℕ) (ch : ℕ → List ℕ) (x : ℕ) : Prop :=
  x = 0 ∨ x ∈ fl ∨ ∃ j ∈ live d.dir, x ∈ ch j

/-- The entries that change when file `i` takes `need` blocks: the head of the free list, the blocks
    taken, and the last block of the old chain. -/
def Relinked (fl : List ℕ) (ch : ℕ → List ℕ) (i need x : ℕ) : Prop :=
  0 < need ∧ (x = 0 ∨ x ∈ fl.take need ∨ (ch i).getLast? = some x)

/-- File `i` has taken the first `need` free blocks, and no other entry of the map has changed. -/
structure Extended (d d' : Disk) (fl : List ℕ) (ch : ℕ → List ℕ) (i need : ℕ) : Prop where
  free : Walk d'.map 0 (d'.map 0) (fl.drop need)
  chain : Walk d'.map eofBlock (d'.dir i).firstBlock (ch i ++ fl.take need)
  frame : ∀ x, InUse d fl ch x → ¬Relinked fl ch i need x → d'.map x = d.map x

section extend
variable {fs : Fs} {d d' : Disk} {fl : List ℕ} {ch : ℕ → List ℕ} {i size offset : ℕ}

/-- A write that has landed on block `k` has extended its file by the blocks it was short of. -/
theorem Wrote.extended {k newSize y : ℕ} {patch : Block → Block} (hC : Chains d fl ch)
    (hi : i ∈ live d.dir) (hw : Wrote d d' i newSize k (ch i) fl patch y) :
    Extended d d' fl ch i (k + 1 - (ch i).length) := by
  obtain ⟨crt, hdir, hchain⟩ := hw.dir
  refine ⟨hw.free, ?_, fun x hx hkeep => ?_⟩
  · rw [hdir, grownDir_self]
    exact hchain
  · have hnone : k + 1 - (ch i).length = 0 ∨ 0 < k + 1 - (ch i).length := Nat.eq_zero_or_pos _
    have hfree := hw.free
    generalize k + 1 - (ch i).length = need at hfree hchain hkeep hnone
    by_cases hxc : x ∈ ch i
    · -- a block of the file itself: all but the last keep their links
      rcases hnone with rfl | hpos
      · rw [List.take_zero, List.append_nil] at hchain
        exact (hC.file i hi).agree hchain hxc
      · exact (hC.file i hi).agree_append hchain hxc
          fun hlast => hkeep ⟨hpos, Or.inr (Or.inr hlast)⟩
    by_cases hxf : x ∈ fl
    · -- a free block that has not been taken
      have hsplit : fl.take need ++ fl.drop need = fl := List.take_append_drop ..
      have hdrop : x ∈ fl.drop need := by
        rw [← hsplit, List.mem_append] at hxf
        refine hxf.resolve_left fun htake => hkeep ⟨?_, Or.inr (Or.inl htake)⟩
        rcases hnone with rfl | hpos
        · exact absurd htake (by rw [List.take_zero]; exact List.not_mem_nil)
        · exact hpos
      obtain ⟨p, r, hr⟩ := List.append_of_mem hdrop
      rw [hr] at hfree
      have hold : Walk d.map 0 (d.map 0) ((fl.take need ++ p) ++ x :: r) := by
        rw [List.append_assoc, ← hr, hsplit]
        exact hC.free
      rw [hfree.next_eq, hold.next_eq]
    · rcases eq_or_ne x 0 with rfl | h0
      · -- no block was taken, so the free list still starts where it did
        rcases hnone with rfl | hpos
        · rw [List.drop_zero] at hfree
          rw [hfree.start_eq, hC.free.start_eq]
        · exact absurd ⟨hpos, Or.inl rfl⟩ hkeep
      · exact hw.frame x h0 hxc hxf

/-- CORRECT (extension): a write of at least one byte below block 65536 fails with -ENOSPC when it
    needs more blocks than are free; otherwise it returns its size and has extended the file by
    just the blocks it needs. -/
theorem doWrite_extends {path : CStr} (buffer : Mem) (bcache : Block) (hL : Layout fs.disk fl ch)
    (hf : findDirEntry (fs.disk.blk rootdirBid) path.tail = some i)
    (hk : offset / blockSize < 65536) (hpos : 1 ≤ size) (hsize : size < 2 ^ 31) :
    (fl.length < offset / blockSize + 1 - (ch i).length →
      (doWrite path buffer size offset bcache fs).2 = -enospc) ∧
    (offset / blockSize + 1 - (ch i).length ≤ fl.length →
      (doWrite path buffer size offset bcache fs).2 = size ∧
      Extended fs.disk (doWrite path buffer size offset bcache fs).1.disk fl ch i
        (offset / blockSize + 1 - (ch i).length)) := by
  have hi := live_of_find hf
  have hblk : offset / blockSize = offset / 512 := rfl
  rw [hblk] at hk ⊢
  have hmod : offset / 512 % 2 ^ 16 = offset / 512 := Nat.mod_eq_of_lt hk
  have hr : offset + size < 2 ^ 63 := by omega
  obtain ⟨fs', ret, ws, hw, -, hexit⟩ := doWrite_exit buffer bcache hL hi hf hr
  rw [hw]
  simp only
  generalize fs'.disk = d' at hexit ⊢
  cases hexit with
  | noBlock hc hfl =>
    rw [hc, hfl, List.length_nil]
    exact ⟨fun _ => rfl, fun h => by omega⟩
  | idle _ hzero => omega
  | stuck _ hk' =>
    rw [hmod, List.length_append] at hk'
    exact ⟨fun _ => rfl, fun h => by omega⟩
  | wrote hk' hwrote =>
    rw [hmod, List.length_append] at hk'
    rw [hmod] at hwrote
    refine ⟨fun h => by omega, fun _ => ⟨?_, hwrote.extended hL.pool hi⟩⟩
    exact Int.bmod_eq_of_le (by omega) (by omega)

end extend

/-- Block 3 of an empty file, on a disk with 8 free blocks: four are taken. -/
theorem doWrite_extends_block3 : ∃ fl ch, Layout emptyFileFs.disk fl ch ∧
    (doWrite pathA (fun _ => 7) 1 1536 (Buf.zero 512) emptyFileFs).2 = (1 : ℕ) ∧
    Extended emptyFileFs.disk
      (doWrite pathA (fun _ => 7) 1 1536 (Buf.zero 512) emptyFileFs).1.disk fl ch 0
      (1536 / blockSize + 1 - (ch 0).length) := by
  obtain ⟨fl, ch, hL⟩ := wellFormed_emptyFileFs.layout
  have hfresh : Walk freshFs.disk.map 0 (freshFs.disk.map 0) (List.range' 2 8) :=
    (layout_format _ _).pool.free
  have hmap : ∀ x ∈ 0 :: List.range' 2 8, emptyFileFs.disk.map x = freshFs.disk.map x := by
    decide +kernel
  have hfree : Walk emptyFileFs.disk.map 0 (emptyFileFs.disk.map 0) (List.range' 2 8) := by
    rw [hmap 0 (List.mem_cons_self ..)]
    exact hfresh.congr fun x hx => hmap x (List.mem_cons_of_mem _ hx)
  have hfl : fl.length = 8 := by
    rw [hL.pool.free.unique hfree, List.length_range']
  have hfind : findDirEntry (emptyFileFs.disk.blk rootdirBid) pathA.tail = some 0 := by
    decide +kernel
  have hext := doWrite_extends (fun _ => 7) (Buf.zero 512) hL hfind
    (by decide : 1536 / blockSize < 65536) (le_refl 1) (by decide)
  have hblk : 1536 / blockSize = 3 := rfl
  exact ⟨fl, ch, hL, hext.2 (by rw [hfl, hblk]; omega)⟩

end OsLabs.Ssfs

import OsLabs.Ssfs.Invariant

/-! @src lab4_fs/ssfs.c | name:atomic | scheme:pool

    A call that fails should leave the directory and the block map on the disk alone. Every exit
    but one does: `do_write` gives up before it saves anything when an empty file finds no first
    block, but when the blocks run out in the loop it returns between its two saves. The directory
    then has the new size, and a file that was empty starts at a block that is still free.

        save_directory ──▶ loop ──out of blocks──▶ -ENOSPC
                            │
                            └──▶ save_blockmap ──▶ size -/

namespace OsLabs.Ssfs
open Schemes

/-- If the call failed, both blocks of metadata are as they were, and no entry starts in the saved
    free list. -/
def Atomic (d : Disk) (r : Fs × ℤ) : Prop :=
  r.2 < 0 → r.1.disk.blk rootdirBid = d.blk rootdirBid ∧
    r.1.disk.blk blkmapBid = d.blk blkmapBid ∧
    ∀ i ∈ live r.1.disk.dir, ∀ fl, Walk r.1.disk.map 0 (r.1.disk.map 0) fl →
      (r.1.disk.dir i).firstBlock ∉ fl

/-- A write that grows its file and has a block to start from, but not enough of them to reach the
    block it asks for. -/
def Stranded (d : Disk) (fl : List ℕ) (ch : ℕ → List ℕ) : Call → Prop
  | .write path _ size offset _ => ∃ i,
      findDirEntry (d.blk rootdirBid) path.tail = some i ∧ (d.dir i).sizeBytes < offset + size ∧
        ch i ++ fl ≠ [] ∧ (ch i ++ fl).length ≤ offset / 512 % 2 ^ 16
  | _ => False

section atomic
variable {fs : Fs} {fl : List ℕ} {ch : ℕ → List ℕ} {i : ℕ} {r : Fs × ℤ}

/-- No file starts in the free list. -/
theorem Chains.first_not_free (hC : Chains fs.disk fl ch) (hi : i ∈ live fs.disk.dir) :
    (fs.disk.dir i).firstBlock ∉ fl := by
  intro hmem
  have hfile := hC.file i hi
  cases hc : ch i with
  | nil =>
    rw [hc] at hfile
    have hend : (fs.disk.dir i).firstBlock = eofBlock := hfile
    rw [hend] at hmem
    exact absurd (hC.free_ids _ hmem).2 (by decide)
  | cons b post =>
    rw [hc] at hfile
    have hstart : (fs.disk.dir i).firstBlock = b := hfile.head_eq
    rw [hstart] at hmem
    exact hC.file_free i hi (by rw [hc]; exact List.mem_cons_self ..) hmem

theorem Atomic.of_disk_eq (hC : Chains fs.disk fl ch) (h : r.1.disk = fs.disk) :
    Atomic fs.disk r := by
  intro _
  rw [h]
  refine ⟨rfl, rfl, fun i hi fl' hw => ?_⟩
  rw [hw.unique hC.free]
  exact hC.first_not_free hi

theorem Atomic.of_success {d : Disk} (h : 0 ≤ r.2) : Atomic d r :=
  fun hneg => absurd h (not_le.mpr hneg)

theorem Atomic.untargeted {c : Call} (hC : Chains fs.disk fl ch)
    (h : c.target (fs.disk.blk rootdirBid) = none) : Atomic fs.disk (c.exec fs) :=
  Atomic.of_disk_eq hC (by rw [(exec_untargeted h).1]; rfl)

variable {path : CStr} {buffer : Mem} {size offset : ℕ} {bcache : Block}

/-- A write inside its file saves nothing before it succeeds. -/
theorem doWrite_unsaved (buffer : Mem) (bcache : Block)
    (hf : findDirEntry (fs.disk.blk rootdirBid) path.tail = some i)
    (hle : offset + size ≤ (fs.disk.dir i).sizeBytes) :
    (doWrite path buffer size offset bcache fs).2 = (size : ℤ).bmod (2 ^ 32) ∨
      (doWrite path buffer size offset bcache fs).1.disk = fs.disk := by
  have hframe := (navigate_frame (offset / 512 % 2 ^ 16)
    ((loaded fs).bdir.directory i).firstBlock (loaded fs)).1
  have hg := growFile_same ((Nat.mod_le ..).trans hle)
  cases hn : navigate ((loaded fs).bdir.directory i).firstBlock (loaded fs)
    (offset / 512 % 2 ^ 16) with
  | mk g y =>
    rw [hn] at hframe
    cases y with
    | none => exact Or.inr (by rw [doWrite_stuck hf hg hn]; exact hframe)
    | some y => exact Or.inl (by rw [doWrite_written hf hg hn])

theorem doWrite_atomic_iff (hC : Chains fs.disk fl ch)
    (hr : size < 2 ^ 31 ∧ offset + size < 2 ^ 63)
    (hf : findDirEntry (fs.disk.blk rootdirBid) path.tail = some i) :
    Atomic fs.disk (doWrite path buffer size offset bcache fs) ↔
      ¬((fs.disk.dir i).sizeBytes < offset + size ∧ ch i ++ fl ≠ [] ∧
        (ch i ++ fl).length ≤ offset / 512 % 2 ^ 16) := by
  have hret : 0 ≤ (size : ℤ).bmod (2 ^ 32) := by
    rw [Int.bmod_eq_of_le (by omega) (by omega)]; omega
  rcases lt_or_ge (fs.disk.dir i).sizeBytes (offset + size) with hlt | hle
  · obtain ⟨fs', ret, ws, hw, -, hexit⟩ :=
      doWrite_backed_exit buffer bcache hC (live_of_find hf) hf hr.2 (Or.inl hlt)
    rw [hw]
    generalize hd : fs'.disk = d' at hexit
    cases hexit with
    | noBlock hc hfl =>
      refine iff_of_true (Atomic.of_disk_eq hC hd) (fun h => h.2.1 ?_)
      rw [hc, hfl]; rfl
    | idle _ hsize hoffset => omega
    | stuck hne hk _ hdir =>
      refine iff_of_false (fun h => ?_) (not_not.mpr ⟨hlt, hne, hk⟩)
      -- the saved directory has the new size
      have hsame : fs'.disk.dir = fs.disk.dir := by
        have hneg : -enospc < 0 := by decide
        rw [Disk.dir, Disk.dir, (h hneg).1]
      have hsize := congrArg (fun dir => (dir i).sizeBytes) hsame
      rw [hd, hdir] at hsize
      simp only [grownDir_self, max_eq_right hlt.le] at hsize
      omega
    | wrote hk _ =>
      refine iff_of_true (Atomic.of_success ?_) (fun h => absurd h.2.2 (not_le.mpr hk))
      simpa only using hret
  · refine iff_of_true ?_ (fun h => absurd h.1 (by omega))
    rcases doWrite_unsaved buffer bcache hf hle with h | h
    · exact Atomic.of_success (by rw [h]; exact hret)
    · exact Atomic.of_disk_eq hC h

/-- CORRECT (atomicity): on a disk with chains, a call leaves no trace of its failure exactly when
    it is not a stranded write. -/
theorem atomic_iff (hC : Chains fs.disk fl ch) {c : Call} (hr : c.InRange) :
    Atomic fs.disk (c.exec fs) ↔ ¬Stranded fs.disk fl ch c := by
  cases c with
  | create path m =>
    refine iff_of_true ?_ id
    cases ht : firstEmptyDirEntry (fs.disk.blk rootdirBid) with
    | none => exact Atomic.untargeted hC ht
    | some i =>
      obtain ⟨fs', hw, -⟩ := doCreate_found m ht
      exact Atomic.of_success (by rw [Call.exec, hw])
  | truncate path offset =>
    refine iff_of_true ?_ id
    cases ht : findDirEntry (fs.disk.blk rootdirBid) path.tail with
    | none => exact Atomic.untargeted hC ht
    | some i =>
      obtain ⟨fs', hw, -⟩ := doTruncate_found offset ht
      exact Atomic.of_success (by rw [Call.exec, hw])
  | write path buffer size offset bcache =>
    cases ht : findDirEntry (fs.disk.blk rootdirBid) path.tail with
    | none =>
      refine iff_of_true (Atomic.untargeted hC ht) ?_
      rintro ⟨i, hi, -⟩
      rw [ht] at hi
      cases hi
    | some i =>
      rw [Call.exec, doWrite_atomic_iff hC hr ht, Stranded]
      simp only [ht, Option.some.injEq, exists_eq_left']

end atomic

/-- A disk with the empty file `/a`. -/
def emptyFileFs : Fs := runCalls freshFs [.create pathA 0]

theorem wellFormed_emptyFileFs : WellFormed emptyFileFs.disk :=
  wellFormed_run _ (wellFormed_format _ _)
    ⟨trivial, by simp [Call.Named, pathA, CStr.tail], by decide +kernel, trivial⟩

/-- One byte at block 3 of an empty file. -/
def writeBlock3 : Call := .write pathA (fun _ => 7) 1 1536 (Buf.zero 512)

/-- One byte at block 20 of an empty file, on a disk with 8 free blocks. -/
def writeBlock20 : Call := .write pathA (fun _ => 7) 1 10240 (Buf.zero 512)

/-- The file `/a` takes all the blocks, and `/b` has none. -/
def fullFs : Fs :=
  runCalls freshFs [.create pathA 0, .write pathA (fun _ => 7) 1 3584 (Buf.zero 512),
    .create pathB 0]

theorem wellFormed_fullFs : WellFormed fullFs.disk :=
  wellFormed_run _ (wellFormed_format _ _) ⟨trivial, by simp [Call.Named, pathA, CStr.tail],
    by decide +kernel, ⟨by decide, by decide⟩, trivial, by decide +kernel, trivial,
    by simp [Call.Named, pathB, CStr.tail], by decide +kernel, trivial⟩

/-- One byte at the start of `/b`. -/
def writeB : Call := .write pathB (fun _ => 7) 1 0 (Buf.zero 512)

/-- The write fails with -ENOSPC, and leaves no trace. -/
theorem atomic_iff_writeB : (writeB.exec fullFs).2 = -28 ∧
    Atomic fullFs.disk (writeB.exec fullFs) := by
  obtain ⟨fl, ch, hL⟩ := wellFormed_fullFs.layout
  have hfind : findDirEntry (fullFs.disk.blk rootdirBid) pathB.tail = some 1 := by decide +kernel
  have hfree : fl = [] := hL.pool.free.unique (by decide +kernel)
  have hfile : ch 1 = [] := (hL.pool.file 1 (live_of_find hfind)).unique (by decide +kernel)
  have hr : writeB.InRange := ⟨by decide, by decide⟩
  refine ⟨by decide +kernel, (atomic_iff hL.pool hr).mpr ?_⟩
  rintro ⟨i, hi, -, hne, -⟩
  obtain rfl := Option.some.inj (hfind.symm.trans hi)
  exact hne (by rw [hfree, hfile]; rfl)

/-- The write fails with -ENOSPC, and the saved entry has 10241 bytes and starts at block 2, which
    is the first free block of the saved map. -/
theorem stranded_write_not_atomic : WellFormed emptyFileFs.disk ∧ writeBlock20.InRange ∧
    (writeBlock20.exec emptyFileFs).2 = -28 ∧
    ((writeBlock20.exec emptyFileFs).1.disk.dir 0).sizeBytes = 10241 ∧
    ((writeBlock20.exec emptyFileFs).1.disk.dir 0).firstBlock = 2 ∧
    (writeBlock20.exec emptyFileFs).1.disk.map 0 = 2 ∧
    ¬Atomic emptyFileFs.disk (writeBlock20.exec emptyFileFs) := by
  have hsize : ((writeBlock20.exec emptyFileFs).1.disk.dir 0).sizeBytes = 10241 := by decide +kernel
  refine ⟨wellFormed_emptyFileFs, ⟨by decide, by decide⟩, by decide +kernel, hsize,
    by decide +kernel, by decide +kernel, fun h => ?_⟩
  have hblk := (h (by decide +kernel)).1
  rw [Disk.dir, hblk] at hsize
  revert hsize
  decide +kernel

end OsLabs.Ssfs

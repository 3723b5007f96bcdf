import OsLabs.Ssfs.Atomic

/-! @src lab4_fs/ssfs.c, lab4_fs/fs_support.c | name:isolation | scheme:pool

    Files share the map, the directory block and the free list, but a call works on one entry. The
    other entries keep their record, their chain in the saved map and the bytes of its blocks, and
    file data never goes to block 0 or 1. Both follow from where a call may write: into the first
    two blocks through the directory and the map, and into one block of its own file. -/

namespace OsLabs.Ssfs
open Schemes

/-- The files other than `i`, which had the chains `ch`, are as they were. -/
def Isolated (d d' : Disk) (i : ℕ) (ch : ℕ → List ℕ) : Prop :=
  ∀ j ∈ live d.dir, j ≠ i → d'.dir j = d.dir j ∧
    Walk d'.map eofBlock (d'.dir j).firstBlock (ch j) ∧ ∀ b ∈ ch j, d'.blk b = d.blk b

section isolation
variable {fs : Fs} {d d' : Disk} {fl : List ℕ} {ch : ℕ → List ℕ} {i size offset : ℕ}
  {path : CStr} {buffer : Mem} {bcache : Block}

/-- A call that saves only the directory, and of it only entry `i`. -/
theorem DirSaved.isolated {e : DirEntry} (hC : Chains d fl ch)
    (hs : DirSaved d d' (Function.update d.dir i e)) : Isolated d d' i ch := by
  intro j hj hne
  have hdir : d'.dir j = d.dir j := by rw [hs.dir, Function.update_of_ne hne]
  refine ⟨hdir, ?_, fun b hb => ?_⟩
  · rw [hs.map, hdir]; exact hC.file j hj
  · have hin := hC.file_ids j hj b hb
    exact hs.data b hin.2 (ne_rootdirBid hin.1)

theorem Wrote.isolated {k newSize y : ℕ} {patch : Block → Block} (hC : Chains d fl ch)
    (hi : i ∈ live d.dir) (hw : Wrote d d' i newSize k (ch i) fl patch y) :
    Isolated d d' i ch := by
  intro j hj hne
  obtain ⟨crt, hdir, -⟩ := hw.dir
  have hdisj := hC.file_file j hj i hi hne
  have hentry : d'.dir j = d.dir j := by rw [hdir, grownDir_of_ne hne]
  refine ⟨hentry, ?_, fun b hb => ?_⟩
  · rw [hentry]; exact hC.keep zero_not_data hj hdisj hw.frame
  · have hin := hC.file_ids j hj b hb
    refine hw.data b hin.1 hin.2 ?_
    -- the patched block is one of file `i` or was free
    rintro rfl
    rcases List.mem_append.mp (List.mem_of_getElem? hw.block) with hc | hf
    · exact hdisj hb hc
    · exact hC.file_free j hj hb hf

theorem Isolated.of_blocks_eq (hC : Chains d fl ch) (hsame : ∀ b < 10, d'.blk b = d.blk b) :
    Isolated d d' i ch := by
  obtain ⟨hmap, hdir⟩ := Disk.map_dir_congr fun b hb => hsame b (by omega)
  intro j hj _
  rw [hdir, hmap]
  exact ⟨rfl, hC.file j hj, fun b hb => hsame b (hC.file_ids j hj b hb).2⟩

theorem WriteExit.isolated {ret : ℤ} {ws : List ℕ} (hC : Chains d fl ch) (hi : i ∈ live d.dir)
    (h : WriteExit d i (ch i) fl buffer size offset d' ret ws) (hok : 0 ≤ ret) :
    Isolated d d' i ch := by
  cases h with
  | noBlock => exact absurd hok (by decide)
  | idle _ _ _ hsame => exact Isolated.of_blocks_eq hC hsame
  | stuck => exact absurd hok (by decide)
  | wrote _ hw => exact hw.isolated hC hi

/-- Data goes to data blocks, or off the disk. -/
theorem WriteExit.data_blocks {ret : ℤ} {ws : List ℕ} (hC : Chains fs.disk fl ch)
    (hi : i ∈ live fs.disk.dir)
    (h : WriteExit fs.disk i (ch i) fl buffer size offset d' ret ws) : ∀ b ∈ ws, 2 ≤ b := by
  intro b hb
  cases h with
  | noBlock => cases hb
  | idle => rw [List.mem_singleton.mp hb]; decide
  | stuck => cases hb
  | wrote _ hw =>
    rw [List.mem_singleton.mp hb]
    exact (hC.block_range hi (List.mem_of_getElem? hw.block)).1

/-- The blocks a call writes data to are none of the first two. -/
theorem exec_data_blocks (hL : Layout fs.disk fl ch) {c : Call} (hr : c.InRange) :
    ∃ ws, dataWrites (c.exec fs).1.log = dataWrites fs.log ++ ws ∧ ∀ b ∈ ws, 2 ≤ b := by
  cases ht : c.target (fs.disk.blk rootdirBid) with
  | none =>
    refine ⟨[], ?_, by simp⟩
    rw [(exec_untargeted ht).1]
    simp [dataWrites]
  | some i =>
    rcases exec_targeted ht with
      ⟨fs', e, hw, -, hlog⟩ | ⟨path, buffer, size, offset, bcache, rfl, hf⟩
    · exact ⟨[], by rw [hw, hlog, List.append_nil], by simp⟩
    · have hi := live_of_find hf
      obtain ⟨fs', ret, ws, hw, hlog, hexit⟩ := doWrite_exit buffer bcache hL hi hf hr.2
      exact ⟨ws, by rw [Call.exec, hw, hlog], hexit.data_blocks hL.pool hi⟩

/-- CORRECT (isolation): a call that succeeds leaves every file but its own as it was, and no call
    writes file data into the map or the directory. -/
theorem exec_isolated (hL : Layout fs.disk fl ch) {c : Call} (hr : c.InRange) :
    (0 ≤ (c.exec fs).2 → ∃ i, c.target (fs.disk.blk rootdirBid) = some i ∧
      Isolated fs.disk (c.exec fs).1.disk i ch) ∧
    ∃ ws, dataWrites (c.exec fs).1.log = dataWrites fs.log ++ ws ∧
      blkmapBid ∉ ws ∧ rootdirBid ∉ ws := by
  obtain ⟨ws, hlog, hws⟩ := exec_data_blocks hL hr
  refine ⟨fun hok => ?_, ws, hlog, fun h => absurd (hws _ h) (by decide),
    fun h => absurd (hws _ h) (by decide)⟩
  cases ht : c.target (fs.disk.blk rootdirBid) with
  | none => exact absurd hok (not_le.mpr (exec_untargeted ht).2)
  | some i =>
    refine ⟨i, rfl, ?_⟩
    rcases exec_targeted ht with
      ⟨fs', e, hw, hs, -⟩ | ⟨path, buffer, size, offset, bcache, rfl, hf⟩
    · rw [hw]; exact hs.isolated hL.pool
    · have hi := live_of_find hf
      obtain ⟨fs', ret, ws, hw, -, hexit⟩ := doWrite_exit buffer bcache hL hi hf hr.2
      rw [Call.exec, hw] at hok ⊢
      exact hexit.isolated hL.pool hi hok

end isolation

/-- The files `/a`, of four blocks, and `/b`, of none. -/
def twoFilesFs : Fs := runCalls freshFs [.create pathA 0, writeBlock3, .create pathB 0]

theorem wellFormed_twoFilesFs : WellFormed twoFilesFs.disk :=
  wellFormed_run _ (wellFormed_format _ _) ⟨trivial, by simp [Call.Named, pathA, CStr.tail],
    by decide +kernel, ⟨by decide, by decide⟩, trivial, by decide +kernel, trivial,
    by simp [Call.Named, pathB, CStr.tail], by decide +kernel, trivial⟩

/-- `/b` gets a block while `/a` has four. -/
theorem exec_isolated_twoFiles : ∃ fl ch i, Layout twoFilesFs.disk fl ch ∧
    Isolated twoFilesFs.disk (Call.exec twoFilesFs
      (.write pathB (fun _ => 9) 1 0 (Buf.zero 512))).1.disk i ch := by
  obtain ⟨fl, ch, hL⟩ := wellFormed_twoFilesFs.layout
  have hiso := exec_isolated hL (c := .write pathB (fun _ => 9) 1 0 (Buf.zero 512))
    ⟨by decide, by decide⟩
  obtain ⟨i, -, hi⟩ := hiso.1 (by decide +kernel)
  exact ⟨fl, ch, i, hL, hi⟩

end OsLabs.Ssfs

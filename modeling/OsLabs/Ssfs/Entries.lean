import OsLabs.Ssfs.Write

/-! @src lab4_fs/ssfs.c | name:entries | scheme:pool

    `do_truncate` and `do_create` save the directory and nothing else. Each turns a layout into a
    layout: a truncated file lets go of its chain, a created one starts without one, and a write
    takes its blocks from the head of the free list. -/

namespace OsLabs.Ssfs
open Schemes

/-- A call that saved nothing but the directory. -/
structure DirSaved (d d' : Disk) (dir : ℕ → DirEntry) : Prop where
  dir : d'.dir = dir
  data : ∀ b < 10, b ≠ rootdirBid → d'.blk b = d.blk b

theorem DirSaved.map {d d' : Disk} {dir : ℕ → DirEntry} (h : DirSaved d d' dir) :
    d'.map = d.map := by
  rw [Disk.map, Disk.map, h.data blkmapBid (by decide) (by decide)]

section calls
variable {fs : Fs} {path : CStr} {i : ℕ}

theorem saveDirectory_saved (fs : Fs) (bdir : Block) :
    DirSaved fs.disk { fs with bdir := bdir }.saveDirectory.disk bdir.directory := by
  refine ⟨?_, fun b hb hne => ?_⟩
  · rw [Fs.saveDirectory_disk, Disk.dir, Disk.writeBlock_self]
  · rw [Fs.saveDirectory_disk, Disk.writeBlock_of_ne hb hne]

theorem live_of_find (h : findDirEntry (fs.disk.blk rootdirBid) path.tail = some i) :
    i ∈ live fs.disk.dir := ⟨(findDirEntry_some h).1, (findDirEntry_some h).2.1⟩

theorem doTruncate_absent (offset : ℕ)
    (hf : findDirEntry (fs.disk.blk rootdirBid) path.tail = none) :
    doTruncate path offset fs = (fs.loadDirectory, -enoent) := by
  rw [doTruncate]
  simp only [Fs.loadDirectory_bdir, hf]

theorem doTruncate_found (offset : ℕ)
    (hf : findDirEntry (fs.disk.blk rootdirBid) path.tail = some i) : ∃ fs',
    doTruncate path offset fs = (fs', 0) ∧
      DirSaved fs.disk fs'.disk (grownDir fs.disk i 0 eofBlock) ∧
      dataWrites fs'.log = dataWrites fs.log := by
  have hi := (findDirEntry_some hf).1
  rw [doTruncate]
  simp only [Fs.loadDirectory_bdir, hf]
  refine ⟨_, rfl, ?_, by simp [dataWrites]⟩
  have hsaved := saveDirectory_saved fs.loadDirectory
    (((fs.disk.blk rootdirBid).setSizeBytes i 0).setFirstBlock i eofBlock)
  rw [Block.directory_setFirstBlock _ hi, Block.directory_setSizeBytes _ hi, Function.update_self,
    Function.update_idem] at hsaved
  exact hsaved

theorem doCreate_full (m : UInt32) (hf : firstEmptyDirEntry (fs.disk.blk rootdirBid) = none) :
    doCreate path m fs = (fs.loadDirectory, -enfile) := by
  rw [doCreate]
  simp only [Fs.loadDirectory_bdir, hf]

/-- The entry `do_create` writes. -/
def freshEntry (n : CStr) (m : UInt32) : DirEntry :=
  { name := n.field 12, mode := m.toNat, sizeBytes := 0, firstBlock := eofBlock }

theorem doCreate_found (m : UInt32)
    (hf : firstEmptyDirEntry (fs.disk.blk rootdirBid) = some i) : ∃ fs',
    doCreate path m fs = (fs', 0) ∧
      DirSaved fs.disk fs'.disk (Function.update fs.disk.dir i (freshEntry path.tail m)) ∧
      dataWrites fs'.log = dataWrites fs.log := by
  have hi := (firstEmptyDirEntry_some hf).1
  rw [doCreate]
  simp only [Fs.loadDirectory_bdir, hf]
  refine ⟨_, rfl, ?_, by simp [dataWrites]⟩
  have hsaved := saveDirectory_saved fs.loadDirectory
    (((((fs.disk.blk rootdirBid).setName i path.tail.byte).setMode i m.toNat).setSizeBytes i
      0).setFirstBlock i eofBlock)
  rw [Block.directory_setFirstBlock _ hi, Block.directory_setSizeBytes _ hi,
    Block.directory_setMode _ hi, Block.directory_setName _ hi] at hsaved
  simp only [Function.update_self, Function.update_idem] at hsaved
  rw [Nat.mod_eq_of_lt m.toNat_lt] at hsaved
  exact hsaved

/-- A call that finds no entry to work on fails, and has only looked at the directory. -/
theorem exec_untargeted {c : Call} (h : c.target (fs.disk.blk rootdirBid) = none) :
    (c.exec fs).1 = fs.loadDirectory ∧ (c.exec fs).2 < 0 := by
  have hnfile : -enfile < 0 := by decide
  have hnoent : -enoent < 0 := by decide
  cases c with
  | create path m =>
    rw [Call.exec, doCreate_full m h]
    exact ⟨rfl, hnfile⟩
  | write path buffer size offset bcache =>
    have hf : findDirEntry (fs.disk.blk rootdirBid) path.tail = none := h
    rw [Call.exec, doWrite_absent hf]
    exact ⟨rfl, hnoent⟩
  | truncate path offset =>
    have hf : findDirEntry (fs.disk.blk rootdirBid) path.tail = none := h
    rw [Call.exec, doTruncate_absent offset hf]
    exact ⟨rfl, hnoent⟩

/-- A call on entry `i` either replaces the entry and is done, or is a write. -/
theorem exec_targeted {c : Call} (h : c.target (fs.disk.blk rootdirBid) = some i) :
    (∃ fs' e, c.exec fs = (fs', 0) ∧
      DirSaved fs.disk fs'.disk (Function.update fs.disk.dir i e) ∧
      dataWrites fs'.log = dataWrites fs.log) ∨
    ∃ path buffer size offset bcache, c = .write path buffer size offset bcache ∧
      findDirEntry (fs.disk.blk rootdirBid) path.tail = some i := by
  cases c with
  | create path m =>
    obtain ⟨fs', hw, hs, hlog⟩ := doCreate_found m h
    exact Or.inl ⟨fs', _, hw, hs, hlog⟩
  | write path buffer size offset bcache => exact Or.inr ⟨_, _, _, _, _, rfl, h⟩
  | truncate path offset =>
    obtain ⟨fs', hw, hs, hlog⟩ := doTruncate_found offset h
    exact Or.inl ⟨fs', _, hw, hs, hlog⟩

end calls

/-! ### Layouts after a call -/

section layouts
variable {d d' : Disk} {fl : List ℕ} {ch : ℕ → List ℕ} {i newSize crt : ℕ}

theorem live_grownDir : live (grownDir d i newSize crt) = live d.dir := by
  ext j
  simp only [live, grownDir]
  rcases eq_or_ne j i with rfl | hne
  · simp [DirEntry.isEmpty]
  · simp [Function.update_of_ne hne]

/-- Replacing an entry does not concern the others. -/
theorem live_update {dir : ℕ → DirEntry} {e : DirEntry} {j : ℕ} (h : j ≠ i) :
    j ∈ live (Function.update dir i e) ↔ j ∈ live dir := by
  simp [live, Function.update_of_ne h]

theorem grownDir_of_ne {j : ℕ} (h : j ≠ i) : grownDir d i newSize crt j = d.dir j :=
  Function.update_of_ne h ..

theorem grownDir_self : grownDir d i newSize crt i =
    { d.dir i with sizeBytes := newSize, firstBlock := crt } := Function.update_self ..

theorem zero_not_data : 0 ∉ dataIds := fun h => absurd h.1 (by decide)

theorem Layout.truncate (hL : Layout d fl ch) (hi : i ∈ live d.dir)
    (hs : DirSaved d d' (grownDir d i 0 eofBlock)) : Layout d' fl (Function.update ch i []) := by
  constructor
  · rw [Chains, hs.map, hs.dir, live_grownDir]
    refine hL.pool.replace zero_not_data (hL.pool.file_ids i hi)
      (fun j hj hne => hL.pool.file_file j hj i hi hne) (fun _ _ _ _ => rfl)
      (fun j hj _ => hj) (fun j _ hne => by rw [grownDir_of_ne hne]) hL.pool.free ?_
      (by simpa using hL.pool.free_nodup) (fun x hx => Or.inr (by simpa using hx))
    rw [grownDir_self]; rfl
  · intro j hj hc
    rw [hs.dir] at hj ⊢
    rw [live_grownDir] at hj
    rcases eq_or_ne j i with rfl | hne
    · rw [grownDir_self]
    · rw [Function.update_of_ne hne] at hc
      rw [grownDir_of_ne hne]; exact hL.size j hj hc

/-- A freshly created entry is not empty when its name is not. -/
theorem freshEntry_isEmpty (n : CStr) (m : UInt32) :
    (freshEntry n m).isEmpty = decide (n.chars = []) := by
  rw [DirEntry.isEmpty, freshEntry]
  simp only
  rw [CStr.field_byte n (by decide)]
  simp [CStr.byte_eq_zero_iff]

theorem Layout.create {n : CStr} {m : UInt32} (hL : Layout d fl ch) (hi : i ∉ live d.dir)
    (hs : DirSaved d d' (Function.update d.dir i (freshEntry n m))) :
    Layout d' fl (Function.update ch i []) := by
  have hlive : ∀ j ∈ live d'.dir, j ≠ i → j ∈ live d.dir := by
    intro j hj hne
    rw [hs.dir] at hj
    exact (live_update hne).mp hj
  constructor
  · rw [Chains, hs.map]
    refine hL.pool.replace (c := []) zero_not_data (by simp) (fun _ _ _ => by simp)
      (fun _ _ _ _ => rfl) hlive (fun j _ hne => by rw [hs.dir, Function.update_of_ne hne])
      hL.pool.free ?_ (by simpa using hL.pool.free_nodup) (fun x hx => Or.inr (by simpa using hx))
    rw [hs.dir, Function.update_self]; rfl
  · intro j hj hc
    rcases eq_or_ne j i with rfl | hne
    · rw [hs.dir, Function.update_self]; rfl
    · rw [Function.update_of_ne hne] at hc
      rw [hs.dir, Function.update_of_ne hne]
      exact hL.size j (hlive j hj hne) hc

theorem Layout.wrote {k y : ℕ} {patch : Block → Block} (hL : Layout d fl ch) (hi : i ∈ live d.dir)
    (hw : Wrote d d' i newSize k (ch i) fl patch y) :
    Layout d' (fl.drop (k + 1 - (ch i).length))
      (Function.update ch i (ch i ++ fl.take (k + 1 - (ch i).length))) := by
  obtain ⟨crt, hdir, hchain⟩ := hw.dir
  constructor
  · rw [Chains, hdir, live_grownDir]
    refine hL.pool.replace zero_not_data (hL.pool.file_ids i hi)
      (fun j hj hne => hL.pool.file_file j hj i hi hne) hw.frame (fun j hj _ => hj)
      (fun j _ hne => by rw [grownDir_of_ne hne]) hw.free (by rw [grownDir_self]; exact hchain)
      ?_ ?_
    · rw [List.append_assoc, List.take_append_drop]; exact hL.pool.nodup_append hi
    · intro x hx
      rw [List.append_assoc, List.take_append_drop] at hx
      exact List.mem_append.mp hx
  · intro j hj hc
    rw [hdir] at hj ⊢
    rw [live_grownDir] at hj
    rcases eq_or_ne j i with rfl | hne
    · -- a written file has at least one block
      rw [Function.update_self] at hc
      obtain ⟨hc0, htake⟩ := List.append_eq_nil_iff.mp hc
      have hpos := List.length_pos_of_mem (List.mem_of_getElem? hw.block)
      rw [hc0] at htake hpos
      obtain rfl : fl = [] := by simpa using htake
      simp at hpos
    · rw [Function.update_of_ne hne] at hc
      rw [grownDir_of_ne hne]; exact hL.size j hj hc

end layouts

end OsLabs.Ssfs

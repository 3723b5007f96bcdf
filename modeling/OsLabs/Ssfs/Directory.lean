import OsLabs.Ssfs.Names

/-! @src lab4_fs/fs_support.c, lab4_fs/ssfs.c | name:directory | scheme:cstr

    The directory as a finite map from keys, the first `FS_NAME_LEN` bytes of a name, to entries.
    The two scan loops agree on where the used entries end: `find_dir_entry` stops there without a
    result, and `first_empty_dir_entry` hands out that index.

        0 .. i-1   used, pairwise different keys
        i          what `do_create` fills, unless i is DIR_ENTRIES_PER_BLOCK
        i+1 ..     empty -/

namespace OsLabs.Ssfs
open Schemes

/-- What a name resolves to: the index that `find_dir_entry` returns, and the entry there. -/
def resolve (d : Disk) (n : CStr) : Option (ℕ × DirEntry) :=
  (findDirEntry (d.blk rootdirBid) n).map fun i => (i, d.dir i)

/-- The non-empty entries come first and have different keys, and `find_dir_entry` returns the one
    with the key of the name, or -1 when there is none. -/
structure IsMap (d : Disk) : Prop where
  entries : ∀ i j, i < j → j ∈ live d.dir → i ∈ live d.dir
  key : ∀ i ∈ live d.dir, ∀ j ∈ live d.dir, (d.dir i).name = (d.dir j).name → i = j
  found : ∀ n i, findDirEntry (d.blk rootdirBid) n = some i ↔
    i ∈ live d.dir ∧ (d.dir i).name = n.field fsNameLen
  absent : ∀ n, findDirEntry (d.blk rootdirBid) n = none ↔
    ∀ i ∈ live d.dir, (d.dir i).name ≠ n.field fsNameLen

/-- A file is created under a non-empty name that `find_dir_entry` does not find. -/
def Unused (fs : Fs) : Call → Prop
  | .create path _ =>
    path.tail.chars ≠ [] ∧ findDirEntry (fs.disk.blk rootdirBid) path.tail = none
  | _ => True

/-- The states that calls reach from a formatted disk, whatever they return. -/
inductive Built : Fs → Prop
  | start {fs : Fs} {d : Disk} {blk : Block} (h : fs.disk = formatMyfs d blk) : Built fs
  | step {fs : Fs} {c : Call} (h : Built fs) (hc : Unused fs c) : Built (c.exec fs).1

section built
variable {fs : Fs} {d : Disk} {i : ℕ}

/-- `do_getattr` does not know a name that is not found. -/
theorem doGetattr_absent {env : Env} {st : Stat} {path : CStr} (hn : path.tail.chars ≠ [])
    (hf : findDirEntry (fs.disk.blk rootdirBid) path.tail = none) :
    (doGetattr env path st fs).2.2 = -enoent := by
  have hroot : isRoot path = false := by
    rw [isRoot, decide_eq_false_iff_not]
    intro hp
    rw [CStr.tail_chars, hp] at hn
    exact hn rfl
  rw [doGetattr, hroot]
  simp only [Fs.loadDirectory_bdir, hf, Bool.false_eq_true, if_false]

theorem Unused.allowed {c : Call} (h : Unused fs c) : Allowed fs c := by
  cases c with
  | create path m =>
    exact ⟨h.1, ⟨0, 0, 0⟩, ⟨0, 0, 0, 0, 0, 0, 0⟩, doGetattr_absent h.1 h.2⟩
  | write path buffer size offset bcache => trivial
  | truncate path offset => trivial

theorem Built.keyed (h : Built fs) : Keyed fs.disk.dir := by
  have hsane : Sane fs.disk := by
    induction h with
    | start hd => rw [hd]; exact sane_format ..
    | step _ hc ih => exact ih.exec hc.allowed
  exact hsane.keyed

theorem Keyed.isMap (h : Keyed d.dir) : IsMap d := by
  have hfound : ∀ n i, findDirEntry (d.blk rootdirBid) n = some i ↔
      i ∈ live d.dir ∧ (d.dir i).name = n.field fsNameLen := by
    intro n i
    rw [h.find_iff]
    exact and_congr_right fun _ => eq_comm
  refine ⟨h.entries, h.key, hfound, fun n => ?_⟩
  rw [Option.eq_none_iff_forall_ne_some]
  constructor
  · exact fun hno i hi hname => hno i ((hfound n i).mpr ⟨hi, hname⟩)
  · intro hno i hi
    obtain ⟨hlive, hname⟩ := (hfound n i).mp hi
    exact hno i hlive hname

end built

/-! ### Room for another entry -/

section room
variable {d : Disk} {i : ℕ}

theorem firstEmptyDirEntry_none {b : Block} (h : firstEmptyDirEntry b = none) {j : ℕ}
    (hj : j < 16) : (b.directory j).isEmpty = false := by
  rw [firstEmptyDirEntry] at h
  split at h
  case isTrue hfull =>
    have hlt : j < scan (fun i => !(b.directory i).isEmpty) dirEntriesPerBlock 0 := by
      rw [hfull]; exact hj
    simpa using scan_passed (Nat.zero_le j) hlt
  case isFalse => cases h

/-- There is an empty entry just when there are fewer than `DIR_ENTRIES_PER_BLOCK` others. -/
theorem firstEmptyDirEntry_eq_none_iff : firstEmptyDirEntry (d.blk rootdirBid) = none ↔
    (liveEntries d.dir).length = dirEntriesPerBlock := by
  have hall : (liveEntries d.dir).length = dirEntriesPerBlock ↔
      ∀ j ∈ List.range dirEntriesPerBlock, (!(d.dir j).isEmpty) = true := by
    rw [liveEntries, ← List.length_filter_eq_length_iff, List.length_range]
  rw [hall]
  constructor
  · intro hnone j hj
    have hempty : (d.dir j).isEmpty = false :=
      firstEmptyDirEntry_none hnone (List.mem_range.mp hj)
    rw [hempty]; rfl
  · intro hlive
    cases hf : firstEmptyDirEntry (d.blk rootdirBid) with
    | none => rfl
    | some i =>
      obtain ⟨hi, hempty, -⟩ := firstEmptyDirEntry_some hf
      have hne := hlive i (List.mem_range.mpr hi)
      have hi' : (d.dir i).isEmpty = true := hempty
      rw [hi'] at hne
      cases hne

theorem resolve_eq_of {d' : Disk} {q : CStr}
    (hfind : findDirEntry (d'.blk rootdirBid) q = findDirEntry (d.blk rootdirBid) q)
    (hentry : ∀ i, findDirEntry (d.blk rootdirBid) q = some i → d'.dir i = d.dir i) :
    resolve d' q = resolve d q := by
  rw [resolve, resolve, hfind]
  cases hq : findDirEntry (d.blk rootdirBid) q with
  | none => rfl
  | some i => rw [Option.map_some, Option.map_some, hentry i hq]

end room

/-- CORRECT (finite map): in every state calls reach from a formatted disk, the directory is a map
    from keys to entries. Creating a file under a new key adds that key and leaves the others, as
    long as there is room, and fails without effect otherwise. -/
theorem directory_map {fs : Fs} (h : Built fs) : IsMap fs.disk ∧
    (∀ (path : CStr) (m : UInt32), Unused fs (.create path m) →
      (liveEntries fs.disk.dir).length < dirEntriesPerBlock →
      ∃ fs' i e, doCreate path m fs = (fs', 0) ∧ resolve fs'.disk path.tail = some (i, e) ∧
        e.mode = m.toNat ∧ e.sizeBytes = 0 ∧ e.firstBlock = eofBlock ∧
        ∀ n : CStr, n.field fsNameLen ≠ path.tail.field fsNameLen →
          resolve fs'.disk n = resolve fs.disk n) ∧
    (∀ (path : CStr) (m : UInt32), (liveEntries fs.disk.dir).length = dirEntriesPerBlock →
      (doCreate path m fs).2 = -enfile ∧ (doCreate path m fs).1.disk = fs.disk) := by
  have hk := h.keyed
  refine ⟨hk.isMap, fun path m hnew hroom => ?_, fun path m hfull => ?_⟩
  · cases hf : firstEmptyDirEntry (fs.disk.blk rootdirBid) with
    | none => exact absurd (firstEmptyDirEntry_eq_none_iff.mp hf) hroom.ne
    | some i =>
      obtain ⟨fs', hw, hs, -⟩ := doCreate_found m hf
      -- the new directory is keyed too, so the new key is found where it has been stored
      have hk' : Keyed fs'.disk.dir := by
        rw [hs.dir]; exact hk.create hf hnew.1 hnew.2
      have hentry : fs'.disk.dir i = freshEntry path.tail m := by
        rw [hs.dir, Function.update_self]
      have hfound : findDirEntry (fs'.disk.blk rootdirBid) path.tail = some i := by
        refine hk'.find_iff.mpr ⟨⟨(firstEmptyDirEntry_some hf).1, ?_⟩, ?_⟩
        · rw [hentry, freshEntry_isEmpty]; simpa using hnew.1
        · rw [hentry]; rfl
      refine ⟨fs', i, freshEntry path.tail m, hw, ?_, rfl, rfl, rfl, fun n hne => ?_⟩
      · rw [resolve, hfound, Option.map_some, hentry]
      · refine resolve_eq_of (find_create hk hf hne.symm hs.dir) (fun j hj => ?_)
        have hji := (hk.live_iff hf j).mp (hk.find_iff.mp hj).1
        rw [hs.dir, Function.update_of_ne (by omega)]
  · rw [doCreate_full m (firstEmptyDirEntry_eq_none_iff.mpr hfull)]
    exact ⟨rfl, rfl⟩

/-- `/b` can be created next to `/a`. -/
theorem directory_map_ab : ∃ fs' i e, doCreate pathB 7 emptyFileFs = (fs', 0) ∧
    resolve fs'.disk pathB.tail = some (i, e) ∧ e.mode = 7 ∧
    resolve fs'.disk pathA.tail = resolve emptyFileFs.disk pathA.tail := by
  have hbuilt : Built emptyFileFs :=
    (Built.start rfl).step (c := .create pathA 0)
      ⟨by simp [pathA, CStr.tail], by decide +kernel⟩
  obtain ⟨fs', i, e, hw, hres, hmode, -, -, hother⟩ := (directory_map hbuilt).2.1 pathB 7
    ⟨by simp [pathB, CStr.tail], by decide +kernel⟩ (by decide +kernel)
  refine ⟨fs', i, e, hw, hres, hmode, hother pathA.tail fun heq => ?_⟩
  exact absurd (congrArg (fun b => b.byte 0) heq) (by decide)

end OsLabs.Ssfs

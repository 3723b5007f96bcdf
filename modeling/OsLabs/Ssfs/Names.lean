import Mathlib.Data.List.Forall2
import OsLabs.Ssfs.Reach

/-! @src lab4_fs/ssfs.c, lab4_fs/fs_support.c | name:names | scheme:cstr

    The three readers of the name field. `do_create` fills it with `strncpy`, without a terminator
    when the name has 12 bytes or more; `find_dir_entry` compares 12 bytes; `do_readdir` prints
    through a buffer of 12 bytes, terminator included. So an entry is looked up by the first 12
    bytes of a name, its key, but listed by the first 11. -/

namespace OsLabs.Ssfs
open Schemes

/-- The path `/`. -/
def rootPath : CStr := ⟨[47], by decide⟩

/-- The path of a file name. -/
def slash (n : CStr) : CStr := ⟨47 :: n.chars, by simp [n.noNul]⟩

/-- The non-empty entries, in order. -/
def liveEntries (dir : ℕ → DirEntry) : List ℕ :=
  (List.range dirEntriesPerBlock).filter fun i => !(dir i).isEmpty

/-- Listing and lookup agree: the listed names are different, there is one for every non-empty
    entry in order, and it leads back to that entry. -/
def Agree (fs : Fs) : Prop := ∀ rootb, ∃ names,
  (doReaddir rootPath rootb fs).2 = (dotNames ++ names, 0) ∧ names.Nodup ∧
    List.Forall₂ (fun n i => findDirEntry (fs.disk.blk rootdirBid) n = some i ∧
      ∀ env st, (doGetattr env (slash n) st fs).2.2 = 0) names (liveEntries fs.disk.dir)

/-! ### Lookup -/

section lookup
variable {fs : Fs} {d d' : Disk} {p : CStr} {i : ℕ}

/-- On a keyed directory, looking up a name is looking up its key. -/
theorem Keyed.find_iff (h : Keyed d.dir) : findDirEntry (d.blk rootdirBid) p = some i ↔
    i ∈ live d.dir ∧ p.field 12 = (d.dir i).name := by
  have hkey : ∀ j ∈ live d.dir, strncmp p.byte (d.dir j).name.byte fsNameLen = 0 ↔
      p.field 12 = (d.dir j).name := by
    intro j hj
    obtain ⟨n, hn⟩ := h.name j hj
    rw [hn]
    exact strncmp_field p n
  constructor
  · intro hf
    obtain ⟨hi, hlive, hname⟩ := findDirEntry_some hf
    have hmem : i ∈ live d.dir := ⟨hi, hlive⟩
    exact ⟨hmem, (hkey i hmem).mp hname⟩
  · rintro ⟨hmem, hname⟩
    refine findDirEntry_eq_some hmem.1 hmem.2 ((hkey i hmem).mpr hname) (fun j hj => ?_)
    have hj' := h.entries j i hj hmem
    refine ⟨hj'.2, fun heq => ?_⟩
    have hji := h.key j hj' i hmem (((hkey j hj').mp heq).symm.trans hname)
    omega

/-- What `do_getattr` says is read off the entry it finds. -/
theorem doGetattr_congr {fs' : Fs} {env : Env} {st : Stat} {path : CStr}
    (hfind : findDirEntry (fs'.disk.blk rootdirBid) path.tail =
      findDirEntry (fs.disk.blk rootdirBid) path.tail)
    (hentry : ∀ i, findDirEntry (fs.disk.blk rootdirBid) path.tail = some i →
      fs'.disk.dir i = fs.disk.dir i) :
    (doGetattr env path st fs').2 = (doGetattr env path st fs).2 := by
  rw [doGetattr, doGetattr]
  split
  · rfl
  · simp only [Fs.loadDirectory_bdir, hfind]
    cases hf : findDirEntry (fs.disk.blk rootdirBid) path.tail with
    | none => rfl
    | some i =>
      have hi : (fs'.disk.blk rootdirBid).directory i = (fs.disk.blk rootdirBid).directory i :=
        hentry i hf
      simp only [hi]

theorem doGetattr_found {env : Env} {st : Stat} {path : CStr}
    (hf : findDirEntry (fs.disk.blk rootdirBid) path.tail = some i) :
    (doGetattr env path st fs).2.2 = 0 := by
  rw [doGetattr]
  split
  · rfl
  · simp only [Fs.loadDirectory_bdir, hf]

end lookup

/-! ### Listing -/

section listing
variable {fs : Fs} {d : Disk}

/-- Where `p` holds of a first part only, taking while it holds is filtering. -/
theorem takeWhile_eq_filter {α : Type*} {p : α → Bool} {l : List α}
    (h : l.Pairwise fun a b => p b = true → p a = true) : l.takeWhile p = l.filter p := by
  induction l with
  | nil => rfl
  | cons a l ih =>
    obtain ⟨ha, hl⟩ := List.pairwise_cons.mp h
    cases hp : p a with
    | true => rw [List.takeWhile_cons_of_pos hp, List.filter_cons_of_pos hp, ih hl]
    | false =>
      have hnone : l.filter p = [] := by
        rw [List.filter_eq_nil_iff]
        intro b hb hpb
        rw [ha b hb hpb] at hp
        cases hp
      rw [List.takeWhile_cons_of_neg (by simp [hp]), List.filter_cons_of_neg (by simp [hp]), hnone]

/-- The name entry `i` is listed under. -/
def listedName (dir : ℕ → DirEntry) (i : ℕ) : CStr := snprintf fsNameLen (dir i).name.byte

theorem listNames_eq (rootb : Block) (n i : ℕ) : listNames rootb n i =
    ((List.range' i n).takeWhile fun i => !(rootb.directory i).isEmpty).map
      (listedName rootb.directory) := by
  induction n generalizing i with
  | zero => rfl
  | succ n ih =>
    rw [listNames, List.range'_succ]
    split
    case isTrue hempty => rw [List.takeWhile_cons_of_neg (by simp [hempty])]; rfl
    case isFalse hempty =>
      rw [List.takeWhile_cons_of_pos (by simp [hempty]), List.map_cons, ih]
      rfl

/-- On a keyed directory every non-empty entry is listed. -/
theorem Keyed.listNames (h : Keyed d.dir) :
    listNames (d.blk rootdirBid) dirEntriesPerBlock 0 =
      (liveEntries d.dir).map (listedName d.dir) := by
  rw [listNames_eq, takeWhile_eq_filter, ← List.range_eq_range']
  · rfl
  · refine List.Pairwise.imp_of_mem (fun {i j} hi hj hij hlive => ?_) (List.pairwise_lt_range' 1)
    rw [List.mem_range'_1] at hj
    rw [Bool.not_eq_true'] at hlive ⊢
    exact (h.entries i j hij ⟨by simpa using hj.2, hlive⟩).2

theorem mem_liveEntries {dir : ℕ → DirEntry} {i : ℕ} : i ∈ liveEntries dir ↔ i ∈ live dir := by
  simp [liveEntries, live]

theorem doReaddir_root (rootb : Block) : (doReaddir rootPath rootb fs).2 =
    (dotNames ++ listNames (fs.disk.blk rootdirBid) dirEntriesPerBlock 0, 0) := by
  have hblk : (fs.note (.read rootdirBid .rootb)).disk.readBlock rootdirBid rootb =
      fs.disk.blk rootdirBid := Disk.readBlock_of_lt (by decide) rootb
  rw [doReaddir, if_pos (by decide)]
  simp only [hblk]

/-- An entry is found under its listed name just when its field ends in a NUL. -/
theorem Keyed.find_listed_iff (h : Keyed d.dir) {i : ℕ} (hi : i ∈ live d.dir) :
    findDirEntry (d.blk rootdirBid) (listedName d.dir i) = some i ↔
      (d.dir i).name.byte 11 = 0 := by
  obtain ⟨n, hn⟩ := h.name i hi
  rw [h.find_iff, listedName, hn, CStr.field_byte n (by decide), ← snprintf_field 11 n]
  exact and_iff_right hi

theorem Keyed.agree_iff (h : Keyed fs.disk.dir) :
    Agree fs ↔ ∀ i ∈ live fs.disk.dir, (fs.disk.dir i).name.byte 11 = 0 := by
  constructor
  · intro ha i hi
    obtain ⟨names, hlist, -, hfound⟩ := ha (Buf.zero 512)
    rw [doReaddir_root, h.listNames] at hlist
    obtain rfl := List.append_cancel_left (Prod.mk.inj hlist).1
    rw [List.forall₂_map_left_iff, List.forall₂_same] at hfound
    exact (h.find_listed_iff hi).mp (hfound i (mem_liveEntries.mpr hi)).1
  · intro hshort rootb
    have hfind : ∀ i ∈ liveEntries fs.disk.dir,
        findDirEntry (fs.disk.blk rootdirBid) (listedName fs.disk.dir i) = some i :=
      fun i hi => (h.find_listed_iff (mem_liveEntries.mp hi)).mpr
        (hshort i (mem_liveEntries.mp hi))
    refine ⟨(liveEntries fs.disk.dir).map (listedName fs.disk.dir), ?_, ?_, ?_⟩
    · rw [doReaddir_root, h.listNames]
    · refine List.Nodup.map_on (fun i hi j hj heq => ?_) (List.nodup_range.filter _)
      have hij := hfind i hi
      rw [heq, hfind j hj] at hij
      exact (Option.some.inj hij).symm
    · rw [List.forall₂_map_left_iff, List.forall₂_same]
      exact fun i hi => ⟨hfind i hi, fun env st => doGetattr_found (hfind i hi)⟩

end listing

/-! ### Runs with short names -/

/-- Files are only created under names of fewer than `FS_NAME_LEN` bytes. -/
def ShortName : Call → Prop
  | .create path _ => path.tail.chars.length < fsNameLen
  | _ => True

theorem Reach.short {fs : Fs} (h : Reach ShortName fs) :
    ∀ i ∈ live fs.disk.dir, (fs.disk.dir i).name.byte 11 = 0 := by
  induction h with
  | @start _ d blk hd =>
    intro i hi
    rw [hd, formatMyfs_live] at hi
    exact absurd hi (Set.notMem_empty i)
  | @step fs c hr ha hc ih =>
    obtain ⟨hstep, -⟩ := exec_sane hr.sane c
    intro j hj
    cases hstep with
    | same hd => rw [hd] at hj ⊢; exact ih j hj
    | create path m i hcreate hf hd =>
      subst hcreate
      rw [hd] at hj ⊢
      rcases eq_or_ne j i with rfl | hne
      · rw [Function.update_self, freshEntry, CStr.field_byte _ (by decide)]
        exact (CStr.byte_eq_zero_iff _ _).mpr (Nat.le_of_lt_succ hc)
      · rw [Function.update_of_ne hne]
        exact ih j ((live_update hne).mp hj)
    | grow i newSize crt hf hcrt hd =>
      rw [hd] at hj ⊢
      rw [live_grownDir] at hj
      rcases eq_or_ne j i with rfl | hne
      · rw [grownDir_self]; exact ih j hj
      · rw [grownDir_of_ne hne]; exact ih j hj

/-- CORRECT (listing): in every state calls reach, listing and lookup agree exactly when no entry
    fills its name field, and they do agree when the calls have created files under short names
    only. -/
theorem listing_agrees_iff {fs : Fs} (h : Reach (fun _ => True) fs) :
    (Agree fs ↔ ∀ i ∈ live fs.disk.dir, (fs.disk.dir i).name.byte 11 = 0) ∧
      (Reach ShortName fs → Agree fs) :=
  ⟨h.sane.keyed.agree_iff, fun hs => h.sane.keyed.agree_iff.mpr hs.short⟩

theorem allowed_pathA : Allowed freshFs (.create pathA 0) :=
  ⟨by simp [pathA, CStr.tail], ⟨0, 0, 0⟩, ⟨0, 0, 0, 0, 0, 0, 0⟩, by decide +kernel⟩

/-- The path `/abcdefg.txt`: a name of 11 bytes. -/
def pathLong : CStr := ⟨[47, 97, 98, 99, 100, 101, 102, 103, 46, 116, 120, 116], by decide⟩

/-- Both names are listed in full. -/
theorem listing_agrees_iff_pathLong : Agree (Call.exec emptyFileFs (.create pathLong 0)).1 := by
  have hlong : Allowed emptyFileFs (.create pathLong 0) :=
    ⟨by simp [pathLong, CStr.tail], ⟨0, 0, 0⟩, ⟨0, 0, 0, 0, 0, 0, 0⟩, by decide +kernel⟩
  exact (listing_agrees_iff (((Reach.start rfl).step allowed_pathA trivial).step hlong trivial)).2
    (((Reach.start rfl).step allowed_pathA (show 1 < 12 by decide)).step hlong
      (show 11 < 12 by decide))

/-- The path `/abcdefgh.txt`: a name of 8 + 1 + 3 bytes. -/
def pathFull : CStr :=
  ⟨[47, 97, 98, 99, 100, 101, 102, 103, 104, 46, 116, 120, 116], by decide⟩

/-- The file is listed as `abcdefgh.tx`. -/
theorem full_name_not_listed :
    Reach (fun _ => True) (Call.exec freshFs (.create pathFull 0)).1 ∧
    (doReaddir rootPath (Buf.zero 512) (Call.exec freshFs (.create pathFull 0)).1).2.1.map
        CStr.chars = [[46], [46, 46], [97, 98, 99, 100, 101, 102, 103, 104, 46, 116, 120]] ∧
    ¬Agree (Call.exec freshFs (.create pathFull 0)).1 := by
  have hreach : Reach (fun _ => True) (Call.exec freshFs (.create pathFull 0)).1 :=
    (Reach.start rfl).step ⟨by simp [pathFull, CStr.tail], ⟨0, 0, 0⟩, ⟨0, 0, 0, 0, 0, 0, 0⟩,
      by decide +kernel⟩ trivial
  refine ⟨hreach, by decide +kernel, fun h => ?_⟩
  have hbyte := hreach.sane.keyed.agree_iff.mp h 0 ⟨by decide, by decide +kernel⟩
  revert hbyte
  decide +kernel

/-! ### Calls on other names -/

section other
variable {fs fs' : Fs} {d d' : Disk} {p q : CStr}

/-- Looking up sees the names only. -/
theorem findDirEntry_congr {b b' : Block}
    (h : ∀ i, (b'.directory i).name = (b.directory i).name) :
    findDirEntry b' p = findDirEntry b p := by
  rw [findDirEntry, findDirEntry]
  simp only [DirEntry.isEmpty, h]
  rfl

/-- A new entry at the end hides none and is found under its own key only. -/
theorem find_create {i : ℕ} {m : UInt32} (h : Keyed d.dir)
    (hf : firstEmptyDirEntry (d.blk rootdirBid) = some i) (hne : p.field 12 ≠ q.field 12)
    (hdir : d'.dir = Function.update d.dir i (freshEntry p m)) :
    findDirEntry (d'.blk rootdirBid) q = findDirEntry (d.blk rootdirBid) q := by
  have hlive := h.live_iff hf
  have hold : ∀ j, j ≠ i → (d'.blk rootdirBid).directory j = (d.blk rootdirBid).directory j := by
    intro j hj
    have hdj := congrFun hdir j
    rw [Function.update_of_ne hj] at hdj
    exact hdj
  have hnew : (d'.blk rootdirBid).directory i = freshEntry p m := by
    have hdi := congrFun hdir i
    rw [Function.update_self] at hdi
    exact hdi
  cases hq : findDirEntry (d.blk rootdirBid) q with
  | some j =>
    obtain ⟨hj, hjlive, hname⟩ := findDirEntry_some hq
    have hji : j < i := (hlive j).mp ⟨hj, hjlive⟩
    refine findDirEntry_eq_some hj ?_ ?_ (fun k hk => ?_)
    · rw [hold j (by omega)]; exact hjlive
    · rw [hold j (by omega)]; exact hname
    · rw [hold k (by omega)]; exact findDirEntry_before hq hk
  | none =>
    rw [findDirEntry_eq_none_iff] at hq ⊢
    intro k hk hbefore hname
    rcases Nat.lt_trichotomy k i with hlt | rfl | hgt
    · refine hq k hk (fun j hj => ?_) (by rw [← hold k (by omega)]; exact hname)
      rw [← hold j (by omega)]; exact hbefore j hj
    · rw [hnew] at hname
      exact hne ((strncmp_field q p).mp hname).symm
    · -- entry `i` was the last one, so there is no entry behind it
      have hempty := hbefore k le_rfl
      rw [hold k (by omega)] at hempty
      have := (hlive k).mp ⟨hk, hempty⟩
      omega

/-- CORRECT (keys): in every state calls reach, a call on one name does not change what
    `do_getattr` says about a name with another key. -/
theorem getattr_other_key (h : Reach (fun _ => True) fs) (c : Call) {path : CStr}
    (hne : c.path.tail.field 12 ≠ path.tail.field 12) (env : Env) (st : Stat) :
    (doGetattr env path st (c.exec fs).1).2 = (doGetattr env path st fs).2 := by
  have hs := h.sane
  obtain ⟨hstep, -⟩ := exec_sane hs c
  cases hstep with
  | same hd =>
    refine doGetattr_congr (findDirEntry_congr (fun i => ?_)) (fun i _ => by rw [hd])
    exact congrArg DirEntry.name (congrFun hd i)
  | create p m i hc hf hd =>
    subst hc
    refine doGetattr_congr (find_create hs.keyed hf hne hd) (fun j hj => ?_)
    have hji := (hs.keyed.live_iff hf j).mp (hs.keyed.find_iff.mp hj).1
    rw [hd, Function.update_of_ne (by omega)]
  | grow i newSize crt hf hcrt hd =>
    have hname : ∀ j, ((c.exec fs).1.disk.dir j).name = (fs.disk.dir j).name := by
      intro j
      rw [hd]
      rcases eq_or_ne j i with rfl | hji
      · rw [grownDir_self]
      · rw [grownDir_of_ne hji]
    refine doGetattr_congr (findDirEntry_congr hname) (fun j hj => ?_)
    have hji : j ≠ i := by
      rintro rfl
      exact hne ((hs.keyed.find_iff.mp hf).2.trans (hs.keyed.find_iff.mp hj).2.symm)
    rw [hd, grownDir_of_ne hji]

end other

/-- Growing `/a` does not change `/b`. -/
theorem getattr_other_key_ab :
    (doGetattr ⟨0, 0, 0⟩ pathB ⟨0, 0, 0, 0, 0, 0, 0⟩ (writeBlock3.exec emptyFileFs).1).2 =
      (doGetattr ⟨0, 0, 0⟩ pathB ⟨0, 0, 0, 0, 0, 0, 0⟩ emptyFileFs).2 :=
  getattr_other_key ((Reach.start rfl).step allowed_pathA trivial) writeBlock3
    (fun h => absurd (congrArg (fun b => b.byte 0) h) (by decide)) _ _

/-- The path `/abcdefghijklX`: a name of 13 bytes. -/
def pathX : CStr :=
  ⟨[47, 97, 98, 99, 100, 101, 102, 103, 104, 105, 106, 107, 108, 88], by decide⟩

/-- The path `/abcdefghijklY`, which differs in the last byte. -/
def pathY : CStr :=
  ⟨[47, 97, 98, 99, 100, 101, 102, 103, 104, 105, 106, 107, 108, 89], by decide⟩

/-- Creating the first file makes `do_getattr` find the second. -/
theorem long_names_alias : Reach (fun _ => True) freshFs ∧
    Allowed freshFs (.create pathX 0) ∧ pathX.tail.chars ≠ pathY.tail.chars ∧
    (doGetattr ⟨0, 0, 0⟩ pathY ⟨0, 0, 0, 0, 0, 0, 0⟩ freshFs).2.2 = -enoent ∧
    (doGetattr ⟨0, 0, 0⟩ pathY ⟨0, 0, 0, 0, 0, 0, 0⟩
      (Call.exec freshFs (.create pathX 0)).1).2.2 = 0 :=
  ⟨Reach.start rfl, ⟨by simp [pathX, CStr.tail], ⟨0, 0, 0⟩, ⟨0, 0, 0, 0, 0, 0, 0⟩,
    by decide +kernel⟩, by decide, by decide +kernel, by decide +kernel⟩

end OsLabs.Ssfs

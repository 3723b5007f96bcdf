import OsLabs.Ssfs.Isolation

/-! @src lab4_fs/ssfs.c, lab4_fs/fs_support.c | name:reach | scheme:pool

    What holds on every disk that calls reach from a formatted one, whatever they return. A failed
    write can leave an entry that starts in the free list, so the chains need not be disjoint any
    more. What survives is weaker: the map leads from 0 and the data blocks nowhere else, so no
    write ever lands in the directory, and the directory only changes as the calls intend
    (`DirStep`). A file is created only under a name that `do_getattr` does not know. -/

namespace OsLabs.Ssfs
open Schemes

/-- Block 0, where the free list starts and ends, and the data blocks. -/
def mapIds : Set ℕ := {x | x = 0 ∨ 2 ≤ x ∧ x < 10}

/-- Where an entry may start: at a data block, or nowhere. -/
def IsStart (b : ℕ) : Prop := (2 ≤ b ∧ b < 10) ∨ b = eofBlock

/-- A directory that `do_create` has filled from the front, under different keys. -/
structure Keyed (dir : ℕ → DirEntry) : Prop where
  entries : ∀ i j, i < j → j ∈ live dir → i ∈ live dir
  name : ∀ i ∈ live dir, ∃ n : CStr, (dir i).name = n.field 12
  key : ∀ i ∈ live dir, ∀ j ∈ live dir, (dir i).name = (dir j).name → i = j

/-- What every call preserves, also when it fails. -/
structure Sane (d : Disk) : Prop where
  map : ∃ fl, Closed mapIds 0 0 eofBlock d.map fl
  start : ∀ i ∈ live d.dir, IsStart (d.dir i).firstBlock
  keyed : Keyed d.dir

/-- What one call does to the directory on the disk. -/
inductive DirStep (d d' : Disk) (c : Call) : Prop
  | same (h : d'.dir = d.dir)
  | create (path : CStr) (m : UInt32) (i : ℕ) (hc : c = .create path m)
      (hf : firstEmptyDirEntry (d.blk rootdirBid) = some i)
      (h : d'.dir = Function.update d.dir i (freshEntry path.tail m))
  | grow (i newSize crt : ℕ) (hf : findDirEntry (d.blk rootdirBid) c.path.tail = some i)
      (hcrt : IsStart crt) (h : d'.dir = grownDir d i newSize crt)

/-! ### The write loop on a sane map -/

theorem indexed_mapIds : Indexed mapIds := by
  rintro x (rfl | hx)
  · decide
  · omega

/-- An index past the block reads as 0. -/
theorem Block.blockmap_out (b : Block) {i : ℕ} (hi : 256 ≤ i) : b.blockmap i = 0 := by
  rw [blockmap, Buf.getLE, Mem.getLE, Mem.getLE, b.out _ (by omega), b.out _ (by omega)]
  rfl

section sane
variable {fs g : Fs} {fl : List ℕ} {i crt : ℕ} (size offset : ℕ)

theorem navigate_sane (n : ℕ) (hcrt : IsStart crt)
    (hcl : Closed mapIds 0 0 eofBlock g.bmap.blockmap fl) :
    (∃ fl', Closed mapIds 0 0 eofBlock (navigate crt g n).1.bmap.blockmap fl') ∧
      ∀ y, (navigate crt g n).2 = some y → y ≠ 1 := by
  -- the loop stays among the ids of the map, which 1 is not one of
  have hin : ∀ {crt : ℕ} {g : Fs} (n : ℕ), crt ∈ mapIds →
      Closed mapIds 0 0 eofBlock g.bmap.blockmap fl →
      (∃ fl', Closed mapIds 0 0 eofBlock (navigate crt g n).1.bmap.blockmap fl') ∧
        ∀ y, (navigate crt g n).2 = some y → y ≠ 1 := by
    intro crt g n hmem hcl
    obtain ⟨-, hcl', hy⟩ := navigate_seek indexed_mapIds g (n := n) hmem hcl
    refine ⟨hcl', fun y hs => ?_⟩
    rcases hy y hs with rfl | hlo
    · decide
    · omega
  rcases hcrt with hdata | rfl
  · exact hin n (Or.inr hdata) hcl
  · cases n with
    | zero =>
      refine ⟨⟨fl, hcl⟩, fun y hy => ?_⟩
      obtain rfl := Option.some.inj hy
      decide
    | succ n =>
      have hout : g.bmap.blockmap eofBlock = 0 := Block.blockmap_out _ (by decide)
      rw [navigate_follow (by rw [hout]; decide), hout]
      exact hin n (Or.inl rfl) hcl

/-- Growing a file of a sane disk either finds no block and changes nothing, or leaves an entry
    that starts properly and a map that is still closed. -/
theorem growFile_sane (h : Sane fs.disk) (hi : i ∈ live fs.disk.dir) :
    ∃ g ok, growFile i size offset (loaded fs) = (g, ok) ∧
      (ok = false → g.disk = fs.disk) ∧
      (ok = true → g.disk.map = fs.disk.map ∧
        (∃ newSize crt, IsStart crt ∧ g.disk.dir = grownDir fs.disk i newSize crt ∧
          (g.bdir.directory i).firstBlock = crt) ∧
        ∃ fl, Closed mapIds 0 0 eofBlock g.bmap.blockmap fl) := by
  obtain ⟨fl, hcl⟩ := h.map
  have hstart := h.start i hi
  have hsaved : ∀ {g : Fs}, g.disk = fs.disk.writeBlock rootdirBid g.bdir →
      g.disk.map = fs.disk.map ∧ g.disk.dir = g.bdir.directory := by
    intro g hg
    rw [Disk.map, Disk.map, Disk.dir, hg, Disk.writeBlock_self,
      Disk.writeBlock_of_ne (by decide) (by decide)]
    exact ⟨rfl, rfl⟩
  rcases lt_or_ge (fs.disk.dir i).sizeBytes ((offset + size) % 2 ^ 64) with hlt | hle
  · by_cases hfirst : (fs.disk.dir i).firstBlock = eofBlock
    · cases fl with
      | nil =>
        obtain ⟨g, hg, hd⟩ := growFile_noBlock rfl hlt hi.1 hfirst hcl.free
        exact ⟨g, false, hg, fun _ => hd, fun hok => by cases hok⟩
      | cons b fl =>
        have hb0 : b ≠ 0 := hcl.free.2.1
        have hb : 2 ≤ b ∧ b < 10 := (hcl.sub b (by simp)).resolve_left hb0
        obtain ⟨g, hg, hd, hdir, hmap⟩ :=
          growFile_start rfl hlt hi.1 hfirst hcl.free.head_eq hb0 (by omega)
        obtain ⟨hm, hdd⟩ := hsaved hd
        refine ⟨g, true, hg, fun hok => (by cases hok), fun _ => ⟨hm, ?_, fl, ?_⟩⟩
        · exact ⟨_, b, Or.inl hb, hdd.trans hdir, by rw [hdir, grownDir_self]⟩
        · rw [hmap]; exact hcl.pop
    · obtain ⟨g, hg, hd, hdir, hmap⟩ := growFile_more rfl hlt hi.1 hfirst
      obtain ⟨hm, hdd⟩ := hsaved hd
      refine ⟨g, true, hg, fun hok => (by cases hok), fun _ => ⟨hm, ?_, fl, ?_⟩⟩
      · exact ⟨_, _, hstart, hdd.trans hdir, by rw [hdir, grownDir_self]⟩
      · rw [hmap]; exact hcl
  · refine ⟨loaded fs, true, growFile_same hle, fun hok => (by cases hok),
      fun _ => ⟨rfl, ?_, fl, ?_⟩⟩
    · refine ⟨(fs.disk.dir i).sizeBytes, _, hstart, ?_, by rw [loaded_dir]⟩
      rw [grownDir, Function.update_eq_self, loaded_disk]
    · rw [loaded_map]; exact hcl

/-- A write to an entry of a sane disk touches its size and first block, and keeps the map
    closed. -/
theorem doWrite_sane {path : CStr} (buffer : Mem) (bcache : Block) (h : Sane fs.disk)
    (hf : findDirEntry (fs.disk.blk rootdirBid) path.tail = some i) :
    (∃ newSize crt, IsStart crt ∧ (doWrite path buffer size offset bcache fs).1.disk.dir =
      grownDir fs.disk i newSize crt) ∧
    ∃ fl, Closed mapIds 0 0 eofBlock (doWrite path buffer size offset bcache fs).1.disk.map fl := by
  have hi := live_of_find hf
  obtain ⟨g, ok, hg, hno, hyes⟩ := growFile_sane size offset h hi
  cases ok with
  | false =>
    rw [doWrite_ungrown hf hg, hno rfl]
    refine ⟨⟨(fs.disk.dir i).sizeBytes, _, h.start i hi, ?_⟩, h.map⟩
    rw [grownDir, Function.update_eq_self]
  | true =>
    obtain ⟨hmap, ⟨newSize, crt, hcrt, hdir, hfirst⟩, fl, hcl⟩ := hyes rfl
    have hframe := (navigate_frame (offset / 512 % 2 ^ 16) (g.bdir.directory i).firstBlock g).1
    have hnav := navigate_sane (offset / 512 % 2 ^ 16) (hfirst.symm ▸ hcrt) hcl
    cases hn : navigate (g.bdir.directory i).firstBlock g (offset / 512 % 2 ^ 16) with
    | mk g' y =>
      rw [hn] at hframe hnav
      simp only at hframe hnav
      cases y with
      | none =>
        rw [doWrite_stuck hf hg hn, hframe]
        exact ⟨⟨newSize, crt, hcrt, hdir⟩, by rw [hmap]; exact h.map⟩
      | some y =>
        rw [doWrite_written hf hg hn]
        refine ⟨⟨newSize, crt, hcrt, ?_⟩, ?_⟩
        · -- the patched block is not the directory
          rw [← patched, ← hdir, Disk.dir, Disk.dir, patched_other (by decide) (by decide)
            (hnav.2 y rfl).symm, hframe]
        · rw [← patched, patched_map]; exact hnav.1

end sane

/-! ### One call -/

section step
variable {fs : Fs} {d d' : Disk} {c : Call}

/-- Every call on a sane disk makes one of the directory steps and keeps the map closed. -/
theorem exec_sane (h : Sane fs.disk) (c : Call) : DirStep fs.disk (c.exec fs).1.disk c ∧
    ∃ fl, Closed mapIds 0 0 eofBlock (c.exec fs).1.disk.map fl := by
  cases ht : c.target (fs.disk.blk rootdirBid) with
  | none =>
    rw [(exec_untargeted ht).1]
    exact ⟨.same rfl, h.map⟩
  | some i =>
    cases c with
    | create path m =>
      obtain ⟨fs', hw, hs, -⟩ := doCreate_found m ht
      rw [Call.exec, hw, hs.map]
      exact ⟨.create _ _ _ rfl ht hs.dir, h.map⟩
    | write path buffer size offset bcache =>
      obtain ⟨⟨newSize, crt, hcrt, hdir⟩, hmap⟩ := doWrite_sane size offset buffer bcache h ht
      exact ⟨.grow _ _ _ ht hcrt hdir, hmap⟩
    | truncate path offset =>
      have hf : findDirEntry (fs.disk.blk rootdirBid) path.tail = some i := ht
      obtain ⟨fs', hw, hs, -⟩ := doTruncate_found offset hf
      rw [Call.exec, hw, hs.map]
      exact ⟨.grow _ _ _ ht (Or.inr rfl) hs.dir, h.map⟩

/-- The entries of a directory that `do_create` finds room in are those before the free one. -/
theorem Keyed.live_iff {i : ℕ} (h : Keyed d.dir)
    (hf : firstEmptyDirEntry (d.blk rootdirBid) = some i) (j : ℕ) : j ∈ live d.dir ↔ j < i := by
  obtain ⟨hi, hempty, hbefore⟩ := firstEmptyDirEntry_some hf
  have hout : i ∉ live d.dir := not_mem_live hempty
  constructor
  · intro hj
    rcases Nat.lt_trichotomy j i with hlt | rfl | hgt
    · exact hlt
    · exact absurd hj hout
    · exact absurd (h.entries i j hgt hj) hout
  · intro hj
    exact ⟨hj.trans hi, hbefore j hj⟩

/-- Creating a file under a key that is not there yet. -/
theorem Keyed.create {i : ℕ} {p : CStr} {m : UInt32} (h : Keyed d.dir)
    (hf : firstEmptyDirEntry (d.blk rootdirBid) = some i) (hn : p.chars ≠ [])
    (hnew : findDirEntry (d.blk rootdirBid) p = none) :
    Keyed (Function.update d.dir i (freshEntry p m)) := by
  have hlive := h.live_iff hf
  obtain ⟨hi, -, hbefore⟩ := firstEmptyDirEntry_some hf
  have hlive' : ∀ j, j ∈ live (Function.update d.dir i (freshEntry p m)) ↔ j ≤ i := by
    intro j
    rcases eq_or_ne j i with rfl | hne
    · simp [live, freshEntry_isEmpty, hn, hi]
    · rw [live_update hne, hlive]; omega
  -- no old entry has the new key
  have hdiff : ∀ j < i, (d.dir j).name ≠ p.field 12 := by
    intro j hj heq
    have hsame : strncmp p.byte (d.dir j).name.byte fsNameLen = 0 := by
      rw [heq]
      exact (strncmp_field p p).mpr rfl
    exact findDirEntry_eq_none_iff.mp hnew j (by omega) (fun k hk => hbefore k (by omega)) hsame
  refine ⟨fun j k hjk hk => ?_, fun j hj => ?_, fun j hj k hk heq => ?_⟩
  · rw [hlive'] at hk ⊢; omega
  · rcases eq_or_ne j i with rfl | hne
    · exact ⟨p, by rw [Function.update_self]; rfl⟩
    · rw [hlive'] at hj
      rw [Function.update_of_ne hne]
      exact h.name j ((hlive j).mpr (by omega))
  · rw [hlive'] at hj hk
    rcases eq_or_ne j i with rfl | hji
    · rcases eq_or_ne k j with rfl | hkj
      · rfl
      · rw [Function.update_self, Function.update_of_ne hkj] at heq
        exact absurd heq.symm (hdiff k (by omega))
    · rw [Function.update_of_ne hji] at heq
      rcases eq_or_ne k i with rfl | hki
      · rw [Function.update_self] at heq
        exact absurd heq (hdiff j (by omega))
      · rw [Function.update_of_ne hki] at heq
        exact h.key j ((hlive j).mpr (by omega)) k ((hlive k).mpr (by omega)) heq

theorem Keyed.grow {i newSize crt : ℕ} (h : Keyed d.dir) : Keyed (grownDir d i newSize crt) := by
  have hname : ∀ j, (grownDir d i newSize crt j).name = (d.dir j).name := by
    intro j
    rcases eq_or_ne j i with rfl | hne
    · rw [grownDir_self]
    · rw [grownDir_of_ne hne]
  refine ⟨?_, ?_, ?_⟩ <;> simp only [live_grownDir, hname]
  · exact h.entries
  · exact h.name
  · exact h.key

/-- A file is created only under a non-empty name that `do_getattr` does not know. -/
def Allowed (fs : Fs) : Call → Prop
  | .create path _ => path.tail.chars ≠ [] ∧ ∃ env st, (doGetattr env path st fs).2.2 = -enoent
  | _ => True

theorem find_none_of_getattr {env : Env} {path : CStr} {st : Stat}
    (h : (doGetattr env path st fs).2.2 = -enoent) :
    findDirEntry (fs.disk.blk rootdirBid) path.tail = none := by
  have hne : (0 : ℤ) ≠ -enoent := by decide
  rw [doGetattr] at h
  split at h
  · exact absurd h hne
  · cases hf : findDirEntry (fs.disk.blk rootdirBid) path.tail with
    | none => rfl
    | some i =>
      simp only [Fs.loadDirectory_bdir, hf] at h
      exact absurd h hne

theorem Sane.exec (h : Sane fs.disk) (ha : Allowed fs c) : Sane (c.exec fs).1.disk := by
  obtain ⟨hstep, hmap⟩ := exec_sane h c
  generalize (c.exec fs).1.disk = d' at hstep hmap ⊢
  cases hstep with
  | same hd => exact ⟨hmap, by rw [hd]; exact h.start, by rw [hd]; exact h.keyed⟩
  | create path m i hc hf hd =>
    subst hc
    obtain ⟨hn, env, st, hg⟩ := ha
    refine ⟨hmap, fun j hj => ?_, by rw [hd]; exact h.keyed.create hf hn (find_none_of_getattr hg)⟩
    rw [hd] at hj ⊢
    rcases eq_or_ne j i with rfl | hne
    · rw [Function.update_self]; exact Or.inr rfl
    · rw [Function.update_of_ne hne]
      exact h.start j ((live_update hne).mp hj)
  | grow i newSize crt hf hcrt hd =>
    refine ⟨hmap, fun j hj => ?_, by rw [hd]; exact h.keyed.grow⟩
    rw [hd] at hj ⊢
    rw [live_grownDir] at hj
    rcases eq_or_ne j i with rfl | hne
    · rw [grownDir_self]; exact hcrt
    · rw [grownDir_of_ne hne]; exact h.start j hj

end step

/-! ### Whole runs -/

/-- The states that calls satisfying `P` reach from a formatted disk. -/
inductive Reach (P : Call → Prop) : Fs → Prop
  | start {fs : Fs} {d : Disk} {blk : Block} (h : fs.disk = formatMyfs d blk) : Reach P fs
  | step {fs : Fs} {c : Call} (h : Reach P fs) (ha : Allowed fs c) (hc : P c) :
      Reach P (c.exec fs).1

theorem sane_format (d : Disk) (blk : Block) : Sane (formatMyfs d blk) := by
  have hempty : ∀ i, i ∉ live (formatMyfs d blk).dir := by
    rw [formatMyfs_live]; exact Set.notMem_empty
  refine ⟨⟨List.range' 2 8, (layout_format d blk).pool.free, by decide, ?_, fun x hx => ?_, ?_⟩,
    fun i hi => absurd hi (hempty i), fun i j _ hj => absurd hj (hempty j),
    fun i hi => absurd hi (hempty i), fun i hi => absurd hi (hempty i)⟩
  · intro x hx
    rw [List.mem_cons, List.mem_cons, List.mem_range'_1] at hx
    have hmem : x = 0 ∨ 2 ≤ x ∧ x < 10 := by omega
    exact hmem
  · have hx' : x = 0 ∨ 2 ≤ x ∧ x < 10 := hx
    have hmap := blockmap_formatMap (n := 10) (by decide) (by decide) blk x
    have hin : (formatMap 10 blk).blockmap x = 0 ∨
        2 ≤ (formatMap 10 blk).blockmap x ∧ (formatMap 10 blk).blockmap x < 10 := by
      rw [hmap]
      split_ifs <;> omega
    rw [formatMyfs_map]
    exact Or.inl hin
  · have hout : ¬(eofBlock = 0 ∨ 2 ≤ eofBlock ∧ eofBlock < 10) := by decide
    exact hout

theorem Reach.sane {P : Call → Prop} {fs : Fs} (h : Reach P fs) : Sane fs.disk := by
  induction h with
  | start hd => rw [hd]; exact sane_format ..
  | step _ ha _ ih => exact ih.exec ha

end OsLabs.Ssfs

import OsLabs.Ssfs.Store

/-! @src lab4_fs/ssfs.c, lab4_fs/fs_support.c | name:refine | scheme:refines

    The file system refines the store. A disk shows a store when the files are the non-empty
    entries with the contents of their chains, and the free blocks are those of the free list.
    Every request the store has a promise for gets the promised answer and keeps this relation, so
    on a formatted disk whole runs of requests do.

        store    s ──request / answer──▶ s'
                 │ Holds                 │ Holds
        disk     d ──request / answer──▶ d'                                                   -/

namespace OsLabs.Ssfs
open Schemes

/-- The file system as a component: it serves every request. -/
def Request.reply (fs : Fs) : Request → Answer
  | .getattr env path st => .stat (doGetattr env path st fs).2.1 (doGetattr env path st fs).2.2
  | .readdir path rootb => .names (doReaddir path rootb fs).2.1 (doReaddir path rootb fs).2.2
  | .read path size bcache =>
    .bytes (doRead path size bcache fs).2.1 (doRead path size bcache fs).2.2
  | .change c => .status (c.exec fs).2

def ssfs : Component Fs Request Answer := fun fs r => some (r.serve fs, r.reply fs)

/-- The file in entry `i`. -/
def fileAt (d : Disk) (ch : ℕ → List ℕ) (i : ℕ) : File :=
  ⟨(d.dir i).name, (d.dir i).mode, (d.dir i).sizeBytes, (ch i).map d.blk⟩

/-- The disk with the free list `fl` and the chains `ch` shows the store. -/
structure Holds (s : Store) (d : Disk) (fl : List ℕ) (ch : ℕ → List ℕ) : Prop where
  layout : Layout d fl ch
  files : ∀ i < 16, s.files[i]? = if (d.dir i).isEmpty then none else some (fileAt d ch i)
  room : s.files.length ≤ 16
  name : ∀ i ∈ live d.dir, ∃ n : CStr, (d.dir i).name = n.field 12
  free : s.free = fl.map d.blk
  past : ∀ b, d.readBlock eofBlock b = s.past.getD b

/-! ### Lookups -/

section lookups
variable {s : Store} {d : Disk} {fl : List ℕ} {ch : ℕ → List ℕ} {i : ℕ} {p : CStr}

theorem Holds.file (h : Holds s d fl ch) (hi : i ∈ live d.dir) :
    s.files[i]? = some (fileAt d ch i) := by
  rw [h.files i hi.1, if_neg (by rw [hi.2]; decide)]

theorem Holds.mem_live (h : Holds s d fl ch) {f : File} (hf : s.files[i]? = some f) :
    i ∈ live d.dir := by
  have hi : i < 16 := (List.getElem?_eq_some_iff.mp hf).1.trans_le h.room
  refine ⟨hi, Bool.eq_false_iff.mpr fun hempty => ?_⟩
  rw [h.files i hi, if_pos hempty] at hf
  cases hf

theorem Holds.name_iff (h : Holds s d fl ch) (hi : i ∈ live d.dir) :
    strncmp p.byte (d.dir i).name.byte fsNameLen = 0 ↔ (d.dir i).name = p.field fsNameLen := by
  obtain ⟨n, hn⟩ := h.name i hi
  rw [hn]
  exact (strncmp_field p n).trans eq_comm

/-- `find_dir_entry` finds the file that the store finds. -/
theorem Holds.found (h : Holds s d fl ch)
    (hf : findDirEntry (d.blk rootdirBid) p.tail = some i) :
    s.lookup p = some (i, fileAt d ch i) := by
  obtain ⟨hi, hlive, hname⟩ := findDirEntry_some hf
  have hmem : i ∈ live d.dir := ⟨hi, hlive⟩
  have hkey := (h.name_iff hmem).mp hname
  refine Store.lookup_eq_some.mpr ⟨h.file hmem, hkey, fun j hj g hg hkey => ?_⟩
  have hj' := h.mem_live hg
  rw [h.file hj'] at hg
  obtain rfl := Option.some.inj hg
  exact (findDirEntry_before hf hj).2 ((h.name_iff hj').mpr hkey)

theorem Holds.absent (h : Holds s d fl ch)
    (hf : findDirEntry (d.blk rootdirBid) p.tail = none) : s.lookup p = none := by
  rw [Option.eq_none_iff_forall_ne_some]
  rintro ⟨i, f⟩ hl
  obtain ⟨hi, hkey, -⟩ := Store.lookup_eq_some.mp hl
  have hmem := h.mem_live hi
  rw [h.file hmem] at hi
  obtain rfl := Option.some.inj hi
  refine findDirEntry_eq_none_iff.mp hf i hmem.1 (fun j hj => ?_) ((h.name_iff hmem).mpr hkey)
  have hlen : i < s.files.length := (List.getElem?_eq_some_iff.mp (h.file hmem)).1
  exact (h.mem_live (List.getElem?_eq_getElem (by omega))).2

/-- The first empty entry is where the list of files ends. -/
theorem Holds.firstEmpty (h : Holds s d fl ch)
    (hf : firstEmptyDirEntry (d.blk rootdirBid) = some i) : s.files.length = i ∧ i < 16 := by
  obtain ⟨hi, hempty, hbefore⟩ := firstEmptyDirEntry_some hf
  have hnone : s.files[i]? = none := by rw [h.files i hi]; exact if_pos hempty
  refine ⟨le_antisymm (List.getElem?_eq_none_iff.mp hnone) (not_lt.mp fun hlt => ?_), hi⟩
  have hlast := h.file ⟨hlt.trans hi, hbefore _ hlt⟩
  rw [List.getElem?_eq_none (le_refl _)] at hlast
  cases hlast

theorem Holds.full (h : Holds s d fl ch) (hf : firstEmptyDirEntry (d.blk rootdirBid) = none) :
    s.files.length = 16 := by
  have hlast := h.file (i := 15) ⟨by decide, firstEmptyDirEntry_none hf (by decide)⟩
  have hlt := (List.getElem?_eq_some_iff.mp hlast).1
  have := h.room
  omega

end lookups

/-! ### Requests that only look -/

section look
variable {s : Store} {fs : Fs} {fl : List ℕ} {ch : ℕ → List ℕ}

theorem Holds.getattr (h : Holds s fs.disk fl ch) (env : Env) (path : CStr) (st : Stat) :
    (doGetattr env path st fs).2 = s.getattr env path st := by
  rw [doGetattr, Store.getattr]
  split
  · rfl
  · simp only [Fs.loadDirectory_bdir]
    cases hf : findDirEntry (fs.disk.blk rootdirBid) path.tail with
    | none => simp only [h.absent hf]
    | some i => simp only [h.found hf]; rfl

/-- From entry `i` on, the loop lists the files from number `i` on. -/
theorem Holds.listNames (h : Holds s fs.disk fl ch) : ∀ {n i : ℕ}, i + n = 16 →
    listNames (fs.disk.blk rootdirBid) n i =
      (s.files.drop i).map fun f => snprintf fsNameLen f.key.byte
  | 0, i, hn => by
      have := h.room
      rw [List.drop_eq_nil_of_le (by omega)]; rfl
  | n + 1, i, hn => by
      rw [Ssfs.listNames]
      split
      case isTrue hempty =>
        have hnone : s.files[i]? = none := by
          rw [h.files i (by omega)]; exact if_pos hempty
        rw [List.drop_eq_nil_of_le (List.getElem?_eq_none_iff.mp hnone)]; rfl
      case isFalse hempty =>
        have hi : i < 16 := by omega
        have hlive : i ∈ live fs.disk.dir := ⟨hi, Bool.eq_false_iff.mpr hempty⟩
        rw [List.drop_eq_getElem?_toList_append, h.file hlive, h.listNames (by omega)]
        rfl

theorem Holds.readdir (h : Holds s fs.disk fl ch) (path : CStr) (rootb : Block) :
    (doReaddir path rootb fs).2 = s.readdir path := by
  have hblk : (fs.note (.read rootdirBid .rootb)).disk.readBlock rootdirBid rootb =
      fs.disk.blk rootdirBid := Disk.readBlock_of_lt (by decide) rootb
  rw [doReaddir, Store.readdir]
  split
  · simp only [hblk, h.listNames (n := 16) (i := 0) rfl, List.drop_zero]
  · rfl

/-- A read starts with the first block of the file. -/
theorem Holds.readBlock (h : Holds s fs.disk fl ch) {i : ℕ} (hi : i ∈ live fs.disk.dir)
    (bcache : Block) : fs.disk.readBlock (fs.disk.dir i).firstBlock bcache =
      s.firstBlock (fileAt fs.disk ch i) bcache := by
  have hfile := h.layout.pool.file i hi
  have hids := h.layout.pool.file_ids i hi
  rw [Store.firstBlock, fileAt]
  cases hc : ch i with
  | nil =>
    rw [hc] at hfile
    rw [show (fs.disk.dir i).firstBlock = eofBlock from hfile, h.past]
    rfl
  | cons b post =>
    rw [hc] at hfile hids
    rw [hfile.head_eq, Disk.readBlock_of_lt (hids b (List.mem_cons_self ..)).2]
    rfl

theorem Holds.read (h : Holds s fs.disk fl ch) (path : CStr) (size : ℕ) (bcache : Block) :
    (doRead path size bcache fs).2 = s.read path size bcache := by
  rw [Store.read]
  cases hf : findDirEntry (fs.disk.blk rootdirBid) path.tail with
  | none =>
    rw [h.absent hf, doRead]
    simp only [Fs.loadDirectory_bdir, hf]
  | some i =>
    obtain ⟨hbytes, hret⟩ := doRead_found size bcache hf
    rw [h.found hf, Prod.ext_iff, hbytes, hret, h.readBlock (live_of_find hf)]
    exact ⟨rfl, rfl⟩

end look

/-! ### Requests that change a file -/

section change
variable {s : Store} {fs : Fs} {d d' : Disk} {fl fl' c' : List ℕ} {ch : ℕ → List ℕ}
  {i newSize crt size offset : ℕ} {path : CStr} {buffer : Mem} {bcache : Block}

/-- What lies at `EOF_BLOCK`, past the blocks of the file system, reads the same. -/
def SamePast (d d' : Disk) : Prop := ∀ b, d'.readBlock eofBlock b = d.readBlock eofBlock b

theorem SamePast.writeBlock (h : SamePast d d') (hi : i < 10) (b : Block) :
    SamePast d (d'.writeBlock i b) := by
  intro c
  have hn : max d'.nblk (i + 1) = d'.nblk := max_eq_left (hi.trans_le d'.enough)
  have hne : eofBlock ≠ i := (ne_eofBlock hi).symm
  rw [← h c]
  simp only [Disk.readBlock, Disk.writeBlock, hn, if_neg hne]
  split <;> rfl

theorem growFile_samePast (g : Fs) : SamePast g.disk (growFile i size offset g).1.disk := by
  have hstart : (startFile i g).1.disk = g.disk := by
    rw [startFile]; split <;> rfl
  rw [growFile]
  split
  · split
    case h_1 heq => rw [heq] at hstart; exact fun b => by rw [hstart]
    case h_2 heq =>
      rw [heq] at hstart
      exact SamePast.writeBlock (fun b => by rw [← hstart]) (by decide) _
  · exact fun _ => rfl

theorem doCreate_samePast (m : UInt32) : SamePast fs.disk (doCreate path m fs).1.disk := by
  rw [doCreate]
  simp only
  split
  · exact fun _ => rfl
  · exact SamePast.writeBlock (fun _ => rfl) (by decide) _

theorem doTruncate_samePast (n : ℕ) : SamePast fs.disk (doTruncate path n fs).1.disk := by
  rw [doTruncate]
  simp only
  split
  · exact fun _ => rfl
  · exact SamePast.writeBlock (fun _ => rfl) (by decide) _

/-- So does a write that puts its data in one of these blocks. -/
theorem doWrite_samePast {fs' : Fs} {ret : ℤ} {ws : List ℕ}
    (hw : doWrite path buffer size offset bcache fs = (fs', ret))
    (hlog : dataWrites fs'.log = dataWrites fs.log ++ ws) (hws : ∀ y ∈ ws, y < 10) :
    SamePast fs.disk fs'.disk := by
  cases hf : findDirEntry (fs.disk.blk rootdirBid) path.tail with
  | none =>
    rw [doWrite_absent hf] at hw
    obtain ⟨rfl, -⟩ := Prod.mk.inj hw
    exact fun _ => rfl
  | some i =>
    cases hg : growFile i size offset (loaded fs) with
    | mk g ok =>
      have hpast : SamePast fs.disk (growFile i size offset (loaded fs)).1.disk :=
        growFile_samePast (loaded fs)
      rw [hg] at hpast
      cases ok with
      | false =>
        rw [doWrite_ungrown hf hg] at hw
        obtain ⟨rfl, -⟩ := Prod.mk.inj hw
        exact hpast
      | true =>
        cases hn : navigate (g.bdir.directory i).firstBlock g (offset / 512 % 2 ^ 16) with
        | mk g' y =>
          have hframe := (navigate_frame (offset / 512 % 2 ^ 16)
            (g.bdir.directory i).firstBlock g).1
          have hdata := navigate_dataWrites (offset / 512 % 2 ^ 16)
            (g.bdir.directory i).firstBlock g
          rw [hn] at hframe hdata
          rw [grown_dataWrites hg] at hdata
          rw [← hframe] at hpast
          cases y with
          | none =>
            rw [doWrite_stuck hf hg hn] at hw
            obtain ⟨rfl, -⟩ := Prod.mk.inj hw
            exact hpast
          | some y =>
            rw [doWrite_written hf hg hn, ← patched] at hw
            obtain ⟨rfl, -⟩ := Prod.mk.inj hw
            rw [patched_dataWrites, hdata] at hlog
            have hy : y < 10 := hws y (by rw [← List.append_cancel_left hlog]; simp)
            exact (hpast.writeBlock hy _).writeBlock (by decide) _

/-- Only entry `i` has changed: the store has another file at number `i`. -/
theorem Holds.set (h : Holds s d fl ch) (hi : i ∈ live d.dir)
    (hL : Layout d' fl' (Function.update ch i c')) (hdir : d'.dir = grownDir d i newSize crt)
    (hiso : Isolated d d' i ch) {lost : ℕ} {past : Option Block}
    (hpast : ∀ b, d'.readBlock eofBlock b = past.getD b) {f : File}
    (hf : f = { fileAt d ch i with size := newSize, blocks := c'.map d'.blk }) {free : List Block}
    (hfree : free = fl'.map d'.blk) :
    Holds ⟨s.files.set i f, free, lost, past⟩ d' fl' (Function.update ch i c') := by
  have hlive : live d'.dir = live d.dir := by rw [hdir, live_grownDir]
  have hother : ∀ j ∈ live d.dir, j ≠ i →
      fileAt d' (Function.update ch i c') j = fileAt d ch j := by
    intro j hj hne
    obtain ⟨hentry, -, hblk⟩ := hiso j hj hne
    rw [fileAt, fileAt, hentry, Function.update_of_ne hne, List.map_congr_left hblk]
  have hself : fileAt d' (Function.update ch i c') i = f := by
    rw [hf, fileAt, fileAt, hdir, grownDir_self, Function.update_self]
  refine ⟨hL, fun j hj => ?_, by simpa using h.room, fun j hj => ?_, hfree, hpast⟩
  · by_cases hjl : j ∈ live d.dir
    · have hjl' : (d'.dir j).isEmpty = false := (hlive.symm ▸ hjl : j ∈ live d'.dir).2
      have hlen := (List.getElem?_eq_some_iff.mp (h.file hjl)).1
      rw [if_neg (by rw [hjl']; decide), List.getElem?_set]
      rcases eq_or_ne i j with rfl | hne
      · rw [if_pos rfl, if_pos hlen, hself]
      · rw [if_neg hne, h.file hjl, hother j hjl hne.symm]
    · -- an empty entry has stayed empty
      have hempty : ∀ {d : Disk}, j ∉ live d.dir → (d.dir j).isEmpty = true := fun hn => by
        by_contra hne
        exact hn ⟨hj, Bool.eq_false_iff.mpr hne⟩
      have hne : i ≠ j := fun he => hjl (he ▸ hi)
      rw [if_pos (hempty (hlive.symm ▸ hjl)), List.getElem?_set_ne hne, h.files j hj,
        if_pos (hempty hjl)]
  · rw [hlive] at hj
    rcases eq_or_ne j i with rfl | hne
    · rw [hdir, grownDir_self]; exact h.name j hj
    · rw [hdir, grownDir_of_ne hne]; exact h.name j hj

theorem Holds.truncate (h : Holds s fs.disk fl ch) (path : CStr) (n : ℕ) :
    (doTruncate path n fs).2 = (s.truncate path).2 ∧
      ∃ ch', Holds (s.truncate path).1 (doTruncate path n fs).1.disk fl ch' := by
  rw [Store.truncate]
  cases hf : findDirEntry (fs.disk.blk rootdirBid) path.tail with
  | none =>
    rw [h.absent hf, doTruncate_absent n hf]
    exact ⟨rfl, ch, h⟩
  | some i =>
    have hi := live_of_find hf
    obtain ⟨fs', hw, hs, -⟩ := doTruncate_found n hf
    rw [h.found hf, hw]
    refine ⟨rfl, _, h.set hi (h.layout.truncate hi hs) hs.dir (hs.isolated h.layout.pool)
      (fun b => ?_) rfl ?_⟩
    · have hpast : SamePast fs.disk (doTruncate path n fs).1.disk := doTruncate_samePast n
      rw [hw] at hpast
      exact (hpast b).trans (h.past b)
    · rw [h.free]
      refine List.map_congr_left fun b hb => ?_
      have hin := h.layout.pool.free_ids b hb
      exact (hs.data b hin.2 (ne_rootdirBid hin.1)).symm

/-- The files of the other entries, when only entry `i` of the directory has been replaced. -/
theorem Holds.fileAt_update (h : Holds s d fl ch) {e : DirEntry} {c : List ℕ}
    (hs : DirSaved d d' (Function.update d.dir i e)) {j : ℕ} (hj : j ∈ live d.dir) (hne : j ≠ i) :
    fileAt d' (Function.update ch i c) j = fileAt d ch j := by
  obtain ⟨hentry, -, hblk⟩ := hs.isolated h.layout.pool j hj hne
  rw [fileAt, fileAt, hentry, Function.update_of_ne hne, List.map_congr_left hblk]

theorem Holds.create (h : Holds s fs.disk fl ch) (path : CStr) (m : UInt32) :
    (doCreate path m fs).2 = (s.create path m).2 ∧
      ∃ ch', Holds (s.create path m).1 (doCreate path m fs).1.disk fl ch' := by
  rw [Store.create]
  cases hf : firstEmptyDirEntry (fs.disk.blk rootdirBid) with
  | none =>
    rw [if_pos (h.full hf), doCreate_full m hf]
    exact ⟨rfl, ch, h⟩
  | some i =>
    obtain ⟨hlen, hi⟩ := h.firstEmpty hf
    have hout : i ∉ live fs.disk.dir := not_mem_live (firstEmptyDirEntry_some hf).2.1
    have hpast : SamePast fs.disk (doCreate path m fs).1.disk := doCreate_samePast m
    obtain ⟨fs', hw, hs, -⟩ := doCreate_found m hf
    rw [hw] at hpast ⊢
    rw [if_neg (by rw [hlen]; exact hi.ne)]
    have hL := h.layout.create hout hs
    have hentry : ∀ j, j ≠ i → fs'.disk.dir j = fs.disk.dir j := fun j hne => by
      rw [hs.dir, Function.update_of_ne hne]
    have hnew : fs'.disk.dir i = freshEntry path.tail m := by rw [hs.dir, Function.update_self]
    have hempty : (fs'.disk.dir i).isEmpty = decide (path.tail.chars = []) := by
      rw [hnew, freshEntry_isEmpty]
    have hfree : s.free = fl.map fs'.disk.blk := by
      rw [h.free]
      refine List.map_congr_left fun b hb => ?_
      have hin := h.layout.pool.free_ids b hb
      exact (hs.data b hin.2 (ne_rootdirBid hin.1)).symm
    have hname : ∀ j ∈ live fs'.disk.dir, ∃ n : CStr, (fs'.disk.dir j).name = n.field 12 := by
      intro j hj
      rcases eq_or_ne j i with rfl | hne
      · exact ⟨path.tail, by rw [hnew]; rfl⟩
      · rw [hs.dir, live_update hne] at hj
        rw [hentry j hne]; exact h.name j hj
    -- what the other entries show, before and after
    have hother : ∀ j < 16, j ≠ i → s.files[j]? = if (fs'.disk.dir j).isEmpty then none
        else some (fileAt fs'.disk (Function.update ch i []) j) := by
      intro j hj hne
      rw [hentry j hne, h.files j hj]
      split
      · rfl
      · rename_i hlive
        rw [h.fileAt_update hs ⟨hj, Bool.eq_false_iff.mpr hlive⟩ hne]
    by_cases hn : path.tail.chars = []
    · rw [if_pos hn]
      refine ⟨rfl, _, hL, fun j hj => ?_, h.room, hname, hfree,
        fun b => (hpast b).trans (h.past b)⟩
      rcases eq_or_ne j i with rfl | hne
      · rw [hempty, decide_eq_true hn, if_pos rfl]
        exact List.getElem?_eq_none hlen.le
      · exact hother j hj hne
    · rw [if_neg hn]
      refine ⟨rfl, _, hL, fun j hj => ?_, ?_, hname, hfree, fun b => (hpast b).trans (h.past b)⟩
      · rcases Nat.lt_trichotomy j i with hlt | rfl | hgt
        · rw [List.getElem?_append_left (by omega)]
          exact hother j hj hlt.ne
        · rw [hempty, decide_eq_false hn, ← hlen, List.getElem?_concat_length, fileAt, hlen, hnew,
            Function.update_self]
          rfl
        · rw [List.getElem?_append_right (by omega), ← hother j hj hgt.ne',
            List.getElem?_eq_none (l := s.files) (by omega)]
          exact List.getElem?_eq_none (by simp only [List.length_singleton]; omega)
      · rw [List.length_append, hlen]
        exact hi

end change

/-! ### Writes -/

section write
variable {s s' : Store} {fs : Fs} {d d' : Disk} {fl fl' post : List ℕ} {ch : ℕ → List ℕ}
  {i k y newSize crt size offset : ℕ} {path : CStr} {buffer : Mem} {bcache : Block}
  {patch : Block → Block} {ret : ℤ} {g : Fs}

/-- A write that has landed on block `k` of the file. -/
theorem Holds.wrote (h : Holds s d fl ch) (hi : i ∈ live d.dir)
    (hw : Wrote d d' i newSize k (ch i) fl patch y) (hpast : SamePast d d') {f : File}
    (hf : f = { fileAt d ch i with
      size := max (d.dir i).sizeBytes newSize
      blocks := ((ch i).map d.blk ++ s.free.take (k + 1 - (ch i).length)).modify k patch }) :
    ∃ fl' ch', Holds ⟨s.files.set i f, s.free.drop (k + 1 - (ch i).length), s.lost, s.past⟩ d' fl'
      ch' := by
  have hC := h.layout.pool
  have hnd := hC.nodup_append hi
  have hids : ∀ x ∈ ch i ++ fl, 2 ≤ x ∧ x < 10 := fun x hx =>
    (List.mem_append.mp hx).elim (hC.file_ids i hi x) (hC.free_ids x)
  have hL := h.layout.wrote hi hw
  have hk := hw.getElem_chain
  obtain ⟨crt, hdir, -⟩ := hw.dir
  generalize k + 1 - (ch i).length = need at hL hk hf ⊢
  have hsplit : (ch i ++ fl.take need) ++ fl.drop need = ch i ++ fl := by
    rw [List.append_assoc, List.take_append_drop]
  rw [← hsplit] at hnd hids
  obtain ⟨hn, -, hdisj⟩ := List.nodup_append'.mp hnd
  have hkeep : ∀ x ∈ (ch i ++ fl.take need) ++ fl.drop need, x ≠ y → d'.blk x = d.blk x :=
    fun x hx hne => hw.data x (hids x hx).1 (hids x hx).2 hne
  refine ⟨_, _, h.set hi hL hdir (hw.isolated hC hi) (fun b => (hpast b).trans (h.past b)) ?_ ?_⟩
  · rw [hf, map_eq_modify hn hk hw.patched fun x hx => hkeep x (List.mem_append_left _ hx), h.free,
      List.map_append, List.map_take]
  · rw [h.free, ← List.map_drop]
    refine List.map_congr_left fun x hx => (hkeep x (List.mem_append_right _ hx) ?_).symm
    rintro rfl
    exact hdisj (List.mem_of_getElem? hk) hx

/-- A file with blocks has grown in size only. -/
theorem Layout.resize (hL : Layout d fl ch) (hi : i ∈ live d.dir) (hne : ch i ≠ [])
    (hs : DirSaved d d' (grownDir d i newSize (d.dir i).firstBlock)) :
    Layout d' fl (Function.update ch i (ch i)) := by
  rw [Function.update_eq_self]
  have hfirst : (fun j => (d'.dir j).firstBlock) = fun j => (d.dir j).firstBlock := by
    funext j
    rw [hs.dir]
    rcases eq_or_ne j i with rfl | hji
    · rw [grownDir_self]
    · rw [grownDir_of_ne hji]
  constructor
  · rw [Chains, hs.map, hfirst, hs.dir, live_grownDir]
    exact hL.pool
  · intro j hj hc
    rw [hs.dir] at hj ⊢
    rw [live_grownDir] at hj
    rcases eq_or_ne j i with rfl | hji
    · exact absurd hc hne
    · rw [grownDir_of_ne hji]; exact hL.size j hj hc

/-- A write that has run out of blocks for a file that has some. -/
theorem Holds.stuck (h : Holds s d fl ch) (hi : i ∈ live d.dir) (hne : ch i ≠ [])
    (hs : DirSaved d d' (grownDir d i newSize (d.dir i).firstBlock)) (hpast : SamePast d d') :
    ∃ fl' ch', Holds { s with files := s.files.set i { fileAt d ch i with size := newSize } } d' fl'
      ch' := by
  have hC := h.layout.pool
  have hblk : ∀ x, 2 ≤ x ∧ x < 10 → d'.blk x = d.blk x := fun x hx =>
    hs.data x hx.2 (ne_rootdirBid hx.1)
  refine ⟨_, _, h.set hi (h.layout.resize hi hne hs) hs.dir (hs.isolated hC)
    (fun b => (hpast b).trans (h.past b)) ?_ ?_⟩
  · rw [List.map_congr_left fun x hx => hblk x (hC.file_ids i hi x hx)]
    rfl
  · rw [h.free, List.map_congr_left fun x hx => hblk x (hC.free_ids x hx)]

/-- What a disk shows is in its first ten blocks, but for what lies past them. -/
theorem Holds.congr (h : Holds s d fl ch) (hsame : ∀ b < 10, d'.blk b = d.blk b)
    {past : Option Block} (hpast : ∀ b, d'.readBlock eofBlock b = past.getD b) :
    Holds { s with past := past } d' fl ch := by
  obtain ⟨hmap, hdir⟩ := Disk.map_dir_congr fun b hb => hsame b (by omega)
  have hC := h.layout.pool
  refine ⟨⟨?_, ?_⟩, fun j hj => ?_, h.room, ?_, ?_, hpast⟩
  · rw [Chains, hmap, hdir]; exact hC
  · rw [hdir]; exact h.layout.size
  · rw [hdir, h.files j hj]
    split
    · rfl
    · rename_i hlive
      have hj' : j ∈ live d.dir := ⟨hj, Bool.eq_false_iff.mpr hlive⟩
      rw [fileAt, fileAt, hdir,
        List.map_congr_left fun x hx => hsame x (hC.file_ids j hj' x hx).2]
  · rw [hdir]; exact h.name
  · exact h.free.trans (List.map_congr_left fun x hx => (hsame x (hC.free_ids x hx).2).symm)

/-- An empty write to an empty file stores what it has read at `EOF_BLOCK`. -/
theorem Holds.idle (h : Holds s fs.disk fl ch)
    (hf : findDirEntry (fs.disk.blk rootdirBid) path.tail = some i) (hc : ch i = []) :
    (doWrite path buffer 0 0 bcache fs).2 = 0 ∧
      Holds { s with past := some (s.past.getD bcache) }
        (doWrite path buffer 0 0 bcache fs).1.disk fl ch := by
  have hfirst : (fs.disk.dir i).firstBlock = eofBlock := by
    have hfile := h.layout.pool.file i (live_of_find hf)
    rw [hc] at hfile
    exact hfile
  have hnav : navigate ((loaded fs).bdir.directory i).firstBlock (loaded fs) (0 / 512 % 2 ^ 16) =
      (loaded fs, some eofBlock) := by
    rw [loaded_dir, hfirst]; rfl
  rw [doWrite_written hf (growFile_same (Nat.zero_le _)) hnav, ← patched]
  refine ⟨rfl, h.congr (fun b hb => ?_) fun b => ?_⟩
  · rcases eq_or_ne b 0 with rfl | h0
    · rw [patched_mapBlock, loaded, Fs.loadBlockmap_bmap, Fs.loadDirectory_disk]
    · rw [patched_other hb h0 (ne_eofBlock hb), loaded_disk]
  · have hwrite : ∀ (d : Disk) (b c : Block),
        (d.writeBlock eofBlock b).readBlock eofBlock c = b := by
      intro d b c
      rw [Disk.readBlock, Disk.writeBlock_self]
      exact if_pos (Nat.lt_of_lt_of_le (Nat.lt_succ_self _) (le_max_right ..))
    rw [patched, Fs.saveBlockmap_disk,
      SamePast.writeBlock (d := (patchBlock eofBlock (0 % 512) (min 0 (512 - 0 % 512)) buffer bcache
        (loaded fs)).disk) (fun _ => rfl) (by decide)]
    simp only [patchBlock, Fs.note_disk, hwrite, Nat.zero_min, Buf.copy_zero, loaded_disk, h.past,
      Option.getD_some]

/-- A write does what the store promises. -/
theorem Holds.write (h : Holds s fs.disk fl ch) (hr : size < 2 ^ 31 ∧ offset + size < 2 ^ 63)
    (hs : s.write path buffer size offset bcache = some (s', ret)) :
    (doWrite path buffer size offset bcache fs).2 = ret ∧
      ∃ fl' ch', Holds s' (doWrite path buffer size offset bcache fs).1.disk fl' ch' := by
  rw [Store.write] at hs
  cases hf : findDirEntry (fs.disk.blk rootdirBid) path.tail with
  | none =>
    simp only [h.absent hf, Option.some.injEq, Prod.mk.injEq] at hs
    obtain ⟨rfl, rfl⟩ := hs
    rw [doWrite_absent hf]
    exact ⟨rfl, fl, ch, h⟩
  | some i =>
    have hi := live_of_find hf
    have hC := h.layout.pool
    have hnil : (fileAt fs.disk ch i).blocks = [] ↔ ch i = [] := by simp [fileAt]
    have hlen : s.free.length = fl.length := by rw [h.free, List.length_map]
    have hneeds : (fileAt fs.disk ch i).needs offset =
        offset / 512 % 2 ^ 16 + 1 - (ch i).length := by
      rw [File.needs, fileAt]; simp only [List.length_map]
    simp only [h.found hf, Store.writeFile, hneeds, ne_eq, hnil] at hs
    by_cases hb : (fs.disk.dir i).sizeBytes < offset + size ∨ ch i ≠ []
    · have hnidle : ¬(ch i = [] ∧ offset + size ≤ (fileAt fs.disk ch i).size) := by
        rintro ⟨hc, hle⟩
        exact hb.elim (fun hlt => absurd hle (not_le.mpr hlt)) fun hne => hne hc
      rw [if_neg hnidle, hlen] at hs
      rcases growFile_ready hC hi hr.2 hb with ⟨g, hg, hc, hfl, -, hdisk⟩ |
        ⟨g, crt, post, fl', hg, hready⟩
      · -- no block to start an empty file with
        rw [hfl] at hs
        rw [if_neg (by rw [hc, List.length_nil]; simp), if_neg (not_not.mpr hc),
          if_pos (by rw [h.free, hfl, List.map_nil])] at hs
        obtain ⟨rfl, rfl⟩ := Prod.mk.inj (Option.some.inj hs)
        rw [doWrite_ungrown hf hg]
        refine ⟨rfl, fl, ch, ?_⟩
        simp only [hdisk]
        exact h
      · rcases lt_or_ge (offset / 512 % 2 ^ 16) (ch i ++ fl).length with hk | hk
        · obtain ⟨fs', y, hw, hwrote, hlog⟩ : ∃ fs' y,
              doWrite path buffer size offset bcache fs = (fs', _) ∧ _ :=
            doWrite_wrote hC hi hf hg hready hk
          have hy := hC.block_range hi (List.mem_of_getElem? hwrote.block)
          have hpast := doWrite_samePast hw hlog fun z hz => by
            rw [List.mem_singleton.mp hz]; exact hy.2
          rw [List.length_append] at hk
          rw [if_pos (by omega)] at hs
          obtain ⟨rfl, rfl⟩ := Prod.mk.inj (Option.some.inj hs)
          have hret : (size : ℤ).bmod (2 ^ 32) = size :=
            Int.bmod_eq_of_le (by omega) (by omega)
          rw [hw, hret]
          exact ⟨rfl, h.wrote hi hwrote hpast rfl⟩
        · obtain ⟨fs', hw, hdisk, hlog⟩ : ∃ fs',
              doWrite path buffer size offset bcache fs = (fs', _) ∧ _ :=
            doWrite_outOfBlocks hC hi hf hg hready hk
          rw [← List.append_nil (dataWrites fs.log)] at hlog
          have hpast := doWrite_samePast hw hlog (by simp)
          rw [List.length_append] at hk
          rw [if_neg (by omega)] at hs
          rcases hready.split with ⟨hc, -, hfl⟩ | ⟨hc, -⟩
          · -- the store promises nothing for a file that would be stranded
            rw [if_neg (not_not.mpr hc), if_neg (by rw [h.free, hfl]; simp)] at hs
            cases hs
          · have hne : ch i ≠ [] := by rw [hc]; simp
            have hfile := hC.file i hi
            rw [hc] at hfile
            rw [if_pos hne] at hs
            obtain ⟨rfl, rfl⟩ := Prod.mk.inj (Option.some.inj hs)
            rw [hw]
            have hsaved : DirSaved fs.disk fs'.disk (grownDir fs.disk i
                (max (fs.disk.dir i).sizeBytes (offset + size)) (fs.disk.dir i).firstBlock) := by
              rw [hdisk, hfile.head_eq]
              exact ⟨hready.dir, hready.data⟩
            have hgrow : (fileAt fs.disk ch i).grow (offset + size) [] = { fileAt fs.disk ch i with
                size := max (fs.disk.dir i).sizeBytes (offset + size) } := by
              rw [File.grow, List.append_nil]; rfl
            rw [hgrow]
            exact ⟨rfl, h.stuck hi hne hsaved hpast⟩
    · rw [not_or, not_lt, not_not] at hb
      have hsize := h.layout.size i hi hb.2
      obtain rfl : size = 0 := by omega
      obtain rfl : offset = 0 := by omega
      rw [if_pos ⟨hb.2, hb.1⟩] at hs
      obtain ⟨rfl, rfl⟩ := Prod.mk.inj (Option.some.inj hs)
      obtain ⟨hret, hh⟩ := h.idle hf hb.2
      exact ⟨hret, fl, ch, hh⟩

end write

/-! ### The refinement -/

/-- The disk of a file system shows the store. -/
def Shows (s : Store) (fs : Fs) : Prop := ∃ fl ch, Holds s fs.disk fl ch

theorem shows_fresh (d : Disk) (blk : Block) {fs : Fs} (h : fs.disk = formatMyfs d blk) :
    Shows (Store.fresh fs.disk) fs := by
  have hempty : ∀ i, i ∉ live fs.disk.dir := by
    rw [h, formatMyfs_live]; exact Set.notMem_empty
  refine ⟨List.range' 2 8, fun _ => [], by rw [h]; exact layout_format d blk, fun i hi => ?_,
    Nat.zero_le _, fun i hi => absurd hi (hempty i), rfl, fun b => ?_⟩
  · rw [if_pos]
    · rfl
    · by_contra hne
      exact hempty i ⟨hi, Bool.eq_false_iff.mpr hne⟩
  · rw [Disk.readBlock, Store.fresh]
    simp only
    split <;> rfl

theorem doGetattr_disk (env : Env) (path : CStr) (st : Stat) (fs : Fs) :
    (doGetattr env path st fs).1.disk = fs.disk := by
  rw [doGetattr]
  split
  · rfl
  · simp only
    split <;> rfl

theorem doReaddir_disk (path : CStr) (rootb : Block) (fs : Fs) :
    (doReaddir path rootb fs).1.disk = fs.disk := by
  rw [doReaddir]
  split <;> rfl

theorem doRead_disk (path : CStr) (size : ℕ) (bcache : Block) (fs : Fs) :
    (doRead path size bcache fs).1.disk = fs.disk := by
  rw [doRead]
  simp only
  split <;> rfl

/-- One call. -/
theorem Holds.exec {s s' : Store} {fs : Fs} {fl : List ℕ} {ch : ℕ → List ℕ} {c : Call} {ret : ℤ}
    (h : Holds s fs.disk fl ch) (hr : c.InRange) (hs : s.exec c = some (s', ret)) :
    (c.exec fs).2 = ret ∧ Shows s' (c.exec fs).1 := by
  cases c with
  | create path m =>
    obtain ⟨hret, ch', h'⟩ := h.create path m
    obtain ⟨rfl, rfl⟩ := Prod.ext_iff.mp (Option.some.inj hs)
    exact ⟨hret, fl, ch', h'⟩
  | write path buffer size offset bcache => exact h.write hr hs
  | truncate path n =>
    obtain ⟨hret, ch', h'⟩ := h.truncate path n
    obtain ⟨rfl, rfl⟩ := Prod.ext_iff.mp (Option.some.inj hs)
    exact ⟨hret, fl, ch', h'⟩

/-- One request. -/
theorem ssfs_refines : Refines Request.InRange Shows Store.step ssfs := by
  rintro s fs r s' a ⟨fl, ch, h⟩ hr hs
  refine ⟨r.serve fs, ?_⟩
  cases r with
  | getattr env path st =>
    obtain ⟨rfl, rfl⟩ := Prod.mk.inj (Option.some.inj hs)
    rw [ssfs, Request.reply, h.getattr]
    exact ⟨rfl, fl, ch, by rw [Request.serve, doGetattr_disk]; exact h⟩
  | readdir path rootb =>
    obtain ⟨rfl, rfl⟩ := Prod.mk.inj (Option.some.inj hs)
    rw [ssfs, Request.reply, h.readdir]
    exact ⟨rfl, fl, ch, by rw [Request.serve, doReaddir_disk]; exact h⟩
  | read path size bcache =>
    obtain ⟨rfl, rfl⟩ := Prod.mk.inj (Option.some.inj hs)
    rw [ssfs, Request.reply, h.read]
    exact ⟨rfl, fl, ch, by rw [Request.serve, doRead_disk]; exact h⟩
  | change c =>
    obtain ⟨⟨s₁, ret⟩, hexec, heq⟩ := Option.map_eq_some_iff.mp hs
    obtain ⟨rfl, rfl⟩ := Prod.mk.inj heq
    obtain ⟨rfl, hshows⟩ := h.exec hr hexec
    exact ⟨rfl, hshows⟩

/-- CORRECT (refinement): on a formatted disk, whatever the caches hold, a run of requests for
    which the store has promises gets just the promised answers and leaves a disk that shows the
    store. It has one for every request but a write that strands an empty file. -/
theorem store_refined : (∀ s r, Store.step s r = none ↔ s.Strands r) ∧
    ∀ (d : Disk) (blk : Block) (fs : Fs), fs.disk = formatMyfs d blk →
      ∀ (rs : List Request) (s : Store) (as : List Answer), (∀ r ∈ rs, r.InRange) →
        Store.step.run (Store.fresh fs.disk) rs = some (s, as) →
        ∃ fs', ssfs.run fs rs = some (fs', as) ∧ Shows s fs' := by
  refine ⟨Store.step_eq_none_iff, fun d blk fs hfs rs s as hr hrun => ?_⟩
  exact ssfs_refines.run (shows_fresh d blk hfs) hr hrun

/-- A file is created, written and read. -/
def writeReadA : List Request :=
  [.change (.create pathA 0), .change (.write pathA (fun _ => 7) 1 0 (Buf.zero 512)),
    .read pathA 1 (Buf.zero 512)]

theorem store_refined_writeReadA : ∃ s fs',
    ssfs.run freshFs writeReadA = some (fs', [.status 0, .status 1, .bytes [7] 1]) ∧ Shows s fs' :=
  ⟨_, store_refined.2 _ _ freshFs rfl writeReadA _ [.status 0, .status 1, .bytes [7] 1]
    (by simp [writeReadA, Request.InRange, Call.InRange]) rfl⟩
end OsLabs.Ssfs

import OsLabs.Ssfs.Remount

/-! @src lab4_fs/ssfs.c, lab4_fs/rawdisk.c | name:crash | scheme:refines

    The machine stops between two block writes and the file system is mounted again. A block write
    is taken to be done entirely or not at all. `do_create` and `do_truncate` write one block, and
    `do_write` up to three:

        save_directory   ·   the data block   ·   save_blockmap
        new size, start      of the file           links

    A file that had blocks keeps them at each point. One that had none already starts at a block
    which the map on the disk still has in the free list.                                      -/

namespace OsLabs.Ssfs
open Schemes

/-- The disks that a call can leave when it is cut off: before its first block write, between two of
    them, or after the last. -/
inductive Crashed (fs : Fs) : Call → Disk → Prop
  | before (c : Call) : Crashed fs c fs.disk
  | grown {path : CStr} {buffer : Mem} {size offset i : ℕ} {bcache : Block} {g : Fs}
      (hf : findDirEntry (fs.disk.blk rootdirBid) path.tail = some i)
      (hg : growFile i size offset (loaded fs) = (g, true)) :
      Crashed fs (.write path buffer size offset bcache) g.disk
  | written {path : CStr} {buffer : Mem} {size offset i y : ℕ} {bcache : Block} {g g' : Fs}
      (hf : findDirEntry (fs.disk.blk rootdirBid) path.tail = some i)
      (hg : growFile i size offset (loaded fs) = (g, true))
      (hn : navigate (g.bdir.directory i).firstBlock g (offset / 512 % 2 ^ 16) = (g', some y)) :
      Crashed fs (.write path buffer size offset bcache)
        (patchBlock y (offset % 512) (min size (512 - offset % 512)) buffer bcache g').disk
  | after (c : Call) : Crashed fs c (c.exec fs).1.disk

/-- A write that gives an empty file its first block. -/
def Exposed (d : Disk) : Call → Prop
  | .write path _ size offset _ => ∃ i, findDirEntry (d.blk rootdirBid) path.tail = some i ∧
      (d.dir i).firstBlock = eofBlock ∧ (d.dir i).sizeBytes < offset + size ∧ d.map 0 ≠ 0
  | _ => False

/-! ### What a disk shows after a change to one file -/

section revise
variable {s s' : Store} {d d' : Disk} {fl fl' : List ℕ} {ch ch' : ℕ → List ℕ} {i : ℕ}

/-- A disk with the same names in the directory shows some store, if it has a layout. -/
theorem Holds.revise (h : Holds s d fl ch) (hL : Layout d' fl' ch')
    (hname : ∀ j, (d'.dir j).name = (d.dir j).name) : ∃ s', Holds s' d' fl' ch' := by
  have hempty : ∀ j, (d'.dir j).isEmpty = (d.dir j).isEmpty := fun j => by
    rw [DirEntry.isEmpty, DirEntry.isEmpty, hname]
  refine ⟨⟨s.files.mapIdx fun j _ => fileAt d' ch' j, fl'.map d'.blk, s.lost,
    if eofBlock < d'.nblk then some (d'.blk eofBlock) else none⟩, hL, fun j hj => ?_,
    by simpa using h.room, fun j hj => ?_, rfl, fun b => ?_⟩
  · rw [List.getElem?_mapIdx, h.files j hj, hempty]
    split <;> rfl
  · have hj' : j ∈ live d.dir := ⟨hj.1, by rw [← hempty]; exact hj.2⟩
    rw [hname]
    exact h.name j hj'
  · rw [Disk.readBlock]
    simp only
    split <;> rfl

/-- What both disks have in an entry is found in both stores. -/
theorem Holds.lookup_keep (h : Holds s d fl ch) (h' : Holds s' d' fl' ch')
    (hname : ∀ j, (d'.dir j).name = (d.dir j).name) {path : CStr} {j : ℕ} {f : File}
    (hl : s.lookup path = some (j, f)) (hfile : fileAt d' ch' j = fileAt d ch j) :
    s'.lookup path = some (j, f) := by
  obtain ⟨hf, -, -⟩ := h.byte hl
  have hf' : findDirEntry (d'.blk rootdirBid) path.tail = some j := by
    rw [findDirEntry_congr hname]; exact hf
  rw [h.found hf] at hl
  rw [h'.found hf', hfile]
  exact hl

end revise

/-! ### A write that is cut off -/

/-- Only file `i` may show something else, and it still stands on its blocks. -/
structure Torn (d d' : Disk) (i : ℕ) (fl : List ℕ) (ch : ℕ → List ℕ) : Prop where
  layout : Layout d' fl ch
  name : ∀ j, (d'.dir j).name = (d.dir j).name
  others : ∀ j ∈ live d.dir, j ≠ i → fileAt d' ch j = fileAt d ch j

section torn
variable {s : Store} {fs g g' : Fs} {d d' : Disk} {fl : List ℕ} {ch : ℕ → List ℕ}
  {i y size offset : ℕ} {path : CStr} {buffer : Mem} {bcache : Block}

theorem Layout.congr (hL : Layout d fl ch) (hsame : ∀ b < 2, d'.blk b = d.blk b) :
    Layout d' fl ch := by
  obtain ⟨hmap, hdir⟩ := Disk.map_dir_congr hsame
  exact ⟨by rw [Chains, hmap, hdir]; exact hL.pool, by rw [hdir]; exact hL.size⟩

theorem Layout.map_zero_iff (hL : Layout d fl ch) : d.map 0 = 0 ↔ fl = [] := by
  have hfree := hL.pool.free
  cases fl with
  | nil => exact iff_of_true hfree rfl
  | cons b fl => exact iff_of_false (by rw [hfree.head_eq]; exact hfree.2.1) (List.cons_ne_nil b fl)

theorem Torn.refl (i : ℕ) (hL : Layout d fl ch) : Torn d d i fl ch :=
  ⟨hL, fun _ => rfl, fun _ _ _ => rfl⟩

/-- Growing a file that has blocks, or finding it large enough. -/
theorem growFile_torn (hL : Layout fs.disk fl ch) (hi : i ∈ live fs.disk.dir)
    (hr : offset + size < 2 ^ 63) (hg : growFile i size offset (loaded fs) = (g, true))
    (hne : ¬((fs.disk.dir i).firstBlock = eofBlock ∧ (fs.disk.dir i).sizeBytes < offset + size ∧
      fs.disk.map 0 ≠ 0)) : Torn fs.disk g.disk i fl ch := by
  rcases lt_or_ge (fs.disk.dir i).sizeBytes (offset + size) with hlt | hle
  · cases hc : ch i with
    | nil =>
      -- without a free block the file cannot have grown
      have hfirst := (hL.pool.first_eof_iff hi).mpr hc
      have hfree : fs.disk.map 0 = 0 := by
        by_contra hfree
        exact hne ⟨hfirst, hlt, hfree⟩
      obtain ⟨g₁, hg₁, -⟩ := growFile_noBlock (Nat.mod_eq_of_lt (by omega)) hlt hi.1 hfirst hfree
      rw [hg₁] at hg
      cases (Prod.mk.inj hg).2
    | cons crt post =>
      obtain ⟨g₁, hg₁, hready⟩ := ready_more hL.pool hi hlt (by omega) hc
      rw [hg₁] at hg
      obtain ⟨rfl, -⟩ := Prod.mk.inj hg
      have hfile := hL.pool.file i hi
      rw [hc] at hfile
      have hs : DirSaved fs.disk g₁.disk (grownDir fs.disk i
          (max (fs.disk.dir i).sizeBytes (offset + size)) (fs.disk.dir i).firstBlock) := by
        rw [hfile.head_eq]
        exact ⟨hready.dir, hready.data⟩
      have hlayout := hL.resize hi (by rw [hc]; exact List.cons_ne_nil crt post) hs
      rw [Function.update_eq_self] at hlayout
      refine ⟨hlayout, fun j => ?_, fun j hj hji => ?_⟩
      · rw [hs.dir]
        rcases eq_or_ne j i with rfl | hji
        · rw [grownDir_self]
        · rw [grownDir_of_ne hji]
      · obtain ⟨hentry, -, hblk⟩ := hs.isolated hL.pool j hj hji
        rw [fileAt, fileAt, hentry, List.map_congr_left hblk]
  · rw [growFile_same ((Nat.mod_le ..).trans hle)] at hg
    obtain ⟨rfl, -⟩ := Prod.mk.inj hg
    exact Torn.refl i hL

/-- The block that the loop leads to is none of another file, nor the map or the directory. -/
theorem navigate_block (hL : Layout fs.disk fl ch) (hi : i ∈ live fs.disk.dir)
    (hr : offset + size < 2 ^ 63)
    (hf : findDirEntry (fs.disk.blk rootdirBid) path.tail = some i)
    (hg : growFile i size offset (loaded fs) = (g, true))
    (hn : navigate (g.bdir.directory i).firstBlock g (offset / 512 % 2 ^ 16) = (g', some y)) :
    2 ≤ y ∧ ∀ j ∈ live fs.disk.dir, j ≠ i → y ∉ ch j := by
  have hw : doWrite path (fun _ => 0) size offset (Buf.zero 512) fs = _ := doWrite_written hf hg hn
  rw [← patched] at hw
  -- the only block that data is written to
  have hlog : dataWrites (doWrite path (fun _ => 0) size offset (Buf.zero 512) fs).1.log =
      dataWrites fs.log ++ [y] := by
    have hdata := navigate_dataWrites (offset / 512 % 2 ^ 16) (g.bdir.directory i).firstBlock g
    rw [hn, grown_dataWrites hg] at hdata
    rw [hw, patched_dataWrites, hdata]
  obtain ⟨fs', ret, ws, hw', hlog', hexit⟩ :=
    doWrite_exit (fun _ => 0) (Buf.zero 512) hL hi hf hr
  rw [hw', hlog'] at hlog
  obtain rfl := List.append_cancel_left hlog
  have hchain : ∀ z ∈ ch i ++ fl, ∀ j ∈ live fs.disk.dir, j ≠ i → z ∉ ch j := by
    intro z hz j hj hji hmem
    exact (List.mem_append.mp hz).elim (hL.pool.file_file j hj i hi hji hmem)
      (hL.pool.file_free j hj hmem)
  generalize fs'.disk = d' at hexit
  cases hexit with
  | idle =>
    exact ⟨by decide, fun j hj _ hmem => absurd (hL.pool.file_ids j hj _ hmem).2 (by decide)⟩
  | wrote _ hwrote =>
    have hmem := List.mem_of_getElem? hwrote.block
    exact ⟨(hL.pool.block_range hi hmem).1, hchain _ hmem⟩

/-- Writing that block tears nothing else. -/
theorem Torn.writeBlock (h : Torn d d' i fl ch) (hy : 2 ≤ y)
    (hout : ∀ j ∈ live d.dir, j ≠ i → y ∉ ch j) (b : Block) :
    Torn d (d'.writeBlock y b) i fl ch := by
  have hother : ∀ {x}, x < 10 → x ≠ y → (d'.writeBlock y b).blk x = d'.blk x :=
    fun hx hne => Disk.writeBlock_of_ne hx hne
  have hsame : ∀ x < 2, (d'.writeBlock y b).blk x = d'.blk x := fun x hx =>
    hother (by omega) (by omega)
  obtain ⟨-, hdir⟩ := Disk.map_dir_congr hsame
  refine ⟨h.layout.congr hsame, fun j => by rw [hdir, h.name], fun j hj hji => ?_⟩
  rw [← h.others j hj hji, fileAt, fileAt, hdir, List.map_congr_left fun x hx => ?_]
  have hj' : j ∈ live d'.dir := ⟨hj.1, by rw [DirEntry.isEmpty, h.name]; exact hj.2⟩
  have hx10 := (h.layout.pool.file_ids j hj' x hx).2
  exact hother hx10 (by rintro rfl; exact hout j hj hji hx)

end torn

/-! ### What is left -/

section left
variable {s : Store} {fs : Fs} {d' : Disk} {c : Call} {r : Request}

/-- A write that would be stranded gives an empty file its first block. -/
theorem Shows.exposed (h : Shows s fs) (hs : s.Strands (.change c)) : Exposed fs.disk c := by
  obtain ⟨fl, ch, h⟩ := h
  cases c with
  | create path m => exact hs
  | truncate path n => exact hs
  | write path buffer size offset bcache =>
    obtain ⟨i, f, hl, hblocks, hlt, hfree, -⟩ := hs
    obtain ⟨hf, -, -⟩ := h.byte hl
    rw [h.found hf] at hl
    obtain ⟨-, rfl⟩ := Prod.mk.inj (Option.some.inj hl)
    refine ⟨i, hf, (h.layout.pool.first_eof_iff (live_of_find hf)).mpr ?_, hlt, fun hz => hfree ?_⟩
    · simpa [fileAt] using hblocks
    · rw [h.free, h.layout.map_zero_iff.mp hz, List.map_nil]

/-- A stranded write fails. -/
theorem Shows.strands_ret (h : Shows s fs) (hr : c.InRange) (hs : s.Strands (.change c)) :
    (c.exec fs).2 = -enospc := by
  obtain ⟨fl, ch, h⟩ := h
  cases c with
  | create path m => exact absurd hs id
  | truncate path n => exact absurd hs id
  | write path buffer size offset bcache =>
    obtain ⟨i, f, hl, hblocks, hlt, hfree, hneed⟩ := hs
    obtain ⟨hf, -, -⟩ := h.byte hl
    rw [h.found hf] at hl
    obtain ⟨-, rfl⟩ := Prod.mk.inj (Option.some.inj hl)
    have hc : ch i = [] := by simpa [fileAt] using hblocks
    have hlen : s.free.length = fl.length := by rw [h.free, List.length_map]
    have hk : fl.length ≤ offset / 512 % 2 ^ 16 := by
      rw [File.needs, hblocks, hlen] at hneed
      exact Nat.le_of_lt_succ hneed
    obtain ⟨fs', ret, ws, hw, -, hexit⟩ :=
      doWrite_exit buffer bcache h.layout (live_of_find hf) hf hr.2
    have hsize : (fs.disk.dir i).sizeBytes < offset + size := hlt
    rw [Call.exec, hw]
    simp only
    generalize fs'.disk = d' at hexit
    cases hexit with
    | noBlock => rfl
    | idle => omega
    | stuck => rfl
    | wrote hk' =>
      rw [hc, List.nil_append] at hk'
      exact absurd hk' (not_lt.mpr hk)

/-- A call that does not expose its file leaves, wherever it is cut off, a disk that shows a store
    with the files that the call spares. -/
theorem Crashed.shows (h : Shows s fs) (hr : c.InRange) (hne : ¬Exposed fs.disk c)
    (hd : Crashed fs c d') : ∃ s' fl ch, Holds s' d' fl ch ∧ ∀ path j f,
      Request.Spares path (.change c) → s.lookup path = some (j, f) →
      s'.lookup path = some (j, f) := by
  obtain ⟨fl, ch, hh⟩ := id h
  -- a torn write leaves the files with other numbers, and so with other keys
  have htorn : ∀ {path : CStr} {buffer : Mem} {size offset i : ℕ} {bcache : Block},
      findDirEntry (fs.disk.blk rootdirBid) path.tail = some i → Torn fs.disk d' i fl ch →
      ∃ s' fl ch, Holds s' d' fl ch ∧ ∀ p j f,
        Request.Spares p (.change (.write path buffer size offset bcache)) →
        s.lookup p = some (j, f) → s'.lookup p = some (j, f) := by
    intro path buffer size offset i bcache hf ht
    obtain ⟨s', h'⟩ := hh.revise ht.layout ht.name
    refine ⟨s', fl, ch, h', fun p j f hp hl => hh.lookup_keep h' ht.name hl ?_⟩
    have hj := live_of_find (hh.byte hl).1
    refine ht.others j hj ?_
    rintro rfl
    obtain ⟨hfj, hkey, -⟩ := Store.lookup_eq_some.mp hl
    obtain ⟨hfj', hkey', -⟩ := Store.lookup_eq_some.mp (hh.found hf)
    obtain rfl := Option.some.inj (hfj.symm.trans hfj')
    exact hp (hkey'.symm.trans hkey)
  cases hd with
  | before => exact ⟨s, fl, ch, hh, fun _ _ _ _ hl => hl⟩
  | @grown path buffer size offset i bcache g hf hg =>
    refine htorn hf (growFile_torn hh.layout (live_of_find hf) hr.2 hg fun he => hne ⟨i, hf, he⟩)
  | @written path buffer size offset i y bcache g g' hf hg hn =>
    have hi := live_of_find hf
    have ht := growFile_torn hh.layout hi hr.2 hg fun he => hne ⟨i, hf, he⟩
    obtain ⟨hy, hout⟩ := navigate_block hh.layout hi hr.2 hf hg hn
    have hframe := (navigate_frame (offset / 512 % 2 ^ 16) (g.bdir.directory i).firstBlock g).1
    rw [hn] at hframe
    rw [← hframe] at ht
    exact htorn hf (ht.writeBlock hy hout _)
  | after =>
    cases hexec : s.exec c with
    | none =>
      have hnone : Store.step s (.change c) = none := by rw [Store.step, hexec]; rfl
      exact absurd (h.exposed ((Store.step_eq_none_iff s _).mp hnone)) hne
    | some r =>
      obtain ⟨s', ret⟩ := r
      obtain ⟨-, fl', ch', h'⟩ := hh.exec hr hexec
      have hstep : Store.step s (.change c) = some (s', .status ret) := by
        rw [Store.step, hexec]; rfl
      exact ⟨s', fl', ch', h', fun p j f hp hl => Store.step_spares hl hp hstep⟩

/-- An exposed file starts in the free list when the call is cut off after the first block write. -/
theorem Exposed.crashed (h : Shows s fs) (hr : c.InRange) (he : Exposed fs.disk c) :
    ∃ d', Crashed fs c d' ∧ ¬∃ fl ch, Layout d' fl ch := by
  obtain ⟨fl, ch, h⟩ := h
  have hL := h.layout
  cases c with
  | create path m => exact absurd he id
  | truncate path n => exact absurd he id
  | write path buffer size offset bcache =>
    obtain ⟨i, hf, hfirst, hlt, hfree⟩ := he
    have hi := live_of_find hf
    have hc := (hL.pool.first_eof_iff hi).mp hfirst
    obtain ⟨hsize, hrange⟩ := hr
    cases hfl : fl with
    | nil => exact absurd (hL.map_zero_iff.mpr hfl) hfree
    | cons b rest =>
      obtain ⟨g, hg, hready⟩ := ready_start hL.pool hi hlt (by omega) hc hfl
      refine ⟨g.disk, .grown hf hg, ?_⟩
      rintro ⟨fl', ch', hL'⟩
      have hmap : g.disk.map = fs.disk.map := by
        rw [Disk.map, Disk.map, hready.data blkmapBid (by decide) (by decide)]
      have hstart : (g.disk.dir i).firstBlock = b := by rw [hready.dir, grownDir_self]
      have hi' : i ∈ live g.disk.dir := by rw [hready.dir, live_grownDir]; exact hi
      -- the map still has `b` at the head of the free list
      have hwalk := hL'.pool.free
      rw [hmap] at hwalk
      have hmem : b ∈ fl' := by
        rw [hwalk.unique hL.pool.free, hfl]
        exact List.mem_cons_self ..
      have hrange := hL'.pool.free_ids b hmem
      have hfile := hL'.pool.file i hi'
      rw [hstart] at hfile
      cases hch : ch' i with
      | nil =>
        rw [hch] at hfile
        exact ne_eofBlock hrange.2 hfile
      | cons x post =>
        rw [hch] at hfile
        obtain rfl : b = x := hfile.head_eq
        exact hL'.pool.file_free i hi' (by rw [hch]; exact List.mem_cons_self ..) hmem

end left

/-- CORRECT (crash): the disk of a call that is cut off shows a store, whichever block write it
    stops at, exactly when the call does not give an empty file its first block. The store then
    has the files that the call spares. -/
theorem crash_iff {s : Store} {fs : Fs} {c : Call} (h : Shows s fs) (hr : c.InRange) :
    ((∀ d', Crashed fs c d' → ∃ s' fl ch, Holds s' d' fl ch) ↔ ¬Exposed fs.disk c) ∧
    (¬Exposed fs.disk c → ∀ d', Crashed fs c d' → ∃ s' fl ch, Holds s' d' fl ch ∧
      ∀ path j f, Request.Spares path (.change c) → s.lookup path = some (j, f) →
        s'.lookup path = some (j, f)) := by
  refine ⟨⟨fun hall he => ?_, fun hne d' hd => ?_⟩, fun hne d' hd => hd.shows h hr hne⟩
  · obtain ⟨d', hd, hno⟩ := he.crashed h hr
    obtain ⟨s', fl, ch, h'⟩ := hall d' hd
    exact hno ⟨fl, ch, h'.layout⟩
  · obtain ⟨s', fl, ch, h', -⟩ := hd.shows h hr hne
    exact ⟨s', fl, ch, h'⟩

/-- `/a` with four blocks, as two requests have made it. -/
def madeA : Fs := serveAll freshFs [.change (.create pathA 0), .change writeBlock3]

theorem shows_madeA : ∃ s, Shows s madeA := by
  have hfs : freshFs.disk = formatMyfs _ _ := rfl
  have hr : ∀ r ∈ [Request.change (.create pathA 0), .change writeBlock3], r.InRange := by
    simp [writeBlock3, Request.InRange, Call.InRange]
  exact ⟨_, (shows_fresh _ _ hfs).serveAll hr rfl⟩

/-- Extending that file by a block may be cut off anywhere. -/
theorem crash_iff_madeA : ∃ s, Shows s madeA ∧
    ((∀ d', Crashed madeA (.write pathA (fun _ => 9) 1 2048 (Buf.zero 512)) d' →
      ∃ s' fl ch, Holds s' d' fl ch) ↔
      ¬Exposed madeA.disk (.write pathA (fun _ => 9) 1 2048 (Buf.zero 512))) := by
  obtain ⟨s, hs⟩ := shows_madeA
  have hr : Call.InRange (.write pathA (fun _ => 9) 1 2048 (Buf.zero 512)) :=
    ⟨by decide, by decide⟩
  exact ⟨s, hs, (crash_iff hs hr).1⟩

/-! ### Runs with crashes -/

/-- The states that requests lead to when any of them may be cut off, and the file system is then
    mounted with anything in its caches. A write that gives an empty file its first block has to
    be completed, and to succeed. -/
inductive Survives : Fs → Prop
  | start {fs : Fs} {d : Disk} {blk : Block} (h : fs.disk = formatMyfs d blk) : Survives fs
  | serve {fs : Fs} {r : Request} (h : Survives fs) (hr : r.InRange)
      (hok : ∀ c, r = .change c → Exposed fs.disk c → 0 ≤ (c.exec fs).2) : Survives (r.serve fs)
  | crash {fs : Fs} {c : Call} {d' : Disk} (h : Survives fs) (hr : c.InRange)
      (hd : Crashed fs c d') (hne : ¬Exposed fs.disk c) (bdir bmap : Block) :
      Survives ⟨d', bdir, bmap, []⟩

/-- CORRECT (crashes): in every state that requests and crashes lead to, the disk shows a store. -/
theorem survives_shows {fs : Fs} (h : Survives fs) : ∃ s, Shows s fs := by
  induction h with
  | start hd => exact ⟨_, shows_fresh _ _ hd⟩
  | @serve fs r _ hr hok ih =>
    obtain ⟨s, hs⟩ := ih
    cases hstep : Store.step s r with
    | some x =>
      obtain ⟨s', a⟩ := x
      obtain ⟨fs', hserve, hs'⟩ := ssfs_refines s fs r s' a hs hr hstep
      obtain ⟨rfl, -⟩ := Prod.mk.inj (Option.some.inj hserve)
      exact ⟨s', hs'⟩
    | none =>
      -- a write that would be stranded has failed
      have hst := (Store.step_eq_none_iff s r).mp hstep
      cases r with
      | change c =>
        have hret := hok c rfl (hs.exposed hst)
        rw [hs.strands_ret hr hst] at hret
        exact absurd hret (by decide)
      | getattr env path st => exact absurd hst id
      | readdir path rootb => exact absurd hst id
      | read path size bcache => exact absurd hst id
  | @crash fs c d' _ hr hd hne bdir bmap ih =>
    obtain ⟨s, hs⟩ := ih
    obtain ⟨s', fl, ch, h', -⟩ := hd.shows hs hr hne
    exact ⟨s', fl, ch, h'⟩

/-- The file system stops right after `/a` has been created, and is mounted again. -/
theorem survives_shows_created : ∃ s,
    Shows s ⟨(Call.exec freshFs (.create pathA 0)).1.disk, Buf.zero 512, Buf.zero 512, []⟩ := by
  have hr : Call.InRange (.create pathA 0) := trivial
  exact survives_shows ((Survives.start rfl).crash hr (.after _) id _ _)

end OsLabs.Ssfs

import OsLabs.Ssfs.Lengths

/-! @src lab4_fs/ssfs.c, lab4_fs/rawdisk.c | name:bounds | scheme:pool

    Every access a request makes is logged; on a disk with chains they should all be on the disk,
    and file data should be accessed in the chain of the file. Two paths use the first block of a
    file without asking whether there is one: `do_read`, and `do_write` when it does not grow the
    file. A file without blocks starts at `EOF_BLOCK`, so there they go past the end of the disk. -/

namespace OsLabs.Ssfs
open Schemes

/-! ### The requests and their accesses -/

/-- A call of one of the operations, with the buffers it starts from. -/
inductive Request where
  | getattr (env : Env) (path : CStr) (st : Stat)
  | readdir (path : CStr) (rootb : Block)
  | read (path : CStr) (size : ℕ) (bcache : Block)
  | change (c : Call)

namespace Request

def path : Request → CStr
  | getattr _ path _ => path
  | readdir path _ => path
  | read path .. => path
  | change c => c.path

/-- The state after the request. -/
def serve (fs : Fs) : Request → Fs
  | getattr env path st => (doGetattr env path st fs).1
  | readdir path rootb => (doReaddir path rootb fs).1
  | read path size bcache => (doRead path size bcache fs).1
  | change c => (c.exec fs).1

def InRange : Request → Prop
  | change c => c.InRange
  | _ => True

/-- A read of a file without blocks, or a write to one that stays inside its size. -/
def UsesEof (d : Disk) : Request → Prop
  | read path .. => ∃ i, findDirEntry (d.blk rootdirBid) path.tail = some i ∧
      (d.dir i).firstBlock = eofBlock
  | change (.write path _ size offset _) => ∃ i,
      findDirEntry (d.blk rootdirBid) path.tail = some i ∧ (d.dir i).firstBlock = eofBlock ∧
        offset + size ≤ (d.dir i).sizeBytes
  | _ => False

end Request

namespace Access

/-- A block of the disk, or an index into the map. -/
def OnDisk : Access → Prop
  | read bid _ => bid < fsNblocks
  | write bid _ => bid < fsNblocks
  | index i => i < 256

instance : DecidablePred OnDisk
  | read bid _ => inferInstanceAs (Decidable (bid < fsNblocks))
  | write bid _ => inferInstanceAs (Decidable (bid < fsNblocks))
  | index i => inferInstanceAs (Decidable (i < 256))

/-- The block, if it is accessed for file data. -/
def data : Access → Option ℕ
  | read bid .bcache => some bid
  | write bid .bcache => some bid
  | _ => none

/-- On the disk, and not for file data. -/
def Plain (a : Access) : Prop := a.OnDisk ∧ a.data = none

end Access

/-- The accesses between two states, all of which satisfy `P`. -/
def Logged (P : Access → Prop) (fs fs' : Fs) : Prop :=
  ∃ as, fs'.log = fs.log ++ as ∧ ∀ a ∈ as, P a

/-- Block `bid` is one of the chain that the file of the path has in `fs'`. -/
def InChain (fs fs' : Fs) (path : CStr) (bid : ℕ) : Prop :=
  ∃ i bs, findDirEntry (fs.disk.blk rootdirBid) path.tail = some i ∧
    Walk fs'.disk.map eofBlock (fs'.disk.dir i).firstBlock bs ∧ bid ∈ bs

/-- All accesses of the request are on the disk, and those for data are in the chain of its file. -/
def Bounded (fs : Fs) (r : Request) : Prop :=
  Logged (fun a => a.OnDisk ∧ ∀ bid, a.data = some bid → InChain fs (r.serve fs) r.path bid) fs
    (r.serve fs)

namespace Logged
variable {P Q : Access → Prop} {fs fs' fs'' : Fs} {a : Access} {as : List Access}

theorem refl (fs : Fs) : Logged P fs fs := ⟨[], (List.append_nil _).symm, by simp⟩

theorem trans (h : Logged P fs fs') (h' : Logged P fs' fs'') : Logged P fs fs'' := by
  obtain ⟨as, hlog, has⟩ := h
  obtain ⟨as', hlog', has'⟩ := h'
  refine ⟨as ++ as', by rw [hlog', hlog, List.append_assoc], fun a ha => ?_⟩
  exact (List.mem_append.mp ha).elim (has a) (has' a)

theorem note (h : Logged P fs fs') (ha : P a) : Logged P fs (fs'.note a) :=
  h.trans ⟨[a], rfl, by simpa using ha⟩

theorem imp (h : Logged P fs fs') (hPQ : ∀ a, P a → Q a) : Logged Q fs fs' := by
  obtain ⟨as, hlog, has⟩ := h
  exact ⟨as, hlog, fun a ha => hPQ a (has a ha)⟩

/-- An access between the two states is one of those accounted for. -/
theorem of_mem (h : Logged P fs fs') (hlog : fs'.log = fs.log ++ as) (ha : a ∈ as) : P a := by
  obtain ⟨as', hlog', has⟩ := h
  rw [hlog] at hlog'
  exact has a (List.append_cancel_left hlog' ▸ ha)

end Logged

/-- A plain access makes no claim on any file. -/
theorem Access.Plain.of_data {a : Access} (Q : ℕ → Prop) (h : a.Plain) :
    a.OnDisk ∧ ∀ bid, a.data = some bid → Q bid :=
  ⟨h.1, fun bid hbid => by rw [h.2] at hbid; cases hbid⟩

theorem Bounded.of_plain {fs : Fs} {r : Request} (h : Logged Access.Plain fs (r.serve fs)) :
    Bounded fs r := h.imp fun _ => Access.Plain.of_data _

/-- A request that goes off the disk is not bounded. -/
theorem not_bounded {fs : Fs} {r : Request} {as : List Access} {a : Access}
    (hlog : (r.serve fs).log = fs.log ++ as) (ha : a ∈ as) (hout : ¬a.OnDisk) : ¬Bounded fs r :=
  fun h => hout (h.of_mem hlog ha).1

/-! ### The accesses of a write -/

section write
variable {fs g g' : Fs} {fl fl' : List ℕ} {ch : ℕ → List ℕ} {i n crt size offset : ℕ}
  {path : CStr} {buffer : Mem} {bcache : Block} {P : Access → Prop}

theorem allocBlock_logged (h0 : P (.index 0)) (hhead : P (.index (fs.bmap.blockmap 0))) :
    Logged P fs fs.allocBlock.1 := by
  refine ⟨_, rfl, ?_⟩
  rw [allocateIndices]
  split
  · simpa using h0
  · simpa using ⟨h0, hhead⟩

/-- The loop makes only the accesses it may, whatever these are, as long as they include its
    indices into the map. -/
theorem navigate_logged {S : Set ℕ} (hS : Indexed S) (hP : ∀ x ∈ S, P (.index x)) :
    ∀ {n crt : ℕ} (fs : Fs) {fl : List ℕ}, crt ∈ S →
      Closed S 0 0 eofBlock fs.bmap.blockmap fl → Logged P fs (navigate crt fs n).1
  | 0, _, fs, _, _, _ => Logged.refl fs
  | n + 1, crt, fs, fl, hcrt, hcl => by
      have hnote : Logged P fs (fs.note (.index crt)) := (Logged.refl fs).note (hP crt hcrt)
      have halloc : Logged P fs (fs.note (.index crt)).allocBlock.1 := by
        refine hnote.trans (allocBlock_logged (hP 0 (hcl.sub 0 (by simp))) (hP _ ?_))
        rw [Fs.note_bmap, hcl.free.start_eq]
        cases fl with
        | nil => exact hcl.sub 0 (by simp)
        | cons b fl => exact hcl.sub b (by simp)
      by_cases hend : fs.bmap.blockmap crt = eofBlock
      · cases fl with
        | nil =>
          rw [navigate_full hend (Fs.allocBlock_none (fs.note (.index crt)) hcl.free).1]
          exact halloc
        | cons b fl =>
          obtain ⟨h2, hbe, hext⟩ := Fs.append_spec hS hcrt hcl
          rw [navigate_append hend (by rw [h2]; exact hbe), h2]
          have happ : Logged P fs (fs.append crt) := halloc
          exact happ.trans (navigate_logged hS hP _ (hcl.sub b (by simp))
            (hext ▸ hcl.extend hend))
      · rw [navigate_follow hend]
        exact hnote.trans (navigate_logged hS hP (fs.note (.index crt))
          ((hcl.step crt hcrt).resolve_right hend) hcl)

theorem loaded_plain (fs : Fs) : Logged Access.Plain fs (loaded fs) :=
  ((Logged.refl fs).note ⟨by decide, rfl⟩).note ⟨by decide, rfl⟩

theorem index_plain {x : ℕ} (hx : x < 256) : Access.Plain (.index x) := ⟨hx, rfl⟩

theorem growFile_plain (hC : Chains fs.disk fl ch) (i size offset : ℕ) :
    Logged Access.Plain fs (growFile i size offset (loaded fs)).1 := by
  have hstart : Logged Access.Plain fs (startFile i (loaded fs)).1 := by
    rw [startFile]
    split
    · refine (loaded_plain fs).trans (allocBlock_logged (index_plain (by decide)) ?_)
      rw [loaded_map, hC.free.start_eq]
      cases fl with
      | nil => exact index_plain (by decide)
      | cons b fl =>
        have hb : 2 ≤ b ∧ b < 10 := hC.free_ids b (List.mem_cons_self ..)
        exact index_plain (show b < 256 by omega)
    · exact loaded_plain fs
  rw [growFile]
  split
  · split
    · rename_i heq; rw [heq] at hstart; exact hstart
    · rename_i heq; rw [heq] at hstart
      have hsave : Access.Plain (.write rootdirBid .bdir) := ⟨by decide, rfl⟩
      exact hstart.note hsave
  · exact loaded_plain fs

/-- Up to the loop, a write accesses only the directory and the map; after the loop, the block it
    has found. -/
theorem doWrite_logged (hC : Chains fs.disk fl ch) (hi : i ∈ live fs.disk.dir)
    (hf : findDirEntry (fs.disk.blk rootdirBid) path.tail = some i) (hr : offset + size < 2 ^ 63)
    (hb : (fs.disk.dir i).sizeBytes < offset + size ∨ ch i ≠ []) :
    Logged Access.Plain fs (doWrite path buffer size offset bcache fs).1 ∨
    ∃ g y, Logged Access.Plain fs g ∧ (doWrite path buffer size offset bcache fs).1 =
      patched y (offset % 512) (min size (512 - offset % 512)) buffer bcache g := by
  have hplain := growFile_plain hC i size offset
  rcases growFile_ready hC hi hr hb with ⟨g, hg, -⟩ | ⟨g, crt, post, fl', hg, hready⟩
  · rw [hg] at hplain
    exact Or.inl (by rw [doWrite_ungrown hf hg]; exact hplain)
  · rw [hg] at hplain
    have hin : ∀ x ∈ 0 :: (ch i ++ fl), x < 256 := by
      intro x hx
      rcases List.mem_cons.mp hx with rfl | hx
      · decide
      · have := hC.block_range hi hx; omega
    have hcrt : crt ∈ 0 :: (ch i ++ fl) := by rw [← hready.blocks]; simp
    have hclosed := hready.closed (fun x hx => hC.block_range hi hx) (hC.nodup hi)
    have hnav : Logged Access.Plain g (navigate crt g (offset / 512 % 2 ^ 16)).1 :=
      navigate_logged hin (fun x hx => index_plain (hin x hx)) g hcrt hclosed
    rw [← hready.first] at hnav
    cases hn : navigate (g.bdir.directory i).firstBlock g (offset / 512 % 2 ^ 16) with
    | mk g' y =>
      rw [hn] at hnav
      cases y with
      | none =>
        rw [doWrite_stuck hf hg hn]
        exact Or.inl (hplain.trans hnav)
      | some y =>
        rw [doWrite_written hf hg hn]
        exact Or.inr ⟨g', y, hplain.trans hnav, rfl⟩

theorem patched_logged {y off k : ℕ} (hread : P (.read y .bcache)) (hwrite : P (.write y .bcache))
    (hsave : P (.write blkmapBid .bmap)) : Logged P fs (patched y off k buffer bcache fs) :=
  (((Logged.refl fs).note hread).note hwrite).note hsave

/-- A write that grows its file, or goes to a file that has blocks, is bounded. -/
theorem doWrite_bounded (hC : Chains fs.disk fl ch) (hi : i ∈ live fs.disk.dir)
    (hf : findDirEntry (fs.disk.blk rootdirBid) path.tail = some i) (hr : offset + size < 2 ^ 63)
    (hb : (fs.disk.dir i).sizeBytes < offset + size ∨ ch i ≠ []) :
    Bounded fs (.change (.write path buffer size offset bcache)) := by
  rcases doWrite_logged hC hi hf hr hb with hlog | ⟨g, y, hlog, hpatched⟩
  · exact Bounded.of_plain hlog
  · obtain ⟨fs', ret, ws, hw, hwrites, hexit⟩ := doWrite_backed_exit buffer bcache hC hi hf hr hb
    have hfs' : (doWrite path buffer size offset bcache fs).1 = fs' := by rw [hw]
    -- the block found is the one whose data was written
    have hws : ws = [y] := by
      obtain ⟨as, hg, has⟩ := hlog
      have hnone : dataWrites as = [] := by
        rw [dataWrites, List.filterMap_eq_nil_iff]
        intro a ha
        have hdata := (has a ha).2
        revert hdata
        rcases a with ⟨bid, b⟩ | ⟨bid, b⟩ | k
        · exact fun _ => rfl
        · cases b <;> simp [Access.data]
        · exact fun _ => rfl
      rw [← hfs', hpatched, patched_dataWrites, hg, dataWrites_append, hnone,
        List.append_nil] at hwrites
      exact (List.append_cancel_left hwrites).symm
    generalize hd : fs'.disk = d' at hexit
    cases hexit with
    | noBlock => cases hws
    | idle hc hsize hoffset => exact absurd hc (hb.resolve_left (by omega))
    | stuck => cases hws
    | @wrote hk _ y' hwrote =>
      obtain rfl : y' = y := by simpa using hws
      obtain ⟨crt, hdir, hchain⟩ := hwrote.dir
      have hy : y' < fsNblocks := (hC.block_range hi (List.mem_of_getElem? hwrote.block)).2
      have hdata : ∀ bid, some y' = some bid →
          InChain fs (doWrite path buffer size offset bcache fs).1 path bid := by
        intro bid hbid
        obtain rfl := Option.some.inj hbid
        rw [hfs']
        refine ⟨i, _, hf, ?_, List.mem_of_getElem? hwrote.getElem_chain⟩
        rw [hd, hdir, grownDir_self]
        exact hchain
      refine (hlog.imp fun _ => Access.Plain.of_data _).trans ?_
      rw [Request.serve, Call.exec, hpatched]
      rw [hpatched] at hdata
      exact patched_logged ⟨hy, hdata⟩ ⟨hy, hdata⟩ (Access.Plain.of_data _ ⟨by decide, rfl⟩)

/-- The loop only adds to the log, and unless its count is 0 it starts by using its block as an
    index. -/
theorem navigate_log : ∀ (n crt : ℕ) (fs : Fs), Logged (fun _ => True) fs (navigate crt fs n).1 ∧
    (0 < n → Logged (fun _ => True) (fs.note (.index crt)) (navigate crt fs n).1)
  | 0, _, fs => ⟨Logged.refl fs, fun h => absurd h (lt_irrefl 0)⟩
  | n + 1, crt, fs => by
      have hindex : Logged (fun _ => True) (fs.note (.index crt)) (navigate crt fs (n + 1)).1 := by
        have halloc : Logged (fun _ => True) (fs.note (.index crt))
            (fs.note (.index crt)).allocBlock.1 := allocBlock_logged trivial trivial
        by_cases hend : fs.bmap.blockmap crt = eofBlock
        · by_cases ha : (fs.note (.index crt)).allocBlock.2 = eofBlock
          · rw [navigate_full hend ha]; exact halloc
          · rw [navigate_append hend ha]
            have happ : Logged (fun _ => True) (fs.note (.index crt)) (fs.append crt) := halloc
            exact happ.trans (navigate_log n ..).1
        · rw [navigate_follow hend]; exact (navigate_log n ..).1
      exact ⟨((Logged.refl fs).note trivial).trans hindex, fun _ => hindex⟩

/-- What the loop has logged is in the log of the write. -/
theorem doWrite_log (hf : findDirEntry (fs.disk.blk rootdirBid) path.tail = some i)
    (hg : growFile i size offset (loaded fs) = (g, true)) : Logged (fun _ => True)
      (navigate (g.bdir.directory i).firstBlock g (offset / 512 % 2 ^ 16)).1
      (doWrite path buffer size offset bcache fs).1 := by
  cases hn : navigate (g.bdir.directory i).firstBlock g (offset / 512 % 2 ^ 16) with
  | mk g' y =>
    cases y with
    | none => rw [doWrite_stuck hf hg hn]; exact Logged.refl g'
    | some y => rw [doWrite_written hf hg hn]; exact patched_logged trivial trivial trivial

/-- A write to a file without blocks that does not grow it uses `EOF_BLOCK` as a block id or as an
    index. -/
theorem doWrite_unbounded (hf : findDirEntry (fs.disk.blk rootdirBid) path.tail = some i)
    (heof : (fs.disk.dir i).firstBlock = eofBlock)
    (hle : offset + size ≤ (fs.disk.dir i).sizeBytes) :
    ¬Bounded fs (.change (.write path buffer size offset bcache)) := by
  have hg := growFile_same ((Nat.mod_le (offset + size) (2 ^ 64)).trans hle)
  have hfirst : ((loaded fs).bdir.directory i).firstBlock = eofBlock := by
    rw [loaded_dir]; exact heof
  rcases Nat.eq_zero_or_pos (offset / 512 % 2 ^ 16) with hk | hk
  · have hnav : navigate ((loaded fs).bdir.directory i).firstBlock (loaded fs)
        (offset / 512 % 2 ^ 16) = (loaded fs, some eofBlock) := by rw [hk, hfirst]; rfl
    have hlog : (doWrite path buffer size offset bcache fs).1.log = fs.log ++
        [.read rootdirBid .bdir, .read blkmapBid .bmap, .read eofBlock .bcache,
          .write eofBlock .bcache, .write blkmapBid .bmap] := by
      rw [doWrite_written hf hg hnav]
      simp [loaded, patchBlock]
    exact not_bounded (a := .read eofBlock .bcache) hlog (by simp) (by decide)
  · have hrest : Logged _ _ (doWrite path buffer size offset bcache fs).1 := doWrite_log hf hg
    rw [hfirst] at hrest
    obtain ⟨as, hlog, -⟩ := ((navigate_log _ eofBlock (loaded fs)).2 hk).trans hrest
    have hlog' : (doWrite path buffer size offset bcache fs).1.log = fs.log ++
        ([.read rootdirBid .bdir, .read blkmapBid .bmap, .index eofBlock] ++ as) := by
      rw [hlog]
      simp [loaded]
    exact not_bounded (a := .index eofBlock) hlog' (by simp) (by decide)

end write

/-! ### All requests -/

section requests
variable {fs : Fs} {fl : List ℕ} {ch : ℕ → List ℕ} {i size offset : ℕ} {path : CStr}
  {buffer : Mem} {bcache : Block}

theorem Chains.first_eof_iff (hC : Chains fs.disk fl ch) (hi : i ∈ live fs.disk.dir) :
    (fs.disk.dir i).firstBlock = eofBlock ↔ ch i = [] := by
  have hfile := hC.file i hi
  cases hc : ch i with
  | nil => rw [hc] at hfile; exact iff_of_true hfile rfl
  | cons b post =>
    rw [hc] at hfile
    refine iff_of_false ?_ (List.cons_ne_nil b post)
    rw [hfile.head_eq]
    exact hfile.2.1

theorem loadDirectory_plain (fs : Fs) : Logged Access.Plain fs fs.loadDirectory :=
  (Logged.refl fs).note ⟨by decide, rfl⟩

theorem saveDirectory_plain (fs : Fs) : Logged Access.Plain fs fs.saveDirectory :=
  (Logged.refl fs).note ⟨by decide, rfl⟩

theorem doGetattr_plain (env : Env) (path : CStr) (st : Stat) (fs : Fs) :
    Logged Access.Plain fs (doGetattr env path st fs).1 := by
  rw [doGetattr]
  split
  · exact Logged.refl fs
  · simp only
    split <;> exact loadDirectory_plain fs

theorem doReaddir_plain (path : CStr) (rootb : Block) (fs : Fs) :
    Logged Access.Plain fs (doReaddir path rootb fs).1 := by
  rw [doReaddir]
  split
  · exact (Logged.refl fs).note ⟨by decide, rfl⟩
  · exact Logged.refl fs

theorem doCreate_plain (path : CStr) (m : UInt32) (fs : Fs) :
    Logged Access.Plain fs (doCreate path m fs).1 := by
  rw [doCreate]
  simp only
  split
  · exact loadDirectory_plain fs
  · exact (loadDirectory_plain fs).trans (saveDirectory_plain _)

theorem doTruncate_plain (path : CStr) (offset : ℕ) (fs : Fs) :
    Logged Access.Plain fs (doTruncate path offset fs).1 := by
  rw [doTruncate]
  simp only
  split
  · exact loadDirectory_plain fs
  · exact (loadDirectory_plain fs).trans (saveDirectory_plain _)

theorem doRead_absent (hf : findDirEntry (fs.disk.blk rootdirBid) path.tail = none) :
    (doRead path size bcache fs).1 = fs.loadDirectory := by
  unfold doRead
  simp only [Fs.loadDirectory_bdir, hf]

/-- Reading a file reads its first block, whatever it is. -/
theorem doRead_served (hf : findDirEntry (fs.disk.blk rootdirBid) path.tail = some i) :
    (doRead path size bcache fs).1 =
      fs.loadDirectory.note (.read (fs.disk.dir i).firstBlock .bcache) := by
  unfold doRead
  simp only [Fs.loadDirectory_bdir, hf]
  rfl

theorem doRead_bounded_iff (hC : Chains fs.disk fl ch)
    (hf : findDirEntry (fs.disk.blk rootdirBid) path.tail = some i) :
    Bounded fs (.read path size bcache) ↔ (fs.disk.dir i).firstBlock ≠ eofBlock := by
  have hi := live_of_find hf
  have hserve : (doRead path size bcache fs).1 = _ := doRead_served hf
  constructor
  · intro h heof
    have hlog : (doRead path size bcache fs).1.log = fs.log ++
        [.read rootdirBid .bdir, .read eofBlock .bcache] := by
      rw [hserve, heof]
      simp
    have hout : ¬Bounded fs (.read path size bcache) :=
      not_bounded (a := .read eofBlock .bcache) hlog (by simp) (by decide)
    exact hout h
  · intro hne
    have hfile := hC.file i hi
    rw [Ne, hC.first_eof_iff hi] at hne
    obtain ⟨b, post, hc⟩ := List.exists_cons_of_ne_nil hne
    rw [hc] at hfile
    have hb : b ∈ ch i := by rw [hc]; exact List.mem_cons_self ..
    have hchain : InChain fs (doRead path size bcache fs).1 path (fs.disk.dir i).firstBlock := by
      refine ⟨i, ch i, hf, ?_, ?_⟩
      · rw [hserve]
        exact hC.file i hi
      · rw [hfile.head_eq]
        exact hb
    have hread : (fs.disk.dir i).firstBlock < fsNblocks := by
      rw [hfile.head_eq]
      exact (hC.file_ids i hi b hb).2
    have hload := (loadDirectory_plain fs).imp fun _ => Access.Plain.of_data
      (InChain fs (doRead path size bcache fs).1 path)
    rw [Bounded, Request.serve, Request.path]
    rw [hserve] at hchain hload ⊢
    exact hload.note ⟨hread, fun bid hbid => by obtain rfl := Option.some.inj hbid; exact hchain⟩

theorem doWrite_bounded_iff (hC : Chains fs.disk fl ch)
    (hf : findDirEntry (fs.disk.blk rootdirBid) path.tail = some i) (hr : offset + size < 2 ^ 63) :
    Bounded fs (.change (.write path buffer size offset bcache)) ↔
      ¬((fs.disk.dir i).firstBlock = eofBlock ∧ offset + size ≤ (fs.disk.dir i).sizeBytes) := by
  have hi := live_of_find hf
  by_cases hb : (fs.disk.dir i).sizeBytes < offset + size ∨ ch i ≠ []
  · refine iff_of_true (doWrite_bounded hC hi hf hr hb) ?_
    rintro ⟨heof, hle⟩
    exact (hb.resolve_left (not_lt.mpr hle)) ((hC.first_eof_iff hi).mp heof)
  · rw [not_or, not_lt, not_not] at hb
    have heof := (hC.first_eof_iff hi).mpr hb.2
    exact iff_of_false (doWrite_unbounded hf heof hb.1) (not_not.mpr ⟨heof, hb.1⟩)

/-- CORRECT (bounds): on a disk with chains, a request stays on the disk and in its file exactly
    when it does not read a file without blocks, or write inside the size of one. -/
theorem bounded_iff (hC : Chains fs.disk fl ch) {r : Request} (hr : r.InRange) :
    Bounded fs r ↔ ¬r.UsesEof fs.disk := by
  rcases r with ⟨env, path, st⟩ | ⟨path, rootb⟩ | ⟨path, size, bcache⟩ | c
  · exact iff_of_true (Bounded.of_plain (doGetattr_plain env path st fs)) id
  · exact iff_of_true (Bounded.of_plain (doReaddir_plain path rootb fs)) id
  · cases hf : findDirEntry (fs.disk.blk rootdirBid) path.tail with
    | none =>
      refine iff_of_true (Bounded.of_plain ?_) ?_
      · rw [Request.serve, doRead_absent hf]
        exact loadDirectory_plain fs
      · rintro ⟨i, hi, -⟩
        rw [hf] at hi
        cases hi
    | some i =>
      rw [doRead_bounded_iff hC hf, Request.UsesEof]
      simp only [hf, Option.some.injEq, exists_eq_left', ne_eq]
  · cases c with
    | create path m => exact iff_of_true (Bounded.of_plain (doCreate_plain path m fs)) id
    | truncate path offset =>
      exact iff_of_true (Bounded.of_plain (doTruncate_plain path offset fs)) id
    | write path buffer size offset bcache =>
      cases hf : findDirEntry (fs.disk.blk rootdirBid) path.tail with
      | none =>
        refine iff_of_true (Bounded.of_plain ?_) ?_
        · rw [Request.serve, Call.exec, doWrite_absent hf]
          exact loadDirectory_plain fs
        · rintro ⟨i, hi, -⟩
          rw [hf] at hi
          cases hi
      | some i =>
        rw [doWrite_bounded_iff hC hf hr.2, Request.UsesEof]
        simp only [hf, Option.some.injEq, exists_eq_left']

end requests

/-- The first write to a file is bounded. -/
theorem bounded_iff_writeBlock3 : ∃ fl ch, Chains emptyFileFs.disk fl ch ∧
    (Bounded emptyFileFs (.change writeBlock3) ↔
      ¬(Request.change writeBlock3).UsesEof emptyFileFs.disk) := by
  obtain ⟨fl, ch, hL⟩ := wellFormed_emptyFileFs.layout
  have hr : (Request.change writeBlock3).InRange := ⟨by decide, by decide⟩
  exact ⟨fl, ch, hL.pool, bounded_iff hL.pool hr⟩

/-- A read of the empty file `/a`, and a write of no bytes to it, read block 65535. -/
theorem empty_file_not_bounded : WellFormed emptyFileFs.disk ∧
    (Call.write pathA (fun _ => 7) 0 0 (Buf.zero 512)).InRange ∧
    (.read eofBlock .bcache) ∈ (doRead pathA 1 (Buf.zero 512) emptyFileFs).1.log ∧
    ¬Bounded emptyFileFs (.read pathA 1 (Buf.zero 512)) ∧
    ¬Bounded emptyFileFs (.change (.write pathA (fun _ => 7) 0 0 (Buf.zero 512))) := by
  obtain ⟨fl, ch, hL⟩ := wellFormed_emptyFileFs.layout
  have hfind : findDirEntry (emptyFileFs.disk.blk rootdirBid) pathA.tail = some 0 := by
    decide +kernel
  have hfirst : (emptyFileFs.disk.dir 0).firstBlock = eofBlock := by decide +kernel
  refine ⟨wellFormed_emptyFileFs, ⟨by decide, by decide⟩, by decide +kernel, fun h => ?_, ?_⟩
  · exact (doRead_bounded_iff hL.pool hfind).mp h hfirst
  · exact doWrite_unbounded hfind hfirst (Nat.zero_le _)

end OsLabs.Ssfs

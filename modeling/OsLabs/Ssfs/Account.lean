import OsLabs.Ssfs.Info
import OsLabs.Ssfs.Recall

/-! @src lab4_fs/info_myfs.c, lab4_fs/ssfs.c | name:account | scheme:refines

    No block is created and none is given back: every block is free, in a file, or has been let go
    by a truncation. `info_myfs` counts the first two on the disk and calls the rest missing, so
    over a whole run its missing blocks are just those that truncations have lost.

        create    free          used           lost
        write     free - need   used + need    lost
        truncate  free          used - blocks  lost + blocks                                  -/

namespace OsLabs.Ssfs
open Schemes

theorem sum_set : ∀ {l : List ℕ} {i a : ℕ} (b : ℕ), l[i]? = some a →
    (l.set i b).sum + a = l.sum + b
  | x :: l, 0, a, b, h => by
      obtain rfl : x = a := by simpa using h
      rw [List.set_cons_zero, List.sum_cons, List.sum_cons]
      omega
  | x :: l, i + 1, a, b, h => by
      have ih := sum_set b (l := l) (by simpa using h)
      rw [List.set_cons_succ, List.sum_cons, List.sum_cons]
      omega

/-- The number of blocks in files. -/
def blocksIn (l : List File) : ℕ := (l.map fun f => f.blocks.length).sum

/-- When one file is replaced, the number changes by what its own does. -/
theorem blocksIn_set {l : List File} {i : ℕ} {f : File} (g : File) (hi : l[i]? = some f) :
    blocksIn (l.set i g) + f.blocks.length = blocksIn l + g.blocks.length := by
  rw [blocksIn, blocksIn, List.map_set]
  exact sum_set _ (by rw [List.getElem?_map, hi]; rfl)

namespace Store
variable {s s' : Store}

/-- All blocks of the store, wherever they are. -/
def total (s : Store) : ℕ := s.free.length + blocksIn s.files + s.lost

/-- No request changes the number of blocks. -/
theorem step_total {r : Request} {a : Answer} (h : step s r = some (s', a)) :
    s'.total = s.total := by
  cases step_change h with
  | none => rfl
  | added hf => simp [total, blocksIn, hf]
  | @wrote _ _ _ _ _ _ f g free hl _ hcount =>
    have hset := blocksIn_set g (lookup_eq_some.mp hl).1
    simp only [total]
    omega
  | @cut _ _ _ f hl =>
    have hset := blocksIn_set f.cut (lookup_eq_some.mp hl).1
    simp only [total, File.cut, List.length_nil] at hset ⊢
    omega

end Store

/-! ### On the disk -/

section disk
variable {s : Store} {d : Disk} {fl : List ℕ} {ch : ℕ → List ℕ}

/-- From entry `i` on, the non-empty entries are the files from number `i` on. -/
theorem Holds.drop_files (h : Holds s d fl ch) : ∀ {n i : ℕ}, i + n = 16 →
    (((List.range' i n).filter fun i => !(d.dir i).isEmpty).map (fileAt d ch)) = s.files.drop i
  | 0, i, hn => by
      have := h.room
      rw [List.drop_eq_nil_of_le (by omega)]; rfl
  | n + 1, i, hn => by
      have hi : i < 16 := by omega
      have ih := h.drop_files (n := n) (i := i + 1) (by omega)
      rw [List.range'_succ]
      cases hempty : (d.dir i).isEmpty with
      | true =>
        have hlen : s.files.length ≤ i := by
          rw [← List.getElem?_eq_none_iff, h.files i hi]; exact if_pos hempty
        rw [List.filter_cons_of_neg (by simp [hempty]), ih, List.drop_eq_nil_of_le hlen,
          List.drop_eq_nil_of_le (by omega)]
      | false =>
        rw [List.filter_cons_of_pos (by simp [hempty]), List.map_cons, ih]
        symm
        rw [List.drop_eq_getElem?_toList_append, h.file ⟨hi, hempty⟩]
        rfl

theorem Holds.blocksIn (h : Holds s d fl ch) :
    blocksIn s.files = ((liveEntries d.dir).map fun i => (ch i).length).sum := by
  have hfiles := h.drop_files (n := 16) (i := 0) rfl
  rw [List.drop_zero, ← List.range_eq_range'] at hfiles
  rw [Ssfs.blocksIn, ← hfiles, List.map_map]
  congr 1
  refine List.map_congr_left fun i _ => ?_
  simp [fileAt]

end disk

/-- CORRECT (accounting): after any promised run of requests on a formatted disk, `info_myfs`
    reports the free blocks and the blocks in files, and as missing just the blocks that
    truncations have lost. -/
theorem info_accounted {d : Disk} {blk : Block} {fs : Fs} (hfs : fs.disk = formatMyfs d blk)
    {rs : List Request} (hr : ∀ r ∈ rs, r.InRange) {s : Store} {as : List Answer}
    (hrun : Store.step.run (Store.fresh fs.disk) rs = some (s, as)) (blkmap blkdir : Block) :
    ∃ fuel info, infoMyfs fuel (serveAll fs rs).disk blkmap blkdir = some info ∧
      info.freeblks = s.free.length ∧ info.usedblks = blocksIn s.files ∧
      info.missing = s.lost ∧ s.free.length + blocksIn s.files + s.lost = fsNblocks - 2 := by
  obtain ⟨fl, ch, h⟩ := (shows_fresh d blk hfs).serveAll hr hrun
  have htotal : s.total = (Store.fresh fs.disk).total :=
    Component.run_keeps (I := fun s => s.total = (Store.fresh fs.disk).total)
      (fun _ _ _ _ h _ hs => (Store.step_total hs).trans h) rfl hr hrun
  have hcard := card_missingIds h.layout.pool
  have hlen : s.free.length = fl.length := by rw [h.free, List.length_map]
  rw [← h.blocksIn, ← hlen] at hcard
  have hfresh : (Store.fresh fs.disk).total = fsNblocks - 2 := rfl
  rw [hfresh, Store.total] at htotal
  refine ⟨9, _, infoMyfs_eq h.layout.pool blkmap blkdir, hlen.symm, h.blocksIn.symm, ?_, htotal⟩
  dsimp only
  omega

/-- A file of four blocks is made and truncated. -/
def loseA : List Request :=
  [.change (.create pathA 0), .change writeBlock3, .change (.truncate pathA 0)]

/-- Its blocks are missing. -/
theorem info_accounted_loseA : ∃ fuel info,
    infoMyfs fuel (serveAll freshFs loseA).disk (Buf.zero 512) (Buf.zero 512) = some info ∧
      info.freeblks = 4 ∧ info.missing = 4 := by
  have hfs : freshFs.disk = formatMyfs _ _ := rfl
  have hr : ∀ r ∈ loseA, r.InRange := by
    simp [loseA, writeBlock3, Request.InRange, Call.InRange]
  obtain ⟨fuel, info, hinfo, hfree, -, hmiss, -⟩ :=
    info_accounted hfs hr rfl (Buf.zero 512) (Buf.zero 512)
  exact ⟨fuel, info, hinfo, hfree, hmiss⟩

end OsLabs.Ssfs

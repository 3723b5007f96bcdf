import Mathlib.Algebra.Order.BigOperators.Group.List
import Mathlib.Data.Finset.Card
import Mathlib.Order.Interval.Finset.Nat
import OsLabs.Ssfs.Names

/-! @src lab4_fs/info_myfs.c | name:info_myfs | scheme:pool

    The statistics of a disk. Both loops follow the block map without a bound of their own, one up
    to 0 and one up to `EOF_BLOCK` for each file; what is neither free nor in a file is missing.
    The listing of the map and the names that `main` prints on the way is left out. -/

namespace OsLabs.Ssfs
open Schemes

/-- `BLOCKIDS_PER_BLOCK` -/
abbrev blockidsPerBlock : ℕ := 256

/-- One trip of `while (crtfb != stop)`: the block `crtfb`, and an `unsigned short` counter. It
    leaves without a result when the index is outside the map. -/
def countTrip (blkmap : Block) (stop : ℕ) (st : ℕ × ℕ) : (ℕ × ℕ) ⊕ Option ℕ :=
  if st.1 = stop then .inr (some st.2)
  else if st.1 < blockidsPerBlock then .inl (blkmap.blockmap st.1, (st.2 + 1) % 2 ^ 16)
  else .inr none

/-- The loop from block `crtfb` on, with the counter at `n`. -/
def countBlocks (fuel : ℕ) (blkmap : Block) (stop crtfb n : ℕ) : Option ℕ :=
  (iter (countTrip blkmap stop) fuel (crtfb, n)).join

/-- The loop over the directory entries from `i` on. -/
def countUsed (fuel : ℕ) (blkmap blkdir : Block) : ℕ → ℕ → ℕ → Option ℕ
  | 0, _, usedblks => some usedblks
  | k + 1, i, usedblks =>
    if (blkdir.directory i).isEmpty then countUsed fuel blkmap blkdir k (i + 1) usedblks
    else do
      let crtfb := (blkdir.directory i).firstBlock
      let usedblks ← countBlocks fuel blkmap eofBlock crtfb usedblks
      countUsed fuel blkmap blkdir k (i + 1) usedblks

/-- The numbers in the last lines of the report. -/
structure Info where
  freeblks : ℕ
  usedblks : ℕ
  missing : ℕ

/-- `main` of `info_myfs`, on an open disk. The last number is an `int` printed with `%u`. -/
def infoMyfs (fuel : ℕ) (d : Disk) (blkmap blkdir : Block) : Option Info := do
  let blkmap := d.readBlock blkmapBid blkmap
  let freeblks ← countBlocks fuel blkmap 0 (blkmap.blockmap 0) 0
  let blkdir := d.readBlock rootdirBid blkdir
  let usedblks ← countUsed fuel blkmap blkdir dirEntriesPerBlock 0 0
  some ⟨freeblks, usedblks, (((fsNblocks : ℤ) - freeblks - usedblks - 2) % 2 ^ 32).toNat⟩

/-- The data blocks that are neither free nor in a file. -/
def missingIds (d : Disk) (fl : List ℕ) (ch : ℕ → List ℕ) : Finset ℕ :=
  (Finset.Ico 2 fsNblocks).filter fun x => x ∉ fl ∧ ∀ i ∈ liveEntries d.dir, x ∉ ch i

/-! ### The loops -/

section loops
variable {blkmap blkdir : Block} {fuel stop n : ℕ}

/-- Along a walk inside the map, the loop counts the blocks. -/
theorem countTrip_iter : ∀ {l : List ℕ} {a n : ℕ}, Walk blkmap.blockmap stop a l →
    (∀ x ∈ l, x < fsNblocks) → n + l.length < 2 ^ 16 →
    iter (countTrip blkmap stop) (l.length + 1) (a, n) = some (some (n + l.length))
  | [], a, n, hw, _, _ => iter_inr (if_pos hw)
  | b :: l, a, n, ⟨hab, hne, hw⟩, hin, hlt => by
      subst hab
      rw [List.length_cons] at hlt ⊢
      have hb : a < 10 := hin a (List.mem_cons_self ..)
      have hidx : a < blockidsPerBlock := lt_trans hb (by decide)
      have hstep : countTrip blkmap stop (a, n) = .inl (blkmap.blockmap a, n + 1) := by
        rw [countTrip, if_neg hne, if_pos hidx, Nat.mod_eq_of_lt (by omega)]
      rw [iter_inl hstep, countTrip_iter hw (fun x hx => hin x (List.mem_cons_of_mem _ hx))
        (by omega)]
      congr 2
      omega

theorem countBlocks_eq {l : List ℕ} {a : ℕ} (hw : Walk blkmap.blockmap stop a l)
    (hin : ∀ x ∈ l, x < fsNblocks) (hlt : n + l.length < 2 ^ 16) (hfuel : l.length < fuel) :
    countBlocks fuel blkmap stop a n = some (n + l.length) := by
  rw [countBlocks, iter_mono hfuel (countTrip_iter hw hin hlt)]
  rfl

/-- The loop over the entries adds up the lengths of the chains of the non-empty ones. -/
theorem countUsed_eq {ch : ℕ → List ℕ} : ∀ {k i n : ℕ},
    (∀ j ∈ (List.range' i k).filter fun j => !(blkdir.directory j).isEmpty,
      Walk blkmap.blockmap eofBlock (blkdir.directory j).firstBlock (ch j) ∧
        (∀ x ∈ ch j, x < fsNblocks) ∧ (ch j).length < fuel) →
    n + (((List.range' i k).filter fun j => !(blkdir.directory j).isEmpty).map
      fun j => (ch j).length).sum < 2 ^ 16 →
    countUsed fuel blkmap blkdir k i n =
      some (n + (((List.range' i k).filter fun j => !(blkdir.directory j).isEmpty).map
        fun j => (ch j).length).sum)
  | 0, i, n, _, _ => rfl
  | k + 1, i, n, hch, hlt => by
      rw [List.range'_succ] at hch hlt ⊢
      cases hempty : (blkdir.directory i).isEmpty with
      | true =>
        rw [List.filter_cons_of_neg (by simp [hempty])] at hch hlt ⊢
        rw [countUsed, if_pos hempty]
        exact countUsed_eq hch hlt
      | false =>
        rw [List.filter_cons_of_pos (by simp [hempty])] at hch hlt ⊢
        rw [List.map_cons, List.sum_cons] at hlt ⊢
        obtain ⟨hw, hin, hfuel⟩ := hch i (List.mem_cons_self ..)
        have hcount := countBlocks_eq (n := n) hw hin (by omega) hfuel
        rw [countUsed, if_neg (by simp [hempty])]
        simp only [hcount, Option.bind_eq_bind, Option.bind_some]
        rw [countUsed_eq (fun j hj => hch j (List.mem_cons_of_mem _ hj)) (by omega),
          Nat.add_assoc]

end loops

/-! ### Counting -/

/-- What a finite set has besides the members of a list. -/
theorem card_filter_notMem {α : Type*} [DecidableEq α] {s : Finset α} {l : List α} (hn : l.Nodup)
    (hs : ∀ x ∈ l, x ∈ s) : (s.filter fun x => x ∉ l).card + l.length = s.card := by
  have hsub : l.toFinset ⊆ s := fun x hx => hs x (List.mem_toFinset.mp hx)
  have hfilter : s.filter (fun x => x ∉ l) = s \ l.toFinset := by
    ext x
    simp
  rw [hfilter, ← List.toFinset_card_of_nodup hn]
  exact Finset.card_sdiff_add_card_eq_card hsub

section counting
variable {d : Disk} {fl : List ℕ} {ch : ℕ → List ℕ}

/-- Free blocks, blocks in files and missing ones make up the data blocks. -/
theorem card_missingIds (hc : Chains d fl ch) : (missingIds d fl ch).card +
    (fl.length + ((liveEntries d.dir).map fun i => (ch i).length).sum) = fsNblocks - 2 := by
  have hlive : ∀ i ∈ liveEntries d.dir, i ∈ live d.dir := fun i => mem_liveEntries.mp
  have hnodup : (fl ++ (liveEntries d.dir).flatMap ch).Nodup :=
    hc.nodup_flatMap (List.nodup_range.filter _) hlive
  have hids : ∀ x ∈ fl ++ (liveEntries d.dir).flatMap ch, x ∈ Finset.Ico 2 fsNblocks := by
    intro x hx
    rw [Finset.mem_Ico]
    rcases List.mem_append.mp hx with hfree | hfile
    · exact hc.free_ids x hfree
    · obtain ⟨i, hi, hxi⟩ := List.mem_flatMap.mp hfile
      exact hc.file_ids i (hlive i hi) x hxi
  have hcount := card_filter_notMem hnodup hids
  have hsame : missingIds d fl ch = (Finset.Ico 2 fsNblocks).filter
      fun x => x ∉ fl ++ (liveEntries d.dir).flatMap ch := by
    refine Finset.filter_congr fun x _ => ?_
    simp only [List.mem_append, List.mem_flatMap, not_or, not_exists, not_and]
  rw [hsame]
  rw [List.length_append, List.length_flatMap, Nat.card_Ico] at hcount
  exact hcount

/-- The report on a well-formed disk. -/
theorem infoMyfs_eq (hc : Chains d fl ch) (blkmap blkdir : Block) :
    infoMyfs 9 d blkmap blkdir = some ⟨fl.length,
      ((liveEntries d.dir).map fun i => (ch i).length).sum, (missingIds d fl ch).card⟩ := by
  have hcard := card_missingIds hc
  have hten : fsNblocks = 10 := rfl
  have hfree : countBlocks 9 (d.blk blkmapBid) 0 ((d.blk blkmapBid).blockmap 0) 0 =
      some fl.length := by
    have hw : Walk (d.blk blkmapBid).blockmap 0 ((d.blk blkmapBid).blockmap 0) fl := hc.free
    rw [countBlocks_eq (n := 0) hw (fun x hx => (hc.free_ids x hx).2) (by omega) (by omega),
      Nat.zero_add]
  have hused : countUsed 9 (d.blk blkmapBid) (d.blk rootdirBid) dirEntriesPerBlock 0 0 =
      some ((liveEntries d.dir).map fun i => (ch i).length).sum := by
    have hrange : (List.range' 0 dirEntriesPerBlock).filter
        (fun j => !((d.blk rootdirBid).directory j).isEmpty) = liveEntries d.dir := by
      rw [← List.range_eq_range']; rfl
    rw [← Nat.zero_add (List.sum _), ← hrange]
    refine countUsed_eq (fun j hj => ?_) (by rw [hrange]; omega)
    rw [hrange] at hj
    have hlive := mem_liveEntries.mp hj
    have hlen : (ch j).length ≤ ((liveEntries d.dir).map fun i => (ch i).length).sum :=
      List.le_sum_of_mem (List.mem_map.mpr ⟨j, hj, rfl⟩)
    exact ⟨hc.file j hlive, fun x hx => (hc.file_ids j hlive x hx).2, by omega⟩
  have hblk : ∀ (i : ℕ) (b : Block), i < 10 → d.readBlock i b = d.blk i :=
    fun i b hi => Disk.readBlock_of_lt hi b
  rw [infoMyfs, hblk _ _ (by decide), hblk _ _ (by decide)]
  simp only [hfree, hused, Option.bind_eq_bind, Option.bind_some, Option.some.injEq,
    Info.mk.injEq, true_and]
  omega

/-- CORRECT (info_myfs): on every well-formed disk the loops terminate inside the map, and the
    report counts the free blocks, the blocks in files and those that are missing. -/
theorem info_counts {d : Disk} {fl : List ℕ} {ch : ℕ → List ℕ} (hc : Chains d fl ch)
    (blkmap blkdir : Block) : ∃ fuel info, infoMyfs fuel d blkmap blkdir = some info ∧
      info.freeblks = fl.length ∧
      info.usedblks = ((liveEntries d.dir).map fun i => (ch i).length).sum ∧
      info.missing ≤ fsNblocks - 2 ∧ info.missing = (missingIds d fl ch).card :=
  ⟨9, _, infoMyfs_eq hc blkmap blkdir, rfl, rfl, le_of_add_le_left (card_missingIds hc).le, rfl⟩

end counting

/-- A file of four blocks is made and truncated, and gets two blocks again. -/
def lostFs : Fs :=
  runCalls freshFs [.create pathA 0, writeBlock3, .truncate pathA 0,
    .write pathA (fun _ => 7) 1 512 (Buf.zero 512)]

theorem wellFormed_lostFs : WellFormed lostFs.disk :=
  wellFormed_run _ (wellFormed_format _ _)
    ⟨trivial, by simp [Call.Named, pathA, CStr.tail], by decide +kernel, ⟨by decide, by decide⟩,
      trivial, by decide +kernel, trivial, trivial, by decide +kernel, ⟨by decide, by decide⟩,
      trivial, by decide +kernel, trivial⟩

/-- Two blocks are free, two are in the file, and the four it had before are missing. -/
theorem info_counts_lostFs : ∃ fuel info,
    infoMyfs fuel lostFs.disk (Buf.zero 512) (Buf.zero 512) = some info ∧
      info.freeblks = 2 ∧ info.usedblks = 2 ∧ info.missing = 4 := by
  obtain ⟨fl, ch, hL⟩ := wellFormed_lostFs.layout
  have hlive : liveEntries lostFs.disk.dir = [0] := by decide +kernel
  obtain rfl : fl = [8, 9] := hL.pool.free.unique (by decide +kernel)
  have hfile : ch 0 = [6, 7] :=
    (hL.pool.file 0 (mem_liveEntries.mp (by rw [hlive]; decide))).unique (by decide +kernel)
  obtain ⟨fuel, info, hinfo, hf, hu, -, hm⟩ := info_counts hL.pool (Buf.zero 512) (Buf.zero 512)
  have hcard := card_missingIds hL.pool
  have hten : fsNblocks = 10 := rfl
  rw [hlive] at hu hcard
  simp only [List.map_cons, List.map_nil, List.sum_cons, List.sum_nil, hfile, List.length_cons,
    List.length_nil] at hu hcard
  exact ⟨fuel, info, hinfo, hf, hu, by omega⟩

end OsLabs.Ssfs

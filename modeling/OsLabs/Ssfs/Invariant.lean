import OsLabs.Ssfs.Entries

/-! @src lab4_fs/format_myfs.c, lab4_fs/ssfs.c | name:invariant | scheme:pool

    Formatting makes a well-formed disk from any content, and every successful call keeps it one,
    so every disk that successful calls reach from a formatted one is well-formed. -/

namespace OsLabs.Ssfs
open Schemes

/-! ### The formatted disk -/

theorem blockmap_fillFree : ∀ (k : ℕ) (b : Block) (x : ℕ), k + 2 ≤ 256 →
    Block.blockmap ((List.range' 2 k).foldl (fun b bid => b.setBlockmap bid (bid + 1)) b) x =
      if 2 ≤ x ∧ x < k + 2 then x + 1 else b.blockmap x
  | 0, b, x, _ => by
      rw [if_neg (by omega)]; rfl
  | k + 1, b, x, hk => by
      rw [List.range'_1_concat, List.foldl_append, List.foldl_cons, List.foldl_nil,
        Block.blockmap_setBlockmap _ (by omega) (by omega)]
      rcases eq_or_ne x (2 + k) with rfl | hne
      · rw [Function.update_self, if_pos (by omega)]
      · rw [Function.update_of_ne hne, blockmap_fillFree k b x (by omega)]
        exact if_congr (by omega) rfl rfl

/-- The map of a disk of `n` blocks: 0 points to 2, every block to the next one, the last to 0. -/
theorem blockmap_formatMap {n : ℕ} (hlo : 3 ≤ n) (hhi : n ≤ 256) (blk : Block) (x : ℕ) :
    (formatMap n blk).blockmap x = if x = n - 1 then 0 else if 2 ≤ x ∧ x < n then x + 1
      else if x = 0 then 2 else blk.blockmap x := by
  rw [formatMap, Block.blockmap_setBlockmap _ (by omega) (by omega)]
  rcases eq_or_ne x (n - 1) with rfl | hne
  · rw [Function.update_self, if_pos rfl]
  · rw [Function.update_of_ne hne, if_neg hne, blockmap_fillFree _ _ _ (by omega),
      Block.blockmap_setBlockmap _ (by omega) (by omega)]
    refine if_congr (by omega) rfl ?_
    rcases eq_or_ne x 0 with rfl | h0
    · rw [Function.update_self, if_pos rfl]
    · rw [Function.update_of_ne h0, if_neg h0]

/-- From block `a` on, the free list of a fresh map is `a, a + 1, .., n - 1`. -/
theorem walk_formatMap {n : ℕ} (hlo : 3 ≤ n) (hhi : n ≤ 256) (blk : Block) : ∀ (k a : ℕ),
    2 ≤ a → a + k = n - 1 → Walk (formatMap n blk).blockmap 0 a (List.range' a (k + 1))
  | 0, a, ha, hk => by
      refine ⟨rfl, by omega, ?_⟩
      rw [blockmap_formatMap hlo hhi, if_pos (by omega)]; rfl
  | k + 1, a, ha, hk => by
      refine ⟨rfl, by omega, ?_⟩
      rw [blockmap_formatMap hlo hhi, if_neg (by omega), if_pos (by omega)]
      exact walk_formatMap hlo hhi blk k (a + 1) (by omega) (by omega)

theorem formatMyfs_map (d : Disk) (blk : Block) :
    (formatMyfs d blk).map = (formatMap fsNblocks blk).blockmap := by
  rw [Disk.map, formatMyfs, Disk.writeBlock_of_ne (by decide) (by decide), Disk.writeBlock_self]

theorem formatMyfs_live (d : Disk) (blk : Block) : live (formatMyfs d blk).dir = ∅ := by
  have hempty : ∀ j, ((formatMyfs d blk).dir j).isEmpty = true := by
    intro j
    rw [Disk.dir, formatMyfs, Disk.writeBlock_self]
    rfl
  ext j
  simp [live, hempty j]

/-- On a formatted disk all data blocks are free. -/
theorem layout_format (d : Disk) (blk : Block) :
    Layout (formatMyfs d blk) (List.range' 2 8) fun _ => [] := by
  constructor
  · rw [Chains, formatMyfs_live]
    refine ⟨?_, List.nodup_range', ?_, by simp, by simp, by simp, by simp, by simp⟩
    · rw [formatMyfs_map, blockmap_formatMap (by decide) (by decide), if_neg (by decide),
        if_neg (by decide), if_pos rfl]
      exact walk_formatMap (by decide) (by decide) blk 7 2 le_rfl rfl
    · intro x hx
      exact List.mem_range'_1.mp hx
  · rintro i hi
    rw [formatMyfs_live] at hi
    exact absurd hi (Set.notMem_empty i)

theorem wellFormed_format (d : Disk) (blk : Block) : WellFormed (formatMyfs d blk) := by
  refine ⟨⟨_, _, layout_format d blk⟩, ?_⟩
  rintro i j - hj
  rw [formatMyfs_live] at hj
  exact absurd hj (Set.notMem_empty j)

/-! ### One call -/

section step
variable {fs : Fs} {d d' : Disk}

/-- Well-formedness is a property of the first two blocks. -/
theorem WellFormed.congr (h : WellFormed d) (hsame : ∀ b < 2, d'.blk b = d.blk b) :
    WellFormed d' := by
  obtain ⟨hmap, hdir⟩ := Disk.map_dir_congr hsame
  obtain ⟨⟨fl, ch, hpool, hsize⟩, hent⟩ := h
  exact ⟨⟨fl, ch, ⟨by rw [Chains, hmap, hdir]; exact hpool, by rw [hdir]; exact hsize⟩⟩,
    by rw [hdir]; exact hent⟩

theorem wellFormed_create {path : CStr} {m : UInt32} (h : WellFormed fs.disk)
    (hn : path.tail.chars ≠ []) : WellFormed (doCreate path m fs).1.disk := by
  cases hf : firstEmptyDirEntry (fs.disk.blk rootdirBid) with
  | none => rw [doCreate_full m hf]; exact h
  | some i =>
    obtain ⟨hi, hempty, hbefore⟩ := firstEmptyDirEntry_some hf
    obtain ⟨fs', hw, hs, -⟩ := doCreate_found m hf
    rw [hw]
    obtain ⟨fl, ch, hL⟩ := h.layout
    have hout : i ∉ live fs.disk.dir := not_mem_live hempty
    have hnew : (freshEntry path.tail m).isEmpty = false := by
      rw [freshEntry_isEmpty]; simpa using hn
    refine ⟨⟨fl, _, hL.create hout hs⟩, ?_⟩
    rw [hs.dir]
    -- the new entry is the first that was empty
    intro j k hjk hk
    rcases eq_or_ne j i with rfl | hji
    · exact ⟨hi, by rw [Function.update_self]; exact hnew⟩
    · have hj : j ∈ live fs.disk.dir := by
        rcases eq_or_ne k i with rfl | hki
        · exact ⟨hjk.trans hi, hbefore j hjk⟩
        · exact h.entries j k hjk ((live_update hki).mp hk)
      exact ⟨hj.1, by rw [Function.update_of_ne hji]; exact hj.2⟩

theorem wellFormed_truncate (path : CStr) (offset : ℕ) (h : WellFormed fs.disk) :
    WellFormed (doTruncate path offset fs).1.disk := by
  cases hf : findDirEntry (fs.disk.blk rootdirBid) path.tail with
  | none => rw [doTruncate_absent offset hf]; exact h
  | some i =>
    obtain ⟨fs', hw, hs, -⟩ := doTruncate_found offset hf
    rw [hw]
    obtain ⟨fl, ch, hL⟩ := h.layout
    exact ⟨⟨fl, _, hL.truncate (live_of_find hf) hs⟩, by
      rw [hs.dir, live_grownDir]; exact h.entries⟩

theorem wellFormed_write {path : CStr} {buffer : Mem} {size offset : ℕ} {bcache : Block}
    (h : WellFormed fs.disk) (hr : offset + size < 2 ^ 63)
    (hok : 0 ≤ (doWrite path buffer size offset bcache fs).2) :
    WellFormed (doWrite path buffer size offset bcache fs).1.disk := by
  cases hf : findDirEntry (fs.disk.blk rootdirBid) path.tail with
  | none => rw [doWrite_absent hf]; exact h
  | some i =>
    obtain ⟨fl, ch, hL⟩ := h.layout
    have hi := live_of_find hf
    obtain ⟨fs', ret, ws, hw, -, hexit⟩ :=
      doWrite_exit buffer bcache hL hi hf hr
    rw [hw] at hok ⊢
    have hret : 0 ≤ ret := hok
    generalize fs'.disk = d' at hexit ⊢
    cases hexit with
    | noBlock => exact absurd hret (by decide)
    | idle _ _ _ hsame => exact h.congr (fun b hb => hsame b (by omega))
    | stuck => exact absurd hret (by decide)
    | wrote _ hwrote =>
      obtain ⟨crt, hdir, -⟩ := hwrote.dir
      exact ⟨⟨_, _, hL.wrote hi hwrote⟩, by rw [hdir, live_grownDir]; exact h.entries⟩

/-- Every successful call keeps the disk well-formed. -/
theorem wellFormed_exec {c : Call} (h : WellFormed fs.disk) (hr : c.InRange) (hn : c.Named)
    (hok : 0 ≤ (c.exec fs).2) : WellFormed (c.exec fs).1.disk := by
  cases c with
  | create path m => exact wellFormed_create h hn
  | write path buffer size offset bcache => exact wellFormed_write h hr.2 hok
  | truncate path offset => exact wellFormed_truncate path offset h

end step

/-! ### Whole runs -/

/-- A sequence of calls that are in range, create named files and all succeed. -/
def Succeed : Fs → List Call → Prop
  | _, [] => True
  | fs, c :: cs => c.InRange ∧ c.Named ∧ 0 ≤ (c.exec fs).2 ∧ Succeed (c.exec fs).1 cs

theorem wellFormed_run : ∀ (cs : List Call) {fs : Fs}, WellFormed fs.disk → Succeed fs cs →
    WellFormed (runCalls fs cs).disk
  | [], _, h, _ => h
  | _ :: cs, _, h, ⟨hr, hn, hok, hrest⟩ =>
      wellFormed_run cs (wellFormed_exec h hr hn hok) hrest

/-- CORRECT (invariant): a formatted disk is well-formed, successful calls keep it so, and hence so
    is every disk they reach. -/
theorem wellFormed_invariant :
    (∀ d blk, WellFormed (formatMyfs d blk)) ∧
    (∀ fs (c : Call), WellFormed fs.disk → c.InRange → c.Named → 0 ≤ (c.exec fs).2 →
      WellFormed (c.exec fs).1.disk) ∧
    (∀ d blk fs cs, fs.disk = formatMyfs d blk → Succeed fs cs →
      WellFormed (runCalls fs cs).disk) :=
  ⟨wellFormed_format, fun _ _ => wellFormed_exec, fun d blk _ _ hfs hs =>
    wellFormed_run _ (hfs ▸ wellFormed_format d blk) hs⟩

/-- The file system on a fresh disk. -/
def freshFs : Fs where
  disk := formatMyfs ⟨10, fun _ => Buf.zero 512, le_refl _⟩ (Buf.zero 512)
  bdir := Buf.zero 512
  bmap := Buf.zero 512
  log := []

/-- The path `/a`. -/
def pathA : CStr := ⟨[47, 97], by decide⟩

/-- The path `/b`. -/
def pathB : CStr := ⟨[47, 98], by decide⟩

/-- A file is created and its third block is written. -/
theorem wellFormed_invariant_run : WellFormed (runCalls freshFs
    [.create pathA 0, .write pathA (fun _ => 7) 1 1024 (Buf.zero 512)]).disk :=
  wellFormed_invariant.2.2 _ _ _ _ rfl ⟨trivial, by simp [Call.Named, pathA, CStr.tail],
    by decide +kernel, ⟨by decide, by decide⟩, trivial, by decide +kernel, trivial⟩

end OsLabs.Ssfs

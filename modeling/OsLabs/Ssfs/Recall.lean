import OsLabs.Ssfs.Refine

/-! @src lab4_fs/ssfs.c, lab4_fs/fs-test.py | name:recall | scheme:refines

    What was written is read back. In the store it is plain: a write puts its bytes into the blocks
    of one file, and no request on another key touches them. By the refinement it holds on the
    disk, over any requests that come in between.

        write p ──▶ requests that spare p ──▶ the bytes are in the chain of p and in a read -/

namespace OsLabs.Ssfs
open Schemes

/-- The byte at position `p` of a file. -/
def File.byte (f : File) (p : ℕ) : Option UInt8 :=
  f.blocks[p / 512]?.map fun b => b.byte (p % 512)

/-- The request does not write to or truncate a file under the key of the path. -/
def Request.Spares (path : CStr) : Request → Prop
  | .change (.write p ..) => p.tail.field fsNameLen ≠ path.tail.field fsNameLen
  | .change (.truncate p _) => p.tail.field fsNameLen ≠ path.tail.field fsNameLen
  | _ => True

/-- The file system after some requests. -/
def serveAll (fs : Fs) (rs : List Request) : Fs := rs.foldl Request.serve fs

/-- The store has a promise for each of these requests to a formatted disk. -/
def Covered (fs : Fs) (rs : List Request) : Prop :=
  ∃ s as, Store.step.run (Store.fresh fs.disk) rs = some (s, as)

/-! ### In the store -/

namespace Store
variable {s s' : Store} {path : CStr} {i j : ℕ} {f f' g g' : File}

theorem lookup_of_files (h : s.lookup path = some (i, f)) (hself : s'.files[i]? = some f')
    (hkey : f'.key = f.key) (hbefore : ∀ j < i, ∀ g', s'.files[j]? = some g' →
      ∃ g, s.files[j]? = some g ∧ g.key = g'.key) :
    s'.lookup path = some (i, f') := by
  obtain ⟨-, hk, hb⟩ := lookup_eq_some.mp h
  refine lookup_eq_some.mpr ⟨hself, hkey.trans hk, fun j hj g' hg' => ?_⟩
  obtain ⟨g, hg, hgk⟩ := hbefore j hj g' hg'
  rw [← hgk]
  exact hb j hj g hg

/-- Replacing a file under its key leaves the others where they were. -/
theorem lookup_set (h : s.lookup path = some (i, f)) (hfiles : s'.files = s.files.set j g')
    (hj : s.files[j]? = some g) (hkey : g'.key = g.key) :
    s'.lookup path = some (i, if j = i then g' else f) := by
  obtain ⟨hi, -, -⟩ := lookup_eq_some.mp h
  have hlen := (List.getElem?_eq_some_iff.mp hj).1
  have hset : ∀ m, s'.files[m]? = if j = m then some g' else s.files[m]? := by
    intro m
    rw [hfiles, List.getElem?_set]
    rcases eq_or_ne j m with rfl | hne
    · rw [if_pos rfl, if_pos hlen, if_pos rfl]
    · rw [if_neg hne, if_neg hne]
  refine lookup_of_files h ?_ ?_ fun m hm x hx => ?_
  · rw [hset]
    split
    · rfl
    · exact hi
  · split
    case isTrue heq =>
      subst heq
      rw [hkey, Option.some.inj (hj.symm.trans hi)]
    case isFalse => rfl
  · rw [hset] at hx
    split at hx
    case isTrue heq =>
      subst heq
      obtain rfl := Option.some.inj hx
      exact ⟨g, hj, hkey.symm⟩
    case isFalse => exact ⟨x, hx, rfl⟩

theorem lookup_append (h : s.lookup path = some (i, f)) (hfiles : s'.files = s.files ++ [g]) :
    s'.lookup path = some (i, f) := by
  obtain ⟨hi, -, -⟩ := lookup_eq_some.mp h
  have hlen := (List.getElem?_eq_some_iff.mp hi).1
  have hold : ∀ m ≤ i, s'.files[m]? = s.files[m]? := fun m hm => by
    rw [hfiles, List.getElem?_append_left (by omega)]
  refine lookup_of_files h ((hold i le_rfl).trans hi) rfl fun m hm x hx => ?_
  exact ⟨x, by rw [← hold m hm.le]; exact hx, rfl⟩

variable {buffer : Mem} {size offset : ℕ} {bcache : Block} {ret : ℤ}

/-- A file is found as it was after a request that spares it. -/
theorem step_spares {r : Request} {a : Answer} (h : s.lookup path = some (i, f))
    (hr : r.Spares path) (hs : step s r = some (s', a)) : s'.lookup path = some (i, f) := by
  -- the number of a file under another key
  have hother : ∀ {p : CStr} {j g}, s.lookup p = some (j, g) →
      p.tail.field fsNameLen ≠ path.tail.field fsNameLen → j ≠ i := by
    rintro p j g hp hne rfl
    obtain ⟨hj, hkey, -⟩ := lookup_eq_some.mp hp
    obtain ⟨hi, hkey', -⟩ := lookup_eq_some.mp h
    obtain rfl := Option.some.inj (hj.symm.trans hi)
    exact hne (hkey.symm.trans hkey')
  cases step_change hs with
  | none => exact h
  | added => exact lookup_append h rfl
  | wrote hl hkey =>
    rw [lookup_set h rfl (lookup_eq_some.mp hl).1 hkey, if_neg (hother hl hr)]
  | cut hl =>
    have hkey : ∀ f : File, f.cut.key = f.key := fun _ => rfl
    rw [lookup_set h rfl (lookup_eq_some.mp hl).1 (hkey _), if_neg (hother hl hr)]

/-- The bytes that have been written are in the file. -/
theorem byte_patch (f : File) {k : ℕ} (hk : k < size) (hfit : offset % 512 + size ≤ 512)
    (hlt : offset / 512 < 65536) (hlen : offset / 512 < f.blocks.length) :
    (f.patch buffer size offset).byte (offset + k) = some (buffer k) := by
  have hblk : (offset + k) / 512 = offset / 512 := by omega
  have hbyte : (offset + k) % 512 = offset % 512 + k := by omega
  have hmod : offset / 512 % 2 ^ 16 = offset / 512 := Nat.mod_eq_of_lt hlt
  have hmin : min size (512 - offset % 512) = size := min_eq_left (by omega)
  simp only [File.byte, File.patch, hblk, hbyte, hmod, hmin]
  rw [List.getElem?_modify_eq, List.getElem?_eq_getElem hlen, Option.map_eq_map, Option.map_some,
    Option.map_some, Buf.copy_byte _ _ _ _ (by omega), Mem.copy_in hk]

/-- A write that returns its size has put its bytes into the file. -/
theorem write_byte (h : s.write path buffer size offset bcache = some (s', (size : ℤ)))
    (hpos : 0 < size) (hfit : offset % 512 + size ≤ 512) (hlt : offset / 512 < 65536) :
    ∃ i f, s'.lookup path = some (i, f) ∧ ∀ k < size, f.byte (offset + k) = some (buffer k) := by
  have hnoent : (-2 : ℤ) ≠ size := by omega
  have hnospc : (-28 : ℤ) ≠ size := by omega
  rw [write] at h
  cases hl : s.lookup path with
  | none =>
    simp only [hl] at h
    exact absurd (Prod.mk.inj (Option.some.inj h)).2 hnoent
  | some x =>
    obtain ⟨hi, -, -⟩ := lookup_eq_some.mp hl
    simp only [hl] at h
    rcases writeFile_cases h with ⟨-, -, hzero⟩ | ⟨hneed, rfl, -⟩ | ⟨-, -, hret⟩ | ⟨-, -, hret⟩
    · omega
    · refine ⟨x.1, _, lookup_set hl rfl hi rfl, fun k hk => ?_⟩
      rw [if_pos rfl]
      refine byte_patch _ hk hfit hlt ?_
      have hmod : offset / blockSize % 2 ^ 16 = offset / 512 := Nat.mod_eq_of_lt hlt
      simp only [File.needs, hmod] at hneed
      simp only [File.grow, File.needs, hmod, List.length_append, List.length_take]
      omega
    · exact absurd hret.symm hnospc
    · exact absurd hret.symm hnospc

end Store

/-! ### On the disk -/

section disk
variable {fs : Fs} {s : Store} {d : Disk} {fl : List ℕ} {ch : ℕ → List ℕ} {path : CStr} {i : ℕ}
  {f : File}

/-- The file system serves every request, and the run is the fold of the requests. -/
theorem ssfs_run : ∀ (rs : List Request) (fs : Fs),
    ∃ as, ssfs.run fs rs = some (serveAll fs rs, as)
  | [], fs => ⟨[], rfl⟩
  | r :: rs, fs => by
      obtain ⟨as, hrun⟩ := ssfs_run rs (r.serve fs)
      exact ⟨r.reply fs :: as, Component.run_cons.mpr ⟨_, _, as, rfl, hrun, rfl⟩⟩

/-- A promised run leads to a state that shows the store. -/
theorem Shows.serveAll {s' : Store} {rs : List Request} {as : List Answer} (h : Shows s fs)
    (hr : ∀ r ∈ rs, r.InRange) (hrun : Store.step.run s rs = some (s', as)) :
    Shows s' (serveAll fs rs) := by
  obtain ⟨fs', hrun', hs⟩ := ssfs_refines.run h hr hrun
  obtain ⟨as', hrun''⟩ := ssfs_run rs fs
  obtain ⟨rfl, -⟩ := Prod.mk.inj (Option.some.inj (hrun'.symm.trans hrun''))
  exact hs

/-- What the store has in a file is in the chain of its entry. -/
theorem Holds.byte (h : Holds s d fl ch) (hl : s.lookup path = some (i, f)) :
    findDirEntry (d.blk rootdirBid) path.tail = some i ∧
      Walk d.map eofBlock (d.dir i).firstBlock (ch i) ∧ ∀ p, f.byte p = fileByte d (ch i) p := by
  cases hf : findDirEntry (d.blk rootdirBid) path.tail with
  | none => rw [h.absent hf] at hl; cases hl
  | some j =>
    rw [h.found hf] at hl
    obtain ⟨rfl, rfl⟩ := Prod.mk.inj (Option.some.inj hl)
    have hj : j ∈ live d.dir := ⟨(findDirEntry_some hf).1, (findDirEntry_some hf).2.1⟩
    refine ⟨rfl, h.layout.pool.file j hj, fun p => ?_⟩
    rw [File.byte, fileByte, fileAt, List.getElem?_map, Option.map_map]
    rfl

/-- A read gives the bytes of the first block of the file. -/
theorem Store.read_byte (hl : s.lookup path = some (i, f)) {p n : ℕ} {v : UInt8}
    (hv : f.byte p = some v) (hp : p < min n blockSize) (bcache : Block) :
    (s.read path n bcache).1[p]? = some v := by
  have hzero : p / 512 = 0 := Nat.div_eq_of_lt (lt_of_lt_of_le hp (min_le_right ..))
  have hmod : p % 512 = p := Nat.mod_eq_of_lt (lt_of_lt_of_le hp (min_le_right ..))
  rw [File.byte, hzero, hmod] at hv
  rw [Store.read, hl]
  simp only [List.getElem?_map, List.getElem?_range hp, Option.map_some, Store.firstBlock]
  cases hb : f.blocks with
  | nil => rw [hb] at hv; cases hv
  | cons b bs => rw [hb] at hv; exact hv

end disk

/-- CORRECT (recall): on a formatted disk, after any requests, a write inside one block that
    returns its size can be followed by any requests that spare its file: its bytes are then in
    the chain of the file, and in what `do_read` returns as far as it reads. -/
theorem written_recalled {d : Disk} {blk : Block} {fs : Fs} (hfs : fs.disk = formatMyfs d blk)
    {before after : List Request} {path : CStr} {buffer : Mem} {size offset : ℕ} {bcache : Block}
    (hr : ∀ r ∈ before ++ .change (.write path buffer size offset bcache) :: after, r.InRange)
    (hp : Covered fs (before ++ .change (.write path buffer size offset bcache) :: after))
    (hret : (doWrite path buffer size offset bcache (serveAll fs before)).2 = size)
    (hpos : 0 < size) (hfit : offset % 512 + size ≤ 512) (hlt : offset / 512 < 65536)
    (hafter : ∀ r ∈ after, r.Spares path) {fs' : Fs}
    (hfs' : fs' =
      serveAll fs (before ++ .change (.write path buffer size offset bcache) :: after)) :
    (∃ i bs, findDirEntry (fs'.disk.blk rootdirBid) path.tail = some i ∧
      Walk fs'.disk.map eofBlock (fs'.disk.dir i).firstBlock bs ∧
      ∀ k < size, fileByte fs'.disk bs (offset + k) = some (buffer k)) ∧
    ∀ n bcache, ∀ k < size, offset + k < min n blockSize →
      (doRead path n bcache fs').2.1[offset + k]? = some (buffer k) := by
  obtain ⟨s, as, hrun⟩ := hp
  have hshows : Shows s fs' := hfs' ▸ (shows_fresh d blk hfs).serveAll hr hrun
  -- the store before the write, after it, and at the end
  obtain ⟨s₁, as₁, as₂, hrun₁, hrun₂, -⟩ := Component.run_append.mp hrun
  obtain ⟨s₂, a, as₃, hstep, hrun₃, -⟩ := Component.run_cons.mp hrun₂
  obtain ⟨fl₁, ch₁, h₁⟩ := (shows_fresh d blk hfs).serveAll
    (fun r hm => hr r (List.mem_append_left _ hm)) hrun₁
  obtain ⟨⟨s₃, ret⟩, hexec, heq⟩ := Option.map_eq_some_iff.mp hstep
  obtain ⟨rfl, -⟩ := Prod.mk.inj heq
  have hwrite : s₁.write path buffer size offset bcache = some (s₃, (size : ℤ)) := by
    have hrange : Call.InRange (.write path buffer size offset bcache) :=
      hr _ (List.mem_append_right _ (List.mem_cons_self ..))
    have hsame : (doWrite path buffer size offset bcache (serveAll fs before)).2 = ret :=
      (h₁.exec hrange hexec).1
    rw [← hret, hsame]
    exact hexec
  obtain ⟨i, f, hl, hbytes⟩ := Store.write_byte hwrite hpos hfit hlt
  have hl' : s.lookup path = some (i, f) :=
    Component.run_keeps (I := fun s => s.lookup path = some (i, f))
      (fun _ _ _ _ h hr hs => Store.step_spares h hr hs) hl hafter hrun₃
  obtain ⟨fl, ch, h⟩ := hshows
  obtain ⟨hfind, hwalk, hbyte⟩ := h.byte hl'
  refine ⟨⟨i, ch i, hfind, hwalk, fun k hk => ?_⟩, fun n bcache k hk hn => ?_⟩
  · rw [← hbyte, hbytes k hk]
  · rw [h.read]
    exact Store.read_byte hl' (hbytes k hk) hn bcache

/-- The requests after `/a` has been written: `/b` is created and written. -/
def thenB : List Request :=
  [.change (.create pathB 0), .change (.write pathB (fun _ => 9) 1 0 (Buf.zero 512))]

/-- `/a` still has its byte. -/
theorem written_recalled_ab : (doRead pathA 1 (Buf.zero 512) (serveAll freshFs
    ([.change (.create pathA 0)] ++ .change (.write pathA (fun _ => 7) 1 0 (Buf.zero 512)) ::
      thenB))).2.1[0]? = some 7 := by
  have hp : Covered freshFs ([.change (.create pathA 0)] ++
      .change (.write pathA (fun _ => 7) 1 0 (Buf.zero 512)) :: thenB) := ⟨_, _, rfl⟩
  have hne : pathB.tail.field fsNameLen ≠ pathA.tail.field fsNameLen := by decide
  exact (written_recalled rfl (by simp [thenB, Request.InRange, Call.InRange]) hp
    (by decide +kernel) (by decide) (by decide) (by decide)
    (by simpa [thenB, Request.Spares] using hne) rfl).2 1 (Buf.zero 512) 0 (by decide) (by decide)

end OsLabs.Ssfs

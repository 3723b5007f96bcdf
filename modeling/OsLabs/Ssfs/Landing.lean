import Mathlib.Data.List.Perm.Subperm
import OsLabs.Ssfs.Atomic

/-! @src lab4_fs/ssfs.c, lab4_fs/fs-test.py | name:landing | scheme:pool

    The contents of a file are the blocks of its chain, one after the other. A write inside one
    block of the file should replace just the bytes it names. The block it patches is number
    `offset / BLOCK_SIZE` reduced to 16 bits, so this holds below block 65536; from there on a
    write that finds enough blocks for the reduced number returns its size and lands elsewhere. -/

namespace OsLabs.Ssfs
open Schemes

/-- The byte at position `p` of a file with the chain `bs`. -/
def fileByte (d : Disk) (bs : List ℕ) (p : ℕ) : Option UInt8 :=
  bs[p / 512]?.map fun b => (d.blk b).byte (p % 512)

/-- File `i`, which had the chain `bs`, now holds `size` bytes of `buffer` at `offset`; its old
    blocks are still its first ones and hold what they held everywhere else. -/
def Landed (d d' : Disk) (i : ℕ) (bs : List ℕ) (buffer : Mem) (size offset : ℕ) : Prop :=
  ∃ bs', Walk d'.map eofBlock (d'.dir i).firstBlock bs' ∧ offset / 512 < bs'.length ∧
    (∀ k < size, fileByte d' bs' (offset + k) = some (buffer k)) ∧
    (∀ p < 512 * bs.length, p < offset ∨ offset + size ≤ p →
      fileByte d' bs' p = fileByte d bs p) ∧
    bs <+: bs' ∧ (d'.dir i).sizeBytes = max (d.dir i).sizeBytes (offset + size)

section landing
variable {fs : Fs} {d d' : Disk} {fl bs : List ℕ} {ch : ℕ → List ℕ} {i size offset y : ℕ}
  {buffer : Mem} {patch : Block → Block}

/-- The chain a write leaves, with the patched block at position `k`. -/
theorem Wrote.getElem_chain {k newSize : ℕ} (hw : Wrote d d' i newSize k bs fl patch y) :
    (bs ++ fl.take (k + 1 - bs.length))[k]? = some y := by
  have hlt : k < bs.length + (k + 1 - bs.length) := by omega
  rw [← List.take_length_add_append, List.getElem?_take_of_lt hlt, hw.block]

/-- When the block counter has not wrapped, the write has landed. -/
theorem Wrote.landed (hfit : offset % 512 + size ≤ 512) (hnd : (bs ++ fl).Nodup)
    (hids : ∀ x ∈ bs, 2 ≤ x ∧ x < 10)
    (hw : Wrote d d' i (offset + size) (offset / 512) bs fl
      (fun b => b.copy (offset % 512) (min size (512 - offset % 512)) buffer) y) :
    Landed d d' i bs buffer size offset := by
  obtain ⟨crt, hdir, hchain⟩ := hw.dir
  have hmin : min size (512 - offset % 512) = size := min_eq_left (by omega)
  have hpatch := hw.patched
  rw [hmin] at hpatch
  refine ⟨bs ++ fl.take (offset / 512 + 1 - bs.length), ?_, ?_, ?_, ?_, List.prefix_append .., ?_⟩
  · rw [hdir, grownDir_self]; exact hchain
  · exact (List.getElem?_eq_some_iff.mp hw.getElem_chain).1
  · intro k hk
    have hblk : (offset + k) / 512 = offset / 512 := by omega
    have hbyte : (offset + k) % 512 = offset % 512 + k := by omega
    rw [fileByte, hblk, hw.getElem_chain, Option.map_some, hpatch, hbyte,
      Buf.copy_byte _ _ _ _ (by omega), Mem.copy_in hk]
  · intro p hp hout
    have hpc : p / 512 < bs.length := by omega
    rw [fileByte, fileByte, List.getElem?_append_left hpc, List.getElem?_eq_getElem hpc]
    have hmem : bs[p / 512] ∈ bs := List.getElem_mem hpc
    rcases eq_or_ne bs[p / 512] y with hy | hne
    · -- the patched block is old, and the position lies outside the patch
      have hblk : p / 512 = offset / 512 := by
        refine (List.getElem?_inj (by rw [List.length_append]; omega) hnd).mp ?_
        rw [hw.block, List.getElem?_append_left hpc, List.getElem?_eq_getElem hpc, hy]
      rw [Option.map_some, Option.map_some, hy, hpatch, Buf.copy_byte_out (by omega)]
    · have hin := hids _ hmem
      rw [Option.map_some, Option.map_some, hw.data _ hin.1 hin.2 hne]
  · rw [hdir, grownDir_self]

/-- The chain of a file that has been written has no more blocks than there were. -/
theorem Wrote.chain_le {k newSize : ℕ} (hw : Wrote d d' i newSize k bs fl patch y) {bs' : List ℕ}
    (hc : Walk d'.map eofBlock (d'.dir i).firstBlock bs') : bs'.length ≤ (bs ++ fl).length := by
  obtain ⟨crt, hdir, hchain⟩ := hw.dir
  rw [hdir, grownDir_self] at hc
  rw [hc.unique hchain, List.length_append, List.length_append, List.length_take]
  omega

/-- There are 8 data blocks. -/
theorem length_le_of_data {l : List ℕ} (hnd : l.Nodup) (hids : ∀ x ∈ l, 2 ≤ x ∧ x < 10) :
    l.length ≤ 8 := by
  have hsub : l ⊆ List.range' 2 8 := fun x hx => by
    rw [List.mem_range'_1]; have := hids x hx; omega
  simpa using (hnd.subperm hsub).length_le

/-- CORRECT (landing): a write inside one block of an existing file, if it returns its size, has
    landed where it was asked to, exactly when its block number fits 16 bits or the reduced number
    is out of reach. -/
theorem landed_iff {path : CStr} {bcache : Block} (hL : Layout fs.disk fl ch)
    (hf : findDirEntry (fs.disk.blk rootdirBid) path.tail = some i) (hpos : 0 < size)
    (hfit : offset % 512 + size ≤ 512) (hr : offset + size < 2 ^ 63) :
    ((doWrite path buffer size offset bcache fs).2 = size →
      Landed fs.disk (doWrite path buffer size offset bcache fs).1.disk i (ch i) buffer size
        offset) ↔
    (offset / 512 < 65536 ∨ (ch i ++ fl).length ≤ offset / 512 % 65536) := by
  have hi := live_of_find hf
  have hfail : (-28 : ℤ) ≠ size := by omega
  obtain ⟨fs', ret, ws, hw, -, hexit⟩ := doWrite_exit buffer bcache hL hi hf hr
  rw [hw]
  simp only
  generalize fs'.disk = d' at hexit ⊢
  cases hexit with
  | noBlock hc hfl =>
    refine iff_of_true (fun h => absurd h hfail) (Or.inr ?_)
    rw [hc, hfl]; exact Nat.zero_le _
  | idle _ hsize => omega
  | stuck _ hk => exact iff_of_true (fun h => absurd h hfail) (Or.inr hk)
  | wrote hk hwrote =>
    have hids : ∀ x ∈ ch i ++ fl, 2 ≤ x ∧ x < 10 := fun x hx => hL.pool.block_range hi hx
    have hnd := hL.pool.nodup_append hi
    rcases lt_or_ge (offset / 512) 65536 with hlt | hge
    · have hmod : offset / 512 % 2 ^ 16 = offset / 512 := Nat.mod_eq_of_lt hlt
      rw [hmod] at hwrote
      exact iff_of_true (fun _ => hwrote.landed hfit hnd
        (fun x hx => hids x (List.mem_append_left _ hx))) (Or.inl hlt)
    · -- the chain is too short for the block number it was asked for
      refine iff_of_false (fun h => ?_) (by omega)
      obtain ⟨bs', hc, hlen, -⟩ := h (Int.bmod_eq_of_le (by omega) (by omega))
      have hle := (hwrote.chain_le hc).trans (length_le_of_data hnd hids)
      omega

end landing

theorem landed_iff_block3 : ∃ fl ch, Layout emptyFileFs.disk fl ch ∧
    (((doWrite pathA (fun _ => 7) 1 1536 (Buf.zero 512) emptyFileFs).2 = (1 : ℕ) →
      Landed emptyFileFs.disk (doWrite pathA (fun _ => 7) 1 1536 (Buf.zero 512) emptyFileFs).1.disk
        0 (ch 0) (fun _ => 7) 1 1536) ↔
      (1536 / 512 < 65536 ∨ (ch 0 ++ fl).length ≤ 1536 / 512 % 65536)) := by
  obtain ⟨fl, ch, hL⟩ := wellFormed_emptyFileFs.layout
  exact ⟨fl, ch, hL, landed_iff hL (by decide +kernel) (by decide) (by decide) (by decide)⟩

/-- The state after a byte has been written at block 65536 of the empty file. -/
def wrappedFs : Fs × ℤ := doWrite pathA (fun _ => 7) 1 33554432 (Buf.zero 512) emptyFileFs

/-- The write returns 1, but the file has one block. -/
theorem wrapped_write_not_landed : WellFormed emptyFileFs.disk ∧
    findDirEntry (emptyFileFs.disk.blk rootdirBid) pathA.tail = some 0 ∧
    Walk emptyFileFs.disk.map eofBlock (emptyFileFs.disk.dir 0).firstBlock [] ∧
    wrappedFs.2 = 1 ∧
    ¬Landed emptyFileFs.disk wrappedFs.1.disk 0 [] (fun _ => 7) 1 33554432 := by
  have hfirst : (wrappedFs.1.disk.dir 0).firstBlock = 2 := by decide +kernel
  have hmap : wrappedFs.1.disk.map 2 = eofBlock := by decide +kernel
  have hempty : (emptyFileFs.disk.dir 0).firstBlock = eofBlock := by decide +kernel
  refine ⟨wellFormed_emptyFileFs, by decide +kernel, hempty, by decide +kernel, ?_⟩
  rintro ⟨bs', hc, hlen, -⟩
  rw [hfirst] at hc
  have hone : Walk wrappedFs.1.disk.map eofBlock 2 [2] := ⟨rfl, by decide, hmap⟩
  rw [hc.unique hone] at hlen
  exact absurd hlen (by decide)

end OsLabs.Ssfs

import OsLabs.Ssfs.Recall

/-! @src lab4_fs/ssfs.c, lab4_fs/fs_support.c | name:remount | scheme:refines

    The two cached blocks outlive a request, but no request relies on what an earlier one has left
    in them: each loads the blocks it works on. So the file system can be stopped after any request
    and started again, with anything in the caches, and nobody will notice.

        request   mount    request   request   mount    request
        request            request   request            request      same answers, same disk -/

namespace OsLabs.Ssfs
open Schemes

/-- Two states that differ in their log only. -/
structure SameState (fs fs' : Fs) : Prop where
  disk : fs.disk = fs'.disk
  bdir : fs.bdir = fs'.bdir
  bmap : fs.bmap = fs'.bmap

/-- Two steps with the same result, in states that differ in their log only. -/
def SameStep {α : Type*} (r r' : Fs × α) : Prop := SameState r.1 r'.1 ∧ r.2 = r'.2

section same
variable {fs fs' : Fs}

theorem SameState.note (h : SameState fs fs') (a : Access) : SameState (fs.note a) (fs'.note a) :=
  ⟨h.disk, h.bdir, h.bmap⟩

theorem SameState.allocBlock (h : SameState fs fs') : SameStep fs.allocBlock fs'.allocBlock := by
  refine ⟨⟨h.disk, h.bdir, ?_⟩, ?_⟩ <;> simp only [Fs.allocBlock, h.bmap]

theorem SameState.saveDirectory (h : SameState fs fs') :
    SameState fs.saveDirectory fs'.saveDirectory := by
  refine ⟨?_, h.bdir, h.bmap⟩
  rw [Fs.saveDirectory_disk, Fs.saveDirectory_disk, h.disk, h.bdir]

theorem SameState.startFile (h : SameState fs fs') (di : ℕ) :
    SameStep (startFile di fs) (startFile di fs') := by
  obtain ⟨hs, hr⟩ := h.allocBlock
  rw [Ssfs.startFile, Ssfs.startFile, ← h.bdir]
  split
  · simp only [← hr, ← hs.bdir]
    exact ⟨⟨hs.disk, rfl, hs.bmap⟩, rfl⟩
  · exact ⟨h, rfl⟩

theorem SameState.growFile (h : SameState fs fs') (di size offset : ℕ) :
    SameStep (growFile di size offset fs) (growFile di size offset fs') := by
  obtain ⟨hs, hr⟩ := h.startFile di
  rw [Ssfs.growFile, Ssfs.growFile, ← h.bdir]
  split
  · cases hstart : Ssfs.startFile di fs with
    | mk g ok =>
      cases hstart' : Ssfs.startFile di fs' with
      | mk g' ok' =>
        rw [hstart, hstart'] at hs hr
        obtain rfl : ok = ok' := hr
        cases ok with
        | false => exact ⟨hs, rfl⟩
        | true =>
          have hbdir : g.bdir = g'.bdir := hs.bdir
          refine ⟨SameState.saveDirectory ⟨hs.disk, ?_, hs.bmap⟩, rfl⟩
          simp only [hbdir]
  · exact ⟨h, rfl⟩

theorem SameState.navigate (h : SameState fs fs') : ∀ (n crt : ℕ),
    SameStep (navigate crt fs n) (navigate crt fs' n) := by
  intro n
  induction n generalizing fs fs' with
  | zero => exact fun crt => ⟨h, rfl⟩
  | succ n ih =>
    intro crt
    obtain ⟨hs, hr⟩ := (h.note (.index crt)).allocBlock
    rw [Ssfs.navigate, Ssfs.navigate]
    simp only [Fs.note_bmap, ← h.bmap, ← hr]
    split
    · exact ih (h.note _) _
    · split
      · exact ⟨hs, rfl⟩
      · apply ih
        refine ⟨hs.disk, hs.bdir, ?_⟩
        simp only [hs.bmap]

/-- What a request loads depends on the disk only. -/
theorem SameState.loaded (h : fs.disk = fs'.disk) : SameState (loaded fs) (loaded fs') := by
  refine ⟨h, ?_, ?_⟩
  · rw [Ssfs.loaded, Ssfs.loaded, Fs.loadBlockmap_bdir, Fs.loadBlockmap_bdir,
      Fs.loadDirectory_bdir, Fs.loadDirectory_bdir, h]
  · rw [Ssfs.loaded, Ssfs.loaded, Fs.loadBlockmap_bmap, Fs.loadBlockmap_bmap,
      Fs.loadDirectory_disk, Fs.loadDirectory_disk, h]

end same

/-! ### Sessions -/

/-- What happens to the file system: a request, or it is stopped and started again with these
    blocks in the caches. -/
inductive Event where
  | request (r : Request)
  | mount (bdir bmap : Block)

/-- The file system as users see it: a mount has no answer. -/
def session : Component Fs Event (Option Answer)
  | fs, .request r => some (r.serve fs, some (r.reply fs))
  | fs, .mount bdir bmap => some ({ fs with bdir := bdir, bmap := bmap, log := [] }, none)

end OsLabs.Ssfs

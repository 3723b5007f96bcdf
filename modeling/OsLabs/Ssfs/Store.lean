import OsLabs.Schemes.Refines
import OsLabs.Ssfs.Bounds
import OsLabs.Ssfs.Directory

/-! @src lab4_fs/ssfs.c | name:store | scheme:refines

    What the file system is for, without block ids, map and caches: a list of files in the order
    of their creation, and the blocks that are still free in the order they are handed out. Blocks
    are not cleared, so a free block matters by what it holds. A truncation loses the blocks of its
    file. One kind of write has no promise: it strands an empty file in the free list.

        files   f₀  f₁  ..              key, mode, size, blocks
        free    b₀  b₁  ..
        lost    how many blocks truncations have let go
        past    what an empty file is read from, if the disk file reaches that far              -/

namespace OsLabs.Ssfs
open Schemes

/-- A file: the name field it is found by, its attributes, and the contents of its blocks. -/
structure File where
  key : Buf 12
  mode : ℕ
  size : ℕ
  blocks : List Block

namespace File

/-- How many blocks the file lacks for a write at `offset`, whose block number is cut to 16 bits. -/
def needs (f : File) (offset : ℕ) : ℕ := offset / blockSize % 2 ^ 16 + 1 - f.blocks.length

/-- The file with a size of at least `newSize` and further blocks. -/
def grow (f : File) (newSize : ℕ) (bs : List Block) : File :=
  { f with size := max f.size newSize, blocks := f.blocks ++ bs }

/-- The file after bytes have been written into the block at `offset`, up to its end. -/
def patch (f : File) (buffer : Mem) (size offset : ℕ) : File :=
  { f with blocks := f.blocks.modify (offset / blockSize % 2 ^ 16) fun b =>
      b.copy (offset % blockSize) (min size (blockSize - offset % blockSize)) buffer }

/-- The file without its contents. -/
def cut (f : File) : File := { f with size := 0, blocks := [] }

end File

structure Store where
  files : List File
  free : List Block
  lost : ℕ
  past : Option Block

/-- What a request gives back, besides a new state. -/
inductive Answer where
  | stat (st : Stat) (ret : ℤ)
  | names (l : List CStr) (ret : ℤ)
  | bytes (l : List UInt8) (ret : ℤ)
  | status (ret : ℤ)

namespace Store

/-- The first file under the key of the path, with its number. -/
def lookup (s : Store) (path : CStr) : Option (ℕ × File) :=
  (s.files.findIdx? fun f => f.key = path.tail.field fsNameLen).bind fun i =>
    s.files[i]?.map fun f => (i, f)

theorem lookup_eq_some {s : Store} {path : CStr} {i : ℕ} {f : File} :
    s.lookup path = some (i, f) ↔ s.files[i]? = some f ∧ f.key = path.tail.field fsNameLen ∧
      ∀ j < i, ∀ g, s.files[j]? = some g → g.key ≠ path.tail.field fsNameLen := by
  have hidx : ∀ n, (s.files.findIdx? fun f => f.key = path.tail.field fsNameLen) = some n ↔
      ∃ f, s.files[n]? = some f ∧ f.key = path.tail.field fsNameLen ∧
        ∀ j < n, ∀ g, s.files[j]? = some g → g.key ≠ path.tail.field fsNameLen := by
    intro n
    rw [List.findIdx?_eq_some_iff_getElem]
    constructor
    · rintro ⟨hn, hkey, hbefore⟩
      refine ⟨s.files[n], List.getElem?_eq_getElem hn, by simpa using hkey, fun j hj g hg => ?_⟩
      obtain ⟨hlt, rfl⟩ := List.getElem?_eq_some_iff.mp hg
      simpa using hbefore j hj
    · rintro ⟨f, hf, hkey, hbefore⟩
      obtain ⟨hn, rfl⟩ := List.getElem?_eq_some_iff.mp hf
      refine ⟨hn, by simpa using hkey, fun j hj => ?_⟩
      simpa using hbefore j hj _ (List.getElem?_eq_getElem (by omega))
  simp only [lookup, Option.bind_eq_some_iff, Option.map_eq_some_iff, Prod.mk.injEq]
  constructor
  · rintro ⟨n, hn, g, hg, rfl, rfl⟩
    obtain ⟨f, hf, hkey, hbefore⟩ := (hidx n).mp hn
    obtain rfl := Option.some.inj (hg.symm.trans hf)
    exact ⟨hf, hkey, hbefore⟩
  · rintro ⟨hf, hkey, hbefore⟩
    exact ⟨i, (hidx i).mpr ⟨f, hf, hkey, hbefore⟩, f, hf, rfl, rfl⟩

def getattr (s : Store) (env : Env) (path : CStr) (st : Stat) : Stat × ℤ :=
  let st := { st with uid := env.uid, gid := env.gid, atime := env.now, mtime := env.now }
  if isRoot path then ({ st with mode := dirMode, nlink := 2 }, 0)
  else match s.lookup path with
    | some (_, f) => ({ st with mode := f.mode, nlink := 1, size := f.size }, 0)
    | none => ({ st with mode := fileMode, nlink := 1, size := 1024 }, -enoent)

def readdir (s : Store) (path : CStr) : List CStr × ℤ :=
  if isRoot path then (dotNames ++ s.files.map fun f => snprintf fsNameLen f.key.byte, 0)
  else (dotNames, -1)

/-- The block a read of the file looks at. -/
def firstBlock (s : Store) (f : File) (bcache : Block) : Block :=
  f.blocks.headD (s.past.getD bcache)

def read (s : Store) (path : CStr) (size : ℕ) (bcache : Block) : List UInt8 × ℤ :=
  match s.lookup path with
  | none => ([], -enoent)
  | some (_, f) =>
    ((List.range (min size blockSize)).map (s.firstBlock f bcache).byte, (min size blockSize : ℕ))

def create (s : Store) (path : CStr) (m : UInt32) : Store × ℤ :=
  if s.files.length = dirEntriesPerBlock then (s, -enfile)
  else if path.tail.chars = [] then (s, 0)
  else ({ s with files := s.files ++ [⟨path.tail.field fsNameLen, m.toNat, 0, []⟩] }, 0)

def truncate (s : Store) (path : CStr) : Store × ℤ :=
  match s.lookup path with
  | none => (s, -enoent)
  | some (i, f) =>
    ({ s with
        files := s.files.set i f.cut
        lost := s.lost + f.blocks.length }, 0)

/-- A write to file `i`, which reaches block `k` and is short of `need` blocks for it. -/
def writeFile (s : Store) (i : ℕ) (f : File) (buffer : Mem) (size offset : ℕ) (bcache : Block) :
    Option (Store × ℤ) :=
  let need := f.needs offset
  if f.blocks = [] ∧ offset + size ≤ f.size then
    -- nothing to write, and no block to write it to
    some ({ s with past := some (s.past.getD bcache) }, 0)
  else if need ≤ s.free.length then
    some ({ s with
      files := s.files.set i ((f.grow (offset + size) (s.free.take need)).patch buffer size offset)
      free := s.free.drop need }, size)
  else if f.blocks ≠ [] then
    some ({ s with files := s.files.set i (f.grow (offset + size) []) }, -enospc)
  else if s.free = [] then some (s, -enospc)
  else none

def write (s : Store) (path : CStr) (buffer : Mem) (size offset : ℕ) (bcache : Block) :
    Option (Store × ℤ) :=
  match s.lookup path with
  | none => some (s, -enoent)
  | some (i, f) => s.writeFile i f buffer size offset bcache

def exec (s : Store) : Call → Option (Store × ℤ)
  | .create path m => some (s.create path m)
  | .write path buffer size offset bcache => s.write path buffer size offset bcache
  | .truncate path _ => some (s.truncate path)

/-- The store as a component. -/
def step : Component Store Request Answer
  | s, .getattr env path st => some (s, .stat (s.getattr env path st).1 (s.getattr env path st).2)
  | s, .readdir path _ => some (s, .names (s.readdir path).1 (s.readdir path).2)
  | s, .read path size bcache =>
    some (s, .bytes (s.read path size bcache).1 (s.read path size bcache).2)
  | s, .change c => (s.exec c).map fun r => (r.1, .status r.2)

/-- A write to a file without blocks, for which there are some but not enough. -/
def Strands (s : Store) : Request → Prop
  | .change (.write path _ size offset _) => ∃ i f, s.lookup path = some (i, f) ∧
      f.blocks = [] ∧ f.size < offset + size ∧ s.free ≠ [] ∧ s.free.length < f.needs offset
  | _ => False

theorem writeFile_eq_none {s : Store} {i : ℕ} {f : File} {buffer : Mem} {size offset : ℕ}
    {bcache : Block} : s.writeFile i f buffer size offset bcache = none ↔
      f.blocks = [] ∧ f.size < offset + size ∧ s.free ≠ [] ∧
        s.free.length < f.needs offset := by
  rw [writeFile]
  split
  case isTrue hidle =>
    refine iff_of_false (fun h => by cases h) fun h => ?_
    exact absurd hidle.2 (not_le.mpr h.2.1)
  case isFalse hidle =>
    split
    case isTrue hneed => exact iff_of_false (fun h => by cases h) fun h => absurd h.2.2.2 (by omega)
    case isFalse hneed =>
      split
      case isTrue hne => exact iff_of_false (fun h => by cases h) fun h => hne h.1
      case isFalse hne =>
        rw [not_not] at hne
        split
        case isTrue hfree => exact iff_of_false (fun h => by cases h) fun h => h.2.2.1 hfree
        case isFalse hfree =>
          exact iff_of_true rfl ⟨hne, not_le.mp fun hle => hidle ⟨hne, hle⟩, hfree, by omega⟩

/-- The store has a promise for every other request. -/
theorem step_eq_none_iff (s : Store) (r : Request) : step s r = none ↔ s.Strands r := by
  cases r with
  | getattr env path st => exact iff_of_false (fun h => by cases h) id
  | readdir path rootb => exact iff_of_false (fun h => by cases h) id
  | read path size bcache => exact iff_of_false (fun h => by cases h) id
  | change c =>
    cases c with
    | create path m => exact iff_of_false (fun h => by cases h) id
    | truncate path n => exact iff_of_false (fun h => by cases h) id
    | write path buffer size offset bcache =>
      rw [step, Option.map_eq_none_iff, exec, write, Strands]
      cases hl : s.lookup path with
      | none => exact iff_of_false (fun h => by cases h) fun ⟨_, _, h, _⟩ => by cases h
      | some r =>
        simp only [writeFile_eq_none]
        constructor
        · intro h
          exact ⟨r.1, r.2, rfl, h⟩
        · rintro ⟨i, f, hr, h⟩
          obtain rfl := Option.some.inj hr
          exact h

/-! ### What a request does to the store -/

section change
variable {s s' : Store} {i size offset : ℕ} {f : File} {buffer : Mem} {bcache : Block} {ret : ℤ}

/-- The ways a write to a file can end. -/
theorem writeFile_cases (h : s.writeFile i f buffer size offset bcache = some (s', ret)) :
    ((f.blocks = [] ∧ offset + size ≤ f.size) ∧
      s' = { s with past := some (s.past.getD bcache) } ∧ ret = 0) ∨
    (f.needs offset ≤ s.free.length ∧ s' = { s with
      files := s.files.set i ((f.grow (offset + size) (s.free.take (f.needs offset))).patch buffer
        size offset)
      free := s.free.drop (f.needs offset) } ∧ ret = size) ∨
    (f.blocks ≠ [] ∧ s' = { s with files := s.files.set i (f.grow (offset + size) []) } ∧
      ret = -enospc) ∨
    (s.free = [] ∧ s' = s ∧ ret = -enospc) := by
  rw [writeFile] at h
  split at h
  case isTrue hidle =>
    obtain ⟨rfl, rfl⟩ := Prod.mk.inj (Option.some.inj h)
    exact .inl ⟨hidle, rfl, rfl⟩
  case isFalse =>
    split at h
    case isTrue hneed =>
      obtain ⟨rfl, rfl⟩ := Prod.mk.inj (Option.some.inj h)
      exact .inr (.inl ⟨hneed, rfl, rfl⟩)
    case isFalse =>
      split at h
      case isTrue hne =>
        obtain ⟨rfl, rfl⟩ := Prod.mk.inj (Option.some.inj h)
        exact .inr (.inr (.inl ⟨hne, rfl, rfl⟩))
      case isFalse =>
        split at h
        case isTrue hfree =>
          obtain ⟨rfl, rfl⟩ := Prod.mk.inj (Option.some.inj h)
          exact .inr (.inr (.inr ⟨hfree, rfl, rfl⟩))
        case isFalse => cases h

/-- A file is added, or one is replaced under its key and takes blocks from the free list or loses
    its own. -/
inductive Change (s : Store) : Request → Store → Prop
  | none {r : Request} (past : Option Block) : Change s r { s with past := past }
  | added {path : CStr} {m : UInt32} {f : File} (hf : f.blocks = []) :
      Change s (.change (.create path m)) { s with files := s.files ++ [f] }
  | wrote {path : CStr} {buffer : Mem} {size offset i : ℕ} {bcache : Block} {f g : File}
      {free : List Block} (hl : s.lookup path = some (i, f)) (hkey : g.key = f.key)
      (hcount : g.blocks.length + free.length = f.blocks.length + s.free.length) :
      Change s (.change (.write path buffer size offset bcache))
        { s with files := s.files.set i g, free := free }
  | cut {path : CStr} {n i : ℕ} {f : File} (hl : s.lookup path = some (i, f)) :
      Change s (.change (.truncate path n))
        { s with files := s.files.set i f.cut, lost := s.lost + f.blocks.length }

theorem write_change {path : CStr}
    (h : s.write path buffer size offset bcache = some (s', ret)) :
    Change s (.change (.write path buffer size offset bcache)) s' := by
  rw [write] at h
  cases hl : s.lookup path with
  | none =>
    simp only [hl] at h
    obtain ⟨rfl, -⟩ := Prod.mk.inj (Option.some.inj h)
    exact .none s.past
  | some x =>
    simp only [hl] at h
    rcases writeFile_cases h with ⟨-, rfl, -⟩ | ⟨hneed, rfl, -⟩ | ⟨-, rfl, -⟩ | ⟨-, rfl, -⟩
    · exact .none _
    · refine .wrote hl rfl ?_
      -- what the free list loses, the file gains
      simp only [File.patch, File.grow, List.length_modify, List.length_append, List.length_take,
        List.length_drop]
      omega
    · exact .wrote hl rfl (by rw [File.grow, List.append_nil])
    · exact .none s'.past

/-- What a request that is answered has done. -/
theorem step_change {r : Request} {a : Answer} (h : step s r = some (s', a)) : Change s r s' := by
  cases r with
  | getattr env p st => obtain ⟨rfl, -⟩ := Prod.mk.inj (Option.some.inj h); exact .none s.past
  | readdir p rootb => obtain ⟨rfl, -⟩ := Prod.mk.inj (Option.some.inj h); exact .none s.past
  | read p size bcache => obtain ⟨rfl, -⟩ := Prod.mk.inj (Option.some.inj h); exact .none s.past
  | change c =>
    obtain ⟨⟨s₁, ret⟩, hexec, heq⟩ := Option.map_eq_some_iff.mp h
    obtain ⟨rfl, -⟩ := Prod.mk.inj heq
    cases c with
    | create p m =>
      rw [exec, create] at hexec
      split at hexec
      · obtain ⟨rfl, -⟩ := Prod.mk.inj (Option.some.inj hexec); exact .none s.past
      · split at hexec
        · obtain ⟨rfl, -⟩ := Prod.mk.inj (Option.some.inj hexec); exact .none s.past
        · obtain ⟨rfl, -⟩ := Prod.mk.inj (Option.some.inj hexec); exact .added rfl
    | write p buffer size offset bcache => exact write_change hexec
    | truncate p n =>
      rw [exec, truncate] at hexec
      cases hl : s.lookup p with
      | none =>
        simp only [hl] at hexec
        obtain ⟨rfl, -⟩ := Prod.mk.inj (Option.some.inj hexec); exact .none s.past
      | some x =>
        simp only [hl] at hexec
        obtain ⟨rfl, -⟩ := Prod.mk.inj (Option.some.inj hexec)
        exact .cut hl

end change

/-- The store on a freshly formatted disk. -/
def fresh (d : Disk) : Store where
  files := []
  free := (List.range' 2 8).map d.blk
  lost := 0
  past := if eofBlock < d.nblk then some (d.blk eofBlock) else none

end Store

end OsLabs.Ssfs

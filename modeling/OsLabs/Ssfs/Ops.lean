import OsLabs.Ssfs.Support

/-! @src lab4_fs/ssfs.c | name:ssfs | scheme:store

    The FUSE operations. Each one loads the blocks it needs, works on the cached copies and saves
    them; what is on the disk afterwards is what it saved. A path is `/` followed by a file name.
    `bcache`, `rootb` and `st` are the uninitialised or caller-supplied buffers the C code starts
    from. Offsets are non-negative, as FUSE passes them. -/

namespace OsLabs.Ssfs
open Schemes

abbrev enoent : ℤ := 2
abbrev enfile : ℤ := 23
abbrev enospc : ℤ := 28

/-- The fields of `struct stat` that `do_getattr` fills in. -/
structure Stat where
  uid : ℕ
  gid : ℕ
  atime : ℕ
  mtime : ℕ
  mode : ℕ
  nlink : ℕ
  size : ℕ

/-- What `getuid`, `getgid` and `time` return. -/
structure Env where
  uid : ℕ
  gid : ℕ
  now : ℕ

/-- `strcmp(path, "/") == 0` -/
def isRoot (path : CStr) : Bool := path.chars = [47]

/-- `S_IFDIR | 0755` -/
abbrev dirMode : ℕ := 0x41ED
/-- `S_IFREG | 0644` -/
abbrev fileMode : ℕ := 0x81A4

def doGetattr (env : Env) (path : CStr) (st : Stat) (fs : Fs) : Fs × Stat × ℤ :=
  let st := { st with uid := env.uid, gid := env.gid, atime := env.now, mtime := env.now }
  if isRoot path then (fs, { st with mode := dirMode, nlink := 2 }, 0)
  else
    let st := { st with mode := fileMode, nlink := 1, size := 1024 }
    let fs := fs.loadDirectory
    match findDirEntry fs.bdir path.tail with
    | some di =>
      let de := fs.bdir.directory di
      (fs, { st with size := de.sizeBytes, mode := de.mode }, 0)
    | none => (fs, st, -enoent)

/-- The loop of `do_readdir`: the names of the entries from `i` on, up to an empty one. -/
def listNames (rootb : Block) : ℕ → ℕ → List CStr
  | 0, _ => []
  | n + 1, i =>
    if (rootb.directory i).isEmpty then []
    else snprintf fsNameLen (rootb.directory i).name.byte :: listNames rootb n (i + 1)

/-- `"."` and `".."` -/
def dotNames : List CStr := [⟨[46], by decide⟩, ⟨[46, 46], by decide⟩]

/-- `do_readdir` and the names it passes to `filler`. -/
def doReaddir (path : CStr) (rootb : Block) (fs : Fs) : Fs × List CStr × ℤ :=
  if isRoot path then
    let fs := fs.note (.read rootdirBid .rootb)
    let rootb := fs.disk.readBlock rootdirBid rootb
    (fs, dotNames ++ listNames rootb dirEntriesPerBlock 0, 0)
  else (fs, dotNames, -1)

/-- `do_read` and the bytes it stores in the caller's buffer. -/
def doRead (path : CStr) (size : ℕ) (bcache : Block) (fs : Fs) : Fs × List UInt8 × ℤ :=
  let fs := fs.loadDirectory
  match findDirEntry fs.bdir path.tail with
  | none => (fs, [], -enoent)
  | some di =>
    let bid := (fs.bdir.directory di).firstBlock
    let fs := fs.note (.read bid .bcache)
    let bcache := fs.disk.readBlock bid bcache
    let rsize := min size blockSize
    (fs, (List.range rsize).map bcache.byte, rsize)

/-- `do_write`: give an empty file a first block; false when there is none. -/
def startFile (di : ℕ) (fs : Fs) : Fs × Bool :=
  if (fs.bdir.directory di).firstBlock = eofBlock then
    let r := fs.allocBlock
    let fs := { r.1 with bdir := r.1.bdir.setFirstBlock di r.2 }
    (fs, (fs.bdir.directory di).firstBlock ≠ eofBlock)
  else (fs, true)

/-- `do_write`: extend the size of the file if the write reaches past it. -/
def growFile (di size offset : ℕ) (fs : Fs) : Fs × Bool :=
  if (offset + size) % 2 ^ 64 > (fs.bdir.directory di).sizeBytes then
    match startFile di fs with
    | (fs, false) => (fs, false)
    | (fs, true) =>
      ({ fs with bdir := fs.bdir.setSizeBytes di (offset + size) }.saveDirectory, true)
  else (fs, true)

/-- `do_write`: the `while (blkoffs)` loop, from block `crtblk` on. -/
def navigate (crtblk : ℕ) (fs : Fs) : ℕ → Fs × Option ℕ
  | 0 => (fs, some crtblk)
  | blkoffs + 1 =>
    let fs := fs.note (.index crtblk)
    if fs.bmap.blockmap crtblk ≠ eofBlock then navigate (fs.bmap.blockmap crtblk) fs blkoffs
    else
      let r := fs.allocBlock
      if r.2 = eofBlock then (r.1, none)
      else navigate r.2 { r.1 with bmap := r.1.bmap.setBlockmap crtblk r.2 } blkoffs

/-- `do_write`: read block `crtblk`, overwrite `k` bytes from `off` on, and write it back. -/
def patchBlock (crtblk off k : ℕ) (buffer : Mem) (bcache : Block) (fs : Fs) : Fs :=
  let fs := fs.note (.read crtblk .bcache)
  let bcache := fs.disk.readBlock crtblk bcache
  { fs with disk := fs.disk.writeBlock crtblk (bcache.copy off k buffer) }.note
    (.write crtblk .bcache)

def doWrite (path : CStr) (buffer : Mem) (size offset : ℕ) (bcache : Block) (fs : Fs) : Fs × ℤ :=
  let fs := fs.loadDirectory
  match findDirEntry fs.bdir path.tail with
  | none => (fs, -enoent)
  | some di =>
    match growFile di size offset fs.loadBlockmap with
    | (fs, false) => (fs, -enospc)
    | (fs, true) =>
      -- `blkoffs` is an unsigned short
      let blkoffs := offset / blockSize % 2 ^ 16
      let byteoffs := offset % blockSize
      let crtsize := min size (blockSize - byteoffs)
      match navigate (fs.bdir.directory di).firstBlock fs blkoffs with
      | (fs, none) => (fs, -enospc)
      | (fs, some crtblk) =>
        ((patchBlock crtblk byteoffs crtsize buffer bcache fs).saveBlockmap,
          (size : ℤ).bmod (2 ^ 32))

/-- `do_truncate`: the new length is not used. -/
def doTruncate (path : CStr) (_offset : ℕ) (fs : Fs) : Fs × ℤ :=
  let fs := fs.loadDirectory
  match findDirEntry fs.bdir path.tail with
  | none => (fs, -enoent)
  | some di =>
    let bdir := (fs.bdir.setSizeBytes di 0).setFirstBlock di eofBlock
    ({ fs with bdir := bdir }.saveDirectory, 0)

def doCreate (path : CStr) (m : UInt32) (fs : Fs) : Fs × ℤ :=
  let fs := fs.loadDirectory
  match firstEmptyDirEntry fs.bdir with
  | none => (fs, -enfile)
  | some ni =>
    let bdir := (fs.bdir.setName ni path.tail.byte).setMode ni m.toNat
    let bdir := (bdir.setSizeBytes ni 0).setFirstBlock ni eofBlock
    ({ fs with bdir := bdir }.saveDirectory, 0)

/-! ### Calls that change the disk -/

inductive Call where
  | create (path : CStr) (m : UInt32)
  | write (path : CStr) (buffer : Mem) (size offset : ℕ) (bcache : Block)
  | truncate (path : CStr) (offset : ℕ)

namespace Call

def path : Call → CStr
  | create path _ => path
  | write path .. => path
  | truncate path _ => path

def exec (fs : Fs) : Call → Fs × ℤ
  | create path m => doCreate path m fs
  | write path buffer size offset bcache => doWrite path buffer size offset bcache fs
  | truncate path offset => doTruncate path offset fs

/-- The index of the entry the call works on, in the directory it loads. -/
def target (bdir : Block) : Call → Option ℕ
  | create .. => firstEmptyDirEntry bdir
  | c => findDirEntry bdir c.path.tail

/-- The sizes and offsets of a call: `size` is an `int`, and `offset + size` is an `off_t`. -/
def InRange : Call → Prop
  | write _ _ size offset _ => size < 2 ^ 31 ∧ offset + size < 2 ^ 63
  | _ => True

/-- A file is created under a non-empty name. -/
def Named : Call → Prop
  | create path _ => path.tail.chars ≠ []
  | _ => True

end Call

/-- The state after a sequence of calls. -/
def runCalls (fs : Fs) (cs : List Call) : Fs := cs.foldl (fun fs c => (c.exec fs).1) fs

end OsLabs.Ssfs

import SukiOS.Fat32

/-! The file layer of `vfs.c` over one FAT32 volume mounted at `/`, through the adapter
`fat32_vfs.c`. A node that `finddir` makes is always a file. Every `vfs_open` makes a node of its
own, so the table of descriptors holds the nodes. -/
namespace SukiOS.Fat32
open ByteMemory

def maxFds : ℕ := 256

def vfsFlagDir : ℕ := 1
def vfsFlagFile : ℕ := 2

/-- A node that `fat32_vfs_finddir_dir` makes. -/
structure FileNode where
  size : ℕ
  inode : ℕ
  file : File
deriving DecidableEq, Repr

inductive Node where
  | root
  | file (n : FileNode)
deriving DecidableEq, Repr

structure Fd where
  node : FileNode
  pos : ℕ
deriving DecidableEq, Repr

/-- The volume and `fd_table`. -/
structure Vfs where
  vol : Vol
  fds : ℕ → Option Fd

/-! ### Paths -/

/-- The inner loop of `resolve_path`: a component of at most `n` characters, and the rest. -/
def takeToken : ℕ → List Byte → List Byte × List Byte
  | 0, s => ([], s)
  | _+1, [] => ([], [])
  | n+1, c::s => if c = slash then ([], c::s) else (c :: (takeToken n s).1, (takeToken n s).2)

def dropSlash (s : List Byte) : List Byte := if s.head? = some slash then s.tail else s

/-- The outer loop. Only the root is a directory. -/
def resolveFrom (fs : Fs) (v : Vol) : ℕ → Node → List Byte → Option (Option Node)
  | 0, current, _ => some (some current)
  | n+1, current, p =>
    if p = [] then some (some current)
    else
      let token := (takeToken 255 p).1
      let rest := dropSlash (takeToken 255 p).2
      match current with
      -- only directories are searched
      | .file _ => some none
      | .root => (fat32Open fs v token).bind (fun r =>
          match r with
          | none => some none
          | some f =>
            resolveFrom fs v n (.file { size := f.size, inode := f.startCluster, file := f }) rest)

def resolvePath (fs : Fs) (v : Vol) (path : List Byte) : Option (Option Node) :=
  match path with
  | [] => some none
  | c::p => if c = slash then resolveFrom fs v p.length .root p else some none

/-! ### Descriptors -/

def firstFreeFd (fds : ℕ → Option Fd) (i : ℕ) : ℕ → Option ℕ
  | 0 => none
  | n+1 => if (fds i).isNone then some i else firstFreeFd fds (i+1) n

def setFd (fds : ℕ → Option Fd) (i : ℕ) (fd : Option Fd) : ℕ → Option Fd := Function.update fds i fd

/-- The inner `none` is the result -1. -/
def vfsOpen (fs : Fs) (s : Vfs) (path : List Byte) : Option (Option (Vfs × ℕ)) := do
  match ← resolvePath fs s.vol path with
  | some (.file n) =>
    match firstFreeFd s.fds 0 maxFds with
    | some fd => some (some ({ s with fds := setFd s.fds fd (some { node := n, pos := 0 }) }, fd))
    | none => some none
  | _ => some none

structure VfsRead where
  state : Vfs
  ret : ℤ
  bytes : List Byte
  lbas : List ℕ

/-- `fd_table[fd].pos += ret` when `ret` is positive. -/
def advance (pos : ℕ) (ret : ℤ) : ℕ := if 0 < ret then (pos + ret.toNat) % 2^32 else pos

def vfsRead (fs : Fs) (s : Vfs) (fd count : ℕ) : VfsRead :=
  match s.fds fd with
  | none => { state := s, ret := -1, bytes := [], lbas := [] }
  | some d =>
    -- the adapter seeks from the first cluster in each call
    let r := fat32Read fs s.vol (fat32Seek fs s.vol d.node.file d.pos) count
    let d' : Fd := { node := { d.node with file := r.file }, pos := advance d.pos r.ret }
    { state := { s with fds := setFd s.fds fd (some d') }, ret := r.ret, bytes := r.bytes
      lbas := r.lbas }

structure VfsWrite where
  state : Vfs
  ret : ℤ
  lbas : List ℕ

def vfsWrite (fs : Fs) (s : Vfs) (fd : ℕ) (src : List Byte) : VfsWrite :=
  match s.fds fd with
  | none => { state := s, ret := -1, lbas := [] }
  | some d =>
    let r := fat32Write fs s.vol (fat32Seek fs s.vol d.node.file d.pos) src
    let d' : Fd := { node := { d.node with file := r.file }, pos := advance d.pos r.ret }
    { state := { vol := r.vol, fds := setFd s.fds fd (some d') }, ret := r.ret, lbas := r.lbas }

def vfsClose (fs : Fs) (s : Vfs) (fd : ℕ) (now : Stamp) : Option (Vfs × ℤ) :=
  match s.fds fd with
  | none => some (s, -1)
  | some d => (fat32Close fs s.vol d.node.file now).map (fun v =>
      ({ vol := v, fds := setFd s.fds fd none }, 0))

def vfsGetSize (s : Vfs) (fd : ℕ) : ℕ :=
  match s.fds fd with
  | none => 0
  | some d => d.node.size

/-! ### Names -/

/-- `fat32_vfs_create`, with the clock at the creation and at the close that follows it. -/
def fat32VfsCreate (fs : Fs) (v : Vol) (name : List Byte) (now now' : Stamp) :
    Option (Vol × ℤ) := do
  match ← fat32CreateFile fs v name now with
  | none => some (v, -1)
  | some (v', file) =>
    let v'' ← fat32Close fs v' file now'
    some (v'', 0)

def vfsCreate (fs : Fs) (s : Vfs) (path : List Byte) (now now' : Stamp) : Option (Vfs × ℤ) :=
  match path with
  | [] => some (s, -1)
  | c::filename =>
    if c = slash then (fat32VfsCreate fs s.vol filename now now').map (fun r =>
      ({ s with vol := r.1 }, r.2))
    else some (s, -1)

def vfsDelete (fs : Fs) (s : Vfs) (path : List Byte) : Option (Vfs × ℤ) :=
  match path with
  | [] => some (s, -1)
  | c::filename =>
    if c = slash then (fat32Delete fs s.vol filename).map (fun r =>
      match r with
      | none => (s, -1)
      | some v => ({ s with vol := v }, 0))
    else some (s, -1)

/-! ### Listing the root -/

/-- `fat32_dir_iter_t` -/
structure DirIter where
  cluster : ℕ
  entryOffset : ℕ
deriving DecidableEq, Repr

structure DirEntry where
  name : List Byte
  inode : ℕ
  type : ℕ
deriving DecidableEq, Repr

/-- The name that `fat32_vfs_readdir` reports: it copies the characters before the first space and
ends them with a 0, and a 0 among them ends the string before. -/
def listedName (buf : Mem) (i : ℕ) : List Byte :=
  ((entName buf i).takeWhile (fun c => c ≠ space)).takeWhile (fun c => c ≠ 0#8)

def listedEntry (buf : Mem) (i : ℕ) : DirEntry where
  name := listedName buf i
  inode := entCluster buf i
  type := if entAttr buf i &&& 0x10 ≠ 0 then vfsFlagDir else vfsFlagFile

inductive ReaddirScan where
  | endMark
  | exhausted
  | entry (i : ℕ)
deriving DecidableEq, Repr

/-- The inner loop of `fat32_vfs_readdir` from entry `i` on. -/
def readdirScan (buf : Mem) (i : ℕ) : ℕ → ReaddirScan
  | 0 => .exhausted
  | n+1 =>
    if buf (32*i) = 0#8 then .endMark
    else if buf (32*i) = 0xE5#8 then readdirScan buf (i+1) n
    else if entAttr buf i = 0x0F then readdirScan buf (i+1) n
    else .entry i

/-- The outer loop; the inner `none` is the result 0. -/
def readdirFrom (fs : Fs) (v : Vol) : ℕ → DirIter → Option (DirIter × Option DirEntry)
  | 0, it => if 2 ≤ it.cluster ∧ it.cluster < fatEof then none else some (it, none)
  | n+1, it =>
    if 2 ≤ it.cluster ∧ it.cluster < fatEof then
      let buf := readCluster fs v it.cluster
      match readdirScan buf it.entryOffset (fs.entryCount - it.entryOffset) with
      -- the iterator is moved behind the chain, so later calls report nothing
      | .endMark => some ({ cluster := fatEof, entryOffset := it.entryOffset }, none)
      | .entry i => some ({ it with entryOffset := i + 1 }, some (listedEntry buf i))
      | .exhausted =>
        let next := fatNextCluster fs v it.cluster
        if fatEof ≤ next then some ({ cluster := fatEof, entryOffset := fs.entryCount }, none)
        else readdirFrom fs v n { cluster := next, entryOffset := 0 }
    else some (it, none)

/-- `vfs_readdir` on a directory opened with `vfs_opendir("/")`. -/
def vfsReaddir (fs : Fs) (v : Vol) (it : DirIter) : Option (DirIter × Option DirEntry) :=
  readdirFrom fs v (fs.totalClusters + 2) it

/-- The iterator that the first call makes. -/
def rootIter (fs : Fs) : DirIter := { cluster := fs.rootCluster, entryOffset := 0 }

/-- What the call after `n` calls reports. -/
def nthReaddir (fs : Fs) (v : Vol) : ℕ → DirIter → Option (Option DirEntry)
  | 0, it => (vfsReaddir fs v it).map Prod.snd
  | n+1, it => (vfsReaddir fs v it).bind (fun r => nthReaddir fs v n r.1)

end SukiOS.Fat32

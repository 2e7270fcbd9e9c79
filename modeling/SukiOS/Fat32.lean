import SukiOS.Lib.Memory

/-! The FAT32 driver `fat32.c`, over a disk that reads back what was last written to a sector.

The disk and the cached FAT are byte-addressed; the driver of `ide.c` passes 28 bits of a sector
number on to the disk. A name is a list of characters without a terminating zero. `kmalloc`
succeeds. A result `none` of a function that follows the chain of the root directory means that
the chain never ends. The functions that move file data also return the sectors they pass to
`ide_read_sector` and `ide_write_sector`. -/
namespace SukiOS.Fat32
open ByteMemory

/-! ### Sectors -/

/-- `ide_read_sector` -/
def ideReadSector (disk : Mem) (lba : ℕ) : Mem := fun o => disk (lba % 2^28 * 512 + o)

/-- `ide_write_sector` -/
def ideWriteSector (disk : Mem) (lba : ℕ) (buf : Mem) : Mem :=
  fun a => if a / 512 = lba % 2^28 then buf (a % 512) else disk a

/-- `disk_read` of `count` sectors; `buf` is what the buffer held. -/
def diskRead (disk : Mem) (lba : ℕ) (buf : Mem) : ℕ → Mem
  | 0 => buf
  | i+1 => fun o => if o / 512 = i then ideReadSector disk ((lba + i) % 2^32) (o % 512)
      else diskRead disk lba buf i o

/-- `disk_write` of `count` sectors. -/
def diskWrite (disk : Mem) (lba : ℕ) (buf : Mem) : ℕ → Mem
  | 0 => disk
  | i+1 => ideWriteSector (diskWrite disk lba buf i) ((lba + i) % 2^32) (fun o => buf (i*512 + o))

/-! ### Short names -/

/-- `c - 32` for a lower case letter. -/
def upper (c : Byte) : Byte := if 97 ≤ c.toNat ∧ c.toNat ≤ 122 then c - 32#8 else c

def space : Byte := 32#8
def dot : Byte := 46#8
def slash : Byte := 47#8

/-- The first loop of `to_short`: up to `n` characters before a dot, and what is left of the name.
-/
def shortBase : ℕ → List Byte → List Byte × List Byte
  | 0, s => ([], s)
  | _+1, [] => ([], [])
  | n+1, c::s => if c = dot then ([], c::s)
      else (upper c :: (shortBase n s).1, (shortBase n s).2)

/-- `out` is filled with spaces first. -/
def padTo (n : ℕ) (s : List Byte) : List Byte := s ++ List.replicate (n - s.length) space

def toShort (s : List Byte) : List Byte :=
  let r := shortBase 8 s
  let ext := if r.2.head? = some dot then r.2.tail else r.2
  padTo 8 r.1 ++ padTo 3 ((ext.take 3).map upper)

/-! ### The mounted volume -/

def fatEof : ℕ := 0x0FFFFFF8

/-- The constants of a mounted volume. -/
structure Fs where
  firstDataSector : ℕ
  dataSectors : ℕ
  totalClusters : ℕ
  fatStartSector : ℕ
  fatSizeSectors : ℕ
  sectorsPerCluster : ℕ
  bytesPerSector : ℕ
  rootCluster : ℕ
deriving DecidableEq, Repr

/-- The disk and the cached FAT. -/
structure Vol where
  disk : Mem
  fat : Mem

/-- `fs->fat[i]` -/
def Vol.fatGet (v : Vol) (i : ℕ) : ℕ := load v.fat (4*i) 4

def Vol.fatSet (v : Vol) (i w : ℕ) : Vol := { v with fat := store v.fat (4*i) 4 w }

def fatNextCluster (fs : Fs) (v : Vol) (cluster : ℕ) : ℕ :=
  if cluster < 2 ∨ (fs.totalClusters + 2) % 2^32 ≤ cluster then fatEof
  else v.fatGet cluster &&& 0x0FFFFFFF

def clusterToLba (fs : Fs) (cluster : ℕ) : ℕ :=
  (fs.firstDataSector + (cluster + (2^32 - 2)) % 2^32 * fs.sectorsPerCluster) % 2^32

/-- The loop of `find_free_cluster` from `i` on; 0 when there is none. -/
def findFreeFrom (v : Vol) (i : ℕ) : ℕ → ℕ
  | 0 => 0
  | n+1 => if v.fatGet i &&& 0x0FFFFFFF = 0 then i else findFreeFrom v (i+1) n

def findFreeCluster (fs : Fs) (v : Vol) : ℕ :=
  findFreeFrom v 2 ((fs.totalClusters + 2) % 2^32 - 2)

def fat32Mount (disk : Mem) : Option (Fs × Vol) :=
  let boot := ideReadSector disk 0
  let signature := load boot 0x42 1
  let bytesPerSector := load boot 0x0B 2
  let sectorsPerCluster := load boot 0x0D 1
  let reservedSectors := load boot 0x0E 2
  let numFats := load boot 0x10 1
  let totalSectors16 := load boot 0x13 2
  let totalSectors32 := load boot 0x20 4
  let fatSize := load boot 0x24 4
  if signature ≠ 0x28 ∧ signature ≠ 0x29 then none
  else if bytesPerSector ≠ 512 then none
  -- the division by zero is a fault
  else if sectorsPerCluster = 0 then none
  else
    let totalSectors := if totalSectors16 ≠ 0 then totalSectors16 else totalSectors32
    let firstDataSector := (reservedSectors + numFats * fatSize) % 2^32
    let dataSectors := (totalSectors + (2^32 - firstDataSector)) % 2^32
    some ({ firstDataSector := firstDataSector, dataSectors := dataSectors
            totalClusters := dataSectors / sectorsPerCluster, fatStartSector := reservedSectors
            fatSizeSectors := fatSize, sectorsPerCluster := sectorsPerCluster
            bytesPerSector := 512, rootCluster := load boot 0x2C 4 },
          { disk := disk, fat := diskRead disk reservedSectors (fun _ => 0#8) fatSize })

/-- The bytes of a cluster. -/
def Fs.clusterSize (fs : Fs) : ℕ := fs.sectorsPerCluster * 512

/-- A cluster as `disk_read` leaves it in the buffer. -/
def readCluster (fs : Fs) (v : Vol) (cluster : ℕ) : Mem :=
  diskRead v.disk (clusterToLba fs cluster) (fun _ => 0#8) fs.sectorsPerCluster

def writeCluster (fs : Fs) (v : Vol) (cluster : ℕ) (buf : Mem) : Vol :=
  { v with disk := diskWrite v.disk (clusterToLba fs cluster) buf fs.sectorsPerCluster }

def fat32Flush (fs : Fs) (v : Vol) : Vol :=
  if fs.fatSizeSectors = 0 then v
  else { v with disk := diskWrite v.disk fs.fatStartSector v.fat fs.fatSizeSectors }

/-! ### Directory entries

Entry `i` of a cluster starts at byte `32*i` of the buffer. -/

def entName (buf : Mem) (i : ℕ) : List Byte := (List.range 11).map (fun j => buf (32*i + j))

def entAttr (buf : Mem) (i : ℕ) : ℕ := (buf (32*i + 11)).toNat

/-- `first_cluster_low | first_cluster_high << 16` -/
def entCluster (buf : Mem) (i : ℕ) : ℕ :=
  load buf (32*i + 26) 2 ||| load buf (32*i + 20) 2 <<< 16

def entSize (buf : Mem) (i : ℕ) : ℕ := load buf (32*i + 28) 4

/-- `(sectors_per_cluster * 512) / sizeof(fat32_dir_entry_t)` -/
def Fs.entryCount (fs : Fs) : ℕ := fs.clusterSize / 32

/-- The comparison of `fat32_open` and `fat32_delete`. -/
def nameMatches (target : List Byte) (buf : Mem) (i : ℕ) : Bool :=
  (entName buf i).map upper == target

/-- The inner loop of the functions that look for an entry: the first one from `i` on that is not
free and not part of a long name, and meets `p`; an entry that starts with 0 ends the loop. -/
def scanLive (p : Mem → ℕ → Bool) (buf : Mem) (i : ℕ) : ℕ → Option ℕ
  | 0 => none
  | n+1 =>
    if buf (32*i) = 0#8 then none
    else if buf (32*i) = 0xE5#8 then scanLive p buf (i+1) n
    else if entAttr buf i = 0x0F then scanLive p buf (i+1) n
    else if p buf i then some i
    else scanLive p buf (i+1) n

/-- The inner loop of `fat32_create_file`. -/
def scanFree (buf : Mem) (i : ℕ) : ℕ → Option ℕ
  | 0 => none
  | n+1 => if buf (32*i) = 0#8 ∨ buf (32*i) = 0xE5#8 then some i else scanFree buf (i+1) n

/-- The outer loop: the first cluster in the chain of the directory where `scan` finds an entry.
The loop never ends when it goes on for longer than there are clusters. -/
def walkDir (fs : Fs) (v : Vol) (scan : Mem → Option ℕ) : ℕ → ℕ → Option (Option (ℕ × ℕ))
  | 0, cluster => if cluster < fatEof ∧ 2 ≤ cluster then none else some none
  | n+1, cluster =>
    if cluster < fatEof ∧ 2 ≤ cluster then
      match scan (readCluster fs v cluster) with
      | some i => some (some (cluster, i))
      | none => walkDir fs v scan n (fatNextCluster fs v cluster)
    else some none

def walkRoot (fs : Fs) (v : Vol) (scan : Mem → Option ℕ) : Option (Option (ℕ × ℕ)) :=
  walkDir fs v scan (fs.totalClusters + 2) fs.rootCluster

/-- The entry that a loop over the root directory with the test `p` stops at. -/
def findEntry (fs : Fs) (v : Vol) (p : Mem → ℕ → Bool) : Option (Option (ℕ × ℕ)) :=
  walkRoot fs v (fun buf => scanLive p buf 0 fs.entryCount)

/-! ### Files -/

structure File where
  startCluster : ℕ
  currentCluster : ℕ
  size : ℕ
  offset : ℕ
deriving DecidableEq, Repr

/-- The inner `none` is the result -1. -/
def fat32Open (fs : Fs) (v : Vol) (filename : List Byte) : Option (Option File) := do
  match ← findEntry fs v (nameMatches (toShort filename)) with
  | none => some none
  | some (c, i) =>
    let buf := readCluster fs v c
    some (some { startCluster := entCluster buf i, currentCluster := entCluster buf i
                 size := entSize buf i, offset := 0 })

/-- A `uint32_t` returned as an `int`. -/
def toInt32 (n : ℕ) : ℤ := if n % 2^32 < 2^31 then n % 2^32 else (n % 2^32 : ℕ) - 2^32

structure ReadOut where
  bytes : List Byte
  lbas : List ℕ
  cluster : ℕ
  offset : ℕ

/-- The loop of `fat32_read`. Each turn moves at least one byte. -/
def readLoop (fs : Fs) (v : Vol) : ℕ → ℕ → ℕ → ℕ → ReadOut
  | 0, _, cluster, offset => ⟨[], [], cluster, offset⟩
  | n+1, remain, cluster, offset =>
    if remain ≠ 0 ∧ cluster < fatEof ∧ 2 ≤ cluster then
      let lba := (clusterToLba fs cluster + offset/512) % 2^32
      let temp := ideReadSector v.disk lba
      let chunk := if 512 - offset % 512 < remain then 512 - offset % 512 else remain
      let offset' := (offset + chunk) % 2^32
      -- at the end of a cluster the next one is looked up, also when nothing remains
      let r := if fs.clusterSize ≤ offset' then
          readLoop fs v n (remain - chunk) (fatNextCluster fs v cluster) 0
        else readLoop fs v n (remain - chunk) cluster offset'
      { bytes := (List.range chunk).map (fun i => temp (offset % 512 + i)) ++ r.bytes
        lbas := lba :: r.lbas, cluster := r.cluster, offset := r.offset }
    else ⟨[], [], cluster, offset⟩

structure ReadResult where
  ret : ℤ
  bytes : List Byte
  lbas : List ℕ
  file : File

def fat32Read (fs : Fs) (v : Vol) (file : File) (size : ℕ) : ReadResult :=
  let r := readLoop fs v size size file.currentCluster file.offset
  { ret := toInt32 r.bytes.length, bytes := r.bytes, lbas := r.lbas
    file := { file with currentCluster := r.cluster, offset := r.offset } }

/-- The part of the loop of `fat32_write` for `offset >= clu_size`: the next cluster, appended when
the chain ends here; `none` when no cluster is free. -/
def nextForWrite (fs : Fs) (v : Vol) (cluster : ℕ) : Option (Vol × ℕ) :=
  let next := fatNextCluster fs v cluster
  if fatEof ≤ next then
    let free := findFreeCluster fs v
    if free = 0 then none else some ((v.fatSet cluster free).fatSet free fatEof, free)
  else some (v, next)

structure WriteOut where
  vol : Vol
  lbas : List ℕ
  ok : Bool
  cluster : ℕ
  offset : ℕ

/-- The loop of `fat32_write`. -/
def writeLoop (fs : Fs) : ℕ → Vol → List Byte → ℕ → ℕ → WriteOut
  | 0, v, _, cluster, offset => ⟨v, [], true, cluster, offset⟩
  | n+1, v, src, cluster, offset =>
    if src = [] then ⟨v, [], true, cluster, offset⟩
    else
      match (if fs.clusterSize ≤ offset then
          (nextForWrite fs v cluster).map (fun r => (r.1, r.2, 0)) else some (v, cluster, offset))
            with
      | none => ⟨v, [], false, cluster, offset⟩
      | some (v1, cluster1, offset1) =>
        let lba := (clusterToLba fs cluster1 + offset1/512) % 2^32
        let byteOff := offset1 % 512
        let chunk := if 512 - byteOff < src.length then 512 - byteOff else src.length
        -- the sector is read, changed in the buffer and written back
        let temp := ideReadSector v1.disk lba
        let temp' : Mem := fun o =>
          if byteOff ≤ o ∧ o < byteOff + chunk then src.getD (o - byteOff) 0#8 else temp o
        let r := writeLoop fs n { v1 with disk := ideWriteSector v1.disk lba temp' }
          (src.drop chunk) cluster1 ((offset1 + chunk) % 2^32)
        { r with lbas := lba :: r.lbas }

structure WriteResult where
  vol : Vol
  ret : ℤ
  lbas : List ℕ
  file : File

def fat32Write (fs : Fs) (v : Vol) (file : File) (src : List Byte) : WriteResult :=
  let r := writeLoop fs src.length v src file.currentCluster file.offset
  if r.ok then
    { vol := r.vol, ret := toInt32 src.length, lbas := r.lbas
      file := { file with
        currentCluster := r.cluster, offset := r.offset
        size := if file.size < r.offset then r.offset else file.size } }
  else { vol := r.vol, ret := -1, lbas := r.lbas, file := file }

/-- The loop of `fat32_seek`. -/
def seekLoop (fs : Fs) (v : Vol) : ℕ → ℕ → ℕ → ℕ × ℕ
  | 0, remaining, cluster => (remaining, cluster)
  | n+1, remaining, cluster =>
    if fs.sectorsPerCluster * fs.bytesPerSector ≤ remaining then
      let next := fatNextCluster fs v cluster
      -- at the end of the chain the offset stays behind the last cluster
      if fatEof ≤ next then (remaining, cluster)
      else seekLoop fs v n (remaining - fs.sectorsPerCluster * fs.bytesPerSector) next
    else (remaining, cluster)

def fat32Seek (fs : Fs) (v : Vol) (file : File) (offset : ℕ) : File :=
  let offset := if file.size < offset then file.size else offset
  let r := seekLoop fs v offset offset file.startCluster
  { file with currentCluster := r.2, offset := r.1 }

/-- What `rtc_to_fat_time` and `rtc_to_fat_date` make of the clock. -/
structure Stamp where
  time : ℕ
  date : ℕ
deriving DecidableEq, Repr

/-! ### Changing the directory -/

/-- The changes of `fat32_update_dir_entry` to the entry `i`. -/
def putSize (buf : Mem) (i size : ℕ) (now : Stamp) : Mem :=
  store (store (store buf (32*i + 28) 4 size) (32*i + 22) 2 now.time) (32*i + 24) 2 now.date

/-- The result of the function is not used. -/
def fat32UpdateDirEntry (fs : Fs) (v : Vol) (file : File) (now : Stamp) : Option Vol := do
  -- the entry is found by the first cluster, not by the name
  match ← findEntry fs v (fun buf i => entCluster buf i == file.startCluster) with
  | none => some v
  | some (c, i) => some (writeCluster fs v c (putSize (readCluster fs v c) i file.size now))

def fat32Close (fs : Fs) (v : Vol) (file : File) (now : Stamp) : Option Vol := do
  let v ← fat32UpdateDirEntry fs v file now
  some (fat32Flush fs v)

def storeBytes (m : Mem) (a : ℕ) : List Byte → Mem
  | [] => m
  | b::bs => storeBytes (Function.update m a b) (a+1) bs

/-- The entry that `fat32_create_file` makes; the other fields keep what they held. -/
def putNew (buf : Mem) (i : ℕ) (target : List Byte) (newClu : ℕ) (now : Stamp) : Mem :=
  let b1 := storeBytes buf (32*i) target
  let b2 := store b1 (32*i + 11) 1 0x20
  let b3 := store b2 (32*i + 26) 2 (newClu &&& 0xFFFF)
  let b4 := store b3 (32*i + 20) 2 (newClu >>> 16)
  let b5 := store b4 (32*i + 14) 2 now.time
  let b6 := store b5 (32*i + 16) 2 now.date
  let b7 := store b6 (32*i + 22) 2 now.time
  let b8 := store b7 (32*i + 24) 2 now.date
  store b8 (32*i + 28) 4 0

/-- The inner `none` is the result -1, which leaves the volume as it is. -/
def fat32CreateFile (fs : Fs) (v : Vol) (filename : List Byte) (now : Stamp) :
    Option (Option (Vol × File)) := do
  match ← walkRoot fs v (fun buf => scanFree buf 0 fs.entryCount) with
  | none => some none
  | some (c, i) =>
    let newClu := findFreeCluster fs v
    if newClu = 0 then some none
    else
      -- the FAT and the directory are written at the end, by the flush and the write of the cluster
      let v1 := v.fatSet newClu fatEof
      let buf := putNew (readCluster fs v c) i (toShort filename) newClu now
      some (some (fat32Flush fs (writeCluster fs v1 c buf),
        { startCluster := newClu, currentCluster := newClu, size := 0, offset := 0 }))

/-- The loop of `fat32_free_cluster_chain`. A cluster number has 28 bits and is cleared at most
once, for the walk ends at a cleared entry. -/
def freeChainFrom (v : Vol) : ℕ → ℕ → Vol
  | 0, _ => v
  | n+1, cluster =>
    if 2 ≤ cluster ∧ cluster < fatEof then
      let next := v.fatGet cluster &&& 0x0FFFFFFF
      if fatEof ≤ next then v.fatSet cluster 0 else freeChainFrom (v.fatSet cluster 0) n next
    else v

def fat32FreeClusterChain (v : Vol) (startCluster : ℕ) : Vol := freeChainFrom v (2^28) startCluster

/-- The inner `none` is the result -1, which leaves the volume as it is. -/
def fat32Delete (fs : Fs) (v : Vol) (filename : List Byte) : Option (Option Vol) := do
  match ← findEntry fs v (nameMatches (toShort filename)) with
  | none => some none
  | some (c, i) =>
    let buf := readCluster fs v c
    -- the first byte of the entry is all of it that changes
    let v1 := writeCluster fs v c (Function.update buf (32*i) 0xE5#8)
    let v2 := if entCluster buf i ≠ 0 then fat32FreeClusterChain v1 (entCluster buf i) else v1
    some (some (fat32Flush fs v2))

end SukiOS.Fat32

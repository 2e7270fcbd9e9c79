import SukiOS.Fat32File

/-! The file functions of `fat32.c` over any disk that is read and written by sector: the disk of
bytes behind `ide.c`, or an array of sectors. -/
namespace SukiOS.Fat32
open ByteMemory LinkedChain

/-! ### Disks of sectors -/

/-- `ide_read_sector` and `ide_write_sector` on disks of the type `D`. -/
structure SectorDev (D : Type) where
  read : D → ℕ → Mem
  write : D → ℕ → Mem → D

/-- The disk of bytes, of which `ide.c` addresses 2^28 sectors. -/
def byteDev : SectorDev Mem where
  read := ideReadSector
  write := ideWriteSector

/-- An array of sectors, addressed by the whole `lba`. -/
def arrayDev : SectorDev (ℕ → Mem) where
  read disk lba := disk lba
  write disk lba buf := Function.update disk lba buf

/-- A disk and the cached FAT. -/
structure VolOn (D : Type) where
  disk : D
  fat : Mem

/-- What the functions that look at the cached FAT alone see. -/
def VolOn.cached {D : Type} (v : VolOn D) : Vol := { disk := fun _ => 0#8, fat := v.fat }

def Vol.on (v : Vol) : VolOn Mem := { disk := v.disk, fat := v.fat }

/-! ### Reading and writing -/

variable {D : Type}

/-- The loop of `fat32_read`. -/
def readLoopOn (io : SectorDev D) (fs : Fs) (v : VolOn D) : ℕ → ℕ → ℕ → ℕ → ReadOut
  | 0, _, cluster, offset => ⟨[], [], cluster, offset⟩
  | n+1, remain, cluster, offset =>
    if remain ≠ 0 ∧ cluster < fatEof ∧ 2 ≤ cluster then
      let lba := (clusterToLba fs cluster + offset/512) % 2^32
      let temp := io.read v.disk lba
      let chunk := if 512 - offset % 512 < remain then 512 - offset % 512 else remain
      let offset' := (offset + chunk) % 2^32
      let r := if fs.clusterSize ≤ offset' then
          readLoopOn io fs v n (remain - chunk) (fatNextCluster fs v.cached cluster) 0
        else readLoopOn io fs v n (remain - chunk) cluster offset'
      { bytes := (List.range chunk).map (fun i => temp (offset % 512 + i)) ++ r.bytes
        lbas := lba :: r.lbas, cluster := r.cluster, offset := r.offset }
    else ⟨[], [], cluster, offset⟩

structure WriteOutOn (D : Type) where
  vol : VolOn D
  lbas : List ℕ
  ok : Bool
  cluster : ℕ
  offset : ℕ

/-- The loop of `fat32_write`. -/
def writeLoopOn (io : SectorDev D) (fs : Fs) : ℕ → VolOn D → List Byte → ℕ → ℕ → WriteOutOn D
  | 0, v, _, cluster, offset => ⟨v, [], true, cluster, offset⟩
  | n+1, v, src, cluster, offset =>
    if src = [] then ⟨v, [], true, cluster, offset⟩
    else
      match (if fs.clusterSize ≤ offset then
          (nextForWrite fs v.cached cluster).map (fun r => ({ v with fat := r.1.fat }, r.2, 0))
        else some (v, cluster, offset)) with
      | none => ⟨v, [], false, cluster, offset⟩
      | some (v1, cluster1, offset1) =>
        let lba := (clusterToLba fs cluster1 + offset1/512) % 2^32
        let byteOff := offset1 % 512
        let chunk := if 512 - byteOff < src.length then 512 - byteOff else src.length
        let temp := io.read v1.disk lba
        let temp' : Mem := fun o =>
          if byteOff ≤ o ∧ o < byteOff + chunk then src.getD (o - byteOff) 0#8 else temp o
        let r := writeLoopOn io fs n { v1 with disk := io.write v1.disk lba temp' }
          (src.drop chunk) cluster1 ((offset1 + chunk) % 2^32)
        { r with lbas := lba :: r.lbas }

/-- A volume and a file that is open on it. -/
structure OpenFile (D : Type) where
  vol : VolOn D
  file : File

def OpenFile.seek (fs : Fs) (f : OpenFile D) (offset : ℕ) : OpenFile D :=
  { f with file := fat32Seek fs f.vol.cached f.file offset }

structure CallResult (D : Type) where
  ret : ℤ
  bytes : List Byte
  after : OpenFile D

/-- `fat32_read` -/
def OpenFile.read (io : SectorDev D) (fs : Fs) (f : OpenFile D) (size : ℕ) : CallResult D :=
  let r := readLoopOn io fs f.vol size size f.file.currentCluster f.file.offset
  { ret := toInt32 r.bytes.length, bytes := r.bytes
    after := { f with file := { f.file with currentCluster := r.cluster, offset := r.offset } } }

/-- `fat32_write` -/
def OpenFile.write (io : SectorDev D) (fs : Fs) (f : OpenFile D) (src : List Byte) : CallResult D :=
  let r := writeLoopOn io fs src.length f.vol src f.file.currentCluster f.file.offset
  if r.ok then
    { ret := toInt32 src.length, bytes := []
      after := { vol := r.vol, file := { f.file with
        currentCluster := r.cluster, offset := r.offset
        size := if f.file.size < r.offset then r.offset else f.file.size } } }
  else { ret := -1, bytes := [], after := { vol := r.vol, file := f.file } }

/-- Calls of `fat32_read` one after the other: what they return, the bytes, and the file after. -/
def OpenFile.readAll (io : SectorDev D) (fs : Fs) (f : OpenFile D) :
    List ℕ → List ℤ × List Byte × OpenFile D
  | [] => ([], [], f)
  | n::ns =>
    let r := f.read io fs n
    let rs := r.after.readAll io fs ns
    (r.ret :: rs.1, r.bytes ++ rs.2.1, rs.2.2)

/-! ### The driver over the disk of bytes -/

section Bytes
variable {fs : Fs} {v : Vol}

theorem fatNextCluster_cached (c : ℕ) :
    fatNextCluster fs v.on.cached c = fatNextCluster fs v c := fatNextCluster_congr rfl

theorem findFreeFrom_cached (n : ℕ) : ∀ i, findFreeFrom v.on.cached i n = findFreeFrom v i n := by
  induction n with
  | zero => exact fun _ => rfl
  | succ n ih =>
    intro i
    have hget : v.on.cached.fatGet i = v.fatGet i := rfl
    unfold findFreeFrom
    rw [hget, ih (i+1)]

theorem findFreeCluster_cached : findFreeCluster fs v.on.cached = findFreeCluster fs v :=
  findFreeFrom_cached _ 2

/-- The next cluster for a write, as the loop over any disk finds it. -/
theorem nextForWrite_cached (c : ℕ) :
    (nextForWrite fs v.on.cached c).map (fun r =>
      (({ v.on with fat := r.1.fat } : VolOn Mem), r.2, 0)) =
      (nextForWrite fs v c).map (fun r => (r.1.on, r.2, 0)) := by
  unfold nextForWrite
  dsimp only
  rw [fatNextCluster_cached, findFreeCluster_cached]
  by_cases hend : fatEof ≤ fatNextCluster fs v c
  · rw [if_pos hend, if_pos hend]
    by_cases h0 : findFreeCluster fs v = 0
    · rw [if_pos h0, if_pos h0]
      rfl
    · rw [if_neg h0, if_neg h0]
      rfl
  · rw [if_neg hend, if_neg hend]
    rfl

theorem readLoopOn_byteDev (n : ℕ) : ∀ remain c o,
    readLoopOn byteDev fs v.on n remain c o = readLoop fs v n remain c o := by
  induction n with
  | zero => exact fun _ _ _ => rfl
  | succ n ih =>
    intro remain c o
    unfold readLoopOn readLoop
    dsimp only
    rw [fatNextCluster_cached]
    simp only [ih]
    rfl

theorem writeLoopOn_byteDev (n : ℕ) : ∀ (v : Vol) src c o,
    writeLoopOn byteDev fs n v.on src c o =
      ⟨(writeLoop fs n v src c o).vol.on, (writeLoop fs n v src c o).lbas,
        (writeLoop fs n v src c o).ok, (writeLoop fs n v src c o).cluster,
        (writeLoop fs n v src c o).offset⟩ := by
  induction n with
  | zero => exact fun _ _ _ _ => rfl
  | succ n ih =>
    intro v src c o
    unfold writeLoopOn writeLoop
    by_cases hsrc : src = []
    · rw [if_pos hsrc, if_pos hsrc]
    rw [if_neg hsrc, if_neg hsrc, nextForWrite_cached]
    -- both loops begin a turn in the same cluster
    have hstart : (if fs.clusterSize ≤ o then
          (nextForWrite fs v c).map (fun r => (r.1.on, r.2, 0)) else some (v.on, c, o)) =
        (if fs.clusterSize ≤ o then (nextForWrite fs v c).map (fun r => (r.1, r.2, 0))
          else some (v, c, o)).map (fun r => (r.1.on, r.2)) := by
      by_cases hge : fs.clusterSize ≤ o
      · rw [if_pos hge, if_pos hge, Option.map_map]
        rfl
      · rw [if_neg hge, if_neg hge]
        rfl
    rw [hstart]
    cases (if fs.clusterSize ≤ o then (nextForWrite fs v c).map (fun r => (r.1, r.2, 0))
        else some (v, c, o)) with
    | none => rfl
    | some r =>
      obtain ⟨v1, c1, o1⟩ := r
      have hwrite : ∀ lba buf, ({ v1.on with disk := byteDev.write v1.on.disk lba buf } : VolOn Mem)
        =
        Vol.on { v1 with disk := ideWriteSector v1.disk lba buf } := fun _ _ => rfl
      dsimp only [Option.map_some]
      rw [hwrite, ih]
      rfl

/-- Over the disk of bytes the calls are those of the driver. -/
theorem openFile_byteDev (file : File) (size : ℕ) (src : List Byte) (offset : ℕ) :
    ((⟨v.on, file⟩ : OpenFile Mem).seek fs offset).file = fat32Seek fs v file offset ∧
    ((⟨v.on, file⟩ : OpenFile Mem).read byteDev fs size).bytes = (fat32Read fs v file size).bytes ∧
    ((⟨v.on, file⟩ : OpenFile Mem).write byteDev fs src).after =
      ⟨(fat32Write fs v file src).vol.on, (fat32Write fs v file src).file⟩ := by
  refine ⟨?_, ?_, ?_⟩
  · -- a seek reads the cached table only
    have hloop : ∀ n r c, seekLoop fs v.on.cached n r c = seekLoop fs v n r c := by
      intro n
      induction n with
      | zero => exact fun _ _ => rfl
      | succ n ih =>
        intro r c
        unfold seekLoop
        dsimp only
        rw [fatNextCluster_cached, ih]
    unfold OpenFile.seek fat32Seek
    dsimp only
    rw [hloop]
  · unfold OpenFile.read fat32Read
    dsimp only
    rw [readLoopOn_byteDev]
  · unfold OpenFile.write fat32Write
    dsimp only
    rw [writeLoopOn_byteDev]
    by_cases hok : (writeLoop fs src.length v src file.currentCluster file.offset).ok = true
    · rw [if_pos hok, if_pos hok]
    · rw [if_neg hok, if_neg hok]

end Bytes

end SukiOS.Fat32

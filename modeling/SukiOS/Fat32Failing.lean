import SukiOS.Fat32Ops
import SukiOS.Lib.Transfers

/-! `fat32.c` on a disk whose transfers fail: what a write that stops at a failing transfer leaves
on the disk, and what a search of the directory finds. `ide_write_sector` fails before it sends the
data, or when the drive does not confirm them. -/
namespace SukiOS.Fat32
open ByteMemory LinkedChain Transfers

/-! ### Transfers -/

/-- `disk_read` after `t` transfers: the buffer, the number of transfers, and whether it returns
0. -/
def diskReadUnder (fate : ℕ → Fate) (t : ℕ) (disk : Mem) (lba : ℕ) (buf : Mem) : ℕ → Mem × ℕ × Bool
  | 0 => (buf, t, true)
  | i+1 =>
    let r := diskReadUnder fate t disk lba buf i
    if r.2.2 then
      if fate r.2.1 = .done then
        (fun o => if o / 512 = i then ideReadSector disk ((lba + i) % 2^32) (o % 512) else r.1 o,
          r.2.1 + 1, true)
      else (r.1, r.2.1 + 1, false)
    else r

/-- `disk_write` after `t` transfers: the disk, the number of transfers, and whether it returns
0. -/
def diskWriteUnder (fate : ℕ → Fate) (t : ℕ) (disk : Mem) (lba : ℕ) (buf : Mem) : ℕ → Mem × ℕ × Bool
  | 0 => (disk, t, true)
  | i+1 =>
    let r := diskWriteUnder fate t disk lba buf i
    let written := ideWriteSector r.1 ((lba + i) % 2^32) (fun o => buf (i*512 + o))
    if r.2.2 then
      match fate r.2.1 with
      | .done => (written, r.2.1 + 1, true)
      | .lost => (r.1, r.2.1 + 1, false)
      | .unconfirmed => (written, r.2.1 + 1, false)
    else r

def readClusterUnder (fate : ℕ → Fate) (t : ℕ) (fs : Fs) (v : Vol) (cluster : ℕ) :
    Mem × ℕ × Bool :=
  diskReadUnder fate t v.disk (clusterToLba fs cluster) (fun _ => 0#8) fs.sectorsPerCluster

def writeClusterUnder (fate : ℕ → Fate) (t : ℕ) (fs : Fs) (v : Vol) (cluster : ℕ) (buf : Mem) :
    Vol × ℕ × Bool :=
  let r := diskWriteUnder fate t v.disk (clusterToLba fs cluster) buf fs.sectorsPerCluster
  ({ v with disk := r.1 }, r.2)

/-- The result of `disk_write` is not used. -/
def fat32FlushUnder (fate : ℕ → Fate) (t : ℕ) (fs : Fs) (v : Vol) : Vol :=
  if fs.fatSizeSectors = 0 then v
  else { v with disk := (diskWriteUnder fate t v.disk fs.fatStartSector v.fat fs.fatSizeSectors).1 }

/-! ### The operations -/

/-- The outer loop of a search: the cluster, the entry and the buffer, if it finds one, and the
number of transfers; a cluster that cannot be read ends it. -/
def walkDirUnder (fate : ℕ → Fate) (fs : Fs) (v : Vol) (scan : Mem → Option ℕ) :
    ℕ → ℕ → ℕ → Option (Option (ℕ × ℕ × Mem) × ℕ)
  | 0, cluster, t => if cluster < fatEof ∧ 2 ≤ cluster then none else some (none, t)
  | n+1, cluster, t =>
    if cluster < fatEof ∧ 2 ≤ cluster then
      let r := readClusterUnder fate t fs v cluster
      if r.2.2 then
        match scan r.1 with
        | some i => some (some (cluster, i, r.1), r.2.1)
        | none => walkDirUnder fate fs v scan n (fatNextCluster fs v cluster) r.2.1
      else some (none, r.2.1)
    else some (none, t)

def walkRootUnder (fate : ℕ → Fate) (fs : Fs) (v : Vol) (scan : Mem → Option ℕ) :
    Option (Option (ℕ × ℕ × Mem) × ℕ) :=
  walkDirUnder fate fs v scan (fs.totalClusters + 2) fs.rootCluster 0

/-- The volume and the result. -/
def fat32CreateFileUnder (fate : ℕ → Fate) (fs : Fs) (v : Vol) (filename : List Byte)
    (now : Stamp) :
    Option (Vol × ℤ) := do
  match ← walkRootUnder fate fs v (fun buf => scanFree buf 0 fs.entryCount) with
  | (none, _) => some (v, -1)
  | (some (c, i, buf), t) =>
    let newClu := findFreeCluster fs v
    if newClu = 0 then some (v, -1)
    else
      let v1 := v.fatSet newClu fatEof
      -- neither the result of this write nor that of the flush is looked at
      let r := writeClusterUnder fate t fs v1 c (putNew buf i (toShort filename) newClu now)
      some (fat32FlushUnder fate r.2.1 fs r.1, 0)

/-- The volume and the result. -/
def fat32DeleteUnder (fate : ℕ → Fate) (fs : Fs) (v : Vol) (filename : List Byte) :
    Option (Vol × ℤ) := do
  match ← walkRootUnder fate fs v
      (fun buf => scanLive (nameMatches (toShort filename)) buf 0 fs.entryCount) with
  | (none, _) => some (v, -1)
  | (some (c, i, buf), t) =>
    let r := writeClusterUnder fate t fs v c (Function.update buf (32*i) 0xE5#8)
    if r.2.2 then
      let v2 := if entCluster buf i ≠ 0 then fat32FreeClusterChain r.1 (entCluster buf i) else r.1
      some (fat32FlushUnder fate r.2.1 fs v2, 0)
    else some (r.1, -1)

/-- A call of `fat32_write` between two turns of its loop. -/
structure Writing where
  vol : Vol
  transfers : ℕ
  src : List Byte
  cluster : ℕ
  offset : ℕ

/-- The part of a turn for `offset >= clu_size`. -/
def Writing.locate (fs : Fs) (s : Writing) : Option Writing :=
  if fs.clusterSize ≤ s.offset then
    (nextForWrite fs s.vol s.cluster).map (fun r =>
      { s with vol := r.1, cluster := r.2, offset := 0 })
  else some s

/-- The sector and the bytes in it that a turn writes. -/
def Writing.lba (fs : Fs) (s : Writing) : ℕ := (clusterToLba fs s.cluster + s.offset/512) % 2^32

def Writing.chunk (s : Writing) : ℕ :=
  if 512 - s.offset % 512 < s.src.length then 512 - s.offset % 512 else s.src.length

/-- The sector as it is written back. -/
def Writing.sector (fs : Fs) (s : Writing) : Mem := fun o =>
  if s.offset % 512 ≤ o ∧ o < s.offset % 512 + s.chunk
  then s.src.getD (o - s.offset % 512) 0#8 else ideReadSector s.vol.disk (s.lba fs) o

/-- The volume with the sector written back. -/
def Writing.put (fs : Fs) (s : Writing) : Vol :=
  { s.vol with disk := ideWriteSector s.vol.disk (s.lba fs) (s.sector fs) }

/-- The rest of a turn, and whether it goes on. -/
def Writing.transfer (fate : ℕ → Fate) (fs : Fs) (s : Writing) : Writing × Bool :=
  if fate s.transfers = .done then
    match fate (s.transfers + 1) with
    | .done => ({ s with
        vol := s.put fs, transfers := s.transfers + 2, src := s.src.drop s.chunk
        offset := (s.offset + s.chunk) % 2^32 }, true)
    | .lost => ({ s with transfers := s.transfers + 2 }, false)
    | .unconfirmed => ({ s with vol := s.put fs, transfers := s.transfers + 2 }, false)
  else ({ s with transfers := s.transfers + 1 }, false)

/-- The loop of `fat32_write`. -/
def writeLoopUnder (fate : ℕ → Fate) (fs : Fs) : ℕ → Writing → Writing × Bool
  | 0, s => (s, true)
  | n+1, s =>
    if s.src = [] then (s, true)
    else
      match s.locate fs with
      | none => (s, false)
      | some s1 =>
        let r := s1.transfer fate fs
        if r.2 then writeLoopUnder fate fs n r.1 else r

structure WriteUnderResult where
  vol : Vol
  ret : ℤ
  file : File

def fat32WriteUnder (fate : ℕ → Fate) (fs : Fs) (v : Vol) (file : File) (src : List Byte) :
    WriteUnderResult :=
  let r := writeLoopUnder fate fs src.length ⟨v, 0, src, file.currentCluster, file.offset⟩
  if r.2 then
    { vol := r.1.vol, ret := toInt32 src.length
      file := { file with
        currentCluster := r.1.cluster, offset := r.1.offset
        size := if file.size < r.1.offset then r.1.offset else file.size } }
  else { vol := r.1.vol, ret := -1, file := file }

/-! ### A write that stops -/

section Transfers
variable {fate : ℕ → Fate} {t n m k lba a : ℕ} {disk buf : Mem}

theorem diskReadUnder_spec (fate : ℕ → Fate) (t : ℕ) (disk : Mem) (lba : ℕ) (buf : Mem) (n : ℕ) :
    ((diskReadUnder fate t disk lba buf n).2.2 = true ↔ AllDone fate t n) ∧
    (AllDone fate t n →
      diskReadUnder fate t disk lba buf n = (diskRead disk lba buf n, t+n, true)) := by
  induction n with
  | zero => exact ⟨⟨fun _ => AllDone.zero, fun _ => Eq.refl _⟩, fun _ => Eq.refl _⟩
  | succ n ih =>
    rw [allDone_succ]
    unfold diskReadUnder
    dsimp only
    by_cases hn : AllDone fate t n
    · rw [ih.2 hn]
      rw [if_pos (Eq.refl true)]
      by_cases hd : fate (t+n) = .done
      · rw [if_pos hd]
        exact ⟨⟨fun _ => ⟨hn, hd⟩, fun _ => Eq.refl _⟩, fun _ => Eq.refl _⟩
      · rw [if_neg hd]
        exact ⟨⟨fun h => absurd h Bool.false_ne_true, fun h => absurd h.2 hd⟩, fun h =>
          absurd h.2 hd⟩
    · have hfail : ¬ (diskReadUnder fate t disk lba buf n).2.2 = true := fun h => hn (ih.1.mp h)
      rw [if_neg hfail]
      exact ⟨⟨fun h => absurd h hfail, fun h => absurd h.1 hn⟩, fun h => absurd h.1 hn⟩

/-- How many transfers a write makes, and when it returns 0. -/
theorem diskWriteUnder_count (fate : ℕ → Fate) (t : ℕ) (disk : Mem) (lba : ℕ) (buf : Mem) (n : ℕ) :
    ((diskWriteUnder fate t disk lba buf n).2.2 = true ↔ AllDone fate t n) ∧
    (diskWriteUnder fate t disk lba buf n).2.1 = t + attempts fate t n := by
  induction n with
  | zero => exact ⟨⟨fun _ => AllDone.zero, fun _ => Eq.refl _⟩, Eq.refl _⟩
  | succ n ih =>
    rw [allDone_succ]
    unfold diskWriteUnder attempts
    dsimp only
    by_cases hn : AllDone fate t n
    · rw [if_pos (ih.1.mpr hn), if_pos hn, ih.2, attempts_of_done hn]
      cases hd : fate (t+n) with
      | done => exact ⟨⟨fun _ => ⟨hn, Eq.refl _⟩, fun _ => Eq.refl _⟩, Eq.refl _⟩
      | lost => exact ⟨⟨fun h => absurd h Bool.false_ne_true, fun h => absurd h.2 (by decide)⟩,
          Eq.refl _⟩
      | unconfirmed =>
        exact ⟨⟨fun h => absurd h Bool.false_ne_true, fun h => absurd h.2 (by decide)⟩, Eq.refl _⟩
    · have hfail : ¬ (diskWriteUnder fate t disk lba buf n).2.2 = true := fun h => hn (ih.1.mp h)
      rw [if_neg hfail, if_neg hn]
      exact ⟨⟨fun h => absurd h hfail, fun h => absurd h.1 hn⟩, ih.2⟩

/-- A write that does not fail is the write of `fat32.c`. -/
theorem diskWriteUnder_of_done (h : AllDone fate t n) :
    diskWriteUnder fate t disk lba buf n = (diskWrite disk lba buf n, t+n, true) := by
  induction n with
  | zero => exact Eq.refl _
  | succ n ih =>
    have hn := allDone_succ.mp h
    unfold diskWriteUnder diskWrite
    rw [ih hn.1]
    dsimp only
    rw [if_pos (Eq.refl true), hn.2]
    exact Eq.refl _

/-- What one more sector does to the disk. -/
theorem diskWriteUnder_succ (fate : ℕ → Fate) (t : ℕ) (disk : Mem) (lba : ℕ) (buf : Mem) (n a : ℕ) :
    (diskWriteUnder fate t disk lba buf (n+1)).1 a =
      if a / 512 = (lba + n) % 2^32 % 2^28 ∧ Reaches fate t n then buf (n*512 + a % 512)
      else (diskWriteUnder fate t disk lba buf n).1 a := by
  have hcount := diskWriteUnder_count fate t disk lba buf n
  rw [diskWriteUnder]
  by_cases hn : AllDone fate t n
  · rw [if_pos (hcount.1.mpr hn), hcount.2, attempts_of_done hn]
    cases hd : fate (t+n) with
    | done =>
      have hr : Reaches fate t n := ⟨hn, by rw [hd]; decide⟩
      simp only [ideWriteSector, hr, and_true]
    | lost =>
      have hr : ¬ Reaches fate t n := fun h => h.2 hd
      rw [if_neg (fun h => hr h.2)]
    | unconfirmed =>
      have hr : Reaches fate t n := ⟨hn, by rw [hd]; decide⟩
      simp only [ideWriteSector, hr, and_true]
  · rw [if_neg (fun h => hn (hcount.1.mp h)), if_neg (fun h => hn h.2.1)]

theorem diskWriteUnder_off (h : ∀ i, i < n → a / 512 ≠ (lba + i) % 2^32 % 2^28) :
    (diskWriteUnder fate t disk lba buf n).1 a = disk a := by
  induction n with
  | zero => exact Eq.refl _
  | succ n ih =>
    rw [diskWriteUnder_succ, if_neg (fun hc => h n (Nat.lt_succ_self n) hc.1)]
    exact ih (fun i hi => h i (Nat.lt_succ_of_lt hi))

/-- A sector holds what was written, if it was reached. -/
theorem diskWriteUnder_on (hk : k < n) (ha : a / 512 = (lba + k) % 2^32 % 2^28)
    (hinj : ∀ j, j < n → (lba + j) % 2^32 % 2^28 = (lba + k) % 2^32 % 2^28 → j = k) :
    (diskWriteUnder fate t disk lba buf n).1 a =
      if Reaches fate t k then buf (k*512 + a % 512) else disk a := by
  induction n with
  | zero => exact absurd hk (Nat.not_lt_zero k)
  | succ n ih =>
    rw [diskWriteUnder_succ]
    by_cases hkn : k = n
    · subst hkn
      have hoff : (diskWriteUnder fate t disk lba buf k).1 a = disk a := by
        apply diskWriteUnder_off
        intro i hi heq
        have hik := hinj i (Nat.lt_succ_of_lt hi) (heq.symm.trans ha)
        omega
      rw [hoff]
      by_cases hr : Reaches fate t k
      · rw [if_pos ⟨ha, hr⟩, if_pos hr]
      · rw [if_neg (fun h => hr h.2), if_neg hr]
    · have hne : ¬ a / 512 = (lba + n) % 2^32 % 2^28 := by
        intro h
        have hnk := hinj n (Nat.lt_succ_self n) (h.symm.trans ha)
        exact hkn hnk.symm
      rw [if_neg (fun h => hne h.1)]
      exact ih (by omega) (fun j hj => hinj j (Nat.lt_succ_of_lt hj))

end Transfers

/-! ### Clusters and the FAT on the disk -/

/-- The FAT as a mount would read it. -/
def tableOnDisk (fs : Fs) (v : Vol) : Mem :=
  diskRead v.disk fs.fatStartSector (fun _ => 0#8) fs.fatSizeSectors

/-- A write of `buf` from transfer `t` on reaches each of `n` sectors in which `old` differs from
it. -/
def ReachesNew (fate : ℕ → Fate) (t : ℕ) (old buf : Mem) (n : ℕ) : Prop :=
  ∀ k, k < n → Reaches fate t k ∨ ∀ x, x < 512 → old (k*512 + x) = buf (k*512 + x)

section Cluster
variable {fate : ℕ → Fate} {fs : Fs} {v w u : Vol} {t t' c c' n o i : ℕ} {buf old : Mem}
  {root : List ℕ}

theorem reachesNew_iff : ReachesNew fate t old buf n ↔
    ∀ o, o < n * 512 → (if Reaches fate t (o/512) then buf o else old o) = buf o := by
  constructor
  · intro h o ho
    have hk := h (o/512) (by omega)
    by_cases hr : Reaches fate t (o/512)
    · rw [if_pos hr]
    · rw [if_neg hr]
      have hx := (hk.resolve_left hr) (o % 512) (Nat.mod_lt _ (by decide))
      rwa [show o/512*512 + o % 512 = o by omega] at hx
  · intro h k hk
    by_cases hr : Reaches fate t k
    · exact Or.inl hr
    · right
      intro x hx
      have ho := h (k*512 + x) (by omega)
      rwa [sector_div k x hx, if_neg hr] at ho

theorem readClusterUnder_of_done (h : AllDone fate t fs.sectorsPerCluster) :
    readClusterUnder fate t fs v c = (readCluster fs v c, t + fs.sectorsPerCluster, true) :=
  (diskReadUnder_spec fate t v.disk (clusterToLba fs c) (fun _ => 0#8) fs.sectorsPerCluster).2 h

theorem readClusterUnder_ok : (readClusterUnder fate t fs v c).2.2 = true ↔
    AllDone fate t fs.sectorsPerCluster :=
  (diskReadUnder_spec fate t v.disk (clusterToLba fs c) (fun _ => 0#8) fs.sectorsPerCluster).1

theorem writeClusterUnder_ok : (writeClusterUnder fate t fs v c buf).2.2 = true ↔
    AllDone fate t fs.sectorsPerCluster :=
  (diskWriteUnder_count fate t v.disk (clusterToLba fs c) buf fs.sectorsPerCluster).1

theorem writeClusterUnder_count : (writeClusterUnder fate t fs v c buf).2.1 =
    t + attempts fate t fs.sectorsPerCluster :=
  (diskWriteUnder_count fate t v.disk (clusterToLba fs c) buf fs.sectorsPerCluster).2

theorem readCluster_writeClusterUnder (hf : fs.Ok) (hc : fs.IsData c) (ho : o < fs.clusterSize) :
    readCluster fs (writeClusterUnder fate t fs v c buf).1 c o =
      if Reaches fate t (o/512) then buf o else readCluster fs v c o := by
  have hk := Fs.sector_lt ho
  have hx : o % 512 < 512 := Nat.mod_lt _ (by decide)
  rw [readCluster_apply, if_pos hk, readCluster_apply, if_pos hk]
  have hon : (writeClusterUnder fate t fs v c buf).1.disk (sectorOf fs c (o/512) * 512 + o % 512) =
      if Reaches fate t (o/512) then
        buf (o/512*512 + (sectorOf fs c (o/512) * 512 + o % 512) % 512)
      else v.disk (sectorOf fs c (o/512) * 512 + o % 512) :=
    diskWriteUnder_on hk (sector_div _ _ hx)
      (fun j hj he => (hf.apart.inj c c j (o/512) hc hc hj hk he).2)
  rw [hon]
  have hbyte : o/512*512 + (sectorOf fs c (o/512) * 512 + o % 512) % 512 = o := by omega
  rw [hbyte]

theorem readCluster_writeClusterUnder_other (hf : fs.Ok) (hc : fs.IsData c) (hc' : fs.IsData c')
    (hne : c' ≠ c) :
    readCluster fs (writeClusterUnder fate t fs v c buf).1 c' = readCluster fs v c' := by
  apply readCluster_congr
  intro k hk x hx
  apply diskWriteUnder_off
  intro i hi h
  rw [sector_div _ _ hx] at h
  exact hne (hf.apart.inj c' c k i hc' hc hk hi h).1

theorem tableOnDisk_apply (ho : o < fs.fatSizeSectors * 512) :
    tableOnDisk fs v o = v.disk (fatSector fs (o/512) * 512 + o % 512) := by
  unfold tableOnDisk
  rw [diskRead_apply, if_pos (by omega)]
  exact Eq.refl _

theorem table_writeClusterUnder (hf : fs.Ok) (hc : fs.IsData c) (ho : o < fs.fatSizeSectors * 512) :
    tableOnDisk fs (writeClusterUnder fate t fs v c buf).1 o = tableOnDisk fs v o := by
  rw [tableOnDisk_apply ho, tableOnDisk_apply ho]
  apply diskWriteUnder_off
  intro i hi h
  rw [sector_div _ _ (Nat.mod_lt _ (by decide))] at h
  exact hf.apart.fat c i (o/512) hc hi (by omega) h.symm

theorem fatSector_inj (hf : fs.Ok) {j j' : ℕ} (hj : j < fs.fatSizeSectors)
    (hj' : j' < fs.fatSizeSectors) (h : fatSector fs j' = fatSector fs j) : j' = j := by
  have hblock := hf.covers.block
  unfold heapMaxAlloc at hblock
  unfold fatSector at h
  omega

@[simp] theorem fat32FlushUnder_fat : (fat32FlushUnder fate t fs v).fat = v.fat := by
  unfold fat32FlushUnder
  split
  · exact Eq.refl _
  · exact Eq.refl _

theorem readCluster_flushUnder (hf : fs.Ok) (hc : fs.IsData c) :
    readCluster fs (fat32FlushUnder fate t fs v) c = readCluster fs v c := by
  unfold fat32FlushUnder
  by_cases h0 : fs.fatSizeSectors = 0
  · rw [if_pos h0]
  · rw [if_neg h0]
    apply readCluster_congr
    intro k hk x hx
    apply diskWriteUnder_off
    intro j hj h
    rw [sector_div _ _ hx] at h
    exact hf.apart.fat c k j hc hk hj h

theorem table_flushUnder (hf : fs.Ok) (ho : o < fs.fatSizeSectors * 512) :
    tableOnDisk fs (fat32FlushUnder fate t fs v) o =
      if Reaches fate t (o/512) then v.fat o else tableOnDisk fs v o := by
  have hj : o/512 < fs.fatSizeSectors := by omega
  have hx : o % 512 < 512 := Nat.mod_lt _ (by decide)
  rw [tableOnDisk_apply ho, tableOnDisk_apply ho]
  unfold fat32FlushUnder
  rw [if_neg (by omega)]
  have hon : (diskWriteUnder fate t v.disk fs.fatStartSector v.fat fs.fatSizeSectors).1
      (fatSector fs (o/512) * 512 + o % 512) =
      if Reaches fate t (o/512) then
        v.fat (o/512*512 + (fatSector fs (o/512) * 512 + o % 512) % 512)
      else v.disk (fatSector fs (o/512) * 512 + o % 512) :=
    diskWriteUnder_on hj (sector_div _ _ hx) (fun j hj' he => fatSector_inj hf hj hj' he)
  have hbyte : o/512*512 + (fatSector fs (o/512) * 512 + o % 512) % 512 = o := by omega
  rw [hbyte] at hon
  exact hon

/-! ### What the disk holds at the end -/

/-- The directory on the disk is that of `w`, and the FAT on the disk is the cached one. -/
structure OnDisk (fs : Fs) (root : List ℕ) (w u : Vol) : Prop where
  dir : ∀ c ∈ root, readCluster fs u c = readCluster fs w c
  table : ∀ o, o < fs.fatSizeSectors * 512 → tableOnDisk fs u o = u.fat o

theorem readCluster_behind (ho : fs.clusterSize ≤ o) : readCluster fs v c o = 0#8 := by
  rw [readCluster_apply, if_neg]
  unfold Fs.clusterSize at ho
  omega

/-- The directory and the FAT are on the disk exactly when each sector that changes was reached. -/
theorem onDisk_iff (hf : fs.Ok) (hroot : ∀ x ∈ root, fs.IsData x) (hc : c ∈ root)
    (hput : DirPut fs v w c buf) (hu : u.disk = (writeClusterUnder fate t fs v c buf).1.disk) :
    OnDisk fs root w (fat32FlushUnder fate t' fs u) ↔
      ReachesNew fate t (readCluster fs v c) buf fs.sectorsPerCluster ∧
      ReachesNew fate t' (tableOnDisk fs v) u.fat fs.fatSizeSectors := by
  have hd := hroot c hc
  have hcluster : ∀ o, o < fs.clusterSize → readCluster fs (fat32FlushUnder fate t' fs u) c o =
      if Reaches fate t (o/512) then buf o else readCluster fs v c o := by
    intro o ho
    rw [readCluster_flushUnder hf hd, readCluster_disk hu, readCluster_writeClusterUnder hf hd ho]
  have htable : ∀ o, o < fs.fatSizeSectors * 512 →
      tableOnDisk fs (fat32FlushUnder fate t' fs u) o =
        if Reaches fate t' (o/512) then u.fat o else tableOnDisk fs v o := by
    intro o ho
    have hsame : tableOnDisk fs u o = tableOnDisk fs v o := by
      calc tableOnDisk fs u o = tableOnDisk fs (writeClusterUnder fate t fs v c buf).1 o := by
            unfold tableOnDisk
            rw [hu]
        _ = tableOnDisk fs v o := table_writeClusterUnder hf hd ho
    rw [table_flushUnder hf ho, hsame]
  rw [reachesNew_iff, reachesNew_iff]
  constructor
  · intro h
    constructor
    · intro o ho
      rw [← hcluster o ho, h.dir c hc]
      exact hput.here hf hd ho
    · intro o ho
      rw [← htable o ho, h.table o ho]
      exact congrFun fat32FlushUnder_fat o
  · intro h
    constructor
    · intro x hx
      funext o
      by_cases hxc : x = c
      · subst hxc
        by_cases ho : o < fs.clusterSize
        · rw [hcluster o ho, hput.here hf hd ho]
          exact h.1 o ho
        · rw [readCluster_behind (by omega), readCluster_behind (by omega)]
      · have hxd := hroot x hx
        rw [readCluster_flushUnder hf hxd, readCluster_disk hu,
          readCluster_writeClusterUnder_other hf hd hxd hxc, hput.away hf hd hxd hxc]
    · intro o ho
      rw [htable o ho, fat32FlushUnder_fat]
      exact h.2 o ho

end Cluster

/-! ### The search -/

section Search
variable {fate : ℕ → Fate} {fs : Fs} {v : Vol} {root : List ℕ} {scan : Mem → Option ℕ} {c i : ℕ}

/-- The clusters `A` are searched in vain before the scan finds entry `i` of the cluster `x`. -/
def FoundIn (fs : Fs) (v : Vol) (scan : Mem → Option ℕ) (L A : List ℕ) (x i : ℕ) : Prop :=
  (∃ B, L = A ++ x::B) ∧ scan (readCluster fs v x) = some i ∧
    ∀ y ∈ A, scan (readCluster fs v y) = none

theorem foundIn_cons {x y : ℕ} {A L : List ℕ} (h : FoundIn fs v scan (y::L) A x i) :
    A = [] ∧ x = y ∨
    ∃ A', A = y::A' ∧ scan (readCluster fs v y) = none ∧ FoundIn fs v scan L A' x i := by
  obtain ⟨⟨B, hB⟩, hx, hA⟩ := h
  cases A with
  | nil => exact Or.inl ⟨Eq.refl _, (List.cons.inj hB).1.symm⟩
  | cons z A' =>
    obtain ⟨rfl, hB'⟩ := List.cons.inj hB
    refine Or.inr ⟨A', Eq.refl _, hA y List.mem_cons_self, ⟨B, hB'⟩, hx, ?_⟩
    intro z hz
    exact hA z (List.mem_cons_of_mem y hz)

theorem FoundIn.cons {x y : ℕ} {A L : List ℕ} (h : FoundIn fs v scan L A x i)
    (hy : scan (readCluster fs v y) = none) : FoundIn fs v scan (y::L) (y::A) x i := by
  obtain ⟨⟨B, rfl⟩, hx, hA⟩ := h
  refine ⟨⟨B, Eq.refl _⟩, hx, ?_⟩
  intro z hz
  cases List.mem_cons.mp hz with
  | inl he =>
    rw [he]
    exact hy
  | inr hm => exact hA z hm

theorem not_foundIn_nil {A : List ℕ} {x : ℕ} : ¬ FoundIn fs v scan [] A x i := by
  intro h
  obtain ⟨⟨B, hB⟩, -⟩ := h
  simp at hB

/-- Behind the end of the chain the search ends. -/
theorem walkDirUnder_eof {t : ℕ} (n : ℕ) (h : fatEof ≤ c) :
    walkDirUnder fate fs v scan n c t = some (none, t) := by
  have hend : ¬ (c < fatEof ∧ 2 ≤ c) := fun hlt => Nat.not_le.mpr hlt.1 h
  cases n with
  | zero => exact if_neg hend
  | succ n => exact if_neg hend

/-- The search finds what it finds when nothing fails, if each cluster up to it can be read. -/
theorem walkDirUnder_cases (hf : fs.Ok) (n : ℕ) : ∀ (c t : ℕ) (L : List ℕ), FatChain fs v c L →
    L.length ≤ n →
    ((∃ t', walkDirUnder fate fs v scan n c t = some (none, t')) ∧
      ∀ A x i, FoundIn fs v scan L A x i →
        ¬ AllDone fate t ((A.length + 1) * fs.sectorsPerCluster)) ∨
    ∃ A x i, FoundIn fs v scan L A x i ∧ AllDone fate t ((A.length + 1) * fs.sectorsPerCluster) ∧
      walkDirUnder fate fs v scan n c t =
        some (some (x, i, readCluster fs v x), t + (A.length + 1) * fs.sectorsPerCluster) := by
  induction n with
  | zero =>
    intro c t L h hn
    obtain rfl : L = [] := List.length_eq_zero_iff.mp (by omega)
    exact Or.inl ⟨⟨t, walkDirUnder_eof 0 h⟩, fun A x i hfound => absurd hfound not_foundIn_nil⟩
  | succ n ih =>
    intro c t L h hn
    cases L with
    | nil =>
      exact Or.inl ⟨⟨t, walkDirUnder_eof (n+1) h⟩,
        fun A x i hfound => absurd hfound not_foundIn_nil⟩
    | cons y L =>
      obtain ⟨rfl, hx, hrest⟩ := h
      unfold walkDirUnder
      rw [if_pos ⟨hf.data_lt_eof hx, hx.1⟩]
      dsimp only
      by_cases hread : AllDone fate t fs.sectorsPerCluster
      · rw [readClusterUnder_of_done hread]
        rw [if_pos (Eq.refl true)]
        dsimp only
        cases hs : scan (readCluster fs v c) with
        | some i =>
          right
          refine ⟨[], c, i, ⟨⟨L, Eq.refl _⟩, hs, fun y hy => absurd hy List.not_mem_nil⟩, ?_, ?_⟩
          · rw [List.length_nil, Nat.zero_add, Nat.one_mul]
            exact hread
          · rw [List.length_nil, Nat.zero_add, Nat.one_mul]
        | none =>
          dsimp only
          have hlen : ∀ A : List ℕ, ((c::A).length + 1) * fs.sectorsPerCluster =
              fs.sectorsPerCluster + (A.length + 1) * fs.sectorsPerCluster := by
            intro A
            rw [List.length_cons, Nat.succ_mul, Nat.add_comm]
          cases ih (fatNextCluster fs v c) (t + fs.sectorsPerCluster) L hrest
              (Nat.le_of_succ_le_succ hn) with
          | inl hnone =>
            left
            refine ⟨hnone.1, ?_⟩
            intro A x i hfound hdone
            cases foundIn_cons hfound with
            | inl hhere =>
              have hsome := hfound.2.1
              rw [hhere.2, hs] at hsome
              cases hsome
            | inr hlater =>
              obtain ⟨A', rfl, -, hA'⟩ := hlater
              rw [hlen] at hdone
              exact hnone.2 A' x i hA' (allDone_add.mp hdone).2
          | inr hsome =>
            obtain ⟨A, x, i, hfound, hdone, heq⟩ := hsome
            right
            refine ⟨c::A, x, i, hfound.cons hs, ?_, ?_⟩
            · rw [hlen]
              exact allDone_add.mpr ⟨hread, hdone⟩
            · rw [heq, hlen, Nat.add_assoc]
      · have hok : ¬ (readClusterUnder fate t fs v c).2.2 = true :=
          fun h => hread (readClusterUnder_ok.mp h)
        rw [if_neg hok]
        left
        refine ⟨⟨_, Eq.refl _⟩, ?_⟩
        intro A x i _ hdone
        apply hread
        apply hdone.mono
        exact Nat.le_mul_of_pos_left _ (Nat.succ_pos _)

/-- The reads of a search that ends in the cluster `c`. -/
def readsTo (fs : Fs) (root : List ℕ) (c : ℕ) : ℕ := (root.idxOf c + 1) * fs.sectorsPerCluster

theorem foundIn_idx (hf : fs.Ok) (h : FatChain fs v fs.rootCluster root) {A : List ℕ}
    (hfound : FoundIn fs v scan root A c i) : root.idxOf c = A.length := by
  obtain ⟨⟨B, rfl⟩, -⟩ := hfound
  have hnd := h.nodup hf
  rw [List.nodup_append] at hnd
  have hc : c ∉ A := fun hm => hnd.2.2 c hm c List.mem_cons_self (Eq.refl c)
  rw [List.idxOf_append_of_notMem hc, List.idxOf_cons_self, Nat.add_zero]

theorem walkRoot_found_iff (hf : fs.Ok) (h : FatChain fs v fs.rootCluster root) :
    walkRoot fs v scan = some (some (c, i)) ↔ ∃ A, FoundIn fs v scan root A c i := by
  rw [walkRoot_eq hf h]
  constructor
  · intro he
    obtain ⟨A, x, B, hroot, hx, hA⟩ := List.findSome?_eq_some_iff.mp (Option.some.inj he)
    obtain ⟨j, hj, hpair⟩ := Option.map_eq_some_iff.mp hx
    obtain ⟨rfl, rfl⟩ := Prod.mk.inj hpair
    exact ⟨A, ⟨B, hroot⟩, hj, fun y hy => Option.map_eq_none_iff.mp (hA y hy)⟩
  · intro he
    obtain ⟨A, ⟨B, hB⟩, hx, hA⟩ := he
    apply congrArg some
    apply List.findSome?_eq_some_iff.mpr
    refine ⟨A, c, B, hB, ?_, fun y hy => ?_⟩
    · rw [hx]
      exact Eq.refl _
    · rw [hA y hy]
      exact Eq.refl _

theorem walkRoot_unique {c' i' : ℕ} (h : walkRoot fs v scan = some (some (c, i)))
    (h' : walkRoot fs v scan = some (some (c', i'))) : c' = c ∧ i' = i :=
  Prod.mk.inj (Option.some.inj (Option.some.inj (h'.symm.trans h)))

/-- The search of the root directory under failing reads. -/
theorem walkRootUnder_cases (hf : fs.Ok) (h : FatChain fs v fs.rootCluster root)
    (fate : ℕ → Fate) (scan : Mem → Option ℕ) :
    ((∃ t, walkRootUnder fate fs v scan = some (none, t)) ∧
      ∀ c i, walkRoot fs v scan = some (some (c, i)) → ¬ AllDone fate 0 (readsTo fs root c)) ∨
    ∃ c i, walkRoot fs v scan = some (some (c, i)) ∧ AllDone fate 0 (readsTo fs root c) ∧
      walkRootUnder fate fs v scan =
        some (some (c, i, readCluster fs v c), readsTo fs root c) := by
  have hreads : ∀ A x i, FoundIn fs v scan root A x i →
      readsTo fs root x = (A.length + 1) * fs.sectorsPerCluster := by
    intro A x i hfound
    unfold readsTo
    rw [foundIn_idx hf h hfound]
  cases walkDirUnder_cases hf (fs.totalClusters + 2) fs.rootCluster 0
      root h (h.length_le hf) with
  | inl hnone =>
    left
    refine ⟨hnone.1, ?_⟩
    intro c i hw hdone
    obtain ⟨A, hA⟩ := (walkRoot_found_iff hf h).mp hw
    rw [hreads A c i hA] at hdone
    exact hnone.2 A c i hA hdone
  | inr hsome =>
    obtain ⟨A, x, i, hfound, hdone, heq⟩ := hsome
    right
    refine ⟨x, i, (walkRoot_found_iff hf h).mpr ⟨A, hfound⟩, ?_, ?_⟩
    · rw [hreads A x i hfound]
      exact hdone
    · rw [hreads A x i hfound]
      rw [Nat.zero_add] at heq
      exact heq

end Search

end SukiOS.Fat32

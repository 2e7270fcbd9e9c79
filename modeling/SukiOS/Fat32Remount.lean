import SukiOS.Fat32Runs

/-! The table on the disk: after an operation that flushes it, the disk can be mounted again to the
same volume. -/
namespace SukiOS.Fat32
open ByteMemory Transition

/-! ### Where the sectors are -/

/-- The boot sector, the FAT and the clusters follow each other on a disk of fewer than 2^28
sectors. -/
structure Fs.Fits (fs : Fs) : Prop where
  boot : 1 ≤ fs.fatStartSector
  fat : fs.fatStartSector + fs.fatSizeSectors ≤ fs.firstDataSector
  data : fs.firstDataSector + fs.totalClusters * fs.sectorsPerCluster < 2^28

section Fits
variable {fs : Fs} {c k j : ℕ}

theorem Fs.Fits.sector_eq (h : fs.Fits) (hc : fs.IsData c) (hk : k < fs.sectorsPerCluster) :
    sectorOf fs c k = fs.firstDataSector + ((c - 2) * fs.sectorsPerCluster + k) ∧
      (c - 2) * fs.sectorsPerCluster + k < fs.totalClusters * fs.sectorsPerCluster := by
  have hd := h.data
  have h2 := hc.1
  have h3 := hc.2
  have hle : (c - 2 + 1) * fs.sectorsPerCluster ≤ fs.totalClusters * fs.sectorsPerCluster :=
    Nat.mul_le_mul_right _ (by omega)
  rw [Nat.succ_mul] at hle
  have hpos : fs.totalClusters ≤ fs.totalClusters * fs.sectorsPerCluster :=
    Nat.le_mul_of_pos_right _ (by omega)
  have hsub : (c + (2^32 - 2)) % 2^32 = c - 2 := by omega
  refine ⟨?_, by omega⟩
  unfold sectorOf clusterToLba
  rw [hsub, Nat.mod_eq_of_lt (b := 2^32) (by omega), Nat.mod_eq_of_lt (b := 2^32) (by omega),
    Nat.mod_eq_of_lt (by omega), Nat.add_assoc]

theorem Fs.Fits.fatSector_eq (h : fs.Fits) (hj : j < fs.fatSizeSectors) :
    fatSector fs j = fs.fatStartSector + j := by
  have hf := h.fat
  have hd := h.data
  unfold fatSector
  rw [Nat.mod_eq_of_lt (b := 2^32) (by omega), Nat.mod_eq_of_lt (by omega)]

theorem Fs.Fits.apart (h : fs.Fits) : fs.Apart where
  inj := by
    intro c c' k k' hc hc' hk hk' heq
    have h2 := hc.1
    have h3 := hc'.1
    rw [(h.sector_eq hc hk).1, (h.sector_eq hc' hk').1] at heq
    have heq : (c - 2) * fs.sectorsPerCluster + k = (c' - 2) * fs.sectorsPerCluster + k' := by omega
    have hpos : 0 < fs.sectorsPerCluster := by omega
    have hdiv := congrArg (fun x => x / fs.sectorsPerCluster) heq
    have hmod := congrArg (fun x => x % fs.sectorsPerCluster) heq
    rw [Nat.mul_comm, Nat.mul_add_div hpos, Nat.div_eq_of_lt hk, Nat.mul_comm (c' - 2),
      Nat.mul_add_div hpos, Nat.div_eq_of_lt hk'] at hdiv
    rw [Nat.mul_comm, Nat.mul_add_mod, Nat.mod_eq_of_lt hk, Nat.mul_comm (c' - 2), Nat.mul_add_mod,
      Nat.mod_eq_of_lt hk'] at hmod
    exact ⟨by omega, hmod⟩
  fat := by
    intro c k j hc hk hj heq
    have hf := h.fat
    rw [(h.sector_eq hc hk).1, h.fatSector_eq hj] at heq
    omega

theorem Fs.Fits.sector_ne_zero (h : fs.Fits) (hc : fs.IsData c) (hk : k < fs.sectorsPerCluster) :
    sectorOf fs c k ≠ 0 := by
  have hb := h.boot
  have hf := h.fat
  rw [(h.sector_eq hc hk).1]
  omega

end Fits

/-! ### Mounting -/

/-- `total_sectors` of `fat32_mount`. -/
def totalSectors (boot : Mem) : ℕ :=
  if load boot 0x13 2 ≠ 0 then load boot 0x13 2 else load boot 0x20 4

/-- A disk of fewer than 2^28 sectors, with a reserved sector and a FAT, whose boot sector describes
it without an overflow. -/
structure SmallVolume (disk : Mem) : Prop where
  reserved : 1 ≤ load (ideReadSector disk 0) 0x0E 2
  numFats : 1 ≤ load (ideReadSector disk 0) 0x10 1
  total : totalSectors (ideReadSector disk 0) < 2^28
  noWrap : load (ideReadSector disk 0) 0x0E 2 +
    load (ideReadSector disk 0) 0x10 1 * load (ideReadSector disk 0) 0x24 4 ≤
      totalSectors (ideReadSector disk 0)

section Mount
variable {fs : Fs} {v : Vol} {disk disk' : Mem}

/-- What a successful mount says. -/
theorem mount_cases (h : fat32Mount disk = some (fs, v)) :
    ∃ boot, boot = ideReadSector disk 0 ∧
      fs.firstDataSector = (load boot 0x0E 2 + load boot 0x10 1 * load boot 0x24 4) % 2^32 ∧
      fs.dataSectors = (totalSectors boot + (2^32 - fs.firstDataSector)) % 2^32 ∧
      fs.totalClusters = fs.dataSectors / fs.sectorsPerCluster ∧
      fs.fatStartSector = load boot 0x0E 2 ∧ fs.fatSizeSectors = load boot 0x24 4 ∧
      v = { disk := disk,
            fat := diskRead disk fs.fatStartSector (fun _ => 0#8) fs.fatSizeSectors } := by
  refine ⟨_, rfl, ?_⟩
  unfold fat32Mount at h
  dsimp only at h
  split at h
  · cases h
  split at h
  · cases h
  split at h
  · cases h
  · obtain ⟨rfl, rfl⟩ := Prod.mk.inj (Option.some.inj h)
    exact ⟨rfl, rfl, rfl, rfl, rfl, rfl⟩

theorem SmallVolume.fits (hs : SmallVolume disk) (h : fat32Mount disk = some (fs, v)) :
    fs.Fits := by
  obtain ⟨boot, rfl, hfirst, hdata, htotal, hstart, hsize, -⟩ := mount_cases h
  have h1 := hs.reserved
  have h2 := hs.numFats
  have h3 := hs.total
  have h4 := hs.noWrap
  have hfirst' : fs.firstDataSector = load (ideReadSector disk 0) 0x0E 2 +
      load (ideReadSector disk 0) 0x10 1 * load (ideReadSector disk 0) 0x24 4 := by
    rw [hfirst]
    exact Nat.mod_eq_of_lt (by omega)
  have hone : load (ideReadSector disk 0) 0x24 4 ≤
      load (ideReadSector disk 0) 0x10 1 * load (ideReadSector disk 0) 0x24 4 :=
    Nat.le_mul_of_pos_left _ h2
  have hclusters : fs.totalClusters * fs.sectorsPerCluster ≤ fs.dataSectors := by
    rw [htotal]
    exact Nat.div_mul_le_self _ _
  refine ⟨by omega, by omega, by omega⟩

/-- Mounting looks at the boot sector only, apart from the table. -/
theorem mount_again (h : fat32Mount disk = some (fs, v)) (hboot : ∀ x, x < 512 → disk' x = disk x) :
    fat32Mount disk' = some (fs,
      { disk := disk',
        fat := diskRead disk' fs.fatStartSector (fun _ => 0#8) fs.fatSizeSectors }) := by
  have hload (a k : ℕ) (ha : a + k ≤ 512) :
      load (ideReadSector disk' 0) a k = load (ideReadSector disk 0) a k := by
    apply load_congr
    intro x h1 h2
    unfold ideReadSector
    rw [Nat.zero_mod, Nat.zero_mul, Nat.zero_add]
    exact hboot x (by omega)
  unfold fat32Mount at h ⊢
  dsimp only at h ⊢
  rw [hload 0x42 1 (by decide), hload 0x0B 2 (by decide), hload 0x0D 1 (by decide),
    hload 0x0E 2 (by decide), hload 0x10 1 (by decide), hload 0x13 2 (by decide),
    hload 0x20 4 (by decide), hload 0x24 4 (by decide), hload 0x2C 4 (by decide)]
  split at h
  · cases h
  rename_i h1
  split at h
  · cases h
  rename_i h2
  split at h
  · cases h
  rename_i h3
  rw [if_neg h1, if_neg h2, if_neg h3]
  obtain ⟨rfl, rfl⟩ := Prod.mk.inj (Option.some.inj h)
  rfl

end Mount

/-! ### The table on the disk -/

/-- The FAT sectors of the disk hold the cached FAT. -/
def FatOnDisk (fs : Fs) (v : Vol) : Prop :=
  ∀ j, j < fs.fatSizeSectors → ∀ x, x < 512 →
    v.disk ((fs.fatStartSector + j) * 512 + x) = v.fat (j * 512 + x)

section Flush
variable {fs : Fs} {v v' w : Vol} {root : List ℕ} {own : Set ℕ} {c a : ℕ} {buf : Mem}
  {L N : List ℕ}

theorem flush_onDisk (h : fs.Fits) (w : Vol) : FatOnDisk fs (fat32Flush fs w) := by
  intro j hj x hx
  have hne : fs.fatSizeSectors ≠ 0 := by omega
  unfold fat32Flush
  rw [if_neg hne]
  have hsec := h.fatSector_eq hj
  have hwrite : diskWrite w.disk fs.fatStartSector w.fat fs.fatSizeSectors
      ((fs.fatStartSector + j) * 512 + x) =
      w.fat (j*512 + ((fs.fatStartSector + j) * 512 + x) % 512) := diskWrite_on hj
    (by rw [sector_div _ _ hx]; exact hsec.symm)
    (fun i hi he => by
      have hi := h.fatSector_eq hi
      unfold fatSector at hi hsec
      omega)
  dsimp only
  rw [hwrite]
  congr 1
  omega

/-- The boot sector is not written. -/
theorem flush_boot (h : fs.Fits) (w : Vol) (ha : a < 512) :
    (fat32Flush fs w).disk a = w.disk a := by
  unfold fat32Flush
  split
  · rfl
  · apply diskWrite_off
    intro i hi he
    have hb := h.boot
    have hsec := h.fatSector_eq hi
    unfold fatSector at hsec
    omega

theorem DirPut.boot (h : fs.Fits) (hput : DirPut fs v v' c buf) (hc : fs.IsData c) (ha : a < 512) :
    v'.disk a = v.disk a := by
  obtain ⟨w, hw, rfl⟩ := hput
  rw [flush_boot h w ha, hw]
  apply diskWrite_off
  intro i hi he
  have hsec := h.sector_ne_zero hc hi
  unfold sectorOf at hsec
  omega

theorem Extended.boot (h : fs.Fits) (hext : Extended fs v v' c L N) (ha : a < 512) :
    v'.disk a = v.disk a := by
  apply hext.disk
  intro y hy k hk he
  have hsec := h.sector_ne_zero (hext.isData hy) hk
  omega

/-- `fat32_close` flushes, and does not write the boot sector. -/
theorem close_flushed (hf : fs.Ok) (h : fs.Fits) (hw : Wf fs root own v) {file : File} {now : Stamp}
    (hc : fat32Close fs v file now = some v') :
    FatOnDisk fs v' ∧ ∀ a, a < 512 → v'.disk a = v.disk a := by
  rcases close_cases hf hw file now with ⟨hc', -⟩ | ⟨e, u, hc', -, hu, -, -, hput⟩
  · obtain rfl : fat32Flush fs v = v' := Option.some.inj (hc'.symm.trans hc)
    exact ⟨flush_onDisk h v, fun a ha => flush_boot h v ha⟩
  · obtain rfl : u = v' := Option.some.inj (hc'.symm.trans hc)
    refine ⟨?_, fun a ha => hput.boot h (hw.root_isData hu.1) ha⟩
    obtain ⟨w, -, rfl⟩ := hput
    exact flush_onDisk h w

theorem DirPut.onDisk (h : fs.Fits) (hput : DirPut fs v v' c buf) : FatOnDisk fs v' := by
  obtain ⟨w, -, rfl⟩ := hput
  exact flush_onDisk h w

/-- A number is zero when its bytes are. -/
theorem byte_of_load_zero {m : Mem} {a k x : ℕ} (h : load m a k = 0) (h1 : a ≤ x) (h2 : x < a + k) :
    m x = 0#8 := by
  induction k generalizing a with
  | zero => omega
  | succ k ih =>
    rw [load] at h
    by_cases hx : x = a
    · rw [hx]
      apply BitVec.eq_of_toNat_eq
      show (m a).toNat = 0
      omega
    · exact ih (a := a+1) (by omega) (by omega) (by omega)

end Flush

/-! ### Runs -/

/-- The operations that flush the table when they succeed. -/
def DriverOp.Commits : DriverOp → Prop
  | .create _ _ _ => True
  | .close _ _ => True
  | .delete _ => True
  | _ => False

/-- What holds along the runs: the boot sector of `disk`, and no entry behind the table. -/
structure Remountable (fs : Fs) (root : List ℕ) (disk : Mem) (s : Driver) : Prop where
  files : ∃ own, DriverInv fs root own s
  boot : ∀ a, a < 512 → s.vol.disk a = disk a
  tail : ∀ y, 128 * fs.fatSizeSectors ≤ y → s.vol.fatGet y = 0

section Durable
variable {fs : Fs} {root : List ℕ} {own : Set ℕ} {disk : Mem} {v : Vol} {s s' : Driver}
  {op : DriverOp} {r : ℤ} {L N : List ℕ} {c y : ℕ}

theorem not_data_of_tail (hf : fs.Ok) (hy : 128 * fs.fatSizeSectors ≤ y) : ¬ fs.IsData y := by
  intro hd
  have h1 := hd.2
  have h2 := hf.covers.entries
  omega

theorem Remountable.step (hf : fs.Ok) (hfits : fs.Fits) (hi : Remountable fs root disk s)
    (hstr : op.NamesOk IsCString) (ha : driverApply fs s op = some (s', r)) :
    Remountable fs root disk s' := by
  obtain ⟨own, hd⟩ := hi.files
  have hw := hd.wf
  have hstep := driver_cases hf hd ha
  have hfiles := hstep.inv hf hd hstr
  cases hstep with
  | quiet hvol _ =>
    refine ⟨hfiles, ?_, ?_⟩
    · rw [hvol]
      exact hi.boot
    · rw [hvol]
      exact hi.tail
  | create hmade hput =>
    rename_i h name now n slot
    refine ⟨hfiles, fun a hlt => ?_, fun y hy => ?_⟩
    · rw [hmade.put.boot hfits (hw.root_isData hmade.mem) hlt]
      exact hi.boot a hlt
    · have hne : y ≠ n := by
        rintro rfl
        exact not_data_of_tail hf hy hmade.data
      rw [hmade.fat, if_neg hne]
      exact hi.tail y hy
  | write _ _ _ hext _ _ =>
    refine ⟨hfiles, fun a hlt => ?_, fun y hy => ?_⟩
    · rw [hext.boot hfits hlt]
      exact hi.boot a hlt
    · rw [hext.fat y (fun hm => not_data_of_tail hf hy (hext.isData hm))]
      exact hi.tail y hy
  | close hclosed hsame =>
    rename_i h now f
    obtain ⟨v, hv, hfat, -, -⟩ := close_same hf hw f now
    obtain rfl : v = s'.vol := Option.some.inj (hv.symm.trans hclosed)
    refine ⟨hfiles, fun a hlt => ?_, fun y hy => ?_⟩
    · rw [(close_flushed hf hfits hw hclosed).2 a hlt]
      exact hi.boot a hlt
    · rw [fatGet_congr hfat]
      exact hi.tail y hy
  | delete hdel _ =>
    refine ⟨hfiles, fun a hlt => ?_, fun y hy => ?_⟩
    · rw [hdel.put.boot hfits (hw.root_isData hdel.used.1) hlt]
      exact hi.boot a hlt
    · rw [hdel.fat, hi.tail y hy]
      split <;> rfl

/-- An operation that returns 0 has put the table on the disk. -/
theorem DriverStep.onDisk (hf : fs.Ok) (hfits : fs.Fits) (hw : Wf fs root own s.vol)
    (hop : op.Commits) (h : DriverStep fs root s s' op 0) : FatOnDisk fs s'.vol := by
  cases h with
  | quiet hvol hfiles hret hret' =>
    cases op with
    | create h name now => exact absurd (hret' (Or.inl ⟨h, name, now, rfl⟩)) (by decide)
    | close h now => exact absurd rfl (hret h now)
    | delete name => exact absurd (hret' (Or.inr ⟨name, rfl⟩)) (by decide)
    | «open» _ _ => exact hop.elim
    | read _ _ _ => exact hop.elim
    | write _ _ _ => exact hop.elim
  | create hmade _ => exact hmade.put.onDisk hfits
  | write => exact hop.elim
  | close hclosed _ => exact (close_flushed hf hfits hw hclosed).1
  | delete hdel _ => exact hdel.put.onDisk hfits

/-- The disk of such a volume is mounted to the volume itself. -/
theorem Remountable.mount (hfits : fs.Fits) (hm : fat32Mount disk = some (fs, v))
    (hi : Remountable fs root disk s) (hfat : FatOnDisk fs s.vol) :
    fat32Mount s.vol.disk = some (fs, s.vol) := by
  rw [mount_again hm hi.boot]
  have htable : diskRead s.vol.disk fs.fatStartSector (fun _ => 0#8) fs.fatSizeSectors =
      s.vol.fat := by
    funext o
    rw [diskRead_apply]
    by_cases ho : o / 512 < fs.fatSizeSectors
    · have hsec := hfits.fatSector_eq ho
      unfold fatSector at hsec
      rw [if_pos ho, hsec, hfat _ ho _ (Nat.mod_lt _ (by decide))]
      congr 1
      omega
    · rw [if_neg ho]
      have hzero := hi.tail (o/4) (by omega)
      exact (byte_of_load_zero hzero (by omega) (by omega)).symm
  rw [htable]

theorem load_zero {m : Mem} {a : ℕ} (h : ∀ x, a ≤ x → m x = 0#8) : load m a 4 = 0 := by
  rw [load_congr (fun _ => 0#8) m a 4 (fun x h1 _ => h x h1)]
  rfl

/-- When creating, closing or deleting has succeeded, the boot sector is as it was, the FAT on the
disk is the cached one, and the disk is mounted to the same volume again. -/
theorem durable_across_remount (hm : fat32Mount disk = some (fs, v)) (hsmall : SmallVolume disk)
    (hc : fs.Covers) (hw : Wf fs root own v) (h0 : 0 ∉ own)
    (hr : (driver fs IsCString v).Reachable s) (hstr : op.NamesOk IsCString)
    (ha : driverApply fs s op = some (s', 0)) (hop : op.Commits) :
    (∀ a, a < 512 → s'.vol.disk a = disk a) ∧ FatOnDisk fs s'.vol ∧
      fat32Mount s'.vol.disk = some (fs, s'.vol) := by
  have hfits := hsmall.fits hm
  have hf : fs.Ok := Fs.Mounted.ok ⟨disk, v, hm⟩ hc hfits.apart
  have hinv : Remountable fs root disk s := by
    apply System.Reachable.invariant ?_ ?_ hr
    · rintro u ⟨rfl, hfiles⟩
      obtain ⟨boot, -, -, -, -, -, -, hv⟩ := mount_cases hm
      refine ⟨⟨own, hw, h0, fun h f hfile => ?_⟩, fun a _ => ?_, fun y hy => ?_⟩
      · rw [hfiles] at hfile
        exact nomatch hfile
      · rw [hv]
      · rw [hv]
        apply load_zero
        intro x hx
        dsimp only
        rw [diskRead_apply, if_neg (by omega)]
    · rintro u op u' hi ⟨hname, r, hap⟩
      exact hi.step hf hfits hname hap
  have hinv' := hinv.step hf hfits hstr ha
  obtain ⟨own', hd⟩ := hinv.files
  have hfat := (driver_cases hf hd ha).onDisk hf hfits hd.wf hop
  exact ⟨hinv'.boot, hfat, hinv'.mount hfits hm hfat⟩

end Durable

theorem sample_small : SmallVolume (sampleDisk 1) where
  reserved := by decide +kernel
  numFats := by decide +kernel
  total := by decide +kernel
  noWrap := by decide +kernel

theorem isCString_letter {c : Byte} (h : c ≠ 0#8) : IsCString [c] := by
  intro d hd
  rw [List.mem_singleton.mp hd]
  exact h

theorem durable_across_remount_sample :
    let s := driverAfter sampleFs sampleStart (.create 0 [65#8] ⟨0, 0⟩)
    fat32Mount s.vol.disk = some (sampleFs, s.vol) := by
  intro s
  have hmake : driverApply sampleFs sampleStart (.create 0 [65#8] ⟨0, 0⟩) = some (s, 0) :=
    driverApply_after (by decide +kernel)
  have hstr : (DriverOp.create 0 [65#8] ⟨0, 0⟩).NamesOk IsCString := isCString_letter (by decide)
  exact (durable_across_remount sample_mount sample_small sample_ok.covers sample_wf
    (fun h => nomatch h) (.init ⟨rfl, rfl⟩) hstr hmake trivial).2.2

/-- The sample disk with an entry `B` behind the end mark of the root directory. Its first cluster
2^28 has the sector number 2^28, which the disk takes for sector 0. -/
def garbageDisk : Mem := fun a =>
  if a = 1056 then 66#8 else if 1057 ≤ a ∧ a < 1067 then space
  else if a = 1067 then 0x20#8 else if a = 1077 then 0x10#8 else sampleDisk 1 a

def garbageVol : Vol where
  disk := garbageDisk
  fat := diskRead garbageDisk 1 (fun _ => 0#8) 1

/-- A delete that does not find its file leaves the table of an earlier write in memory only. An
entry behind an end mark becomes a file when a create takes the place of the mark, and writing
through it can hit the boot sector. -/
theorem remount_after_failure_differs :
    (let s1 := driverAfter sampleFs sampleStart (.create 0 [65#8] ⟨0, 0⟩)
      let s2 := driverAfter sampleFs s1 (.write 0 0 (List.replicate 513 1#8))
      fat32Mount (sampleDisk 1) = some (sampleFs, sampleVol) ∧ SmallVolume (sampleDisk 1) ∧
        sampleFs.Covers ∧ Wf sampleFs [2] ∅ sampleVol ∧
        (driver sampleFs IsCString sampleVol).Reachable s2 ∧
        driverApply sampleFs s2 (.delete [66#8]) = some (s2, -1) ∧ ¬ FatOnDisk sampleFs s2.vol) ∧
    (let s0 : Driver := { vol := garbageVol, files := fun _ => none }
      let s1 := driverAfter sampleFs s0 (.create 0 [65#8] ⟨0, 0⟩)
      let s2 := driverAfter sampleFs s1 (.open 1 [66#8])
      let s3 := driverAfter sampleFs s2 (.write 1 0 [1#8])
      let s4 := driverAfter sampleFs s3 (.close 1 ⟨0, 0⟩)
      fat32Mount garbageDisk = some (sampleFs, garbageVol) ∧ SmallVolume garbageDisk ∧
        FatChain sampleFs garbageVol 2 [2] ∧ (∀ i, ¬ LiveAt sampleFs garbageVol 2 i) ∧
        (driver sampleFs IsCString garbageVol).Reachable s3 ∧
        driverApply sampleFs s3 (.close 1 ⟨0, 0⟩) = some (s4, 0) ∧
        s4.vol.disk 0 ≠ garbageDisk 0) := by
  refine ⟨?_, ?_⟩
  · intro s1 s2
    have h1 : driverApply sampleFs sampleStart (.create 0 [65#8] ⟨0, 0⟩) = some (s1, 0) :=
      driverApply_after (by decide +kernel)
    have h2 : driverApply sampleFs s1 (.write 0 0 (List.replicate 513 1#8)) = some (s2, 513) :=
      driverApply_after (by decide +kernel)
    have hnone : fat32Open sampleFs s2.vol [66#8] = some none := by decide +kernel
    have hnone' : (fat32Delete sampleFs s2.vol [66#8]).map Option.isSome = some false := by
      decide +kernel
    have h3 : driverApply sampleFs s2 (.delete [66#8]) = some (s2, -1) := by
      obtain ⟨r, hr, hrn⟩ := Option.map_eq_some_iff.mp hnone'
      obtain rfl : r = none := Option.not_isSome_iff_eq_none.mp (by rw [hrn]; decide)
      simp only [driverApply]
      rw [hnone, hr]
      rfl
    refine ⟨sample_mount, sample_small, sample_ok.covers, sample_wf, ?_, h3, fun h => ?_⟩
    · refine .step (i := .write 0 0 (List.replicate 513 1#8)) ?_ ⟨trivial, 513, h2⟩
      exact .step (i := .create 0 [65#8] ⟨0, 0⟩) (.init ⟨rfl, rfl⟩)
        ⟨isCString_letter (by decide), 0, h1⟩
    · have hbyte : s2.vol.disk ((sampleFs.fatStartSector + 0) * 512 + 12) ≠
          s2.vol.fat (0 * 512 + 12) := by decide +kernel
      exact hbyte (h 0 (by decide) 12 (by decide))
  · intro s0 s1 s2 s3 s4
    have h1 : driverApply sampleFs s0 (.create 0 [65#8] ⟨0, 0⟩) = some (s1, 0) :=
      driverApply_after (by decide +kernel)
    have h2 : driverApply sampleFs s1 (.open 1 [66#8]) = some (s2, 0) :=
      driverApply_after (by decide +kernel)
    have h3 : driverApply sampleFs s2 (.write 1 0 [1#8]) = some (s3, 1) :=
      driverApply_after (by decide +kernel)
    have h4 : driverApply sampleFs s3 (.close 1 ⟨0, 0⟩) = some (s4, 0) :=
      driverApply_after (by decide +kernel)
    have hsmall : SmallVolume garbageDisk := by
      refine ⟨?_, ?_, ?_, ?_⟩ <;> decide +kernel
    have hchain : FatChain sampleFs garbageVol 2 [2] :=
      ⟨rfl, by decide, by show fatEof ≤ fatNextCluster sampleFs garbageVol 2; decide +kernel⟩
    have hmark : readCluster sampleFs garbageVol 2 (32*0) = 0#8 := by decide +kernel
    refine ⟨rfl, hsmall, hchain, fun i hl => hl.2.1 0 le_rfl (Nat.zero_le i) hmark, ?_, h4, ?_⟩
    · refine .step (i := .write 1 0 [1#8]) ?_ ⟨trivial, 1, h3⟩
      refine .step (i := .open 1 [66#8]) ?_ ⟨isCString_letter (by decide), 0, h2⟩
      exact .step (i := .create 0 [65#8] ⟨0, 0⟩) (.init ⟨rfl, rfl⟩)
        ⟨isCString_letter (by decide), 0, h1⟩
    · decide +kernel

end SukiOS.Fat32

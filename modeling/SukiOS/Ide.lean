import SukiOS.Fat32Mount
import SukiOS.Fat32Slice

/-! The sector that the IDE driver addresses: the four registers that `ide.c` programs for a logical
block address, and the sectors of the clusters of a mounted volume seen through them. -/
namespace SukiOS.Fat32
open ByteMemory

/-! ### The driver -/

/-- The ports that `ide_read_sector` and `ide_write_sector` write before the data. -/
inductive IdePort
  | sectorCount | lbaLow | lbaMid | lbaHigh | driveSel | command
deriving DecidableEq, Repr

/-- `ide_drive_sel` after `ide_init`, by which of the two drives `ide_probe_ata` finds. -/
def ideInit (master slave : Bool) : ℕ := if master then 0xE0 else if slave then 0xF0 else 0

def ideSelectDrive (ideDriveSel lba : ℕ) : List (IdePort × ℕ) :=
  [(.driveSel, ideDriveSel ||| (lba >>> 24 &&& 0x0F))]

/-- What both functions send to the ports, up to the command `cmd`. -/
def ideCommandSector (cmd ideDriveSel lba : ℕ) : List (IdePort × ℕ) :=
  if ideDriveSel = 0 then []
  else ideSelectDrive ideDriveSel lba ++
    [(.sectorCount, 1), (.lbaLow, lba &&& 0xFF), (.lbaMid, lba >>> 8 &&& 0xFF),
      (.lbaHigh, lba >>> 16 &&& 0xFF), (.command, cmd)]

def ideReadSectorOuts : ℕ → ℕ → List (IdePort × ℕ) := ideCommandSector 0x20
def ideWriteSectorOuts : ℕ → ℕ → List (IdePort × ℕ) := ideCommandSector 0x30

/-! ### The drive -/

/-- The address registers of a drive. -/
structure TaskFile where
  lbaLow : ℕ
  lbaMid : ℕ
  lbaHigh : ℕ
  driveSel : ℕ
deriving DecidableEq, Repr

/-- The 28-bit address in the registers; the upper half of `driveSel` selects the drive. -/
def TaskFile.lba (t : TaskFile) : ℕ :=
  t.lbaLow + 2^8 * t.lbaMid + 2^16 * t.lbaHigh + 2^24 * (t.driveSel % 16)

def TaskFile.out (t : TaskFile) : IdePort × ℕ → TaskFile
  | (.lbaLow, x) => { t with lbaLow := x }
  | (.lbaMid, x) => { t with lbaMid := x }
  | (.lbaHigh, x) => { t with lbaHigh := x }
  | (.driveSel, x) => { t with driveSel := x }
  | (.sectorCount, _) => t
  | (.command, _) => t

/-- The sectors at which a drive with registers `t` is given a command. -/
def TaskFile.addressed (t : TaskFile) : List (IdePort × ℕ) → List ℕ
  | [] => []
  | (.command, _) :: outs => t.lba :: t.addressed outs
  | w :: outs => (t.out w).addressed outs

section Driver
variable {master slave : Bool} {ideDriveSel lba cmd : ℕ} {t : TaskFile}

theorem ideInit_cases (h : ideInit master slave ≠ 0) :
    ideInit master slave = 0xE0 ∨ ideInit master slave = 0xF0 := by
  unfold ideInit at h ⊢
  cases master with
  | true => exact Or.inl (if_pos (Eq.refl _))
  | false =>
    cases slave with
    | true => exact Or.inr (Eq.refl _)
    | false => exact absurd (Eq.refl _) h

/-- The bits that select the drive stay out of the address. -/
theorem driveSel_low (hsel : ideDriveSel = 0xE0 ∨ ideDriveSel = 0xF0) (x : ℕ) :
    (ideDriveSel ||| (x &&& 0x0F)) % 16 = x % 16 := by
  have hx : x &&& 0x0F = x % 16 := Nat.and_two_pow_sub_one_eq_mod x 4
  have hlow : ideDriveSel % 2^4 = 0 := by
    cases hsel with
    | inl h => subst h; decide
    | inr h => subst h; decide
  calc (ideDriveSel ||| (x &&& 0x0F)) % 2^4
      = ideDriveSel % 2^4 ||| (x &&& 0x0F) % 2^4 := Nat.or_mod_two_pow
    _ = (x &&& 0x0F) % 2^4 := by rw [hlow, Nat.zero_or]
    _ = x % 16 := by rw [hx]; exact Nat.mod_mod x 16

/-- Whatever stood in the registers, the command is given at `lba` without its four upper bits. -/
theorem addressed_commandSector (hinit : ideInit master slave ≠ 0) :
    t.addressed (ideCommandSector cmd (ideInit master slave) lba) = [lba % 2^28] := by
  have hlow := driveSel_low (ideInit_cases hinit) (lba >>> 24)
  have h8 : ∀ x : ℕ, x &&& 0xFF = x % 256 := fun x => Nat.and_two_pow_sub_one_eq_mod x 8
  unfold ideCommandSector
  rw [if_neg hinit]
  change [(lba &&& 0xFF) + 2^8 * (lba >>> 8 &&& 0xFF) + 2^16 * (lba >>> 16 &&& 0xFF) +
    2^24 * ((ideInit master slave ||| (lba >>> 24 &&& 0x0F)) % 16)] = [lba % 2^28]
  rw [hlow, h8, h8, h8]
  simp only [Nat.shiftRight_eq_div_pow]
  apply congrArg (fun x => [x])
  omega

/-- The model of the disk reads and writes the sector at which the drive is given its command. -/
theorem ideReadSector_addressed (hinit : ideInit master slave ≠ 0) (disk : Mem) :
    ∀ s ∈ t.addressed (ideReadSectorOuts (ideInit master slave) lba),
      ideReadSector disk lba = fun o => disk (s*512 + o) := by
  intro s hs
  have haddr : t.addressed (ideReadSectorOuts (ideInit master slave) lba) = [lba % 2^28] :=
    addressed_commandSector hinit
  rw [haddr, List.mem_singleton] at hs
  rw [hs]
  rfl

theorem ideWriteSector_addressed (hinit : ideInit master slave ≠ 0) (disk buf : Mem) :
    ∀ s ∈ t.addressed (ideWriteSectorOuts (ideInit master slave) lba),
      ideWriteSector disk lba buf = fun a => if a / 512 = s then buf (a % 512) else disk a := by
  intro s hs
  have haddr : t.addressed (ideWriteSectorOuts (ideInit master slave) lba) = [lba % 2^28] :=
    addressed_commandSector hinit
  rw [haddr, List.mem_singleton] at hs
  rw [hs]
  rfl

end Driver

/-! ### The sectors of the clusters -/

/-- The two sector transfers, by their commands. -/
def IsTransfer (cmd : ℕ) : Prop := cmd = 0x20 ∨ cmd = 0x30

/-- `lba` is `cluster_to_lba` of a cluster, plus a sector of it, as the loops of `disk_read` and
`disk_write` add them. -/
def sectorLba (fs : Fs) (c j : ℕ) : ℕ := (clusterToLba fs c + j) % 2^32

/-- The same in the numbers of mathematics. -/
def exactLba (fs : Fs) (c j : ℕ) : ℕ := fs.firstDataSector + (c - 2) * fs.sectorsPerCluster + j

/-- A data cluster and one of its sectors. -/
def Fs.HasSector (fs : Fs) (c j : ℕ) : Prop := fs.IsData c ∧ j < fs.sectorsPerCluster

/-- The reserved sectors, with the boot sector, and at least one FAT come before the data, and a FAT
has an entry for each cluster. -/
structure Bpb.LaidOut (b : Bpb) : Prop extends b.Consistent where
  boot : 0 < b.reservedSectors
  hasFat : 0 < b.numFats

/-- The drive is given its commands at the sectors of the clusters, and these are different sectors,
none of them the boot sector or one of a FAT. -/
structure SectorsApart (b : Bpb) (fs : Fs) (sel : ℕ) : Prop where
  exact : ∀ c j cmd t, fs.HasSector c j → IsTransfer cmd →
    TaskFile.addressed t (ideCommandSector cmd sel (sectorLba fs c j)) = [exactLba fs c j]
  distinct : ∀ c j c' j' cmd cmd' t t', fs.HasSector c j → fs.HasSector c' j' → (c, j) ≠ (c', j') →
    IsTransfer cmd → IsTransfer cmd' →
    TaskFile.addressed t (ideCommandSector cmd sel (sectorLba fs c j)) ≠
      TaskFile.addressed t' (ideCommandSector cmd' sel (sectorLba fs c' j'))
  spared : ∀ c j cmd t, fs.HasSector c j → IsTransfer cmd →
    ∀ s ∈ TaskFile.addressed t (ideCommandSector cmd sel (sectorLba fs c j)),
      s ≠ 0 ∧ ¬ (b.reservedSectors ≤ s ∧ s < b.reservedSectors + b.numFats * b.fatSize32)

/-- The sectors after the reserved ones and the FATs. -/
def Bpb.dataSectors (b : Bpb) : ℕ :=
  b.totalSectors - (b.reservedSectors + b.numFats * b.fatSize32)

/-- The last sector of the last cluster, if there is a cluster, has a number of 28 bits. -/
def Bpb.Within28 (b : Bpb) : Prop :=
  b.dataSectors / b.sectorsPerCluster = 0 ∨
    b.reservedSectors + b.numFats * b.fatSize32 +
      b.dataSectors / b.sectorsPerCluster * b.sectorsPerCluster ≤ 2^28

section Sectors
variable {b : Bpb} {fs : Fs} {c j c' j' : ℕ}

theorem mounted_fs {boot : Mem} {readOk heap : ℕ → Bool} {size : ℕ} {writes : List ℕ}
    (h : fat32MountCall boot readOk heap = .mounted fs size writes) :
    fs = (bpbOf boot).fs ∧ 0 < fs.sectorsPerCluster := by
  unfold fat32MountCall at h
  dsimp only at h
  split at h
  · cases h
  split at h
  · cases h
  split at h
  · cases h
  split at h
  · cases h
  next hspc =>
    split at h
    · cases h
    split at h
    · have hfs := (MountOutcome.mounted.inj h).1
      rw [← hfs]
      exact ⟨Eq.refl _, Nat.pos_of_ne_zero hspc⟩
    · cases h

theorem Bpb.LaidOut.fs_eq (hb : b.LaidOut) (hlt : b.totalSectors < 2^32) :
    b.fs.firstDataSector = b.reservedSectors + b.numFats * b.fatSize32 ∧
      b.fs.totalClusters = b.dataSectors / b.sectorsPerCluster := by
  have hfirst : b.fs.firstDataSector = (b.reservedSectors + b.numFats * b.fatSize32) % 2^32 := rfl
  have hfits := hb.fits
  have hexact : b.fs.firstDataSector = b.reservedSectors + b.numFats * b.fatSize32 :=
    hfirst.trans (Nat.mod_eq_of_lt (by omega))
  refine ⟨hexact, ?_⟩
  change (b.totalSectors + (2^32 - b.fs.firstDataSector)) % 2^32 / b.sectorsPerCluster = _
  have hdata : (b.totalSectors + (2^32 - b.fs.firstDataSector)) % 2^32 = b.dataSectors := by
    rw [hexact]
    unfold Bpb.dataSectors
    omega
  rw [hdata]

/-- The data area ends within the volume, so 32 bits are enough for its sectors. -/
theorem Bpb.LaidOut.noWrap (hb : b.LaidOut) (hlt : b.totalSectors < 2^32) : b.fs.NoWrap := by
  have hfs := hb.fs_eq hlt
  have hmul : b.dataSectors / b.sectorsPerCluster * b.sectorsPerCluster ≤ b.dataSectors :=
    Nat.div_mul_le_self _ _
  have hfits := hb.fits
  unfold Fs.NoWrap
  rw [hfs.1, hfs.2]
  change _ + b.dataSectors / b.sectorsPerCluster * b.sectorsPerCluster ≤ 2^32
  unfold Bpb.dataSectors at hmul ⊢
  omega

theorem sectorLba_eq (hw : fs.NoWrap) (hs : fs.HasSector c j) : sectorLba fs c j =
    exactLba fs c j := by
  have hadd := clusterToLba_add hw hs.1 hs.2
  unfold sectorLba exactLba
  rw [Nat.mod_eq_of_lt hadd.2, hadd.1]
  omega

/-- The sectors of the clusters lie between the first data sector and the end of the data area. -/
theorem exactLba_bounds (hs : fs.HasSector c j) : fs.firstDataSector ≤ exactLba fs c j ∧
    exactLba fs c j < fs.firstDataSector + fs.totalClusters * fs.sectorsPerCluster := by
  have hc := hs.1
  have hj := hs.2
  have hmul : (c - 2 + 1) * fs.sectorsPerCluster ≤ fs.totalClusters * fs.sectorsPerCluster := by
    apply Nat.mul_le_mul_right
    have := hc.2
    have := hc.1
    omega
  rw [Nat.succ_mul] at hmul
  unfold exactLba
  omega

/-- The number of a sector determines the cluster and the place in it. -/
theorem exactLba_inj (hs : fs.HasSector c j) (hs' : fs.HasSector c' j')
    (h : exactLba fs c j = exactLba fs c' j') : (c, j) = (c', j') := by
  have hspc : 0 < fs.sectorsPerCluster := Nat.zero_lt_of_lt hs.2
  have hsum : (c - 2) * fs.sectorsPerCluster + j = (c' - 2) * fs.sectorsPerCluster + j' := by
    unfold exactLba at h
    omega
  have hquot : ∀ x i, i < fs.sectorsPerCluster →
      (x * fs.sectorsPerCluster + i) / fs.sectorsPerCluster = x := by
    intro x i hi
    rw [Nat.mul_comm, Nat.mul_add_div hspc, Nat.div_eq_of_lt hi, Nat.add_zero]
  have hc : c - 2 = c' - 2 := by
    calc c - 2 = ((c - 2) * fs.sectorsPerCluster + j) / fs.sectorsPerCluster :=
      (hquot _ _ hs.2).symm
      _ = ((c' - 2) * fs.sectorsPerCluster + j') / fs.sectorsPerCluster := by rw [hsum]
      _ = c' - 2 := hquot _ _ hs'.2
  rw [hc] at hsum
  have h2 := hs.1.1
  have h2' := hs'.1.1
  have hcc : c = c' := by omega
  have hjj : j = j' := by omega
  rw [hcc, hjj]

end Sectors

/-- The sectors of the clusters are addressed as they are numbered exactly when the last of them has
a number of 28 bits. -/
theorem sectors_apart_iff (boot : Mem) (readOk heap : ℕ → Bool) (fs : Fs) (size : ℕ)
    (writes : List ℕ) (master slave : Bool)
    (hmount : fat32MountCall boot readOk heap = .mounted fs size writes)
    (hb : (bpbOf boot).LaidOut) (hinit : ideInit master slave ≠ 0) :
    SectorsApart (bpbOf boot) fs (ideInit master slave) ↔ (bpbOf boot).Within28 := by
  have hlt := bpbOf_lt boot
  have hfs := mounted_fs hmount
  have hspc := hfs.2
  have hgeo := hb.fs_eq hlt
  have hw := hb.noWrap hlt
  rw [hfs.1] at hspc ⊢
  generalize bpbOf boot = b at hb hspc hgeo hw ⊢
  change 0 < b.sectorsPerCluster at hspc
  have haddr : ∀ c j cmd t, b.fs.HasSector c j →
      TaskFile.addressed t (ideCommandSector cmd (ideInit master slave) (sectorLba b.fs c j)) =
        [exactLba b.fs c j % 2^28] := by
    intro c j cmd t hs
    rw [addressed_commandSector hinit, sectorLba_eq hw hs]
  unfold Bpb.Within28
  rw [← hgeo.1, ← hgeo.2]
  constructor
  · intro hap
    by_cases hnone : b.fs.totalClusters = 0
    · exact Or.inl hnone
    right
    -- the last sector of the last cluster
    have hlast : b.fs.HasSector (b.fs.totalClusters + 1) (b.sectorsPerCluster - 1) :=
      ⟨⟨by omega, by omega⟩, Nat.sub_lt hspc Nat.one_pos⟩
    have hexact := hap.exact _ _ 0x20 ⟨0, 0, 0, 0⟩ hlast (Or.inl (Eq.refl _))
    rw [haddr _ _ _ _ hlast] at hexact
    have hmod : exactLba b.fs (b.fs.totalClusters + 1) (b.sectorsPerCluster - 1) % 2^28 =
        exactLba b.fs (b.fs.totalClusters + 1) (b.sectorsPerCluster - 1) :=
          List.singleton_inj.mp hexact
    have hsub : b.fs.totalClusters + 1 - 2 + 1 = b.fs.totalClusters := by omega
    have hmul : (b.fs.totalClusters + 1 - 2) * b.sectorsPerCluster + b.sectorsPerCluster =
        b.fs.totalClusters * b.sectorsPerCluster := by
      rw [← Nat.succ_mul, Nat.succ_eq_add_one, hsub]
    have hval : exactLba b.fs (b.fs.totalClusters + 1) (b.sectorsPerCluster - 1) + 1 =
        b.fs.firstDataSector + b.fs.totalClusters * b.sectorsPerCluster := by
      change b.fs.firstDataSector + (b.fs.totalClusters + 1 - 2) * b.sectorsPerCluster +
        (b.sectorsPerCluster - 1) + 1 = _
      omega
    omega
  · intro h28
    have hsmall : ∀ c j, b.fs.HasSector c j → exactLba b.fs c j < 2^28 := by
      intro c j hs
      have hbound := (exactLba_bounds hs).2
      change _ < _ + b.fs.totalClusters * b.sectorsPerCluster at hbound
      cases h28 with
      | inl hnone =>
        rw [hnone] at hbound
        have := (exactLba_bounds hs).1
        omega
      | inr hle => omega
    have hsent : ∀ c j cmd t, b.fs.HasSector c j →
        TaskFile.addressed t (ideCommandSector cmd (ideInit master slave) (sectorLba b.fs c j)) =
          [exactLba b.fs c j] := by
      intro c j cmd t hs
      rw [haddr c j cmd t hs, Nat.mod_eq_of_lt (hsmall c j hs)]
    constructor
    · intro c j cmd t hs _
      exact hsent c j cmd t hs
    · intro c j c' j' cmd cmd' t t' hs hs' hne _ _ heq
      rw [hsent c j cmd t hs, hsent c' j' cmd' t' hs'] at heq
      exact hne (exactLba_inj hs hs' (List.singleton_inj.mp heq))
    · intro c j cmd t hs _ s hmem
      rw [hsent c j cmd t hs, List.mem_singleton] at hmem
      have hge := (exactLba_bounds hs).1
      have hboot := hb.boot
      rw [hmem]
      omega

/-- The boot sector of a volume with clusters of 128 sectors, 128 reserved sectors and one FAT of
16512; `top` is the upper byte of the number of its sectors. -/
def volumeBoot (top : Byte) : Mem := fun a =>
  if a = 0x0C then 2#8 else if a = 0x0D then 0x80#8 else if a = 0x0E then 0x80#8
  else if a = 0x10 then 1#8 else if a = 0x21 then 5#8 else if a = 0x23 then top
  else if a = 0x24 then 0x80#8 else if a = 0x25 then 0x40#8 else if a = 0x2C then 2#8
  else if a = 0x42 then 0x29#8 else 0#8

def volumeBpb (totalSectors : ℕ) : Bpb where
  bytesPerSector := 512
  sectorsPerCluster := 128
  reservedSectors := 128
  numFats := 1
  totalSectors16 := 0
  totalSectors32 := totalSectors
  fatSize32 := 16512
  rootCluster := 2
  signature := 0x29

/-- 8 GB, and a little more than 128 GB. -/
theorem bpbOf_volumeBoot : bpbOf (volumeBoot 1#8) = volumeBpb 0x01000500 ∧
    bpbOf (volumeBoot 0x10#8) = volumeBpb 0x10000500 := by decide

theorem mount_volume {boot : Mem} {n : ℕ} (hb : bpbOf boot = volumeBpb n) : ∃ size writes,
    fat32MountCall boot (fun _ => true) (fun _ => true) =
      .mounted (volumeBpb n).fs size writes := by
  have hread : (readFat (fun _ => true) 0 16512).2 = true := by
    obtain ⟨k, -, -, -, hend⟩ := readFat_spec (fun _ => true) 16512 0
    rcases hend with h | h
    · exact h.1
    · exact absurd h.2.2 (by decide)
  unfold fat32MountCall
  rw [hb]
  dsimp only [volumeBpb]
  rw [if_neg (by decide), if_neg (by decide), if_neg (by decide), if_neg (by decide),
    if_neg (by decide), if_pos hread]
  exact ⟨_, _, Eq.refl _⟩

theorem large_laidOut : (bpbOf (volumeBoot 0x10#8)).LaidOut := by
  rw [bpbOf_volumeBoot.2]
  exact ⟨⟨by decide, by decide⟩, by decide, by decide⟩

/-- The sectors of the 8 GB volume are apart, those of the 128 GB volume are not. -/
theorem sectors_apart_volumes :
    SectorsApart (bpbOf (volumeBoot 1#8)) (volumeBpb 0x01000500).fs (ideInit true false) ∧
      ¬ SectorsApart (bpbOf (volumeBoot 0x10#8)) (volumeBpb 0x10000500).fs
        (ideInit true false) := by
  have hsmall : (bpbOf (volumeBoot 1#8)).LaidOut := by
    rw [bpbOf_volumeBoot.1]
    exact ⟨⟨by decide, by decide⟩, by decide, by decide⟩
  obtain ⟨size, writes, hm⟩ := mount_volume bpbOf_volumeBoot.1
  obtain ⟨size', writes', hm'⟩ := mount_volume bpbOf_volumeBoot.2
  constructor
  · apply (sectors_apart_iff _ _ _ _ size writes true false hm hsmall (by decide)).mpr
    rw [bpbOf_volumeBoot.1]
    exact Or.inr (by decide)
  · intro hap
    have h28 := (sectors_apart_iff _ _ _ _ size' writes' true false hm' large_laidOut
      (by decide)).mp hap
    rw [bpbOf_volumeBoot.2] at h28
    revert h28
    unfold Bpb.Within28
    decide

/-- Cluster 2097024 of the large volume is sector 2^28 of the disk, and its first sector is read and
written as sector 0. -/
theorem large_volume_overwrites_boot_sector : ¬ ∀ boot readOk heap fs size writes master slave,
    fat32MountCall boot readOk heap = .mounted fs size writes → (bpbOf boot).LaidOut →
    ideInit master slave ≠ 0 → SectorsApart (bpbOf boot) fs (ideInit master slave) := by
  intro hall
  obtain ⟨size, writes, hmount⟩ := mount_volume bpbOf_volumeBoot.2
  have hinit : ideInit true false ≠ 0 := by decide
  have hap := hall _ _ _ _ size writes true false hmount large_laidOut hinit
  have hspared := hap.spared 2097024 0 0x30 ⟨0, 0, 0, 0⟩ ⟨⟨by decide, by decide⟩, by decide⟩
    (Or.inr (Eq.refl _))
  rw [addressed_commandSector hinit] at hspared
  have hlba : sectorLba (volumeBpb 0x10000500).fs 2097024 0 % 2^28 = 0 := by decide
  exact (hspared 0 (by rw [hlba]; exact List.mem_singleton.mpr (Eq.refl _))).1 (Eq.refl _)

end SukiOS.Fat32

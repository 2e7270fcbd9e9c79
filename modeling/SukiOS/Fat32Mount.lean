import SukiOS.Fat32Ops

/-! Mounting from any boot sector, with reads that may fail and a heap that may be full. -/
namespace SukiOS.Fat32
open ByteMemory

/-! ### `fat32_mount` with its failures -/

/-- The fields of `fat32_bpb_t` that `fat32_mount` reads. -/
structure Bpb where
  bytesPerSector : ℕ
  sectorsPerCluster : ℕ
  reservedSectors : ℕ
  numFats : ℕ
  totalSectors16 : ℕ
  totalSectors32 : ℕ
  fatSize32 : ℕ
  rootCluster : ℕ
  signature : ℕ
deriving DecidableEq, Repr

def bpbOf (boot : Mem) : Bpb where
  bytesPerSector := load boot 0x0B 2
  sectorsPerCluster := load boot 0x0D 1
  reservedSectors := load boot 0x0E 2
  numFats := load boot 0x10 1
  totalSectors16 := load boot 0x13 2
  totalSectors32 := load boot 0x20 4
  fatSize32 := load boot 0x24 4
  rootCluster := load boot 0x2C 4
  signature := load boot 0x42 1

def Bpb.totalSectors (b : Bpb) : ℕ :=
  if b.totalSectors16 ≠ 0 then b.totalSectors16 else b.totalSectors32

/-- The fields of `fat32_fs_t` as `fat32_mount` computes them, in 32 bits. -/
def Bpb.fs (b : Bpb) : Fs :=
  let firstDataSector := (b.reservedSectors + b.numFats * b.fatSize32) % 2^32
  let dataSectors := (b.totalSectors + (2^32 - firstDataSector)) % 2^32
  { firstDataSector := firstDataSector, dataSectors := dataSectors
    totalClusters := dataSectors / b.sectorsPerCluster, fatStartSector := b.reservedSectors
    fatSizeSectors := b.fatSize32, sectorsPerCluster := b.sectorsPerCluster
    bytesPerSector := 512, rootCluster := b.rootCluster }

/-- `kmalloc` gives a block: `heap` says for which sizes there is one. -/
def kmallocGives (heap : ℕ → Bool) (size : ℕ) : Bool := size ≠ 0 && size ≤ heapMaxAlloc && heap size

/-- The loop of `disk_read` from sector `i` on: the offsets in the buffer at which a sector was
written, and whether all reads succeeded. The offset `i * 512` is a product of 32 bits. -/
def readFat (readOk : ℕ → Bool) (i : ℕ) : ℕ → List ℕ × Bool
  | 0 => ([], true)
  | n+1 =>
    if readOk (i+1) then
      let r := readFat readOk (i+1) n
      (i*512 % 2^32 :: r.1, r.2)
    else ([], false)

/-- How a call ends: in a division by zero, with -1, or with 0; with the size asked of `kmalloc` and
the offsets in that buffer at which a sector was written. -/
inductive MountOutcome
  | fault
  | failed (bufSize : ℕ) (writes : List ℕ)
  | mounted (fs : Fs) (bufSize : ℕ) (writes : List ℕ)

/-- `readOk k` says whether the call `k` of `ide_read_sector` succeeds. -/
def fat32MountCall (boot : Mem) (readOk heap : ℕ → Bool) : MountOutcome :=
  if readOk 0 = false then .failed 0 []
  else
    let bpb := bpbOf boot
    if bpb.signature ≠ 0x28 ∧ bpb.signature ≠ 0x29 then .failed 0 []
    else if bpb.bytesPerSector ≠ 512 then .failed 0 []
    else if bpb.sectorsPerCluster = 0 then .fault
    else
      let size := bpb.fatSize32 * 512 % 2^32
      if kmallocGives heap size = false then .failed 0 []
      else
        let r := readFat readOk 0 bpb.fatSize32
        if r.2 then .mounted bpb.fs size r.1 else .failed size r.1

/-- The constants are those of the mount without failures. -/
theorem fat32Mount_fs {disk : Mem} {fs : Fs} {v : Vol} (h : fat32Mount disk = some (fs, v)) :
    fs = (bpbOf (ideReadSector disk 0)).fs := by
  unfold fat32Mount at h
  dsimp only at h
  split at h
  · cases h
  split at h
  · cases h
  split at h
  · cases h
  · exact (Prod.mk.inj (Option.some.inj h)).1.symm

/-! ### Safe calls -/

/-- No division by zero, no write outside the buffer, and after a result of 0 the constants are
exact and the buffer has an entry for each cluster. -/
def MountSafe (boot : Mem) (readOk heap : ℕ → Bool) : Prop :=
  let b := bpbOf boot
  match fat32MountCall boot readOk heap with
  | .fault => False
  | .failed bufSize writes => ∀ o ∈ writes, o + 512 ≤ bufSize
  | .mounted fs bufSize writes =>
    (∀ o ∈ writes, o + 512 ≤ bufSize) ∧ 0 < fs.sectorsPerCluster ∧
    fs.firstDataSector = b.reservedSectors + b.numFats * b.fatSize32 ∧
    fs.dataSectors + fs.firstDataSector = b.totalSectors ∧
    bufSize = b.fatSize32 * 512 ∧ 4 * (fs.totalClusters + 2) ≤ bufSize

/-- The checks that `fat32_mount` makes. -/
def Bpb.Accepted (b : Bpb) : Prop :=
  (b.signature = 0x28 ∨ b.signature = 0x29) ∧ b.bytesPerSector = 512

/-- The reserved sectors and the FATs fit on the volume, and a FAT has an entry for each cluster. -/
structure Bpb.Consistent (b : Bpb) : Prop where
  fits : b.reservedSectors + b.numFats * b.fatSize32 ≤ b.totalSectors
  entries : (b.totalSectors - (b.reservedSectors + b.numFats * b.fatSize32)) / b.sectorsPerCluster +
    2 ≤
    128 * b.fatSize32

/-- A boot sector that is not rejected has clusters of some sectors; a FAT of less than 4 GB that is
read whole belongs to a consistent volume, and of a larger one a read fails before the buffer,
which is asked for in 32 bits, is full. -/
def MountWithinBounds (boot : Mem) (readOk heap : ℕ → Bool) : Prop :=
  let b := bpbOf boot
  readOk 0 = true → b.Accepted → b.sectorsPerCluster ≠ 0 ∧
    (kmallocGives heap (b.fatSize32 * 512 % 2^32) = true →
      (b.fatSize32 < 2^23 → (∀ i, i < b.fatSize32 → readOk (i+1) = true) → b.Consistent) ∧
      (2^23 ≤ b.fatSize32 → ∃ i, i ≤ b.fatSize32 % 2^23 ∧ readOk (i+1) = false))

section Mount
variable {boot : Mem} {readOk heap : ℕ → Bool} {b : Bpb}

/-- The loop stops at the first read that fails. -/
theorem readFat_spec (readOk : ℕ → Bool) (n : ℕ) : ∀ i, ∃ k, k ≤ n ∧
    (readFat readOk i n).1 = (List.range k).map (fun t => (i+t)*512 % 2^32) ∧
    (∀ t, t < k → readOk (i+t+1) = true) ∧
    ((readFat readOk i n).2 = true ∧ k = n ∨
      (readFat readOk i n).2 = false ∧ k < n ∧ readOk (i+k+1) = false) := by
  induction n with
  | zero =>
    intro i
    exact ⟨0, le_rfl, rfl, fun t ht => absurd ht (Nat.not_lt_zero t), Or.inl ⟨rfl, rfl⟩⟩
  | succ n ih =>
    intro i
    unfold readFat
    cases hr : readOk (i+1) with
    | false =>
      rw [if_neg (by decide)]
      exact ⟨0, Nat.zero_le _, rfl, fun t ht => absurd ht (Nat.not_lt_zero t),
        Or.inr ⟨rfl, Nat.succ_pos n, hr⟩⟩
    | true =>
      obtain ⟨k, hk, hw, hok, hend⟩ := ih (i+1)
      rw [if_pos rfl]
      have hnext : ∀ t, i + 1 + t = i + (t+1) := fun t => by omega
      refine ⟨k+1, Nat.succ_le_succ hk, ?_, ?_, ?_⟩
      · rw [List.range_succ_eq_map, List.map_cons, List.map_map, Nat.add_zero]
        dsimp only
        rw [hw]
        apply congrArg
        apply List.map_congr_left
        intro t _
        rw [hnext]
        rfl
      · intro t ht
        cases t with
        | zero => exact hr
        | succ t =>
          have := hok t (by omega)
          rwa [hnext] at this
      · rw [hnext] at hend
        rcases hend with ⟨h1, h2⟩ | ⟨h1, h2, h3⟩
        · exact Or.inl ⟨h1, by omega⟩
        · exact Or.inr ⟨h1, by omega, h3⟩

theorem bpbOf_lt (boot : Mem) : (bpbOf boot).totalSectors < 2^32 := by
  have h16 : load boot 0x13 2 < 256^2 := load_lt _ _ 2
  have h32 : load boot 0x20 4 < 256^4 := load_lt _ _ 4
  unfold Bpb.totalSectors bpbOf
  dsimp only
  split <;> omega

/-- The constants are exact, and covered by the FAT, when the volume is consistent. -/
theorem Bpb.consistent_iff (b : Bpb) (hlt : b.totalSectors < 2^32) :
    (b.fs.firstDataSector = b.reservedSectors + b.numFats * b.fatSize32 ∧
      b.fs.dataSectors + b.fs.firstDataSector = b.totalSectors ∧
      4 * (b.fs.totalClusters + 2) ≤ b.fatSize32 * 512) ↔ b.Consistent := by
  have hfirst : b.fs.firstDataSector = (b.reservedSectors + b.numFats * b.fatSize32) % 2^32 := rfl
  have hdata : b.fs.dataSectors = (b.totalSectors + (2^32 - b.fs.firstDataSector)) % 2^32 := rfl
  have htotal : b.fs.totalClusters = b.fs.dataSectors / b.sectorsPerCluster := rfl
  constructor
  · rintro ⟨h1, h2, h3⟩
    have hsub : b.fs.dataSectors =
        b.totalSectors - (b.reservedSectors + b.numFats * b.fatSize32) := by omega
    rw [htotal, hsub] at h3
    exact ⟨by omega, by omega⟩
  · rintro ⟨hfits, hentries⟩
    have h1 : b.fs.firstDataSector = b.reservedSectors + b.numFats * b.fatSize32 := by
      rw [hfirst]
      exact Nat.mod_eq_of_lt (by omega)
    have hsub : b.fs.dataSectors =
        b.totalSectors - (b.reservedSectors + b.numFats * b.fatSize32) := by omega
    rw [htotal, hsub]
    exact ⟨h1, by omega, by omega⟩

/-- The first `k` writes of the loop stay in the buffer until it is full. -/
theorem writes_inside (k n : ℕ) :
    (∀ o ∈ (List.range k).map (fun t => (0+t)*512 % 2^32), o + 512 ≤ n * 512 % 2^32) ↔
      k ≤ n % 2^23 := by
  constructor
  · intro hall
    by_contra hlt
    have ho := hall (n % 2^23 * 512) (List.mem_map.mpr
      ⟨n % 2^23, List.mem_range.mpr (by omega), by omega⟩)
    omega
  · intro hle o ho
    obtain ⟨t, ht, rfl⟩ := List.mem_map.mp ho
    have ht := List.mem_range.mp ht
    omega

/-- A FAT that is read whole fills the buffer that was asked for, unless its size overflows; then a
read would have failed before. -/
theorem Bpb.whole_fat_iff (b : Bpb) (hlt : b.totalSectors < 2^32) (hspc : b.sectorsPerCluster ≠ 0)
    (hok : ∀ i, i < b.fatSize32 → readOk (i+1) = true) :
    (b.fatSize32 ≤ b.fatSize32 % 2^23 ∧ 0 < b.fs.sectorsPerCluster ∧
      b.fs.firstDataSector = b.reservedSectors + b.numFats * b.fatSize32 ∧
      b.fs.dataSectors + b.fs.firstDataSector = b.totalSectors ∧
      b.fatSize32 * 512 % 2^32 = b.fatSize32 * 512 ∧
      4 * (b.fs.totalClusters + 2) ≤ b.fatSize32 * 512 % 2^32) ↔
    (b.fatSize32 < 2^23 → (∀ i, i < b.fatSize32 → readOk (i+1) = true) → b.Consistent) ∧
      (2^23 ≤ b.fatSize32 → ∃ i, i ≤ b.fatSize32 % 2^23 ∧ readOk (i+1) = false) := by
  have hcons := b.consistent_iff hlt
  constructor
  · rintro ⟨hfit, -, h1, h2, hsize, h4⟩
    rw [hsize] at h4
    exact ⟨fun _ _ => hcons.mp ⟨h1, h2, h4⟩, fun hlarge => by omega⟩
  · rintro ⟨hsmall, hlarge⟩
    have hn : b.fatSize32 < 2^23 := by
      by_contra hge
      obtain ⟨i, hi, hbad⟩ := hlarge (by omega)
      rw [hok i (by omega)] at hbad
      cases hbad
    obtain ⟨h1, h2, h4⟩ := hcons.mpr (hsmall hn hok)
    have hsize : b.fatSize32 * 512 % 2^32 = b.fatSize32 * 512 := Nat.mod_eq_of_lt (by omega)
    rw [hsize]
    exact ⟨by omega, Nat.pos_of_ne_zero hspc, h1, h2, rfl, h4⟩

/-- The first read that fails, after `k` sectors, comes before the buffer is full. -/
theorem Bpb.broken_fat_iff (b : Bpb) {k : ℕ} (hk : k < b.fatSize32)
    (hok : ∀ i, i < k → readOk (i+1) = true) (hbad : readOk (k+1) = false) :
    k ≤ b.fatSize32 % 2^23 ↔
    (b.fatSize32 < 2^23 → (∀ i, i < b.fatSize32 → readOk (i+1) = true) → b.Consistent) ∧
      (2^23 ≤ b.fatSize32 → ∃ i, i ≤ b.fatSize32 % 2^23 ∧ readOk (i+1) = false) := by
  constructor
  · intro hfit
    refine ⟨fun _ hall => ?_, fun _ => ⟨k, hfit, hbad⟩⟩
    rw [hall k hk] at hbad
    cases hbad
  · rintro ⟨-, hlarge⟩
    by_cases hn : b.fatSize32 < 2^23
    · omega
    · obtain ⟨i, hi, hbad'⟩ := hlarge (by omega)
      have hki : k ≤ i := by
        by_contra hlt
        rw [hok i (by omega)] at hbad'
        cases hbad'
      omega

end Mount

/-- Mounting is safe exactly within these bounds. -/
theorem mount_safe_iff (boot : Mem) (readOk heap : ℕ → Bool) :
    MountSafe boot readOk heap ↔ MountWithinBounds boot readOk heap := by
  unfold MountSafe MountWithinBounds fat32MountCall
  have hlt := bpbOf_lt boot
  generalize bpbOf boot = b at hlt ⊢
  dsimp only
  cases h0 : readOk 0 with
  | false =>
    rw [if_pos rfl]
    exact ⟨fun _ h => (nomatch h), fun _ o ho => nomatch ho⟩
  | true =>
    rw [if_neg (by decide)]
    by_cases hsig : b.signature ≠ 0x28 ∧ b.signature ≠ 0x29
    · rw [if_pos hsig]
      exact ⟨fun _ _ ha => absurd ha.1 (by tauto), fun _ o ho => nomatch ho⟩
    rw [if_neg hsig]
    by_cases hbps : b.bytesPerSector ≠ 512
    · rw [if_pos hbps]
      exact ⟨fun _ _ ha => absurd ha.2 hbps, fun _ o ho => nomatch ho⟩
    rw [if_neg hbps]
    have ha : b.Accepted := ⟨by tauto, not_not.mp hbps⟩
    by_cases hspc : b.sectorsPerCluster = 0
    · rw [if_pos hspc]
      exact ⟨fun hf => hf.elim, fun hall => absurd hspc (hall rfl ha).1⟩
    rw [if_neg hspc]
    cases hk : kmallocGives heap (b.fatSize32 * 512 % 2^32) with
    | false =>
      rw [if_pos rfl]
      exact ⟨fun _ _ _ => ⟨hspc, fun h => (nomatch h)⟩, fun _ o ho => nomatch ho⟩
    | true =>
      rw [if_neg (by decide)]
      obtain ⟨k, -, hw, hok, hend⟩ := readFat_spec readOk b.fatSize32 0
      have hin := writes_inside k b.fatSize32
      rw [← hw] at hin
      have hzero : ∀ t, 0 + t + 1 = t + 1 := fun t => by omega
      simp only [hzero] at hok
      rw [hzero] at hend
      rcases hend with ⟨htrue, rfl⟩ | ⟨hfalse, hlt', hbad⟩
      · -- the whole FAT was read
        rw [if_pos htrue]
        dsimp only
        rw [hin]
        have hiff := b.whole_fat_iff hlt hspc hok
        exact ⟨fun h _ _ => ⟨hspc, fun _ => hiff.mp h⟩, fun hall => hiff.mpr ((hall rfl ha).2 rfl)⟩
      · -- the read after `k` sectors failed
        rw [if_neg (by rw [hfalse]; decide)]
        dsimp only
        rw [hin]
        have hiff := b.broken_fat_iff hlt' hok hbad
        exact ⟨fun h _ _ => ⟨hspc, fun _ => hiff.mp h⟩, fun hall => hiff.mpr ((hall rfl ha).2 rfl)⟩

/-- A boot sector with the signature and the sector size of FAT32, and no other field set. -/
def zeroClusterBoot : Mem := fun a => if a = 0x0C then 2#8 else if a = 0x42 then 0x29#8 else 0#8

/-- `sectors_per_cluster` is 0. -/
theorem mount_divides_by_zero : ¬ ∀ boot readOk heap, MountSafe boot readOk heap := by
  intro hall
  have hsafe := hall zeroClusterBoot (fun _ => true) (fun _ => true)
  have hfault : fat32MountCall zeroClusterBoot (fun _ => true) (fun _ => true) = .fault := rfl
  unfold MountSafe at hsafe
  dsimp only at hsafe
  rw [hfault] at hsafe
  exact hsafe

end SukiOS.Fat32

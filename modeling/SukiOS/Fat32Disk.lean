import SukiOS.Heap
import SukiOS.Fat32
import SukiOS.Lib.Chain

/-! Where the clusters and the FAT lie on the disk, what writing one cluster or the FAT leaves
alone, and the chains of the cached FAT. -/
namespace SukiOS.Fat32
open ByteMemory LinkedChain

/-! ### Sectors on the disk -/

section Disk
variable {disk buf : Mem} {lba n o a i : ℕ}

theorem diskRead_apply (disk : Mem) (lba : ℕ) (buf : Mem) (n o : ℕ) : diskRead disk lba buf n o =
    if o / 512 < n then disk ((lba + o/512) % 2^32 % 2^28 * 512 + o % 512) else buf o := by
  induction n with
  | zero => rw [diskRead, if_neg (by omega)]
  | succ n ih =>
    unfold diskRead
    by_cases h : o / 512 = n
    · rw [if_pos h, if_pos (by omega), h]
      rfl
    · rw [if_neg h, ih]
      by_cases h' : o / 512 < n
      · rw [if_pos h', if_pos (by omega)]
      · rw [if_neg h', if_neg (by omega)]

theorem diskWrite_off (h : ∀ i, i < n → a / 512 ≠ (lba + i) % 2^32 % 2^28) :
    diskWrite disk lba buf n a = disk a := by
  induction n with
  | zero => rfl
  | succ n ih =>
    unfold diskWrite ideWriteSector
    rw [if_neg (h n (by omega))]
    exact ih (fun i hi => h i (by omega))

theorem diskWrite_on (hi : i < n) (ha : a / 512 = (lba + i) % 2^32 % 2^28)
    (hinj : ∀ j, j < n → (lba + j) % 2^32 % 2^28 = (lba + i) % 2^32 % 2^28 → j = i) :
    diskWrite disk lba buf n a = buf (i*512 + a % 512) := by
  induction n with
  | zero => omega
  | succ n ih =>
    unfold diskWrite ideWriteSector
    by_cases hn : i = n
    · rw [← hn, if_pos ha]
    · have hne : ¬ a / 512 = (lba + n) % 2^32 % 2^28 := by
        intro h
        have hin := hinj n (by omega) (h.symm.trans ha)
        exact hn hin.symm
      rw [if_neg hne]
      exact ih (by omega) (fun j hj => hinj j (by omega))

end Disk

/-! ### Clusters and the FAT -/

/-- A data cluster. -/
def Fs.IsData (fs : Fs) (c : ℕ) : Prop := 2 ≤ c ∧ c < fs.totalClusters + 2

instance (fs : Fs) (c : ℕ) : Decidable (fs.IsData c) := inferInstanceAs (Decidable (_ ∧ _))

/-- The sector of the disk that holds sector `k` of the cluster `c`. -/
def sectorOf (fs : Fs) (c k : ℕ) : ℕ := (clusterToLba fs c + k) % 2^32 % 2^28

/-- The sector of the disk that holds sector `j` of the FAT. -/
def fatSector (fs : Fs) (j : ℕ) : ℕ := (fs.fatStartSector + j) % 2^32 % 2^28

/-- The clusters and the FAT do not share sectors. -/
structure Fs.Apart (fs : Fs) : Prop where
  inj : ∀ c c' k k', fs.IsData c → fs.IsData c' → k < fs.sectorsPerCluster →
    k' < fs.sectorsPerCluster → sectorOf fs c k = sectorOf fs c' k' → c = c' ∧ k = k'
  fat : ∀ c k j, fs.IsData c → k < fs.sectorsPerCluster → j < fs.fatSizeSectors →
    sectorOf fs c k ≠ fatSector fs j

/-- The cached FAT, one block of the kernel heap, has an entry for each cluster. -/
structure Fs.Covers (fs : Fs) : Prop where
  entries : fs.totalClusters + 2 ≤ 128 * fs.fatSizeSectors
  block : fs.fatSizeSectors * 512 ≤ heapMaxAlloc

/-- What `fat32_mount` makes of a boot sector. -/
def Fs.Mounted (fs : Fs) : Prop := ∃ disk v, fat32Mount disk = some (fs, v)

/-- The facts about a mounted volume that the proofs use. -/
structure Fs.Ok (fs : Fs) : Prop where
  sectors : 0 < fs.sectorsPerCluster ∧ fs.sectorsPerCluster < 256
  bytes : fs.bytesPerSector = 512
  covers : fs.Covers
  apart : fs.Apart

theorem Fs.Mounted.sectors {fs : Fs} (h : fs.Mounted) :
    (0 < fs.sectorsPerCluster ∧ fs.sectorsPerCluster < 256) ∧ fs.bytesPerSector = 512 := by
  obtain ⟨disk, v, h⟩ := h
  unfold fat32Mount at h
  dsimp only at h
  split at h
  · cases h
  split at h
  · cases h
  split at h
  · cases h
  · rename_i hs
    have hfs := (Prod.mk.inj (Option.some.inj h)).1
    rw [← hfs]
    refine ⟨⟨Nat.pos_of_ne_zero hs, ?_⟩, rfl⟩
    exact load_lt _ _ 1

theorem Fs.Mounted.ok {fs : Fs} (h : fs.Mounted) (hc : fs.Covers) (ha : fs.Apart) : fs.Ok :=
  ⟨h.sectors.1, h.sectors.2, hc, ha⟩

section Cluster
variable {fs : Fs} {v v' : Vol} {c c' n o i j w : ℕ} {buf : Mem}

theorem Fs.Ok.total_lt (hf : fs.Ok) : fs.totalClusters + 2 ≤ 2^26 := by
  have h1 := hf.covers.entries
  have h2 := hf.covers.block
  unfold heapMaxAlloc at h2
  omega

/-- An offset in a cluster lies in one of its sectors. -/
theorem Fs.sector_lt {fs : Fs} {o : ℕ} (ho : o < fs.clusterSize) :
    o / 512 < fs.sectorsPerCluster := by
  unfold Fs.clusterSize at ho
  omega

theorem Fs.Ok.clusterSize_pos (hf : fs.Ok) : 512 ≤ fs.clusterSize := by
  have h := hf.sectors.1
  unfold Fs.clusterSize
  omega

theorem Fs.Ok.clusterSize_lt (hf : fs.Ok) : fs.clusterSize < 2^17 := by
  have h := hf.sectors.2
  unfold Fs.clusterSize
  omega

theorem Fs.entryCount_eq (fs : Fs) : fs.entryCount = 16 * fs.sectorsPerCluster := by
  unfold Fs.entryCount Fs.clusterSize
  omega

theorem readCluster_apply (fs : Fs) (v : Vol) (c o : ℕ) : readCluster fs v c o =
    if o / 512 < fs.sectorsPerCluster then v.disk (sectorOf fs c (o/512) * 512 + o % 512)
    else 0#8 := diskRead_apply _ _ _ _ _

/-- A write keeps the clusters whose sectors it does not touch. -/
theorem readCluster_congr (h : ∀ k, k < fs.sectorsPerCluster → ∀ x, x < 512 →
    v'.disk (sectorOf fs c k * 512 + x) = v.disk (sectorOf fs c k * 512 + x)) :
    readCluster fs v' c = readCluster fs v c := by
  funext o
  rw [readCluster_apply, readCluster_apply]
  by_cases ho : o / 512 < fs.sectorsPerCluster
  · rw [if_pos ho, if_pos ho]
    exact h _ ho _ (Nat.mod_lt _ (by decide))
  · rw [if_neg ho, if_neg ho]

theorem sector_div (k x : ℕ) (hx : x < 512) : (k*512 + x) / 512 = k := by omega

theorem readCluster_writeCluster_other (hf : fs.Ok) (hc : fs.IsData c) (hc' : fs.IsData c')
    (hne : c' ≠ c) : readCluster fs (writeCluster fs v c buf) c' = readCluster fs v c' := by
  apply readCluster_congr
  intro k hk x hx
  apply diskWrite_off
  intro i hi h
  rw [sector_div _ _ hx] at h
  exact hne (hf.apart.inj c' c k i hc' hc hk hi h).1

theorem readCluster_writeCluster (hf : fs.Ok) (hc : fs.IsData c) (ho : o < fs.clusterSize) :
    readCluster fs (writeCluster fs v c buf) c o = buf o := by
  have hk := Fs.sector_lt ho
  rw [readCluster_apply, if_pos hk]
  have hx : o % 512 < 512 := Nat.mod_lt _ (by decide)
  have h : diskWrite v.disk (clusterToLba fs c) buf fs.sectorsPerCluster
      (sectorOf fs c (o/512) * 512 + o % 512) =
      buf (o/512*512 + (sectorOf fs c (o/512) * 512 + o % 512) % 512) :=
    diskWrite_on hk (sector_div _ _ hx) (fun j hj he =>
      (hf.apart.inj c c j (o/512) hc hc hj hk he).2)
  rw [show (writeCluster fs v c buf).disk = diskWrite v.disk (clusterToLba fs c) buf
    fs.sectorsPerCluster from rfl, h]
  congr 1
  omega

theorem readCluster_flush (hf : fs.Ok) (hc : fs.IsData c) :
    readCluster fs (fat32Flush fs v) c = readCluster fs v c := by
  unfold fat32Flush
  by_cases h0 : fs.fatSizeSectors = 0
  · rw [if_pos h0]
  · rw [if_neg h0]
    apply readCluster_congr
    intro k hk x hx
    apply diskWrite_off
    intro j hj h
    rw [sector_div _ _ hx] at h
    exact hf.apart.fat c k j hc hk hj h

@[simp] theorem fat32Flush_fat (v : Vol) : (fat32Flush fs v).fat = v.fat := by
  unfold fat32Flush
  split <;> rfl

/-! ### Entries of the FAT -/

theorem fatGet_fatSet (hw : w < 2^32) : (v.fatSet i w).fatGet j =
    if j = i then w else v.fatGet j := by
  unfold Vol.fatSet Vol.fatGet
  by_cases h : j = i
  · rw [if_pos h, h]
    dsimp only
    rw [load_store]
    exact Nat.mod_eq_of_lt hw
  · rw [if_neg h]
    exact load_store_of_disjoint v.fat (4*i) 4 w (4*j) 4 (by omega)

theorem fatGet_congr (h : v'.fat = v.fat) (i : ℕ) : v'.fatGet i = v.fatGet i := by
  unfold Vol.fatGet
  rw [h]

/-- The link of a cluster that the FAT has an entry for. -/
theorem fatNextCluster_eq (hf : fs.Ok) (hc : fs.IsData c) :
    fatNextCluster fs v c = v.fatGet c &&& 0x0FFFFFFF := by
  have hlt := hf.total_lt
  have hmod : (fs.totalClusters + 2) % 2^32 = fs.totalClusters + 2 := Nat.mod_eq_of_lt (by omega)
  have h2 := hc.1
  have h3 := hc.2
  unfold fatNextCluster
  rw [hmod]
  exact if_neg (by omega)

theorem fatNextCluster_congr (h : v'.fatGet c = v.fatGet c) :
    fatNextCluster fs v' c = fatNextCluster fs v c := by
  unfold fatNextCluster
  rw [h]

theorem land_cluster (hf : fs.Ok) (hc : fs.IsData c) : c &&& 0x0FFFFFFF = c := by
  have hlt := hf.total_lt
  have h3 := hc.2
  exact Nat.and_two_pow_sub_one_of_lt_two_pow (n := 28) (by omega)

theorem Fs.Ok.data_lt_eof (hf : fs.Ok) (hc : fs.IsData c) : c < fatEof := by
  have hlt := hf.total_lt
  have h3 := hc.2
  unfold fatEof
  omega

theorem findFreeFrom_spec (v : Vol) (n : ℕ) : ∀ i, 2 ≤ i →
    (findFreeFrom v i n = 0 ∧ ∀ c, i ≤ c → c < i + n → v.fatGet c &&& 0x0FFFFFFF ≠ 0) ∨
    (i ≤ findFreeFrom v i n ∧ findFreeFrom v i n < i + n ∧
      v.fatGet (findFreeFrom v i n) &&& 0x0FFFFFFF = 0) := by
  induction n with
  | zero =>
    intro i _
    exact Or.inl ⟨rfl, fun c h1 h2 => by omega⟩
  | succ n ih =>
    intro i hi
    unfold findFreeFrom
    by_cases h0 : v.fatGet i &&& 0x0FFFFFFF = 0
    · rw [if_pos h0]
      exact Or.inr ⟨le_rfl, by omega, h0⟩
    · rw [if_neg h0]
      rcases ih (i+1) (by omega) with ⟨h, hall⟩ | ⟨h1, h2, h3⟩
      · refine Or.inl ⟨h, fun c h1 h2 => ?_⟩
        by_cases hci : c = i
        · rw [hci]
          exact h0
        · exact hall c (by omega) (by omega)
      · exact Or.inr ⟨by omega, by omega, h3⟩

/-- `find_free_cluster` finds a data cluster whose entry is free, or there is none. -/
theorem findFreeCluster_spec (hf : fs.Ok) (v : Vol) :
    (findFreeCluster fs v = 0 ∧ ∀ c, fs.IsData c → v.fatGet c &&& 0x0FFFFFFF ≠ 0) ∨
    (fs.IsData (findFreeCluster fs v) ∧ v.fatGet (findFreeCluster fs v) &&& 0x0FFFFFFF = 0) := by
  have hlt := hf.total_lt
  have hmod : (fs.totalClusters + 2) % 2^32 = fs.totalClusters + 2 := Nat.mod_eq_of_lt (by omega)
  unfold findFreeCluster
  rw [hmod, Nat.add_sub_cancel]
  rcases findFreeFrom_spec v fs.totalClusters 2 le_rfl with ⟨h, hall⟩ | ⟨h1, h2, h3⟩
  · exact Or.inl ⟨h, fun c hc => hall c hc.1 (by have := hc.2; omega)⟩
  · exact Or.inr ⟨⟨h1, by omega⟩, h3⟩

end Cluster

/-! ### Chains -/

/-- The clusters of the chain that starts at `c`. -/
def FatChain (fs : Fs) (v : Vol) (c : ℕ) (L : List ℕ) : Prop :=
  Linked (fatNextCluster fs v) (fun x => fatEof ≤ x) fs.IsData c L

section Chain
variable {fs : Fs} {v v' : Vol} {c n t x : ℕ} {K L : List ℕ}

theorem FatChain.isData (h : FatChain fs v c L) (hx : x ∈ L) : fs.IsData x :=
  Linked.ok_of_mem h hx

theorem not_eof (hf : fs.Ok) : ∀ x, fs.IsData x → ¬ fatEof ≤ x :=
  fun _ hx => Nat.not_le.mpr (hf.data_lt_eof hx)

theorem FatChain.unique (hf : fs.Ok) (h : FatChain fs v c K) (h' : FatChain fs v c L) : K = L :=
  Linked.unique (not_eof hf) h h'

theorem FatChain.nodup (hf : fs.Ok) (h : FatChain fs v c L) : L.Nodup :=
  Linked.nodup (not_eof hf) h

/-- The chain depends on the entries of its clusters. -/
theorem FatChain.congr (h : FatChain fs v c L) (hn : ∀ x ∈ L, v'.fatGet x = v.fatGet x) :
    FatChain fs v' c L :=
  Linked.congr h (fun x hx => fatNextCluster_congr (hn x hx))

theorem FatChain.congr_fat (h : FatChain fs v c L) (hfat : v'.fat = v.fat) : FatChain fs v' c L :=
  h.congr (fun x _ => fatGet_congr hfat x)

/-- The entry of a cluster in a chain is not free. -/
theorem FatChain.used (hf : fs.Ok) (h : FatChain fs v c L) (hx : x ∈ L) :
    v.fatGet x &&& 0x0FFFFFFF ≠ 0 := by
  obtain ⟨A, B, rfl⟩ := List.append_of_mem hx
  have hsuf := Linked.suffix h
  have hnext : Linked (fatNextCluster fs v) (fun x => fatEof ≤ x) fs.IsData
      (fatNextCluster fs v x) B := hsuf.2.2
  rw [← fatNextCluster_eq hf (h.isData hx)]
  cases B with
  | nil =>
    have hstop : fatEof ≤ fatNextCluster fs v x := hnext
    unfold fatEof at hstop
    omega
  | cons y B =>
    rw [hnext.1]
    have := hnext.2.1.1
    omega

end Chain

end SukiOS.Fat32

import SukiOS.Fat32Sectors
import SukiOS.Fat32Ops

/-! Seeking and then reading or overwriting: the slice of the file that the calls move. -/
namespace SukiOS.Fat32
open ByteMemory LinkedChain

/-! ### Positions in a file -/

/-- A data cluster below the value that ends a chain. -/
def Fs.InRange (fs : Fs) (c : ℕ) : Prop := fs.IsData c ∧ c < fatEof

/-- `L` are the clusters of the chain from `c` on. -/
def Clusters (fs : Fs) (v : Vol) (c : ℕ) (L : List ℕ) : Prop :=
  Linked (fatNextCluster fs v) (fun x => fatEof ≤ x) fs.InRange c L

/-- The clusters of a file; one without clusters starts at 0. -/
def FileClusters (fs : Fs) (v : Vol) (c : ℕ) (L : List ℕ) : Prop :=
  Clusters fs v c L ∨ c = 0 ∧ L = []

/-- The sector of the disk that holds byte `o` of the cluster `c`. -/
def sectorAt (fs : Fs) (c o : ℕ) : ℕ := (clusterToLba fs c + o/512) % 2^32

section Position
variable {D : Type} {d : SectorDev D} {fs : Fs} {v : VolOn D}

/-- Byte `p` of the clusters `L`, taken in order. -/
def fileByte (d : SectorDev D) (fs : Fs) (v : VolOn D) (L : List ℕ) (p : ℕ) : Byte :=
  d.read v.disk (sectorAt fs (L.getD (p / fs.clusterSize) 0) (p % fs.clusterSize))
    (p % fs.clusterSize % 512)

/-- The cluster and the offset in it stand for the position `p`, as long as that is in the file. -/
def CursorAt (fs : Fs) (L : List ℕ) (p cluster offset : ℕ) : Prop :=
  p < L.length * fs.clusterSize →
    ∃ k, ∃ hk : k < L.length, cluster = L[k] ∧ p = k * fs.clusterSize + offset ∧
      offset < fs.clusterSize

end Position

section Cursor
variable {D : Type} {d : SectorDev D} {fs : Fs} {v : VolOn D} {K L : List ℕ} {x c p q o : ℕ}

theorem Clusters.not_eof (x : ℕ) (h : fs.InRange x) : ¬ fatEof ≤ x := Nat.not_le.mpr h.2

theorem Clusters.nodup {v : Vol} (h : Clusters fs v c L) : L.Nodup :=
  Linked.nodup Clusters.not_eof h

theorem fileByte_cons_lt (hp : p < fs.clusterSize) :
    fileByte d fs v (x::K) p = d.read v.disk (sectorAt fs x p) (p % 512) := by
  unfold fileByte
  rw [Nat.div_eq_of_lt hp, Nat.mod_eq_of_lt hp]
  rfl

theorem fileByte_cons_add (hpos : 0 < fs.clusterSize) :
    fileByte d fs v (x::K) (fs.clusterSize + q) = fileByte d fs v K q := by
  unfold fileByte
  rw [Nat.add_div_left _ hpos, Nat.add_mod_left]
  rfl

theorem fileByte_drop (hpos : 0 < fs.clusterSize) (k q : ℕ) :
    fileByte d fs v (L.drop k) q = fileByte d fs v L (k * fs.clusterSize + q) := by
  unfold fileByte
  rw [Nat.add_comm, Nat.add_mul_div_right _ _ hpos, Nat.add_mul_mod_self_right,
    List.getD_eq_getElem?_getD, List.getD_eq_getElem?_getD, List.getElem?_drop, Nat.add_comm k]

/-- A position in the rest of the chain, seen from its first cluster. -/
theorem CursorAt.cons (h : CursorAt fs K q c o) :
    CursorAt fs (x::K) (fs.clusterSize + q) c o := by
  intro hlt
  rw [List.length_cons, Nat.succ_mul] at hlt
  obtain ⟨k, hk, hc, hq, ho⟩ := h (by omega)
  refine ⟨k+1, Nat.succ_lt_succ hk, hc, ?_, ho⟩
  rw [hq, Nat.succ_mul]
  omega

theorem CursorAt.head (x : ℕ) (K : List ℕ) (ho : o < fs.clusterSize) :
    CursorAt fs (x::K) o x o := by
  intro _
  refine ⟨0, Nat.succ_pos _, rfl, ?_, ho⟩
  rw [Nat.zero_mul, Nat.zero_add]

theorem CursorAt.past (h : L.length * fs.clusterSize ≤ p) : CursorAt fs L p c o :=
  fun hlt => absurd hlt (Nat.not_lt.mpr h)

/-- What holds from cluster `k` on holds of the whole chain, `k` clusters further, when every
cluster put in front moves it by one. -/
theorem shift_of_drop {P : List ℕ → ℕ → Prop} {n k : ℕ}
    (hcons : ∀ x K q, x::K <:+ L → P K q → P (x::K) (n + q)) (hk : k ≤ L.length)
    (h : P (L.drop k) q) : P L (k*n + q) := by
  induction k generalizing L with
  | zero =>
    rw [Nat.zero_mul, Nat.zero_add]
    exact h
  | succ k ih =>
    cases L with
    | nil => exact absurd hk (Nat.not_succ_le_zero k)
    | cons x K =>
      have hrest : P K (k*n + q) := by
        apply ih _ (Nat.le_of_succ_le_succ hk) h
        exact fun y K' q hs => hcons y K' q (hs.trans (List.suffix_cons x K))
      rw [Nat.succ_mul, Nat.add_right_comm, Nat.add_comm]
      exact hcons x K _ List.suffix_rfl hrest

/-- A position in the rest of the chain from cluster `k` on. -/
theorem CursorAt.of_drop {k : ℕ} (hk : k ≤ L.length) (h : CursorAt fs (L.drop k) q c o) :
    CursorAt fs L (k * fs.clusterSize + q) c o :=
  shift_of_drop (P := fun K q => CursorAt fs K q c o) (fun _ _ _ _ hK => hK.cons) hk h

end Cursor

/-! ### `fat32_seek` -/

section Seek
variable {fs : Fs} {v : Vol} {x c p : ℕ} {K L : List ℕ}

theorem seekLoop_cursor (hpos : 0 < fs.clusterSize) (hbytes : fs.bytesPerSector = 512) (n : ℕ) :
    ∀ r x K, Clusters fs v x (x::K) → r ≤ n →
    CursorAt fs (x::K) r (seekLoop fs v n r x).2 (seekLoop fs v n r x).1 := by
  have hsize : fs.sectorsPerCluster * fs.bytesPerSector = fs.clusterSize := by
    rw [hbytes]
    rfl
  induction n with
  | zero =>
    intro r x K _ hr
    exact CursorAt.head x K (by omega)
  | succ n ih =>
    intro r x K h hr
    unfold seekLoop
    rw [hsize]
    by_cases hge : fs.clusterSize ≤ r
    · rw [if_pos hge]
      dsimp only
      have hrest : Clusters fs v (fatNextCluster fs v x) K := h.2.2
      cases K with
      | nil =>
        apply CursorAt.past
        rw [List.length_singleton, Nat.one_mul]
        exact hge
      | cons y K =>
        -- the next turn starts at the beginning of the next cluster
        have hy : fatNextCluster fs v x = y := hrest.1
        rw [hy] at hrest ⊢
        rw [if_neg (Clusters.not_eof y hrest.2.1)]
        have hnext := (ih (r - fs.clusterSize) y K hrest (by omega)).cons (x := x)
        rw [Nat.add_sub_of_le hge] at hnext
        exact hnext
    · rw [if_neg hge]
      exact CursorAt.head x K (Nat.lt_of_not_le hge)

/-- A seek puts the cursor at the position, and leaves the rest of the handle. -/
theorem fat32Seek_cursor (hpos : 0 < fs.clusterSize) (hbytes : fs.bytesPerSector = 512)
    {file : File} (h : FileClusters fs v file.startCluster L) (hp : p ≤ file.size) :
    CursorAt fs L p (fat32Seek fs v file p).currentCluster (fat32Seek fs v file p).offset := by
  unfold fat32Seek
  rw [if_neg (Nat.not_lt.mpr hp)]
  dsimp only
  rcases h with h | ⟨-, rfl⟩
  · cases L with
    | nil => exact CursorAt.past (by rw [List.length_nil, Nat.zero_mul]; exact Nat.zero_le p)
    | cons x K =>
      have hx : file.startCluster = x := h.1
      rw [hx] at h ⊢
      exact seekLoop_cursor hpos hbytes p p x K h le_rfl
  · exact CursorAt.past (by rw [List.length_nil, Nat.zero_mul]; exact Nat.zero_le p)

end Seek

/-! ### `fat32_read` -/

theorem Fs.clusterSize_bounds (fs : Fs)
    (hs : 0 < fs.sectorsPerCluster ∧ fs.sectorsPerCluster < 256) :
    0 < fs.clusterSize ∧ fs.clusterSize < 2^17 := by
  unfold Fs.clusterSize
  omega

section Read
variable {D : Type} {d : SectorDev D} {fs : Fs} {v : VolOn D} {K L : List ℕ} {x c p o : ℕ}

/-- The loop reads on from the offset `o` of the first cluster, and stands behind what it read. -/
theorem readLoopOn_spec (hs : 0 < fs.sectorsPerCluster ∧ fs.sectorsPerCluster < 256) (n : ℕ) :
    ∀ remain x K o, Clusters fs v.cached x (x::K) → o < fs.clusterSize → remain ≤ n →
    o + remain ≤ (K.length + 1) * fs.clusterSize →
    (readLoopOn d fs v n remain x o).bytes =
      (List.range remain).map (fun i => fileByte d fs v (x::K) (o + i)) ∧
    CursorAt fs (x::K) (o + remain) (readLoopOn d fs v n remain x o).cluster
      (readLoopOn d fs v n remain x o).offset := by
  obtain ⟨hpos, hlt⟩ := fs.clusterSize_bounds hs
  induction n with
  | zero =>
    intro remain x K o _ ho hr _
    obtain rfl : remain = 0 := by omega
    exact ⟨rfl, CursorAt.head x K ho⟩
  | succ n ih =>
    intro remain x K o h ho hr hin
    have hx : fs.InRange x := h.2.1
    unfold readLoopOn
    by_cases h0 : remain = 0
    · rw [if_neg (fun hc => hc.1 h0), h0]
      exact ⟨rfl, CursorAt.head x K ho⟩
    rw [if_pos ⟨h0, hx.2, hx.1.1⟩]
    dsimp only
    obtain ⟨chunk, hchunk, hc1, hc2, hc3⟩ := turn_chunk o h0
    rw [hchunk]
    have hclu := turn_in_cluster ho hc1
    have hmod : (o + chunk) % 2^32 = o + chunk := Nat.mod_eq_of_lt (by omega)
    rw [hmod]
    -- the bytes of the turn lie in one sector
    have hhere : (List.range chunk).map (fun i => d.read v.disk
          ((clusterToLba fs x + o/512) % 2^32) (o % 512 + i)) =
        (List.range chunk).map (fun i => fileByte d fs v (x::K) (o + i)) := by
      apply List.map_congr_left
      intro i hi
      have hi := List.mem_range.mp hi
      have hsec : (o + i) / 512 = o / 512 := by omega
      have hoff : (o + i) % 512 = o % 512 + i := by omega
      rw [fileByte_cons_lt (by omega), sectorAt, hsec, hoff]
    rw [hhere]
    have hsum : chunk + (remain - chunk) = remain := by omega
    by_cases hend : fs.clusterSize ≤ o + chunk
    · rw [if_pos hend]
      have hfull : o + chunk = fs.clusterSize := by omega
      have hrest : Clusters fs v.cached (fatNextCluster fs v.cached x) K := h.2.2
      cases K with
      | nil =>
        -- the chain ends with this cluster, and so does what is read
        rw [List.length_nil, Nat.zero_add, Nat.one_mul] at hin
        obtain rfl : remain = chunk := by omega
        have hge : fatEof ≤ fatNextCluster fs v.cached x := hrest
        have hstop : ∀ m, readLoopOn d fs v m (remain - remain) (fatNextCluster fs v.cached x) 0 =
            ⟨[], [], fatNextCluster fs v.cached x, 0⟩ := by
          intro m
          cases m with
          | zero => rfl
          | succ m => exact if_neg (fun hc => hc.1 (Nat.sub_self remain))
        rw [hstop n]
        refine ⟨List.append_nil _, CursorAt.past ?_⟩
        rw [List.length_singleton, Nat.one_mul]
        exact hend
      | cons y K =>
        -- the next turn starts at the beginning of the next cluster
        have hy : fatNextCluster fs v.cached x = y := hrest.1
        rw [hy] at hrest ⊢
        have hlen : ((y::K).length + 1) * fs.clusterSize =
            fs.clusterSize + (K.length + 1) * fs.clusterSize := by
          rw [List.length_cons, Nat.succ_mul, Nat.add_comm]
        obtain ⟨hb, hcur⟩ := ih (remain - chunk) y K 0 hrest hpos (by omega) (by omega)
        have hpos' : fs.clusterSize + (0 + (remain - chunk)) = o + remain := by omega
        refine ⟨?_, ?_⟩
        · calc _ = (List.range chunk).map (fun i => fileByte d fs v (x::y::K) (o + i)) ++
                (List.range (remain - chunk)).map (fun i => fileByte d fs v (y::K) (0 + i)) := by
                rw [hb]
            _ = (List.range (chunk + (remain - chunk))).map
                (fun i => fileByte d fs v (x::y::K) (o + i)) := by
                refine (map_range_add _ _ chunk _ (fun i => ?_)).symm
                rw [Nat.zero_add, ← fileByte_cons_add (x := x) hpos, ← hfull, Nat.add_assoc]
            _ = _ := by rw [hsum]
        · rw [← hpos']
          exact hcur.cons
    · -- the next turn goes on in the same cluster
      rw [if_neg hend]
      obtain ⟨hb, hcur⟩ := ih (remain - chunk) x K (o + chunk) h (by omega) (by omega) (by omega)
      rw [Nat.add_assoc, hsum] at hcur
      refine ⟨?_, hcur⟩
      calc _ = (List.range chunk).map (fun i => fileByte d fs v (x::K) (o + i)) ++
            (List.range (remain - chunk)).map
            (fun i => fileByte d fs v (x::K) (o + chunk + i)) := by
            rw [hb]
        _ = (List.range (chunk + (remain - chunk))).map
            (fun i => fileByte d fs v (x::K) (o + i)) :=
            (map_range_add _ _ chunk _ (fun i => by rw [Nat.add_assoc])).symm
        _ = _ := by rw [hsum]

/-- The rest of a chain from cluster `k` on. -/
theorem Clusters.drop {v : Vol} (h : Clusters fs v c L) {k : ℕ} (hk : k < L.length) :
    Clusters fs v L[k] (L[k]::L.drop (k+1)) := Linked.drop h hk

/-- A position in a file lies in one of its clusters, from where the rest of the chain goes on. -/
theorem CursorAt.chain {v : Vol} (h : FileClusters fs v x L) (hat : CursorAt fs L p c o)
    (hp : p < L.length * fs.clusterSize) : ∃ k, ∃ hk : k < L.length, c = L[k] ∧
      p = k * fs.clusterSize + o ∧ o < fs.clusterSize ∧ Clusters fs v x L ∧
      Clusters fs v L[k] (L[k]::L.drop (k+1)) ∧
      L.length * fs.clusterSize - p = ((L.drop (k+1)).length + 1) * fs.clusterSize - o := by
  obtain ⟨k, hk, hcl, hpos, ho⟩ := hat hp
  have hchain : Clusters fs v x L := by
    rcases h with h | ⟨-, rfl⟩
    · exact h
    · exact absurd hk (Nat.not_lt_zero k)
  have hsplit : L.length = k + ((L.drop (k+1)).length + 1) := by
    rw [List.length_drop]
    omega
  have hcap : L.length * fs.clusterSize =
      k * fs.clusterSize + ((L.drop (k+1)).length + 1) * fs.clusterSize := by
    rw [← Nat.add_mul, ← hsplit]
  exact ⟨k, hk, hcl, hpos, ho, hchain, hchain.drop hk, by omega⟩

theorem toInt32_of_lt {n : ℕ} (h : n < 2^31) : toInt32 n = n := by
  have hmod : n % 2^32 = n := Nat.mod_eq_of_lt (by omega)
  unfold toInt32
  rw [hmod, if_pos h]
  exact Int.natCast_emod n (2^32) ▸ congrArg Int.ofNat hmod

/-- A read from the position `p` gives the bytes from there on, and stands behind them. -/
theorem OpenFile.read_at (hs : 0 < fs.sectorsPerCluster ∧ fs.sectorsPerCluster < 256)
    {f : OpenFile D} (h : FileClusters fs f.vol.cached f.file.startCluster L)
    (hat : CursorAt fs L p f.file.currentCluster f.file.offset) {n : ℕ} (hn : n < 2^31)
    (hin : p + n ≤ L.length * fs.clusterSize) :
    (f.read d fs n).ret = n ∧
    (f.read d fs n).bytes = (List.range n).map (fun i => fileByte d fs f.vol L (p + i)) ∧
    CursorAt fs L (p + n) (f.read d fs n).after.file.currentCluster
      (f.read d fs n).after.file.offset := by
  have hpos : 0 < fs.clusterSize := Nat.mul_pos hs.1 (by decide)
  suffices hread : (f.read d fs n).bytes =
      (List.range n).map (fun i => fileByte d fs f.vol L (p + i)) ∧
      CursorAt fs L (p + n) (f.read d fs n).after.file.currentCluster
        (f.read d fs n).after.file.offset by
    refine ⟨?_, hread⟩
    have hret : (f.read d fs n).ret = toInt32 (f.read d fs n).bytes.length := rfl
    rw [hret, hread.1, List.length_map, List.length_range, toInt32_of_lt hn]
  cases n with
  | zero => exact ⟨rfl, hat⟩
  | succ n =>
    obtain ⟨k, hk, hcl, hp, ho, -, hchain, hcap⟩ := hat.chain h (by omega)
    have hdrop : L[k]::L.drop (k+1) = L.drop k := List.getElem_cons_drop hk
    obtain ⟨hb, hcur⟩ := readLoopOn_spec (d := d) hs (n+1) (n+1) L[k] (L.drop (k+1))
      f.file.offset hchain ho le_rfl (by omega)
    rw [hdrop] at hb hcur
    rw [← hcl] at hb hcur
    refine ⟨hb.trans ?_, ?_⟩
    · apply List.map_congr_left
      intro i _
      rw [fileByte_drop hpos, hp, Nat.add_assoc]
    · have hend := CursorAt.of_drop hk.le hcur
      rw [← Nat.add_assoc, ← hp] at hend
      exact hend

/-- Calls one after the other read one slice after the other. -/
theorem OpenFile.readAll_at (hs : 0 < fs.sectorsPerCluster ∧ fs.sectorsPerCluster < 256)
    (ns : List ℕ) : ∀ (f : OpenFile D) p,
    FileClusters fs f.vol.cached f.file.startCluster L →
    CursorAt fs L p f.file.currentCluster f.file.offset → ns.sum < 2^31 →
    p + ns.sum ≤ L.length * fs.clusterSize →
    (f.readAll d fs ns).1 = ns.map (fun n => (n : ℤ)) ∧
    (f.readAll d fs ns).2.1 =
      (List.range ns.sum).map (fun i => fileByte d fs f.vol L (p + i)) ∧
    (f.readAll d fs ns).2.2.vol = f.vol ∧ (f.readAll d fs ns).2.2.file.size = f.file.size := by
  induction ns with
  | nil => exact fun f p _ _ _ _ => ⟨rfl, rfl, rfl, rfl⟩
  | cons n ns ih =>
    intro f p h hat hlt hin
    rw [List.sum_cons] at hlt hin ⊢
    obtain ⟨hret, hbytes, hnext⟩ :=
      OpenFile.read_at (d := d) hs h hat (n := n) (by omega) (by omega)
    obtain ⟨hrets, hrest, hvol, hsize⟩ := ih (f.read d fs n).after (p + n) h hnext (by omega)
      (by omega)
    refine ⟨?_, ?_, hvol, hsize⟩
    · exact congrArg₂ List.cons hret hrets
    · calc (f.readAll d fs (n::ns)).2.1
          = (f.read d fs n).bytes ++ ((f.read d fs n).after.readAll d fs ns).2.1 := rfl
        _ = (List.range n).map (fun i => fileByte d fs f.vol L (p + i)) ++
            (List.range ns.sum).map (fun i => fileByte d fs f.vol L (p + n + i)) := by
            rw [hbytes, hrest]
            rfl
        _ = _ := (map_range_add _ _ n _ (fun i => by rw [Nat.add_assoc])).symm

end Read

/-- A seek and a read give the slice of the file, in one call or in several. -/
theorem seek_read_slice {fs : Fs} (hfs : fs.Mounted) {f : OpenFile (ℕ → Mem)} {L : List ℕ}
    (h : FileClusters fs f.vol.cached f.file.startCluster L)
    (hsize : f.file.size ≤ L.length * fs.clusterSize) {p n : ℕ} (hpn : p + n ≤ f.file.size)
    (hn : n < 2^31) :
    let slice := (List.range n).map (fun i => fileByte arrayDev fs f.vol L (p + i))
    ((f.seek fs p).read arrayDev fs n).ret = n ∧
    ((f.seek fs p).read arrayDev fs n).bytes = slice ∧
    ((f.seek fs p).read arrayDev fs n).after.vol = f.vol ∧
    ((f.seek fs p).read arrayDev fs n).after.file.size = f.file.size ∧
    ∀ ns : List ℕ, ns.sum = n →
      ((f.seek fs p).readAll arrayDev fs ns).1 = ns.map (fun m => (m : ℤ)) ∧
      ((f.seek fs p).readAll arrayDev fs ns).2.1 = slice ∧
      ((f.seek fs p).readAll arrayDev fs ns).2.2.vol = f.vol ∧
      ((f.seek fs p).readAll arrayDev fs ns).2.2.file.size = f.file.size := by
  intro slice
  obtain ⟨hs, hbytes⟩ := hfs.sectors
  have hpos : 0 < fs.clusterSize := Nat.mul_pos hs.1 (by decide)
  have hat := fat32Seek_cursor hpos hbytes h (show p ≤ f.file.size by omega)
  have hin : p + n ≤ L.length * fs.clusterSize := hpn.trans hsize
  obtain ⟨hret, hread, -⟩ := OpenFile.read_at (d := arrayDev) (f := f.seek fs p) hs h hat hn hin
  refine ⟨hret, hread, rfl, rfl, fun ns hsum => ?_⟩
  subst hsum
  exact OpenFile.readAll_at hs ns (f.seek fs p) p h hat hn hin

/-- A FAT in which cluster 3 is followed by cluster 4. -/
def twoFat : Mem := fun a =>
  if a = 12 then 4#8 else if a = 16 ∨ a = 17 ∨
    a = 18 then 0xFF#8 else if a = 19 then 0x0F#8 else 0#8

/-- A file of 600 bytes; each byte of a sector is the number of the sector. -/
def twoFile : OpenFile (ℕ → Mem) where
  vol := { disk := fun lba _ => BitVec.ofNat 8 lba, fat := twoFat }
  file := { startCluster := 3, currentCluster := 3, size := 600, offset := 0 }

theorem twoFile_clusters : FileClusters sampleFs twoFile.vol.cached 3 [3, 4] :=
  Or.inl ⟨rfl, by unfold Fs.InRange; decide, by decide +kernel, by unfold Fs.InRange; decide,
    by show fatEof ≤ fatNextCluster sampleFs twoFile.vol.cached 4; decide +kernel⟩

theorem twoFile_slice :
    ((twoFile.seek sampleFs 511).read arrayDev sampleFs 2).ret = 2 ∧
    fileByte arrayDev sampleFs twoFile.vol [3, 4] 511 = 3#8 ∧
    fileByte arrayDev sampleFs twoFile.vol [3, 4] 512 = 4#8 ∧
    ((twoFile.seek sampleFs 511).readAll arrayDev sampleFs [1, 1]).2.1 =
      (List.range 2).map (fun i => fileByte arrayDev sampleFs twoFile.vol [3, 4] (511 + i)) := by
  obtain ⟨hret, -, -, -, hall⟩ := seek_read_slice sample_mounted (f := twoFile) twoFile_clusters
    (by decide) (p := 511) (n := 2) (by decide) (by decide)
  exact ⟨hret, by decide, by decide, (hall [1, 1] rfl).2.1⟩

/-! ### `fat32_write` -/

/-- The sectors of the data area are numbered without a wrap of 32 bits. -/
def Fs.NoWrap (fs : Fs) : Prop :=
  fs.firstDataSector + fs.totalClusters * fs.sectorsPerCluster ≤ 2^32

/-- `lba` is a sector of one of the clusters in `L`. -/
def SectorIn (fs : Fs) (L : List ℕ) (lba : ℕ) : Prop :=
  ∃ c ∈ L, ∃ j, j < fs.sectorsPerCluster ∧ lba = clusterToLba fs c + j

/-- From `v` to `v'` the bytes `src` were put at position `o` of the clusters `L`. -/
structure Overwritten (fs : Fs) (v v' : VolOn (ℕ → Mem)) (L : List ℕ) (o : ℕ) (src : List Byte) :
    Prop where
  fat : v'.fat = v.fat
  bytes : ∀ q, q < L.length * fs.clusterSize → fileByte arrayDev fs v' L q =
    if o ≤ q ∧ q < o + src.length then src.getD (q - o) 0#8 else fileByte arrayDev fs v L q
  frame : ∀ lba, ¬ SectorIn fs L lba → v'.disk lba = v.disk lba

section Sectors
variable {fs : Fs} {v v' w : VolOn (ℕ → Mem)} {K L : List ℕ} {x y c o q j k : ℕ} {src : List Byte}

/-- The number of a sector of a cluster, without the arithmetic of 32 bits. -/
theorem clusterToLba_add (hw : fs.NoWrap) (hc : fs.IsData c) (hj : j < fs.sectorsPerCluster) :
    clusterToLba fs c + j = fs.firstDataSector + ((c - 2) * fs.sectorsPerCluster + j) ∧
      clusterToLba fs c + j < 2^32 := by
  obtain ⟨h2, hlt⟩ := hc
  have hmul : (c - 2 + 1) * fs.sectorsPerCluster ≤ fs.totalClusters * fs.sectorsPerCluster :=
    Nat.mul_le_mul_right _ (by omega)
  rw [Nat.succ_mul] at hmul
  unfold Fs.NoWrap at hw
  have hself : c - 2 ≤ (c - 2) * fs.sectorsPerCluster := Nat.le_mul_of_pos_right _ (by omega)
  have hmod : (c + (2^32 - 2)) % 2^32 = c - 2 := by omega
  have hlba : clusterToLba fs c = fs.firstDataSector + (c - 2) * fs.sectorsPerCluster := by
    unfold clusterToLba
    rw [hmod]
    exact Nat.mod_eq_of_lt (by omega)
  rw [hlba]
  omega

theorem sectorAt_eq (hw : fs.NoWrap) (hc : fs.IsData c) (ho : o < fs.clusterSize) :
    sectorAt fs c o = clusterToLba fs c + o/512 :=
  Nat.mod_eq_of_lt (clusterToLba_add hw hc (Fs.sector_lt ho)).2

/-- Two data clusters do not share a sector. -/
theorem sectorAt_inj (hw : fs.NoWrap) (hx : fs.IsData x) (hy : fs.IsData y)
    (ho : o < fs.clusterSize) (hq : q < fs.clusterSize) (h : sectorAt fs x o = sectorAt fs y q) :
    x = y ∧ o/512 = q/512 := by
  rw [sectorAt_eq hw hx ho, sectorAt_eq hw hy hq, (clusterToLba_add hw hx (Fs.sector_lt ho)).1,
    (clusterToLba_add hw hy (Fs.sector_lt hq)).1] at h
  have ho := Fs.sector_lt ho
  have hq := Fs.sector_lt hq
  have hsum := Nat.add_left_cancel h
  have hdiv : ((x - 2) * fs.sectorsPerCluster + o/512) / fs.sectorsPerCluster =
      ((y - 2) * fs.sectorsPerCluster + q/512) / fs.sectorsPerCluster := by rw [hsum]
  have hpos : 0 < fs.sectorsPerCluster := by omega
  rw [Nat.add_comm, Nat.add_mul_div_right _ _ hpos, Nat.div_eq_of_lt ho, Nat.add_comm (_ * _),
    Nat.add_mul_div_right _ _ hpos, Nat.div_eq_of_lt hq] at hdiv
  have h1 := hx.1
  have h2 := hy.1
  obtain rfl : x = y := by omega
  exact ⟨rfl, Nat.add_left_cancel hsum⟩

theorem SectorIn.cons (h : SectorIn fs K q) : SectorIn fs (x::K) q := by
  obtain ⟨c, hc, hj⟩ := h
  exact ⟨c, List.mem_cons_of_mem x hc, hj⟩

theorem sectorAt_in (hw : fs.NoWrap) (hc : fs.IsData c) (ho : o < fs.clusterSize) (hmem : c ∈ L) :
    SectorIn fs L (sectorAt fs c o) :=
  ⟨c, hmem, o/512, Fs.sector_lt ho, sectorAt_eq hw hc ho⟩

/-- A sector of a cluster is no sector of other clusters. -/
theorem sectorAt_not_in (hw : fs.NoWrap) (hx : fs.IsData x) (ho : o < fs.clusterSize)
    (hK : ∀ y ∈ K, fs.IsData y) (hmem : x ∉ K) : ¬ SectorIn fs K (sectorAt fs x o) := by
  rintro ⟨y, hy, j, hj, heq⟩
  have hq : 512 * j < fs.clusterSize := by
    unfold Fs.clusterSize
    omega
  have hdiv : 512 * j / 512 = j := Nat.mul_div_cancel_left j (by decide)
  have hsec := sectorAt_eq hw (hK y hy) hq
  rw [hdiv, ← heq] at hsec
  obtain ⟨rfl, -⟩ := sectorAt_inj hw hx (hK y hy) ho hq hsec.symm
  exact hmem hy

/-- Byte `q` of the clusters lies in one of them. -/
theorem fileByte_getElem (hq : q < L.length * fs.clusterSize) :
    ∃ hk : q / fs.clusterSize < L.length, q % fs.clusterSize < fs.clusterSize ∧
      fileByte arrayDev fs v L q =
        v.disk (sectorAt fs L[q / fs.clusterSize] (q % fs.clusterSize))
          (q % fs.clusterSize % 512) := by
  have hpos : 0 < fs.clusterSize := Nat.pos_of_mul_pos_left (Nat.zero_lt_of_lt hq)
  have hk : q / fs.clusterSize < L.length := Nat.div_lt_of_lt_mul (by rwa [Nat.mul_comm])
  refine ⟨hk, Nat.mod_lt _ hpos, ?_⟩
  unfold fileByte
  rw [List.getD_eq_getElem?_getD, List.getElem?_eq_getElem hk]
  rfl

/-- Where no sector of the clusters changes, no byte of them does. -/
theorem fileByte_congr (hw : fs.NoWrap) (hL : ∀ y ∈ L, fs.IsData y)
    (h : ∀ lba, SectorIn fs L lba → w.disk lba = v.disk lba) (hq : q < L.length * fs.clusterSize) :
    fileByte arrayDev fs w L q = fileByte arrayDev fs v L q := by
  obtain ⟨hk, ho, hv⟩ := fileByte_getElem (v := v) hq
  obtain ⟨_, _, hafter⟩ := fileByte_getElem (v := w) hq
  rw [hv, hafter, h _ (sectorAt_in hw (hL _ (List.getElem_mem hk)) ho (List.getElem_mem hk))]

theorem Overwritten.refl (v : VolOn (ℕ → Mem)) (L : List ℕ) (o : ℕ) :
    Overwritten fs v v L o [] where
  fat := rfl
  bytes _ _ := (if_neg (fun h => absurd (h.1.trans_lt h.2) (Nat.lt_irrefl o))).symm
  frame _ _ := rfl

/-- The bytes of two writes one after the other. -/
theorem Overwritten.trans {chunk : ℕ} (hc : chunk ≤ src.length)
    (h : Overwritten fs v v' L o (src.take chunk))
    (h' : Overwritten fs v' w L (o + chunk) (src.drop chunk)) : Overwritten fs v w L o src where
  fat := h'.fat.trans h.fat
  bytes q hq := by
    rw [h'.bytes q hq, h.bytes q hq, List.length_drop, List.length_take, Nat.min_eq_left hc]
    by_cases h2 : o + chunk ≤ q ∧ q < o + chunk + (src.length - chunk)
    · rw [if_pos h2, if_pos (by omega), List.getD_eq_getElem?_getD, List.getElem?_drop,
        List.getD_eq_getElem?_getD]
      congr 2
      omega
    · rw [if_neg h2]
      by_cases h1 : o ≤ q ∧ q < o + chunk
      · rw [if_pos h1, if_pos (by omega), List.getD_eq_getElem?_getD, List.getD_eq_getElem?_getD,
          List.getElem?_take_of_lt (by omega)]
      · rw [if_neg h1, if_neg (by omega)]
  frame lba hl := (h'.frame lba hl).trans (h.frame lba hl)

/-- A write behind the first cluster. -/
theorem Overwritten.cons (hw : fs.NoWrap) (hpos : 0 < fs.clusterSize) (hx : fs.IsData x)
    (hK : ∀ y ∈ K, fs.IsData y) (hmem : x ∉ K) (h : Overwritten fs v v' K o src) :
    Overwritten fs v v' (x::K) (fs.clusterSize + o) src where
  fat := h.fat
  bytes q hq := by
    rw [List.length_cons, Nat.succ_mul] at hq
    by_cases hlt : q < fs.clusterSize
    · -- the first cluster keeps its bytes
      rw [fileByte_cons_lt hlt, fileByte_cons_lt hlt, if_neg (by omega)]
      exact congrFun (h.frame _ (sectorAt_not_in hw hx hlt hK hmem)) _
    · obtain ⟨r, rfl⟩ := Nat.exists_eq_add_of_le (Nat.le_of_not_lt hlt)
      rw [fileByte_cons_add hpos, fileByte_cons_add hpos, h.bytes r (by omega),
        Nat.add_sub_add_left]
      have hiff : (fs.clusterSize + o ≤ fs.clusterSize + r ∧
          fs.clusterSize + r < fs.clusterSize + o + src.length) ↔ o ≤ r ∧ r < o + src.length := by
        omega
      simp only [hiff]
  frame lba hl := h.frame lba (fun hin => hl hin.cons)

/-- A write in the rest of the chain. -/
theorem Overwritten.of_drop (hw : fs.NoWrap) (hpos : 0 < fs.clusterSize) (hnd : L.Nodup)
    (hL : ∀ y ∈ L, fs.IsData y) (hk : k ≤ L.length) (h : Overwritten fs v v' (L.drop k) o src) :
    Overwritten fs v v' L (k * fs.clusterSize + o) src := by
  apply shift_of_drop (P := fun K o => Overwritten fs v v' K o src) _ hk h
  intro x K o hs hK
  obtain ⟨hmem, -⟩ := List.nodup_cons.mp (hnd.sublist hs.sublist)
  have hdata : ∀ y ∈ x::K, fs.IsData y := fun y hy => hL y (hs.subset hy)
  exact hK.cons hw hpos (hdata x List.mem_cons_self)
    (fun y hy => hdata y (List.mem_cons_of_mem x hy)) hmem

/-- One turn of the loop: the changed sector is written back. -/
theorem Overwritten.turn (hw : fs.NoWrap) (hL : ∀ y ∈ x::K, fs.IsData y) (hmem : x ∉ K)
    (ho : o < fs.clusterSize) {chunk : ℕ} (hc : chunk ≤ 512 - o % 512) (hsrc : chunk ≤ src.length) :
    Overwritten fs v { v with disk := arrayDev.write v.disk (sectorAt fs x o) (fun i =>
      if o % 512 ≤ i ∧ i < o % 512 + chunk then src.getD (i - o % 512) 0#8
      else arrayDev.read v.disk (sectorAt fs x o) i) } (x::K) o (src.take chunk) := by
  have hx := hL x List.mem_cons_self
  have hclu := turn_in_cluster ho hc
  refine ⟨rfl, fun q hq => ?_, fun lba hl => ?_⟩
  · rw [List.length_take, Nat.min_eq_left hsrc]
    by_cases hlt : q < fs.clusterSize
    · rw [fileByte_cons_lt hlt, fileByte_cons_lt hlt]
      by_cases hsec : sectorAt fs x q = sectorAt fs x o
      · -- the byte lies in the sector that is written
        have hdiv := (sectorAt_inj hw hx hx hlt ho hsec).2
        have hread : ∀ d : ℕ → Mem, ∀ buf : Mem,
            arrayDev.read (arrayDev.write d (sectorAt fs x o) buf) (sectorAt fs x q) = buf := by
          intro d buf
          rw [hsec]
          exact Function.update_self _ _ _
        rw [hread]
        by_cases hin : o ≤ q ∧ q < o + chunk
        · rw [if_pos hin, if_pos (by omega), List.getD_eq_getElem?_getD,
            List.getD_eq_getElem?_getD, List.getElem?_take_of_lt (by omega)]
          congr 2
          omega
        · rw [if_neg hin, if_neg (by omega), hsec]
      · have hother : ¬ (o ≤ q ∧ q < o + chunk) := by
          intro hin
          have hdiv : q / 512 = o / 512 := by omega
          exact hsec (by rw [sectorAt, hdiv]; rfl)
        rw [if_neg hother]
        exact congrFun (Function.update_of_ne hsec _ _) _
    · -- the other clusters keep their bytes
      rw [List.length_cons, Nat.succ_mul] at hq
      obtain ⟨r, rfl⟩ := Nat.exists_eq_add_of_le (Nat.le_of_not_lt hlt)
      have hpos : 0 < fs.clusterSize := by omega
      have hK : ∀ y ∈ K, fs.IsData y := fun y hy => hL y (List.mem_cons_of_mem x hy)
      rw [fileByte_cons_add hpos, fileByte_cons_add hpos, if_neg (by omega)]
      apply fileByte_congr hw hK _ (by omega)
      intro lba hin
      have hne : lba ≠ sectorAt fs x o := by
        rintro rfl
        exact sectorAt_not_in hw hx ho hK hmem hin
      exact Function.update_of_ne hne _ _
  · have hne : lba ≠ sectorAt fs x o := by
      rintro rfl
      exact hl (sectorAt_in hw hx ho List.mem_cons_self)
    exact Function.update_of_ne hne _ _

end Sectors

section Write
variable {fs : Fs} {v : Vol} {L : List ℕ} {c p : ℕ}

theorem seekLoop_le (n : ℕ) : ∀ r c, (seekLoop fs v n r c).1 ≤ r := by
  induction n with
  | zero => exact fun _ _ => le_rfl
  | succ n ih =>
    intro r c
    unfold seekLoop
    dsimp only
    split
    · split
      · exact le_rfl
      · exact (ih _ _).trans (Nat.sub_le _ _)
    · exact le_rfl

/-- The offset in the cluster is never behind the end of the file. -/
theorem fat32Seek_offset_le (file : File) (p : ℕ) : (fat32Seek fs v file p).offset ≤ file.size := by
  unfold fat32Seek
  apply (seekLoop_le _ _ _).trans
  by_cases h : file.size < p
  · rw [if_pos h]
  · rw [if_neg h]
    exact Nat.le_of_not_lt h

/-- The chain goes on, so nothing is appended to it. -/
theorem nextForWrite_next {y : ℕ} (h : fatNextCluster fs v c = y) (hy : y < fatEof) :
    nextForWrite fs v c = some (v, y) := by
  unfold nextForWrite
  dsimp only
  rw [h, if_neg (Nat.not_le.mpr hy)]

/-- At the end of a cluster the loop goes on at the beginning of the next one. -/
theorem writeLoopOn_next {D : Type} {d : SectorDev D} {w : VolOn D} {n x y o : ℕ} {src : List Byte}
    (hpos : 0 < fs.clusterSize) (h0 : src ≠ []) (hge : fs.clusterSize ≤ o)
    (hnext : nextForWrite fs w.cached x = some (w.cached, y)) :
    writeLoopOn d fs (n+1) w src x o = writeLoopOn d fs (n+1) w src y 0 := by
  unfold writeLoopOn
  rw [if_neg h0, if_neg h0, if_pos hge, if_neg (Nat.not_le.mpr hpos), hnext]
  rfl

/-- The loop writes on from the offset `o` of the first cluster, inside the chain. -/
theorem writeLoopOn_spec (hw : fs.NoWrap)
    (hs : 0 < fs.sectorsPerCluster ∧ fs.sectorsPerCluster < 256) (n : ℕ) :
    ∀ (v : VolOn (ℕ → Mem)) src x K o, Clusters fs v.cached x (x::K) → o ≤ fs.clusterSize →
    src.length ≤ n → o + src.length ≤ (K.length + 1) * fs.clusterSize →
    (writeLoopOn arrayDev fs n v src x o).ok = true ∧
    Overwritten fs v (writeLoopOn arrayDev fs n v src x o).vol (x::K) o src ∧
    (writeLoopOn arrayDev fs n v src x o).offset ≤ o + src.length := by
  obtain ⟨hpos, hlt⟩ := fs.clusterSize_bounds hs
  induction n with
  | zero =>
    intro v src x K o _ _ hn _
    obtain rfl : src = [] := List.length_eq_zero_iff.mp (by omega)
    exact ⟨rfl, Overwritten.refl v _ o, Nat.le_add_right _ _⟩
  | succ n ih =>
    intro v src x K o h ho hn hin
    by_cases h0 : src = []
    · subst h0
      unfold writeLoopOn
      rw [if_pos rfl]
      exact ⟨rfl, Overwritten.refl v _ o, Nat.le_add_right _ _⟩
    have hlen : src.length ≠ 0 := fun hz => h0 (List.length_eq_zero_iff.mp hz)
    -- a turn inside a cluster, and the turns after it
    have hturn : ∀ x K o, Clusters fs v.cached x (x::K) → o < fs.clusterSize →
        o + src.length ≤ (K.length + 1) * fs.clusterSize →
        (writeLoopOn arrayDev fs (n+1) v src x o).ok = true ∧
        Overwritten fs v (writeLoopOn arrayDev fs (n+1) v src x o).vol (x::K) o src ∧
        (writeLoopOn arrayDev fs (n+1) v src x o).offset ≤ o + src.length := by
      intro x K o h ho hin
      unfold writeLoopOn
      rw [if_neg h0, if_neg (Nat.not_le.mpr ho)]
      dsimp only
      obtain ⟨chunk, hchunk, hc1, hc2, hc3⟩ := turn_chunk o hlen
      rw [hchunk]
      have hclu := turn_in_cluster ho hc1
      rw [Nat.mod_eq_of_lt (show o + chunk < 2^32 by omega)]
      have hL : ∀ y ∈ x::K, fs.IsData y := fun y hy => (Linked.ok_of_mem h hy).1
      have hmem : x ∉ K := (List.nodup_cons.mp h.nodup).1
      have hwrite := Overwritten.turn (v := v) hw hL hmem ho hc1 hc2
      have hdrop : (src.drop chunk).length = src.length - chunk := List.length_drop
      have hrest := fun disk => ih { v with disk := disk } (src.drop chunk) x K (o + chunk) h hclu
        (by omega) (by omega)
      exact ⟨(hrest _).1, hwrite.trans hc2 (hrest _).2.1, (hrest _).2.2.trans (by omega)⟩
    by_cases hge : fs.clusterSize ≤ o
    · -- the write goes on at the beginning of the next cluster
      obtain rfl : o = fs.clusterSize := by omega
      have hrest : Clusters fs v.cached (fatNextCluster fs v.cached x) K := h.2.2
      cases K with
      | nil =>
        rw [List.length_nil, Nat.zero_add, Nat.one_mul] at hin
        omega
      | cons y K =>
        have hy : fatNextCluster fs v.cached x = y := hrest.1
        rw [hy] at hrest
        have hcap : (K.length + 1 + 1) * fs.clusterSize =
            (K.length + 1) * fs.clusterSize + fs.clusterSize := Nat.succ_mul _ _
        rw [List.length_cons, hcap] at hin
        rw [writeLoopOn_next hpos h0 hge (nextForWrite_next hy hrest.2.1.2)]
        obtain ⟨hok, hwritten, hoff⟩ := hturn y K 0 hrest hpos (by omega)
        refine ⟨hok, ?_, hoff.trans (by omega)⟩
        have hL : ∀ z ∈ x::y::K, fs.IsData z := fun z hz => (Linked.ok_of_mem h hz).1
        have hall := hwritten.cons hw hpos (hL x List.mem_cons_self)
          (fun z hz => hL z (List.mem_cons_of_mem x hz)) (List.nodup_cons.mp h.nodup).1
        rw [Nat.add_zero fs.clusterSize] at hall
        exact hall
    · exact hturn x K o h (Nat.lt_of_not_le hge) hin

end Write

/-- The loop of a write overwrites the bytes from the position where it begins. -/
theorem writeLoopOn_at {fs : Fs} (hw : fs.NoWrap)
    (hs : 0 < fs.sectorsPerCluster ∧ fs.sectorsPerCluster < 256) {v : VolOn (ℕ → Mem)} {L : List ℕ}
    {x c o p : ℕ} (h : FileClusters fs v.cached x L) (hat : CursorAt fs L p c o) (src : List Byte)
    (hin : p + src.length ≤ L.length * fs.clusterSize) :
    (writeLoopOn arrayDev fs src.length v src c o).ok = true ∧
    Overwritten fs v (writeLoopOn arrayDev fs src.length v src c o).vol L p src ∧
    (src = [] ∨ (writeLoopOn arrayDev fs src.length v src c o).offset ≤ p + src.length) := by
  have hpos : 0 < fs.clusterSize := Nat.mul_pos hs.1 (by decide)
  by_cases h0 : src = []
  · subst h0
    exact ⟨rfl, Overwritten.refl v L p, Or.inl rfl⟩
  have hlen : src.length ≠ 0 := fun hz => h0 (List.length_eq_zero_iff.mp hz)
  obtain ⟨k, hk, hcl, hp, ho, hchain, hrest, hcap⟩ := hat.chain h (by omega)
  have hdrop : L[k]::L.drop (k+1) = L.drop k := List.getElem_cons_drop hk
  obtain ⟨hok, hwritten, hend⟩ := writeLoopOn_spec hw hs src.length v src L[k]
    (L.drop (k+1)) o hrest (Nat.le_of_lt ho) le_rfl (by omega)
  rw [hdrop, ← hcl] at hwritten
  rw [← hcl] at hok hend
  have hL : ∀ y ∈ L, fs.IsData y := fun y hy => (Linked.ok_of_mem hchain hy).1
  have hall := hwritten.of_drop hw hpos hchain.nodup hL hk.le
  rw [← hp] at hall
  exact ⟨hok, hall, Or.inr (by omega)⟩

/-- A seek and a write inside a file put the data at the position, and change nothing else. -/
theorem seek_write_exact {fs : Fs} (hfs : fs.Mounted) (hw : fs.NoWrap) {f : OpenFile (ℕ → Mem)}
    {L : List ℕ} (h : FileClusters fs f.vol.cached f.file.startCluster L)
    (hsize : f.file.size ≤ L.length * fs.clusterSize) {p : ℕ} {data : List Byte}
    (hpn : p + data.length ≤ f.file.size) (hn : data.length < 2^31) :
    let r := (f.seek fs p).write arrayDev fs data
    r.ret = data.length ∧
    (∀ q, q < L.length * fs.clusterSize → fileByte arrayDev fs r.after.vol L q =
      if p ≤ q ∧ q < p + data.length then data.getD (q - p) 0#8
      else fileByte arrayDev fs f.vol L q) ∧
    (∀ lba, ¬ SectorIn fs L lba → r.after.vol.disk lba = f.vol.disk lba) ∧
    r.after.vol.fat = f.vol.fat ∧ r.after.file.size = f.file.size := by
  intro r
  obtain ⟨hs, hbytes⟩ := hfs.sectors
  have hpos : 0 < fs.clusterSize := Nat.mul_pos hs.1 (by decide)
  have hat := fat32Seek_cursor hpos hbytes h (show p ≤ f.file.size by omega)
  obtain ⟨out, hout⟩ : ∃ out, out = writeLoopOn arrayDev fs data.length f.vol data
      (f.seek fs p).file.currentCluster (f.seek fs p).file.offset := ⟨_, rfl⟩
  obtain ⟨hok, hwritten, hend⟩ := writeLoopOn_at hw hs h hat data (by omega)
  have hcursor : (fat32Seek fs f.vol.cached f.file p).currentCluster =
      (f.seek fs p).file.currentCluster := rfl
  have hoffset : (fat32Seek fs f.vol.cached f.file p).offset = (f.seek fs p).file.offset := rfl
  rw [hcursor, hoffset, ← hout] at hok hwritten hend
  have hr : r = { ret := toInt32 data.length, bytes := [], after := { vol := out.vol, file :=
      { (f.seek fs p).file with currentCluster := out.cluster, offset := out.offset
                                size := if f.file.size < out.offset then out.offset
                                  else f.file.size } } } := by
    show OpenFile.write arrayDev fs (f.seek fs p) data = _
    rw [hout] at hok ⊢
    exact if_pos hok
  rw [hr]
  refine ⟨toInt32_of_lt hn, hwritten.bytes, hwritten.frame, hwritten.fat, ?_⟩
  apply if_neg
  rcases hend with rfl | hend
  · -- nothing is written, and the seek stands inside the file
    have hseek : out.offset = (f.seek fs p).file.offset := by rw [hout]; rfl
    rw [hseek]
    exact Nat.not_lt.mpr (fat32Seek_offset_le f.file p)
  · exact Nat.not_lt.mpr (hend.trans hpn)

theorem twoFile_write :
    ((twoFile.seek sampleFs 511).write arrayDev sampleFs [7#8, 8#8]).ret = 2 ∧
    fileByte arrayDev sampleFs
      ((twoFile.seek sampleFs 511).write arrayDev sampleFs [7#8, 8#8]).after.vol [3, 4] 512 =
        8#8 := by
  have hend : 511 + [7#8, 8#8].length ≤ twoFile.file.size := by decide
  obtain ⟨hret, hbytes, -⟩ := seek_write_exact sample_mounted (by unfold Fs.NoWrap; decide)
    (f := twoFile) twoFile_clusters (by decide) hend (by decide)
  exact ⟨hret, hbytes 512 (by decide)⟩

end SukiOS.Fat32

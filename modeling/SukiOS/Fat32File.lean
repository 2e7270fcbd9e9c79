import SukiOS.Fat32Dir

/-! Seeking, reading and writing along the chain of a file. -/
namespace SukiOS.Fat32
open ByteMemory LinkedChain

/-! ### The bytes of a chain -/

/-- Byte `p` of the clusters of a chain, taken in order. -/
def chainByte (fs : Fs) (v : Vol) (L : List ℕ) (p : ℕ) : Byte :=
  readCluster fs v (L.getD (p / fs.clusterSize) 0) (p % fs.clusterSize)

/-- The sector `lba`, as the disk sees it, is one of the clusters in `L`. -/
def InChain (fs : Fs) (L : List ℕ) (lba : ℕ) : Prop :=
  ∃ y ∈ L, ∃ k, k < fs.sectorsPerCluster ∧ lba % 2^28 = sectorOf fs y k

section Bytes
variable {fs : Fs} {v v' : Vol} {c x k p q o : ℕ} {K L : List ℕ}

theorem chainByte_cons_lt (hp : p < fs.clusterSize) :
    chainByte fs v (x::K) p = readCluster fs v x p := by
  unfold chainByte
  rw [Nat.div_eq_of_lt hp, Nat.mod_eq_of_lt hp]
  rfl

theorem chainByte_cons_add (hf : fs.Ok) :
    chainByte fs v (x::K) (fs.clusterSize + q) = chainByte fs v K q := by
  have hpos : 0 < fs.clusterSize := Nat.lt_of_lt_of_le (by decide) hf.clusterSize_pos
  unfold chainByte
  rw [Nat.add_div_left _ hpos, Nat.add_mod_left]
  rfl

theorem chainByte_drop (hf : fs.Ok) (k q : ℕ) :
    chainByte fs v (L.drop k) q = chainByte fs v L (k * fs.clusterSize + q) := by
  have hpos : 0 < fs.clusterSize := Nat.lt_of_lt_of_le (by decide) hf.clusterSize_pos
  unfold chainByte
  rw [Nat.add_comm, Nat.add_mul_div_right _ _ hpos, Nat.add_mul_mod_self_right,
    List.getD_eq_getElem?_getD, List.getD_eq_getElem?_getD, List.getElem?_drop,
    Nat.add_comm k]

theorem InChain.mono (h : InChain fs K p) (hs : ∀ y ∈ K, y ∈ L) : InChain fs L p := by
  obtain ⟨y, hy, hk⟩ := h
  exact ⟨y, hs y hy, hk⟩

/-- The bytes that one turn of the read loop copies. -/
theorem sector_bytes (ho : o < fs.clusterSize) {chunk : ℕ}
    (hc : chunk ≤ 512 - o % 512) :
    (List.range chunk).map (fun i => ideReadSector v.disk
      ((clusterToLba fs x + o/512) % 2^32) (o % 512 + i)) =
    (List.range chunk).map (fun i => readCluster fs v x (o + i)) := by
  apply List.map_congr_left
  intro i hi
  have hi := List.mem_range.mp hi
  have hsec : (o + i) / 512 = o / 512 := by omega
  have hoff : (o + i) % 512 = o % 512 + i := by omega
  rw [readCluster_apply, hsec, hoff, if_pos (Fs.sector_lt ho)]
  rfl

end Bytes

/-! ### `fat32_seek` -/

section Seek
variable {fs : Fs} {v : Vol} {c x r : ℕ} {K L : List ℕ}

/-- The loop goes to the cluster of the position, or stops at the last one. -/
theorem seekLoop_spec (hf : fs.Ok) (n : ℕ) : ∀ r x K, FatChain fs v x (x::K) → r ≤ n →
    ∃ k, ∃ hk : k < (x::K).length, k * fs.clusterSize ≤ r ∧
      seekLoop fs v n r x = (r - k * fs.clusterSize, (x::K)[k]) ∧
      (r - k * fs.clusterSize < fs.clusterSize ∨ k + 1 = (x::K).length) := by
  have hpos := hf.clusterSize_pos
  have hsize : fs.sectorsPerCluster * fs.bytesPerSector = fs.clusterSize := by
    rw [hf.bytes]
    rfl
  induction n with
  | zero =>
    intro r x K _ hr
    refine ⟨0, Nat.succ_pos _, by omega, ?_, Or.inl (by omega)⟩
    rw [seekLoop, Nat.zero_mul]
    rfl
  | succ n ih =>
    intro r x K h hr
    unfold seekLoop
    rw [hsize]
    by_cases hge : fs.clusterSize ≤ r
    · rw [if_pos hge]
      dsimp only
      have hrest : FatChain fs v (fatNextCluster fs v x) K := h.2.2
      cases K with
      | nil =>
        have hend : fatEof ≤ fatNextCluster fs v x := hrest
        rw [if_pos hend]
        exact ⟨0, Nat.succ_pos _, by omega, by rw [Nat.zero_mul]; rfl, Or.inr rfl⟩
      | cons y K =>
        -- the next turn starts at the beginning of the next cluster
        have hy : fatNextCluster fs v x = y := hrest.1
        rw [hy] at hrest ⊢
        rw [if_neg (not_eof hf y hrest.2.1)]
        obtain ⟨k, hk, hle, heq, hor⟩ := ih (r - fs.clusterSize) y K hrest (by omega)
        have hmul : (k+1) * fs.clusterSize = k * fs.clusterSize + fs.clusterSize := Nat.succ_mul _ _
        refine ⟨k+1, Nat.succ_lt_succ hk, by omega, ?_, ?_⟩
        · rw [heq, hmul]
          exact Prod.ext (by omega) rfl
        · rcases hor with hlt | hlast
          · exact Or.inl (by omega)
          · exact Or.inr (congrArg Nat.succ hlast)
    · rw [if_neg hge]
      exact ⟨0, Nat.succ_pos _, by omega, by rw [Nat.zero_mul]; rfl, Or.inl (by omega)⟩

/-- Where `fat32_seek` puts the handle. -/
theorem fat32Seek_spec (hf : fs.Ok) {file : File} (h : FatChain fs v file.startCluster L)
    (hL : L ≠ []) (off : ℕ) :
    ∃ k, ∃ hk : k < L.length, k * fs.clusterSize ≤ min off file.size ∧
      fat32Seek fs v file off = { file with
        currentCluster := L[k], offset := min off file.size - k * fs.clusterSize } ∧
      (min off file.size - k * fs.clusterSize < fs.clusterSize ∨ k + 1 = L.length) := by
  cases L with
  | nil => exact absurd rfl hL
  | cons x K =>
    have hx : file.startCluster = x := h.1
    have hmin : (if file.size < off then file.size else off) = min off file.size := by
      split <;> omega
    unfold fat32Seek
    rw [hmin, hx]
    rw [hx] at h
    obtain ⟨k, hk, hle, heq, hor⟩ := seekLoop_spec hf (min off file.size) _ x K h le_rfl
    refine ⟨k, hk, hle, ?_, hor⟩
    dsimp only
    rw [heq]

/-- A file of size 0. -/
theorem fat32Seek_empty {file : File} (hs : file.size = 0) (off : ℕ) : fat32Seek fs v file off =
    { file with currentCluster := file.startCluster, offset := 0 } := by
  have hmin : (if file.size < off then file.size else off) = 0 := by
    split <;> omega
  unfold fat32Seek
  rw [hmin]
  rfl

/-- A file without clusters. -/
theorem fat32Seek_zero {file : File} (h : file.startCluster = 0) (hs : file.size = 0) (off : ℕ) :
    fat32Seek fs v file off = { file with currentCluster := 0, offset := 0 } := by
  rw [fat32Seek_empty hs, h]

end Seek

/-! ### `fat32_read` -/

section Read
variable {fs : Fs} {v : Vol} {c x o : ℕ} {K L : List ℕ}

theorem inChain_sector (ho : o < fs.clusterSize) (hx : x ∈ L) :
    InChain fs L ((clusterToLba fs x + o/512) % 2^32) :=
  ⟨x, hx, o/512, Fs.sector_lt ho, rfl⟩

/-- The bytes of one turn end with the sector, or with what remains. -/
theorem turn_chunk (o : ℕ) {remain : ℕ} (h0 : remain ≠ 0) : ∃ chunk,
    (if 512 - o % 512 < remain then 512 - o % 512 else remain) = chunk ∧
      chunk ≤ 512 - o % 512 ∧ chunk ≤ remain ∧ 0 < chunk := by
  refine ⟨_, rfl, ?_⟩
  by_cases h : 512 - o % 512 < remain
  · rw [if_pos h]
    omega
  · rw [if_neg h]
    omega

/-- A turn stays in one sector, so it does not go over the end of the cluster. -/
theorem turn_in_cluster {chunk : ℕ} (ho : o < fs.clusterSize) (hc : chunk ≤ 512 - o % 512) :
    o + chunk ≤ fs.clusterSize := by
  unfold Fs.clusterSize at ho ⊢
  omega

/-- Behind the end of the chain nothing is read. -/
theorem readLoop_eof (n remain o : ℕ) (h : fatEof ≤ x) :
    readLoop fs v n remain x o = ⟨[], [], x, o⟩ := by
  cases n with
  | zero => rfl
  | succ n =>
    unfold readLoop
    exact if_neg (fun hc => Nat.not_le.mpr hc.2.1 h)

theorem map_range_add {α : Type*} (f g : ℕ → α) (a b : ℕ) (h : ∀ i, g i = f (a + i)) :
    (List.range (a + b)).map f = (List.range a).map f ++ (List.range b).map g := by
  rw [List.range_add, List.map_append, List.map_map]
  apply congrArg
  apply List.map_congr_left
  intro i _
  exact (h i).symm

/-- The loop reads on from the offset `o` of the first cluster, to the end of the chain at most. -/
theorem readLoop_spec (hf : fs.Ok) (n : ℕ) : ∀ remain x K o, FatChain fs v x (x::K) →
    o < fs.clusterSize → remain ≤ n →
    (readLoop fs v n remain x o).bytes =
      (List.range (min remain ((K.length + 1) * fs.clusterSize - o))).map
        (fun i => chainByte fs v (x::K) (o + i)) ∧
    ∀ l ∈ (readLoop fs v n remain x o).lbas, InChain fs (x::K) l := by
  have hlt := hf.clusterSize_lt
  induction n with
  | zero =>
    intro remain x K o _ _ hr
    obtain rfl : remain = 0 := by omega
    exact ⟨by rw [Nat.zero_min]; rfl, fun l hl => nomatch hl⟩
  | succ n ih =>
    intro remain x K o h ho hr
    have hx : fs.IsData x := h.2.1
    unfold readLoop
    by_cases h0 : remain = 0
    · rw [if_neg (fun hc => hc.1 h0), h0]
      exact ⟨by rw [Nat.zero_min]; rfl, fun l hl => nomatch hl⟩
    rw [if_pos ⟨h0, hf.data_lt_eof hx, hx.1⟩]
    dsimp only
    obtain ⟨chunk, hchunk, hc1, hc2, hc3⟩ := turn_chunk o h0
    rw [hchunk]
    have hclu := turn_in_cluster ho hc1
    have hmod : (o + chunk) % 2^32 = o + chunk := Nat.mod_eq_of_lt (by omega)
    have hbytes := sector_bytes (v := v) (x := x) ho hc1
    have hhere : (List.range chunk).map (fun i => readCluster fs v x (o + i)) =
        (List.range chunk).map (fun i => chainByte fs v (x::K) (o + i)) := by
      apply List.map_congr_left
      intro i hi
      have hi := List.mem_range.mp hi
      exact (chainByte_cons_lt (by omega)).symm
    have hfirst := inChain_sector (L := x::K) ho List.mem_cons_self
    rw [hmod, hbytes, hhere]
    by_cases hend : fs.clusterSize ≤ o + chunk
    · rw [if_pos hend]
      have hfull : o + chunk = fs.clusterSize := by omega
      have hrest : FatChain fs v (fatNextCluster fs v x) K := h.2.2
      cases K with
      | nil =>
        -- the chain ends with this cluster
        have hge : fatEof ≤ fatNextCluster fs v x := hrest
        rw [readLoop_eof n (remain - chunk) 0 hge]
        refine ⟨?_, ?_⟩
        · have hmin : min remain ((([] : List ℕ).length + 1) * fs.clusterSize - o) = chunk := by
            rw [List.length_nil]
            omega
          rw [hmin, List.append_nil]
        · intro l hl
          rw [List.mem_singleton.mp hl]
          exact hfirst
      | cons y K =>
        -- the next turn starts at the beginning of the next cluster
        have hy : fatNextCluster fs v x = y := hrest.1
        rw [hy] at hrest ⊢
        obtain ⟨hb, hl⟩ := ih (remain - chunk) y K 0 hrest (by omega) (by omega)
        rw [hb]
        refine ⟨?_, ?_⟩
        · have hlen : ((y::K).length + 1) * fs.clusterSize =
              fs.clusterSize + (K.length + 1) * fs.clusterSize := by
            rw [List.length_cons, Nat.succ_mul, Nat.add_comm]
          have hmin : min remain (((y::K).length + 1) * fs.clusterSize - o) =
              chunk + min (remain - chunk) ((K.length + 1) * fs.clusterSize - 0) := by
            rw [hlen]
            omega
          rw [hmin]
          refine (map_range_add _ _ chunk _ (fun i => ?_)).symm
          rw [Nat.zero_add, ← chainByte_cons_add (x := x) hf, ← hfull, Nat.add_assoc]
        · intro l hm
          rcases List.mem_cons.mp hm with rfl | hm
          · exact hfirst
          · exact (hl l hm).mono (fun z hz => List.mem_cons_of_mem x hz)
    · -- the next turn goes on in the same cluster
      rw [if_neg hend]
      obtain ⟨hb, hl⟩ := ih (remain - chunk) x K (o + chunk) h (by omega) (by omega)
      rw [hb]
      refine ⟨?_, ?_⟩
      · have hmin : min remain ((K.length + 1) * fs.clusterSize - o) =
            chunk + min (remain - chunk) ((K.length + 1) * fs.clusterSize - (o + chunk)) := by
          have hmul : (K.length + 1) * fs.clusterSize =
            K.length * fs.clusterSize + fs.clusterSize :=
            Nat.succ_mul _ _
          omega
        rw [hmin]
        exact (map_range_add _ _ chunk _ (fun i => by rw [Nat.add_assoc])).symm
      · intro l hm
        rcases List.mem_cons.mp hm with rfl | hm
        · exact hfirst
        · exact hl l hm

theorem FatChain.drop (h : FatChain fs v c L) {k : ℕ} (hk : k < L.length) :
    FatChain fs v L[k] (L[k]::L.drop (k+1)) := Linked.drop h hk

/-- Reading at a position inside the clusters of the file. -/
theorem read_inside (hf : fs.Ok) {file : File} (h : FatChain fs v file.startCluster L)
    (off count : ℕ)
    (hin : min off file.size < L.length * fs.clusterSize) :
    (fat32Read fs v (fat32Seek fs v file off) count).bytes =
      (List.range (min count (L.length * fs.clusterSize - min off file.size))).map
        (fun i => chainByte fs v L (min off file.size + i)) ∧
    ∀ l ∈ (fat32Read fs v (fat32Seek fs v file off) count).lbas, InChain fs L l := by
  have hL : L ≠ [] := by
    rintro rfl
    rw [List.length_nil, Nat.zero_mul] at hin
    exact Nat.not_lt_zero _ hin
  -- the loop starts in the cluster `k` of the chain, at the offset that is left
  obtain ⟨k, hk, hle, hseek, hor⟩ := fat32Seek_spec hf h hL off
  generalize min off file.size = p at hin hle hseek hor ⊢
  have ho : p - k * fs.clusterSize < fs.clusterSize := by
    rcases hor with hlt | hlast
    · exact hlt
    · rw [← hlast, Nat.succ_mul] at hin
      omega
  obtain ⟨hb, hl⟩ := readLoop_spec hf count count L[k] (L.drop (k+1)) (p - k * fs.clusterSize)
    (h.drop hk) ho le_rfl
  have hdrop : L[k]::L.drop (k+1) = L.drop k := List.getElem_cons_drop hk
  rw [hseek]
  refine ⟨?_, fun l hm => (hl l hm).mono (fun y hy => ?_)⟩
  · unfold fat32Read
    dsimp only
    rw [hb, hdrop, List.length_drop]
    have hmul : (L.length - (k+1) + 1) * fs.clusterSize =
        L.length * fs.clusterSize - k * fs.clusterSize := by
      rw [← Nat.sub_mul]
      congr 1
      omega
    have hmin : min count ((L.length - (k+1) + 1) * fs.clusterSize - (p - k * fs.clusterSize)) =
        min count (L.length * fs.clusterSize - p) := by
      rw [hmul]
      omega
    rw [hmin]
    apply List.map_congr_left
    intro i _
    rw [chainByte_drop hf]
    congr 1
    omega
  · rw [hdrop] at hy
    exact List.mem_of_mem_drop hy

/-- A file without clusters has no bytes. -/
theorem read_empty {file : File} (h : file.startCluster = 0) (hs : file.size = 0) (off count : ℕ) :
    (fat32Read fs v (fat32Seek fs v file off) count).bytes = [] ∧
    (fat32Read fs v (fat32Seek fs v file off) count).lbas = [] := by
  rw [fat32Seek_zero h hs]
  unfold fat32Read
  cases count with
  | zero => exact ⟨rfl, rfl⟩
  | succ n =>
    dsimp only
    unfold readLoop
    rw [if_neg (fun hc => absurd hc.2.2 (by decide))]
    exact ⟨rfl, rfl⟩

/-- Reading where the clusters of the file end: the loop reads one sector behind the last. -/
theorem read_at_end (hf : fs.Ok) {file : File} (h : FatChain fs v file.startCluster L) (hL : L ≠ [])
    (off : ℕ) {count : ℕ} (hcount : 0 < count)
    (hend : min off file.size = L.length * fs.clusterSize) :
    (fat32Read fs v (fat32Seek fs v file off) count).bytes.length = min count 512 ∧
    (fat32Read fs v (fat32Seek fs v file off) count).lbas =
      [(clusterToLba fs (L.getLast hL) + fs.sectorsPerCluster) % 2^32] := by
  obtain ⟨k, hk, hle, hseek, hor⟩ := fat32Seek_spec hf h hL off
  have hlt := hf.clusterSize_lt
  rw [hend] at hseek hor
  -- a seek to the end stops at the end of the last cluster, not behind it
  have hlast : k + 1 = L.length := by
    rcases hor with hlt | hlast
    · have hmul : L.length * fs.clusterSize - k * fs.clusterSize =
          (L.length - k) * fs.clusterSize := (Nat.sub_mul _ _ _).symm
      rw [hmul] at hlt
      have h1 : 1 ≤ L.length - k := by omega
      have hle := Nat.mul_le_mul_right fs.clusterSize h1
      rw [Nat.one_mul] at hle
      omega
    · exact hlast
  have hoff : L.length * fs.clusterSize - k * fs.clusterSize = fs.clusterSize := by
    rw [← hlast, Nat.succ_mul, Nat.add_sub_cancel_left]
  rw [hoff] at hseek
  have hlk : L[k] = L.getLast hL := by
    rw [List.getLast_eq_getElem]
    congr 1
    omega
  have hchain := h.drop hk
  have hstop : fatEof ≤ fatNextCluster fs v L[k] := by
    have hnil : L.drop (k+1) = [] := List.drop_eq_nil_of_le (by omega)
    rw [hnil] at hchain
    exact hchain.2.2
  have hx : fs.IsData L[k] := hchain.2.1
  have hsec : fs.clusterSize / 512 = fs.sectorsPerCluster := by
    unfold Fs.clusterSize
    omega
  have hbyte : fs.clusterSize % 512 = 0 := by
    unfold Fs.clusterSize
    omega
  rw [hseek]
  unfold fat32Read
  dsimp only
  cases count with
  | zero => exact absurd hcount (by decide)
  | succ n =>
    unfold readLoop
    rw [if_pos ⟨Nat.succ_ne_zero n, hf.data_lt_eof hx, hx.1⟩]
    dsimp only
    rw [hbyte, hsec]
    obtain ⟨chunk, hchunk⟩ : ∃ chunk, chunk = (if 512 - 0 < n+1 then 512 - 0 else n+1) := ⟨_, rfl⟩
    rw [← hchunk]
    have hc : chunk = min (n+1) 512 := by
      rw [hchunk]
      split <;> omega
    have hge : fs.clusterSize ≤ (fs.clusterSize + chunk) % 2^32 := by
      rw [Nat.mod_eq_of_lt (by omega)]
      omega
    rw [if_pos hge]
    rw [readLoop_eof n (n + 1 - chunk) 0 hstop]
    refine ⟨?_, ?_⟩
    · rw [List.append_nil, List.length_map, List.length_range]
      exact hc
    · rw [hlk]

end Read

/-! ### `fat32_write` -/

/-- From `v` to `v'` the clusters `N`, which were free, were put behind the chain `L` of `c`, and
data was written to clusters of the chain. -/
structure Extended (fs : Fs) (v v' : Vol) (c : ℕ) (L N : List ℕ) : Prop where
  chain : FatChain fs v' c (L ++ N)
  free : ∀ n ∈ N, fs.IsData n ∧ v.fatGet n &&& 0x0FFFFFFF = 0
  fat : ∀ y, y ∉ L ++ N → v'.fatGet y = v.fatGet y
  disk : ∀ a, (∀ y ∈ L ++ N, ∀ k, k < fs.sectorsPerCluster → a / 512 ≠ sectorOf fs y k) →
    v'.disk a = v.disk a

section Write
variable {fs : Fs} {v v' v'' : Vol} {c x n o : ℕ} {K L M N : List ℕ}

theorem Extended.refl (h : FatChain fs v c L) : Extended fs v v c L [] where
  chain := by
    rw [List.append_nil]
    exact h
  free := fun n hn => nomatch hn
  fat := fun _ _ => rfl
  disk := fun _ _ => rfl

theorem Extended.trans (hf : fs.Ok) (h : Extended fs v v' c L M)
    (h' : Extended fs v' v'' c (L ++ M) N) : Extended fs v v'' c L (M ++ N) where
  chain := by
    rw [← List.append_assoc]
    exact h'.chain
  free := by
    intro n hn
    rcases List.mem_append.mp hn with hn | hn
    · exact h.free n hn
    · obtain ⟨hd, hfree⟩ := h'.free n hn
      have hm : n ∉ L ++ M := fun hm => absurd hfree (h.chain.used hf hm)
      rw [h.fat n hm] at hfree
      exact ⟨hd, hfree⟩
  fat := by
    intro y hy
    rw [← List.append_assoc] at hy
    rw [h'.fat y hy, h.fat y (fun hm => hy (List.mem_append_left N hm))]
  disk := by
    intro a ha
    rw [← List.append_assoc] at ha
    rw [h'.disk a ha, h.disk a (fun y hy => ha y (List.mem_append_left N hy))]

/-- The cluster after one of the chain is in the chain, or it was the last. -/
theorem FatChain.next_cases (h : FatChain fs v c L) (hx : x ∈ L) :
    (fatNextCluster fs v x ∈ L) ∨
    (fatEof ≤ fatNextCluster fs v x ∧ ∃ K, L = K ++ [x]) := by
  obtain ⟨A, B, rfl⟩ := List.append_of_mem hx
  have hrest : FatChain fs v (fatNextCluster fs v x) B := (Linked.suffix h).2.2
  cases B with
  | nil => exact Or.inr ⟨hrest, A, rfl⟩
  | cons y B =>
    refine Or.inl ?_
    rw [hrest.1]
    simp

/-- A free cluster put behind the last one. -/
theorem Extended.append (hf : fs.Ok) (h : FatChain fs v c (K ++ [x])) (hd : fs.IsData n)
    (hn : v.fatGet n &&& 0x0FFFFFFF = 0) :
    Extended fs v ((v.fatSet x n).fatSet n fatEof) c (K ++ [x]) [n] := by
  have hlt := hf.total_lt
  have hn2 := hd.2
  have heof : fatEof < 2^32 := by decide
  have hnot : n ∉ K ++ [x] := fun hm => h.used hf hm hn
  have hxK : x ∉ K := by
    have hnd := h.nodup hf
    rw [List.nodup_append] at hnd
    exact fun hm => hnd.2.2 x hm x (List.mem_singleton.mpr rfl) rfl
  have hxd : fs.IsData x := h.isData (by simp)
  have hget (y : ℕ) : ((v.fatSet x n).fatSet n fatEof).fatGet y =
      if y = n then fatEof else if y = x then n else v.fatGet y := by
    rw [fatGet_fatSet heof, fatGet_fatSet (by omega)]
  have hxn : x ≠ n := fun he => hnot (by rw [he]; simp)
  refine { chain := ?_, free := ?_, fat := ?_, disk := fun _ _ => rfl }
  · -- the entry of the last cluster and that of the new one are the only ones that change
    apply Linked.concat h hxK
    · intro y hy
      apply fatNextCluster_congr
      have hyn : y ≠ n := fun he => hnot (by rw [← he]; simp [hy])
      have hyx : y ≠ x := fun he => hxK (he ▸ hy)
      rw [hget, if_neg hyn, if_neg hyx]
    · rw [fatNextCluster_eq hf hxd, hget, if_neg hxn, if_pos rfl, land_cluster hf hd]
    · exact hd
    · rw [fatNextCluster_eq hf hd, hget, if_pos rfl]
      decide
  · intro y hy
    rw [List.mem_singleton.mp hy]
    exact ⟨hd, hn⟩
  · intro y hy
    have hyn : y ≠ n := fun he => hy (by simp [he])
    have hyx : y ≠ x := fun he => hy (by simp [he])
    rw [hget, if_neg hyn, if_neg hyx]

/-- A sector of the chain written. -/
theorem Extended.sector (h : FatChain fs v c L) (hx : x ∈ L) (ho : o < fs.clusterSize) (buf : Mem) :
    Extended fs v { v with
      disk := ideWriteSector v.disk ((clusterToLba fs x + o/512) % 2^32) buf } c L [] := by
  refine { chain := ?_, free := (fun n hn => nomatch hn), fat := fun _ _ => rfl, disk := ?_ }
  · rw [List.append_nil]
    exact h.congr_fat rfl
  · intro a ha
    exact if_neg (ha x (List.mem_append_left _ hx) _ (Fs.sector_lt ho))

/-- The loop of `fat32_write` from a cluster of the chain on. -/
theorem writeLoop_spec (hf : fs.Ok) (n : ℕ) : ∀ (src : List Byte) (v : Vol) (L : List ℕ) (x o : ℕ),
    FatChain fs v c L → x ∈ L → ∃ N, Extended fs v (writeLoop fs n v src x o).vol c L N ∧
      (∀ l ∈ (writeLoop fs n v src x o).lbas, InChain fs (L ++ N) l) ∧
      (o ≤ fs.clusterSize → (writeLoop fs n v src x o).offset ≤ fs.clusterSize) := by
  have hlt := hf.clusterSize_lt
  have hpos := hf.clusterSize_pos
  induction n with
  | zero =>
    intro src v L x o h _
    exact ⟨[], Extended.refl h, (fun l hl => nomatch hl), fun ho => ho⟩
  | succ n ih =>
    intro src v L x o h hx
    unfold writeLoop
    by_cases hsrc : src = []
    · rw [if_pos hsrc]
      exact ⟨[], Extended.refl h, (fun l hl => nomatch hl), fun ho => ho⟩
    rw [if_neg hsrc]
    -- the turn on a cluster `y` of the chain `L ++ M`, where the turn may have appended `M`
    have hturn (v1 : Vol) (M : List ℕ) (y q : ℕ) (h1 : Extended fs v v1 c L M) (hy : y ∈ L ++ M)
        (hq : q < fs.clusterSize) (chunk : ℕ) (hchunk : chunk ≤ 512 - q % 512) (buf : Mem) :
        ∃ N, Extended fs v (writeLoop fs n
            { v1 with disk := ideWriteSector v1.disk ((clusterToLba fs y + q/512) % 2^32) buf }
            (src.drop chunk) y ((q + chunk) % 2^32)).vol c L N ∧
          (∀ l ∈ (clusterToLba fs y + q/512) % 2^32 :: (writeLoop fs n
            { v1 with disk := ideWriteSector v1.disk ((clusterToLba fs y + q/512) % 2^32) buf }
            (src.drop chunk) y ((q + chunk) % 2^32)).lbas, InChain fs (L ++ N) l) ∧
          (o ≤ fs.clusterSize → (writeLoop fs n
            { v1 with disk := ideWriteSector v1.disk ((clusterToLba fs y + q/512) % 2^32) buf }
            (src.drop chunk) y ((q + chunk) % 2^32)).offset ≤ fs.clusterSize) := by
      have h2 := Extended.sector h1.chain hy hq buf
      have h12 := h1.trans hf h2
      rw [List.append_nil] at h12
      have hclu := turn_in_cluster hq hchunk
      obtain ⟨N, hext, hl, ho⟩ := ih (src.drop chunk) _ (L ++ M) y ((q + chunk) % 2^32) h12.chain hy
      refine ⟨M ++ N, h12.trans hf hext, ?_, fun _ => ho ?_⟩
      swap
      · rw [Nat.mod_eq_of_lt (by omega)]
        exact hclu
      intro l hm
      rw [← List.append_assoc]
      rcases List.mem_cons.mp hm with rfl | hm
      · exact (inChain_sector hq hy).mono (fun z hz => List.mem_append_left N hz)
      · exact hl l hm
    by_cases hend : fs.clusterSize ≤ o
    · rw [if_pos hend]
      unfold nextForWrite
      dsimp only
      by_cases heof : fatEof ≤ fatNextCluster fs v x
      · rw [if_pos heof]
        have hlast : ∃ K, L = K ++ [x] := by
          rcases h.next_cases hx with hm | ⟨-, hK⟩
          · exact absurd heof (not_eof hf _ (h.isData hm))
          · exact hK
        obtain ⟨K, rfl⟩ := hlast
        rcases findFreeCluster_spec hf v with ⟨h0, -⟩ | ⟨hd, hfree⟩
        · rw [if_pos h0]
          exact ⟨[], Extended.refl h, (fun l hl => nomatch hl), fun ho => ho⟩
        · have hne : ¬ findFreeCluster fs v = 0 := by
            have := hd.1
            omega
          rw [if_neg hne]
          dsimp only [Option.map_some]
          exact hturn _ [findFreeCluster fs v] (findFreeCluster fs v) 0
            (Extended.append hf h hd hfree) (by simp) (by omega) _ (by split <;> omega) _
      · rw [if_neg heof]
        dsimp only [Option.map_some]
        have hm : fatNextCluster fs v x ∈ L := by
          rcases h.next_cases hx with hm | ⟨hge, -⟩
          · exact hm
          · exact absurd hge heof
        exact hturn v [] (fatNextCluster fs v x) 0 (Extended.refl h)
          (by rw [List.append_nil]; exact hm) (by omega) _ (by split <;> omega) _
    · rw [if_neg hend]
      dsimp only
      exact hturn v [] x o (Extended.refl h)
        (by rw [List.append_nil]; exact hx) (by omega) _ (by split <;> omega) _

/-- What `fat32_write` after `fat32_seek` does to a file that has clusters. -/
theorem write_spec (hf : fs.Ok) {file : File} (h : FatChain fs v file.startCluster L) (hL : L ≠ [])
    (off : ℕ) (src : List Byte) :
    ∃ N, Extended fs v (fat32Write fs v (fat32Seek fs v file off) src).vol file.startCluster L N ∧
      (∀ l ∈ (fat32Write fs v (fat32Seek fs v file off) src).lbas, InChain fs (L ++ N) l) ∧
      (fat32Write fs v (fat32Seek fs v file off) src).file.startCluster = file.startCluster ∧
      (file.size ≤ L.length * fs.clusterSize →
        (fat32Write fs v (fat32Seek fs v file off) src).file.size ≤
          (L ++ N).length * fs.clusterSize) := by
  obtain ⟨k, hk, hle, hseek, hor⟩ := fat32Seek_spec hf h hL off
  rw [hseek]
  obtain ⟨N, hext, hl, ho⟩ := writeLoop_spec (c := file.startCluster) hf src.length src v L L[k]
    (min off file.size - k * fs.clusterSize) h (List.getElem_mem hk)
  have hlen : L.length * fs.clusterSize ≤ (L ++ N).length * fs.clusterSize := by
    apply Nat.mul_le_mul_right
    rw [List.length_append]
    omega
  have hone : fs.clusterSize ≤ L.length * fs.clusterSize := Nat.le_mul_of_pos_left _ (by omega)
  unfold fat32Write
  dsimp only
  by_cases hok : (writeLoop fs src.length v src L[k] (min off file.size - k * fs.clusterSize)).ok
  · rw [if_pos hok]
    refine ⟨N, hext, hl, rfl, fun hs => ?_⟩
    dsimp only
    -- the size grows to the last offset at most, which lies in the chain
    have hoff : min off file.size - k * fs.clusterSize ≤ fs.clusterSize := by
      rcases hor with hlt | hlast
      · omega
      · have hmul : L.length * fs.clusterSize = k * fs.clusterSize + fs.clusterSize := by
          rw [← hlast, Nat.succ_mul]
        omega
    have h1 := ho hoff
    split <;> omega
  · rw [if_neg hok]
    exact ⟨N, hext, hl, rfl, fun hs => by dsimp only; omega⟩

theorem fat32Write_start (v : Vol) (file : File) (offset : ℕ) (src : List Byte) :
    (fat32Write fs v (fat32Seek fs v file offset) src).file.startCluster = file.startCluster := by
  unfold fat32Write
  dsimp only
  split <;> rfl

end Write

end SukiOS.Fat32

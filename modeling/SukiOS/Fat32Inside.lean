import SukiOS.VfsRuns

/-! Writing inside the clusters that a file has: exactly the bytes of the call change, and the
table stays. -/
namespace SukiOS.Fat32
open ByteMemory LinkedChain

/-- From `v` to `v'` the bytes `src` were put at position `o` of the clusters `L`. -/
structure PutAt (fs : Fs) (v v' : Vol) (L : List ℕ) (o : ℕ) (src : List Byte) : Prop where
  fat : v'.fat = v.fat
  bytes : ∀ p, p < L.length * fs.clusterSize → chainByte fs v' L p =
    if o ≤ p ∧ p < o + src.length then src.getD (p - o) 0#8 else chainByte fs v L p
  disk : ∀ a, (∀ y ∈ L, ∀ k, k < fs.sectorsPerCluster → a / 512 ≠ sectorOf fs y k) →
    v'.disk a = v.disk a

section Put
variable {fs : Fs} {v v' v'' : Vol} {c x y o p q chunk : ℕ} {K L : List ℕ} {src : List Byte}

theorem PutAt.refl (v : Vol) (L : List ℕ) (o : ℕ) : PutAt fs v v L o [] where
  fat := rfl
  bytes := by
    intro p _
    rw [List.length_nil, if_neg (by omega)]
  disk := fun _ _ => rfl

theorem PutAt.trans (hc : chunk ≤ src.length) (h : PutAt fs v v' L o (src.take chunk))
    (h' : PutAt fs v' v'' L (o + chunk) (src.drop chunk)) : PutAt fs v v'' L o src where
  fat := h'.fat.trans h.fat
  bytes := by
    intro p hp
    have htake : (src.take chunk).length = chunk := List.length_take_of_le hc
    rw [h'.bytes p hp, h.bytes p hp, htake, List.length_drop]
    by_cases h1 : o + chunk ≤ p ∧ p < o + chunk + (src.length - chunk)
    · rw [if_pos h1, if_pos (by omega), List.getD_eq_getElem?_getD, List.getD_eq_getElem?_getD,
        List.getElem?_drop]
      congr 2
      omega
    · rw [if_neg h1]
      by_cases h2 : o ≤ p ∧ p < o + chunk
      · rw [if_pos h2, if_pos (by omega), List.getD_eq_getElem?_getD, List.getD_eq_getElem?_getD,
          List.getElem?_take_of_lt (by omega)]
      · rw [if_neg h2, if_neg (by omega)]
  disk := fun a ha => (h'.disk a ha).trans (h.disk a ha)

/-- The clusters that are not in the chain keep their bytes. -/
theorem PutAt.readCluster (hf : fs.Ok) (h : PutAt fs v v' L o src) (hL : ∀ y ∈ L, fs.IsData y)
    (hx : fs.IsData x) (hn : x ∉ L) : readCluster fs v' x = readCluster fs v x := by
  apply readCluster_congr
  intro k hk b hb
  apply h.disk
  intro y hy k' hk' heq
  rw [sector_div _ _ hb] at heq
  exact hn ((hf.apart.inj x y k k' hx (hL y hy) hk hk' heq).1 ▸ hy)

/-- A write in a later cluster of the chain. -/
theorem PutAt.cons (hf : fs.Ok) (h : PutAt fs v v' K q src) (hL : ∀ y ∈ x::K, fs.IsData y)
    (hx : x ∉ K) : PutAt fs v v' (x::K) (fs.clusterSize + q) src where
  fat := h.fat
  bytes := by
    intro p hp
    have hread := h.readCluster hf (fun y hy => hL y (List.mem_cons_of_mem x hy))
      (hL x List.mem_cons_self) hx
    rw [List.length_cons, Nat.succ_mul] at hp
    by_cases hlt : p < fs.clusterSize
    · rw [chainByte_cons_lt hlt, chainByte_cons_lt hlt, hread, if_neg (by omega)]
    · obtain ⟨r, rfl⟩ : ∃ r, p = fs.clusterSize + r := ⟨p - fs.clusterSize, by omega⟩
      rw [chainByte_cons_add hf, chainByte_cons_add hf, h.bytes r (by omega)]
      by_cases hin : q ≤ r ∧ r < q + src.length
      · rw [if_pos hin, if_pos (by omega)]
        congr 1
        omega
      · rw [if_neg hin, if_neg (by omega)]
  disk := fun a ha => h.disk a (fun y hy => ha y (List.mem_cons_of_mem x hy))

/-- A write behind the first `k` clusters of the chain. -/
theorem PutAt.of_drop (hf : fs.Ok) {L : List ℕ} (hL : ∀ y ∈ L, fs.IsData y) (hnd : L.Nodup)
    (k : ℕ) (hk : k ≤ L.length) (h : PutAt fs v v' (L.drop k) q src) :
    PutAt fs v v' L (k * fs.clusterSize + q) src := by
  induction k generalizing L with
  | zero =>
    rw [Nat.zero_mul, Nat.zero_add]
    exact h
  | succ k ih =>
    cases L with
    | nil => exact absurd hk (by simp)
    | cons x K =>
      rw [List.drop_succ_cons] at h
      have hK : ∀ y ∈ K, fs.IsData y := fun y hy => hL y (List.mem_cons_of_mem x hy)
      have hrest := (ih hK (List.nodup_cons.mp hnd).2 (Nat.le_of_succ_le_succ hk) h).cons hf hL
        (List.nodup_cons.mp hnd).1
      have hpos : (k+1) * fs.clusterSize + q = fs.clusterSize + (k * fs.clusterSize + q) := by
        rw [Nat.succ_mul]
        omega
      rw [hpos]
      exact hrest

/-- The disk after one turn of the loop of `fat32_write`. -/
def putSector (disk : Mem) (lba byteOff chunk : ℕ) (src : List Byte) : Mem :=
  ideWriteSector disk lba (fun b =>
    if byteOff ≤ b ∧ b < byteOff + chunk then src.getD (b - byteOff) 0#8
    else ideReadSector disk lba b)

theorem putSector_off {disk : Mem} {lba a : ℕ} (ha : a / 512 ≠ lba % 2^28) (byteOff chunk : ℕ) :
    putSector disk lba byteOff chunk src a = disk a := if_neg ha

theorem putSector_on {disk : Mem} {lba byteOff : ℕ} (b : ℕ) (hb : b < 512) :
    putSector disk lba byteOff chunk src (lba % 2^28 * 512 + b) =
      if byteOff ≤ b ∧ b < byteOff + chunk then src.getD (b - byteOff) 0#8
      else disk (lba % 2^28 * 512 + b) := by
  have hmod : (lba % 2^28 * 512 + b) % 512 = b := by omega
  unfold putSector ideWriteSector
  rw [if_pos (sector_div _ _ hb), hmod]
  rfl

/-- One turn of the loop: part of one sector of the first cluster. -/
theorem PutAt.turn (hf : fs.Ok) (hL : ∀ y ∈ x::K, fs.IsData y) (hx : x ∉ K)
    (ho : o < fs.clusterSize) (hc : chunk ≤ 512 - o % 512) (hlen : chunk ≤ src.length) :
    PutAt fs v { v with
      disk := putSector v.disk ((clusterToLba fs x + o/512) % 2^32) (o % 512) chunk src }
      (x::K) o (src.take chunk) := by
  have hsec := Fs.sector_lt ho
  have hdata := hL x List.mem_cons_self
  refine { fat := rfl, bytes := ?_, disk := fun a ha => ?_ }
  swap
  · exact putSector_off (ha x List.mem_cons_self _ hsec) _ _
  intro p hp
  rw [List.length_take_of_le hlen]
  by_cases hlt : p < fs.clusterSize
  · -- in the first cluster only the sector of `o` changes
    have hb : p % 512 < 512 := Nat.mod_lt _ (by decide)
    rw [chainByte_cons_lt hlt, chainByte_cons_lt hlt, readCluster_apply, readCluster_apply,
      if_pos (Fs.sector_lt hlt), if_pos (Fs.sector_lt hlt)]
    dsimp only
    by_cases hsame : p / 512 = o / 512
    · rw [hsame]
      refine (putSector_on (p % 512) hb).trans ?_
      by_cases hin : o ≤ p ∧ p < o + chunk
      · rw [if_pos hin, if_pos (by omega), List.getD_eq_getElem?_getD, List.getD_eq_getElem?_getD,
          List.getElem?_take_of_lt (by omega)]
        congr 2
        omega
      · rw [if_neg hin, if_neg (by omega)]
        rfl
    · rw [if_neg (by omega)]
      apply putSector_off
      intro he
      rw [sector_div _ _ hb] at he
      exact hsame (hf.apart.inj x x _ _ hdata hdata (Fs.sector_lt hlt) hsec he).2
  · -- the later clusters are other clusters
    obtain ⟨r, rfl⟩ : ∃ r, p = fs.clusterSize + r := ⟨p - fs.clusterSize, by omega⟩
    have hpos : 0 < fs.clusterSize := Nat.lt_of_lt_of_le (by decide) hf.clusterSize_pos
    have hend := turn_in_cluster ho hc
    have hrK : r / fs.clusterSize < K.length := by
      rw [List.length_cons, Nat.succ_mul] at hp
      exact (Nat.div_lt_iff_lt_mul hpos).mpr (by omega)
    rw [chainByte_cons_add hf, chainByte_cons_add hf, if_neg (by omega)]
    unfold chainByte
    rw [List.getD_eq_getElem?_getD, List.getElem?_eq_getElem hrK, Option.getD_some]
    apply congrFun
    apply readCluster_congr
    intro k hk b hb
    apply putSector_off
    intro he
    rw [sector_div _ _ hb] at he
    have hin : K[r / fs.clusterSize] ∈ K := List.getElem_mem hrK
    have hKx := (hf.apart.inj _ x k _ (hL _ (List.mem_cons_of_mem x hin)) hdata hk hsec he).1
    exact hx (hKx ▸ hin)

end Put

section Loop
variable {fs : Fs} {v : Vol} {x o p n : ℕ} {K L : List ℕ} {src : List Byte} {file : File}

/-- What the loop does from the offset `o` of the first cluster of a chain that is long enough. -/
structure Inside (fs : Fs) (v : Vol) (L : List ℕ) (o : ℕ) (src : List Byte) (r : WriteOut) :
    Prop where
  ok : r.ok = true
  put : PutAt fs v r.vol L o src
  offset_le : r.offset ≤ o + src.length
  offset_eq : o + src.length ≤ fs.clusterSize → r.offset = o + src.length

theorem Inside.nothing (v : Vol) (L : List ℕ) (x o : ℕ) :
    Inside fs v L o [] ⟨v, [], true, x, o⟩ where
  ok := rfl
  put := PutAt.refl v L o
  offset_le := Nat.le_add_right _ _
  offset_eq := fun _ => rfl

/-- At the end of a cluster the loop goes on at the beginning of the next one. -/
theorem writeLoop_next (hf : fs.Ok) {y : ℕ} (hsrc : src ≠ []) (hge : fs.clusterSize ≤ o)
    (hnext : fatNextCluster fs v x = y) (hy : fs.IsData y) :
    writeLoop fs (n+1) v src x o = writeLoop fs (n+1) v src y 0 := by
  have hpos := hf.clusterSize_pos
  have hmove : nextForWrite fs v x = some (v, y) := by
    unfold nextForWrite
    dsimp only
    rw [hnext, if_neg (not_eof hf y hy)]
  rw [writeLoop, writeLoop, if_neg hsrc, if_neg hsrc, if_pos hge, if_neg (by omega), hmove]
  rfl

/-- The loop stays in the chain when there is room for the data. -/
theorem writeLoop_inside (hf : fs.Ok) (n : ℕ) : ∀ (v : Vol) (src : List Byte) x K o,
    FatChain fs v x (x::K) → o ≤ fs.clusterSize → src.length ≤ n →
    o + src.length ≤ (K.length + 1) * fs.clusterSize →
    Inside fs v (x::K) o src (writeLoop fs n v src x o) := by
  have hlt := hf.clusterSize_lt
  have hpos := hf.clusterSize_pos
  induction n with
  | zero =>
    intro v src x K o _ _ hn _
    obtain rfl : src = [] := List.length_eq_zero_iff.mp (by omega)
    exact Inside.nothing v _ x o
  | succ n ih =>
    intro v src x K o h ho hn hin
    by_cases hsrc : src = []
    · subst hsrc
      rw [writeLoop, if_pos rfl]
      exact Inside.nothing v _ x o
    have hlen : src.length ≠ 0 := fun hz => hsrc (List.length_eq_zero_iff.mp hz)
    -- a turn inside a cluster, and the turns after it
    have hturn : ∀ x K o, FatChain fs v x (x::K) → o < fs.clusterSize →
        o + src.length ≤ (K.length + 1) * fs.clusterSize →
        Inside fs v (x::K) o src (writeLoop fs (n+1) v src x o) := by
      intro x K o h ho hin
      rw [writeLoop, if_neg hsrc, if_neg (Nat.not_le.mpr ho)]
      dsimp only
      obtain ⟨chunk, hchunk, hc1, hc2, hc3⟩ := turn_chunk o hlen
      rw [hchunk]
      have hclu := turn_in_cluster ho hc1
      rw [Nat.mod_eq_of_lt (show o + chunk < 2^32 by omega)]
      have hL : ∀ y ∈ x::K, fs.IsData y := fun y hy => h.isData hy
      have hput := PutAt.turn (v := v) hf hL (List.nodup_cons.mp (h.nodup hf)).1 ho hc1 hc2
      have hdrop : (src.drop chunk).length = src.length - chunk := List.length_drop
      have hrest := ih { v with
          disk := putSector v.disk ((clusterToLba fs x + o/512) % 2^32) (o % 512) chunk src }
        (src.drop chunk) x K (o + chunk) (h.congr_fat rfl) hclu (by omega) (by omega)
      have hle := hrest.offset_le
      have heq := hrest.offset_eq
      rw [hdrop] at hle heq
      have hsum : o + chunk + (src.length - chunk) = o + src.length := by omega
      rw [hsum] at hle heq
      exact ⟨hrest.ok, hput.trans hc2 hrest.put, hle, heq⟩
    by_cases hge : fs.clusterSize ≤ o
    · obtain rfl : o = fs.clusterSize := by omega
      have hrest : FatChain fs v (fatNextCluster fs v x) K := h.2.2
      cases K with
      | nil =>
        rw [List.length_nil, Nat.zero_add, Nat.one_mul] at hin
        omega
      | cons y K =>
        have hy : fatNextCluster fs v x = y := hrest.1
        rw [hy] at hrest
        have hcap : (K.length + 1 + 1) * fs.clusterSize =
            (K.length + 1) * fs.clusterSize + fs.clusterSize := Nat.succ_mul _ _
        rw [List.length_cons, hcap] at hin
        rw [writeLoop_next hf hsrc hge hy hrest.2.1]
        have hin' := hturn y K 0 hrest (by omega) (by omega)
        have hall := hin'.put.cons hf (fun z hz => h.isData hz) (List.nodup_cons.mp (h.nodup hf)).1
        rw [Nat.add_zero fs.clusterSize] at hall
        exact ⟨hin'.ok, hall, hin'.offset_le.trans (by omega), fun hle => by omega⟩
    · exact hturn x K o h (Nat.lt_of_not_le hge) hin

/-- A seek stops at the position or at the size. -/
theorem seekLoop_fst_le (n : ℕ) : ∀ r c, (seekLoop fs v n r c).1 ≤ r := by
  induction n with
  | zero => exact fun r c => le_rfl
  | succ n ih =>
    intro r c
    unfold seekLoop
    dsimp only
    split
    · split
      · exact le_rfl
      · exact (ih _ _).trans (Nat.sub_le _ _)
    · exact le_rfl

/-- What a write at position `p` makes of a file whose clusters have room for it: the bytes are put
there, and the file becomes longer when they end in its first cluster. -/
structure WrittenAt (fs : Fs) (v : Vol) (file : File) (L : List ℕ) (p : ℕ) (src : List Byte)
    (r : WriteResult) : Prop where
  ret : r.ret = toInt32 src.length
  put : PutAt fs v r.vol L p src
  start : r.file.startCluster = file.startCluster
  size : r.file.size = max file.size (p + src.length)

theorem write_within (hf : fs.Ok) (h : FileChain fs v file.startCluster L)
    (hsize : file.size ≤ L.length * fs.clusterSize) (hp : p ≤ file.size)
    (hroom : p + src.length ≤ file.size ∨ p + src.length ≤ fs.clusterSize ∧ L ≠ []) :
    WrittenAt fs v file L p src (fat32Write fs v (fat32Seek fs v file p) src) := by
  have hpos := hf.clusterSize_pos
  have hmin : min p file.size = p := by omega
  by_cases hsrc : src = []
  · -- no turn is made, and the seek does not go behind the size
    subst hsrc
    have hoff : ((fat32Seek fs v file p).offset) ≤ file.size := by
      refine (seekLoop_fst_le _ _ _).trans ?_
      split <;> omega
    refine ⟨rfl, PutAt.refl v L p, rfl, ?_⟩
    show (if file.size < (fat32Seek fs v file p).offset then _ else file.size) = _
    rw [if_neg (by omega), List.length_nil]
    omega
  have hlen : src.length ≠ 0 := fun hz => hsrc (List.length_eq_zero_iff.mp hz)
  have hcap : fs.clusterSize ≤ L.length * fs.clusterSize ∨ L = [] := by
    by_cases hL : L = []
    · exact Or.inr hL
    · exact Or.inl (Nat.le_mul_of_pos_left _ (List.length_pos_iff.mpr hL))
  have hL : L ≠ [] := by
    rintro rfl
    rw [List.length_nil, Nat.zero_mul] at hsize
    rcases hroom with hin | ⟨-, hne⟩
    · omega
    · exact hne rfl
  have hchain : FatChain fs v file.startCluster L := by
    rcases h with ⟨-, hnil⟩ | ⟨-, hchain⟩
    · exact absurd hnil hL
    · exact hchain
  have hend : p + src.length ≤ L.length * fs.clusterSize := by
    rcases hroom with hin | ⟨hin, -⟩
    · omega
    · have := hcap.resolve_right hL
      omega
  -- the loop starts in the cluster `k` of the chain, at the offset that is left
  obtain ⟨k, hk, hle, hseek, hor⟩ := fat32Seek_spec hf hchain hL p
  rw [hmin] at hle hseek hor
  have hdrop : L[k]::L.drop (k+1) = L.drop k := List.getElem_cons_drop hk
  have hmul : (L.length - (k+1) + 1) * fs.clusterSize =
      L.length * fs.clusterSize - k * fs.clusterSize := by
    rw [← Nat.sub_mul]
    congr 1
    omega
  have ho : p - k * fs.clusterSize ≤ fs.clusterSize := by
    rcases hor with hlt | hlast
    · omega
    · have hlast' : L.length * fs.clusterSize = k * fs.clusterSize + fs.clusterSize := by
        rw [← hlast, Nat.succ_mul]
      omega
  have hloop := writeLoop_inside hf src.length v src L[k] (L.drop (k+1)) (p - k * fs.clusterSize)
    (hchain.drop hk) ho le_rfl (by rw [List.length_drop, hmul]; omega)
  rw [hdrop] at hloop
  have hput := hloop.put.of_drop hf (fun y hy => hchain.isData hy) (hchain.nodup hf) k hk.le
  have hstart : k * fs.clusterSize + (p - k * fs.clusterSize) = p := by omega
  rw [hstart] at hput
  rw [hseek]
  unfold fat32Write
  dsimp only
  rw [if_pos hloop.ok]
  refine ⟨rfl, hput, rfl, ?_⟩
  dsimp only
  have hoff := hloop.offset_le
  rcases hroom with hin | ⟨hin, -⟩
  · rw [if_neg (by omega)]
    omega
  · -- the data ends in the first cluster, so the write starts there
    have hk0 : k = 0 := by
      by_contra hne
      have hone : fs.clusterSize ≤ k * fs.clusterSize := Nat.le_mul_of_pos_left _ (by omega)
      omega
    subst hk0
    rw [hloop.offset_eq (by omega)]
    split <;> omega

end Loop

end SukiOS.Fat32

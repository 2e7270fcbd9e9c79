import Mathlib.Data.List.Perm.Subperm
import SukiOS.Fat32Disk
import SukiOS.Lib.Word

/-! The root directory: which entries are live, what the searches of `fat32.c` find, and what the
changes to one entry do to the others. -/
namespace SukiOS.Fat32
open ByteMemory LinkedChain MachineWord

/-! ### Live entries of a cluster -/

/-- Entry `k` is one that a search from entry `i` on looks at. -/
def LiveFrom (buf : Mem) (i k : ℕ) : Prop :=
  (∀ j, i ≤ j → j ≤ k → buf (32*j) ≠ 0#8) ∧ buf (32*k) ≠ 0xE5#8 ∧ entAttr buf k ≠ 0x0F

/-- The entry is in use: it is not free, not behind the end mark, and not part of a long name. -/
def Live (buf : Mem) (k : ℕ) : Prop := LiveFrom buf 0 k

section Scan
variable {buf buf' : Mem} {p : Mem → ℕ → Bool} {i j k n : ℕ}

theorem LiveFrom.succ_iff (h0 : buf (32*i) ≠ 0#8) :
    LiveFrom buf i k ↔ LiveFrom buf (i+1) k := by
  refine and_congr_left (fun _ => ⟨fun h j h1 h2 => h j (by omega) h2, fun h j h1 h2 => ?_⟩)
  by_cases hj : j = i
  · rw [hj]
    exact h0
  · exact h j (by omega) h2

theorem scanLive_spec (p : Mem → ℕ → Bool) (buf : Mem) (n : ℕ) : ∀ i,
    (scanLive p buf i n = none ∧ ∀ k, i ≤ k → k < i + n → LiveFrom buf i k → p buf k = false) ∨
    (∃ k, scanLive p buf i n = some k ∧ i ≤ k ∧ k < i + n ∧ LiveFrom buf i k ∧ p buf k = true ∧
      ∀ j, i ≤ j → j < k → LiveFrom buf i j → p buf j = false) := by
  induction n with
  | zero => exact fun i => Or.inl ⟨rfl, fun k h1 h2 => by omega⟩
  | succ n ih =>
    intro i
    unfold scanLive
    by_cases h0 : buf (32*i) = 0#8
    · rw [if_pos h0]
      exact Or.inl ⟨rfl, fun k h1 _ hl => absurd h0 (hl.1 i le_rfl h1)⟩
    rw [if_neg h0]
    -- an entry that is passed over leaves the search from the next one on
    have hskip (hi : LiveFrom buf i i → p buf i = false) :
        (scanLive p buf (i+1) n = none ∧
          ∀ k, i ≤ k → k < i + (n+1) → LiveFrom buf i k → p buf k = false) ∨
        (∃ k, scanLive p buf (i+1) n = some k ∧ i ≤ k ∧ k < i + (n+1) ∧ LiveFrom buf i k ∧
          p buf k = true ∧ ∀ j, i ≤ j → j < k → LiveFrom buf i j → p buf j = false) := by
      rcases ih (i+1) with ⟨hn, hall⟩ | ⟨k, hk, h1, h2, hl, hp, hall⟩
      · refine Or.inl ⟨hn, fun k h1 h2 hl => ?_⟩
        by_cases hki : k = i
        · subst hki
          exact hi hl
        · exact hall k (by omega) (by omega) ((LiveFrom.succ_iff h0).mp hl)
      · refine Or.inr ⟨k, hk, by omega, by omega, (LiveFrom.succ_iff h0).mpr hl, hp, ?_⟩
        intro j h3 h4 hlj
        by_cases hji : j = i
        · subst hji
          exact hi hlj
        · exact hall j (by omega) h4 ((LiveFrom.succ_iff h0).mp hlj)
    by_cases h5 : buf (32*i) = 0xE5#8
    · rw [if_pos h5]
      exact hskip (fun hl => absurd h5 hl.2.1)
    rw [if_neg h5]
    by_cases hf : entAttr buf i = 0x0F
    · rw [if_pos hf]
      exact hskip (fun hl => absurd hf hl.2.2)
    rw [if_neg hf]
    by_cases hp : p buf i = true
    · rw [if_pos hp]
      refine Or.inr ⟨i, rfl, le_rfl, by omega, ⟨fun j h1 h2 => ?_, h5, hf⟩, hp, ?_⟩
      · obtain rfl : j = i := by omega
        exact h0
      · exact fun j h1 h2 => by omega
    · rw [if_neg hp]
      exact hskip (fun _ => Bool.eq_false_iff.mpr hp)

theorem scanFree_spec (buf : Mem) (n : ℕ) : ∀ i,
    (scanFree buf i n = none ∧ ∀ k, i ≤ k → k < i + n → buf (32*k) ≠ 0#8 ∧ buf (32*k) ≠ 0xE5#8) ∨
    (∃ k, scanFree buf i n = some k ∧ i ≤ k ∧ k < i + n ∧
      (buf (32*k) = 0#8 ∨ buf (32*k) = 0xE5#8) ∧
      ∀ j, i ≤ j → j < k → buf (32*j) ≠ 0#8 ∧ buf (32*j) ≠ 0xE5#8) := by
  induction n with
  | zero => exact fun i => Or.inl ⟨rfl, fun k h1 h2 => by omega⟩
  | succ n ih =>
    intro i
    unfold scanFree
    by_cases h0 : buf (32*i) = 0#8 ∨ buf (32*i) = 0xE5#8
    · rw [if_pos h0]
      exact Or.inr ⟨i, rfl, le_rfl, by omega, h0, fun j h1 h2 => by omega⟩
    · rw [if_neg h0]
      have hi := not_or.mp h0
      rcases ih (i+1) with ⟨hn, hall⟩ | ⟨k, hk, h1, h2, hfree, hall⟩
      · refine Or.inl ⟨hn, fun k h1 h2 => ?_⟩
        by_cases hki : k = i
        · rw [hki]
          exact hi
        · exact hall k (by omega) (by omega)
      · refine Or.inr ⟨k, hk, by omega, by omega, hfree, fun j h3 h4 => ?_⟩
        by_cases hji : j = i
        · rw [hji]
          exact hi
        · exact hall j (by omega) h4

end Scan

/-! ### The chain of the root directory -/

/-- The entry `i` of the cluster `c` is in use. -/
def LiveAt (fs : Fs) (v : Vol) (c i : ℕ) : Prop :=
  i < fs.entryCount ∧ Live (readCluster fs v c) i

section Walk
variable {fs : Fs} {v v' : Vol} {c i n : ℕ} {L root : List ℕ} {scan : Mem → Option ℕ}
  {p : Mem → ℕ → Bool}

theorem walkDir_eq (hf : fs.Ok) (h : FatChain fs v c L) (hn : L.length ≤ n) :
    walkDir fs v scan n c =
      some (L.findSome? (fun x => (scan (readCluster fs v x)).map (fun i => (x, i)))) := by
  induction L generalizing c n with
  | nil =>
    have hc : ¬ (c < fatEof ∧ 2 ≤ c) := fun hlt => Nat.not_le.mpr hlt.1 h
    cases n with
    | zero => exact if_neg hc
    | succ n => exact if_neg hc
  | cons x L ih =>
    obtain ⟨rfl, hx, hL⟩ := h
    have hc : c < fatEof ∧ 2 ≤ c := ⟨hf.data_lt_eof hx, hx.1⟩
    cases n with
    | zero => exact absurd hn (by simp)
    | succ n =>
      unfold walkDir
      rw [if_pos hc, List.findSome?_cons]
      cases hs : scan (readCluster fs v c) with
      | none => exact ih hL (Nat.le_of_succ_le_succ hn)
      | some i => rfl

theorem FatChain.length_le (hf : fs.Ok) (h : FatChain fs v c L) :
    L.length ≤ fs.totalClusters + 2 := by
  have hsub : L ⊆ List.range (fs.totalClusters + 2) :=
    fun x hx => List.mem_range.mpr (h.isData hx).2
  have hlen := (List.subperm_of_subset (h.nodup hf) hsub).length_le
  rwa [List.length_range] at hlen

theorem walkRoot_eq (hf : fs.Ok) (h : FatChain fs v fs.rootCluster root) :
    walkRoot fs v scan =
      some (root.findSome? (fun x => (scan (readCluster fs v x)).map (fun i => (x, i)))) :=
  walkDir_eq hf h (h.length_le hf)

/-- What a walk finds. -/
theorem walkRoot_cases (hf : fs.Ok) (h : FatChain fs v fs.rootCluster root)
    (scan : Mem → Option ℕ) :
    (walkRoot fs v scan = some none ∧ ∀ c ∈ root, scan (readCluster fs v c) = none) ∨
    (∃ c i A B, walkRoot fs v scan = some (some (c, i)) ∧ root = A ++ c::B ∧
      scan (readCluster fs v c) = some i ∧ ∀ x ∈ A, scan (readCluster fs v x) = none) := by
  rw [walkRoot_eq hf h]
  cases hfind : root.findSome? (fun x => (scan (readCluster fs v x)).map (fun i => (x, i))) with
  | none =>
    refine Or.inl ⟨rfl, fun c hc => ?_⟩
    have := List.findSome?_eq_none_iff.mp hfind c hc
    exact Option.map_eq_none_iff.mp this
  | some r =>
    obtain ⟨A, x, B, hroot, hx, hA⟩ := List.findSome?_eq_some_iff.mp hfind
    obtain ⟨i, hi, rfl⟩ := Option.map_eq_some_iff.mp hx
    exact Or.inr ⟨x, i, A, B, rfl, hroot, hi, fun y hy => Option.map_eq_none_iff.mp (hA y hy)⟩

/-- `findEntry` finds the first live entry that meets the test. -/
theorem findEntry_cases (hf : fs.Ok) (h : FatChain fs v fs.rootCluster root)
    (p : Mem → ℕ → Bool) :
    (findEntry fs v p = some none ∧
      ∀ c ∈ root, ∀ i, LiveAt fs v c i → p (readCluster fs v c) i = false) ∨
    (∃ c i A B, findEntry fs v p = some (some (c, i)) ∧ root = A ++ c::B ∧ LiveAt fs v c i ∧
      p (readCluster fs v c) i = true ∧
      (∀ x ∈ A, ∀ j, LiveAt fs v x j → p (readCluster fs v x) j = false) ∧
      ∀ j, j < i → LiveAt fs v c j → p (readCluster fs v c) j = false) := by
  have hnone (x : ℕ) (hx : scanLive p (readCluster fs v x) 0 fs.entryCount = none) (j : ℕ)
      (hj : LiveAt fs v x j) : p (readCluster fs v x) j = false := by
    rcases scanLive_spec p (readCluster fs v x) fs.entryCount 0 with ⟨-, hall⟩ | ⟨k, hk, -⟩
    · exact hall j (Nat.zero_le j) (by have := hj.1; omega) hj.2
    · exact nomatch hx.symm.trans hk
  rcases walkRoot_cases hf h (fun buf => scanLive p buf 0 fs.entryCount) with
    ⟨hw, hall⟩ | ⟨c, i, A, B, hw, hroot, hi, hA⟩
  · exact Or.inl ⟨hw, fun c hc j hj => hnone c (hall c hc) j hj⟩
  · refine Or.inr ⟨c, i, A, B, hw, hroot, ?_⟩
    rcases scanLive_spec p (readCluster fs v c) fs.entryCount 0 with ⟨hn, -⟩ |
      ⟨k, hk, h1, h2, hl, hp, hall⟩
    · exact nomatch hn.symm.trans hi
    · obtain rfl : k = i := Option.some.inj (hk.symm.trans hi)
      exact ⟨⟨by omega, hl⟩, hp, fun x hx j hj => hnone x (hA x hx) j hj,
        fun j hj hlj => hall j (Nat.zero_le j) hj hlj.2⟩

/-- The slot that `fat32_create_file` takes. -/
theorem freeSlot_cases (hf : fs.Ok) (h : FatChain fs v fs.rootCluster root) :
    walkRoot fs v (fun buf => scanFree buf 0 fs.entryCount) = some none ∨
    (∃ c i A B, walkRoot fs v (fun buf => scanFree buf 0 fs.entryCount) = some (some (c, i)) ∧
      root = A ++ c::B ∧ i < fs.entryCount ∧
      (readCluster fs v c (32*i) = 0#8 ∨ readCluster fs v c (32*i) = 0xE5#8) ∧
      (∀ x ∈ A, ∀ j, j < fs.entryCount →
        readCluster fs v x (32*j) ≠ 0#8 ∧ readCluster fs v x (32*j) ≠ 0xE5#8) ∧
      ∀ j, j < i → readCluster fs v c (32*j) ≠ 0#8 ∧ readCluster fs v c (32*j) ≠ 0xE5#8) := by
  rcases walkRoot_cases hf h (fun buf => scanFree buf 0 fs.entryCount) with
    ⟨hw, -⟩ | ⟨c, i, A, B, hw, hroot, hi, hA⟩
  · exact Or.inl hw
  · refine Or.inr ⟨c, i, A, B, hw, hroot, ?_⟩
    rcases scanFree_spec (readCluster fs v c) fs.entryCount 0 with ⟨hn, -⟩ |
      ⟨k, hk, h1, h2, h3, hall⟩
    · exact nomatch hn.symm.trans hi
    · obtain rfl : k = i := Option.some.inj (hk.symm.trans hi)
      refine ⟨by omega, h3, fun x hx j hj => ?_, fun j hj => hall j (Nat.zero_le j) hj⟩
      rcases scanFree_spec (readCluster fs v x) fs.entryCount 0 with ⟨-, hall'⟩ | ⟨k', hk', -⟩
      · exact hall' j (Nat.zero_le j) (by omega)
      · exact nomatch (hA x hx).symm.trans hk'

end Walk

/-! ### Changing one entry -/

section Entry
variable {buf buf' : Mem} {i j k n size newClu : ℕ} {now : Stamp} {target : List Byte}

/-- The entries of two buffers are the same. -/
theorem entry_congr (h : ∀ x, x < 32 → buf' (32*i + x) = buf (32*i + x)) :
    entName buf' i = entName buf i ∧ entAttr buf' i = entAttr buf i ∧
      entCluster buf' i = entCluster buf i ∧ entSize buf' i = entSize buf i := by
  have hload (a w : ℕ) (ha : a + w ≤ 32) : load buf' (32*i + a) w = load buf (32*i + a) w := by
    apply load_congr
    intro x h1 h2
    have hx := h (x - 32*i) (by omega)
    rwa [show 32*i + (x - 32*i) = x by omega] at hx
  refine ⟨?_, ?_, ?_, hload 28 4 (by decide)⟩
  · apply List.map_congr_left
    intro j hj
    exact h j (by have := List.mem_range.mp hj; omega)
  · unfold entAttr
    rw [h 11 (by decide)]
  · unfold entCluster
    rw [hload 26 2 (by decide), hload 20 2 (by decide)]

theorem putSize_apply {x : ℕ} (h : x < 32*i + 22 ∨ 32*i + 26 ≤ x ∧ x < 32*i + 28 ∨ 32*i + 32 ≤ x) :
    putSize buf i size now x = buf x := by
  unfold putSize
  rw [store_apply_of_outside _ _ _ _ _ (by omega), store_apply_of_outside _ _ _ _ _ (by omega),
    store_apply_of_outside _ _ _ _ _ (by omega)]

theorem entCluster_putSize : entCluster (putSize buf i size now) j = entCluster buf j := by
  unfold entCluster
  have h1 : load (putSize buf i size now) (32*j + 26) 2 = load buf (32*j + 26) 2 :=
    load_congr _ _ _ _ (fun x h1 h2 => putSize_apply (by omega))
  have h2 : load (putSize buf i size now) (32*j + 20) 2 = load buf (32*j + 20) 2 :=
    load_congr _ _ _ _ (fun x h1 h2 => putSize_apply (by omega))
  rw [h1, h2]

theorem entName_putSize : entName (putSize buf i size now) j = entName buf j := by
  apply List.map_congr_left
  intro x hx
  exact putSize_apply (by have := List.mem_range.mp hx; omega)

theorem entAttr_putSize : entAttr (putSize buf i size now) j = entAttr buf j := by
  unfold entAttr
  rw [putSize_apply (by omega)]

theorem first_putSize : putSize buf i size now (32*j) = buf (32*j) := putSize_apply (by omega)

theorem entSize_putSize (hs : size < 2^32) : entSize (putSize buf i size now) i = size := by
  unfold entSize putSize
  rw [load_store_of_disjoint _ _ _ _ _ _ (by omega), load_store_of_disjoint _ _ _ _ _ _ (by omega),
    load_store]
  exact Nat.mod_eq_of_lt hs

theorem storeBytes_apply_of_outside (l : List Byte) : ∀ (m : Mem) (a : ℕ) {x : ℕ},
    x < a ∨ a + l.length ≤ x → storeBytes m a l x = m x := by
  induction l with
  | nil => exact fun m a x _ => rfl
  | cons b l ih =>
    intro m a x hx
    rw [List.length_cons] at hx
    rw [storeBytes, ih _ _ (by omega), Function.update_of_ne (by omega)]

theorem storeBytes_apply (l : List Byte) : ∀ (m : Mem) (a : ℕ) {k : ℕ} (hk : k < l.length),
    storeBytes m a l (a+k) = l[k] := by
  induction l with
  | nil => exact fun m a k hk => absurd hk (Nat.not_lt_zero k)
  | cons b l ih =>
    intro m a k hk
    cases k with
    | zero =>
      rw [storeBytes, storeBytes_apply_of_outside l _ _ (by omega), Nat.add_zero,
        Function.update_self]
      rfl
    | succ k =>
      have hidx : a + (k+1) = a + 1 + k := by omega
      rw [storeBytes, hidx, ih _ _ (Nat.lt_of_succ_lt_succ hk)]
      rfl

/-- The bytes of a new entry. -/
theorem putNew_other {x : ℕ} (ht : target.length = 11) (h : x < 32*i ∨ 32*i + 32 ≤ x) :
    putNew buf i target newClu now x = buf x := by
  unfold putNew
  repeat rw [store_apply_of_outside _ _ _ _ _ (by omega)]
  exact storeBytes_apply_of_outside _ _ _ (by omega)

theorem putNew_name {x : ℕ} (hx : x < 11) :
    putNew buf i target newClu now (32*i + x) = storeBytes buf (32*i) target (32*i + x) := by
  unfold putNew
  repeat rw [store_apply_of_outside _ _ _ _ _ (by omega)]

theorem entName_putNew (ht : target.length = 11) :
    entName (putNew buf i target newClu now) i = target := by
  apply List.ext_getElem
  · rw [entName, List.length_map, List.length_range, ht]
  · intro x h1 h2
    simp only [entName, List.getElem_map, List.getElem_range]
    rw [putNew_name (by omega), storeBytes_apply _ _ _ h2]

theorem first_putNew (ht : target.length = 11) :
    putNew buf i target newClu now (32*i) = target[0] := by
  have h : putNew buf i target newClu now (32*i + 0) = storeBytes buf (32*i) target (32*i + 0) :=
    putNew_name (by decide)
  rw [Nat.add_zero] at h
  rw [h]
  exact storeBytes_apply target buf (32*i) (k := 0) (by omega)

theorem entAttr_putNew : entAttr (putNew buf i target newClu now) i = 0x20 := by
  unfold entAttr putNew
  repeat rw [store_apply_of_outside _ (32*i + _) _ _ (32*i + 11) (by omega)]
  rw [store, store, Function.update_self]
  rfl

theorem entSize_putNew : entSize (putNew buf i target newClu now) i = 0 := by
  unfold entSize putNew
  rw [load_store]
  rfl

theorem entCluster_putNew (hn : newClu < 2^32) :
    entCluster (putNew buf i target newClu now) i = newClu := by
  have hlow : load (putNew buf i target newClu now) (32*i + 26) 2 = newClu % 65536 := by
    unfold putNew
    repeat rw [load_store_of_disjoint _ (32*i + _) _ _ (32*i + 26) 2 (by omega)]
    rw [load_store, show (0xFFFF : ℕ) = 2^16 - 1 from rfl, Nat.and_two_pow_sub_one_eq_mod]
    exact Nat.mod_mod _ _
  have hhigh : load (putNew buf i target newClu now) (32*i + 20) 2 = newClu / 65536 := by
    unfold putNew
    repeat rw [load_store_of_disjoint _ (32*i + _) _ _ (32*i + 20) 2 (by omega)]
    rw [load_store, Nat.shiftRight_eq_div_pow]
    omega
  unfold entCluster
  rw [hlow, hhigh, Nat.shiftLeft_eq, Nat.or_comm, lor_eq_add _ _ 16 (by omega)]
  omega

end Entry

end SukiOS.Fat32

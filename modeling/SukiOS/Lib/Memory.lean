import Mathlib.Data.Nat.Notation
import Mathlib.Logic.Function.Basic
import Mathlib.Tactic.Ring

/-! Byte-addressed memory with little-endian machine words. Addresses are unbounded;
a caller whose addresses can wrap reduces them before it accesses memory. -/
namespace ByteMemory

abbrev Byte := BitVec 8

abbrev Mem := ℕ → Byte

/-- The `k`-byte little-endian word at `a`. -/
def load (m : Mem) (a : ℕ) : ℕ → ℕ
  | 0 => 0
  | k+1 => (m a).toNat + 256 * load m (a+1) k

/-- Write the low `k` bytes of `v` at `a`. -/
def store (m : Mem) (a : ℕ) : ℕ → ℕ → Mem
  | 0, _ => m
  | k+1, v => store (Function.update m a (BitVec.ofNat 8 v)) (a+1) k (v/256)

/-- The loop `for (i = 0; i < n; i++) p[i] = b`. -/
def fill (m : Mem) (a : ℕ) (b : Byte) : ℕ → Mem
  | 0 => m
  | n+1 => fill (Function.update m a b) (a+1) b n

/-- The loop `for (i = 0; i < n; i++) d[i] = s[i]`. -/
def copy (m : Mem) (d s : ℕ) : ℕ → Mem
  | 0 => m
  | n+1 => copy (Function.update m d (m s)) (d+1) (s+1) n

/-- `m'` differs from `m` at most inside `S`. -/
def SameOff (S : Set ℕ) (m m' : Mem) : Prop := ∀ x, x ∉ S → m' x = m x

section SameOff
variable {S T : Set ℕ} {m m' m'' : Mem}

theorem SameOff.rfl : SameOff S m m := fun _ _ => Eq.refl _

theorem SameOff.trans (h : SameOff S m m') (h' : SameOff S m' m'') : SameOff S m m'' :=
  fun x hx => (h' x hx).trans (h x hx)

theorem SameOff.mono (h : SameOff S m m') (hST : ∀ x ∈ S, x ∈ T) : SameOff T m m' :=
  fun x hx => h x (fun hs => hx (hST x hs))

/-- One more byte of the set is written. -/
theorem SameOff.update {a : ℕ} {b : Byte} (h : SameOff S m m') (ha : a ∈ S) :
    SameOff S m (Function.update m' a b) := by
  intro x hx
  have hne : x ≠ a := fun he => hx (he ▸ ha)
  rw [Function.update_of_ne hne]
  exact h x hx

theorem SameOff.union (h : SameOff S m m') (h' : SameOff T m' m'') :
    SameOff {x | x ∈ S ∨ x ∈ T} m m'' :=
  fun x hx => (h' x (fun ht => hx (Or.inr ht))).trans (h x (fun hs => hx (Or.inl hs)))

end SameOff

theorem load_zeros (a k : ℕ) : load (fun _ => 0#8) a k = 0 := by
  induction k generalizing a with
  | zero => rfl
  | succ k ih =>
    rw [load, ih]
    rfl

theorem load_lt (m : Mem) (a k : ℕ) : load m a k < 256^k := by
  induction k generalizing a with
  | zero => simp [load]
  | succ k ih =>
    have hb : (m a).toNat < 256 := (m a).isLt
    have hi := ih (a+1)
    rw [load, pow_succ]
    omega

theorem load_congr (m m' : Mem) (a k : ℕ) (h : ∀ x, a ≤ x → x < a+k → m' x = m x) :
    load m' a k = load m a k := by
  induction k generalizing a with
  | zero => rfl
  | succ k ih =>
    rw [load, load, h a le_rfl (by omega), ih (a+1) (fun x h1 h2 => h x (by omega) (by omega))]

/-- Words are equal where their bytes are. -/
theorem load_eq_iff (m m' : Mem) (a b k : ℕ) :
    load m a k = load m' b k ↔ ∀ j, j < k → m (a+j) = m' (b+j) := by
  induction k generalizing a b with
  | zero => exact ⟨fun _ j hj => absurd hj (Nat.not_lt_zero j), fun _ => Eq.refl _⟩
  | succ k ih =>
    have hfirst := (m a).isLt
    have hfirst' := (m' b).isLt
    have hwords : load m a (k+1) = load m' b (k+1) ↔
        m a = m' b ∧ load m (a+1) k = load m' (b+1) k := by
      rw [← BitVec.toNat_inj]
      change (m a).toNat + 256 * load m (a+1) k = (m' b).toNat + 256 * load m' (b+1) k ↔ _
      omega
    rw [hwords, ih (a+1) (b+1)]
    constructor
    · intro h j hj
      cases j with
      | zero => exact h.1
      | succ j =>
        rw [Nat.add_comm j 1, ← Nat.add_assoc, ← Nat.add_assoc]
        exact h.2 j (Nat.lt_of_succ_lt_succ hj)
    · intro h
      apply And.intro (h 0 (Nat.succ_pos k))
      intro j hj
      rw [Nat.add_assoc, Nat.add_assoc, Nat.add_comm 1 j]
      exact h (j+1) (Nat.succ_lt_succ hj)

theorem load_of_sameOff {S : Set ℕ} {m m' : Mem} (h : SameOff S m m') (a k : ℕ)
    (hd : ∀ x, a ≤ x → x < a+k → x ∉ S) : load m' a k = load m a k :=
  load_congr m m' a k (fun x h1 h2 => h x (hd x h1 h2))

theorem store_sameOff (m : Mem) (a k v : ℕ) :
    SameOff {x | a ≤ x ∧ x < a+k} m (store m a k v) := by
  induction k generalizing m a v with
  | zero => exact SameOff.rfl
  | succ k ih =>
    intro x hx
    have hne : x ≠ a := fun h => hx ⟨by omega, by omega⟩
    have hout : x ∉ {y | a+1 ≤ y ∧ y < a+1+k} := fun h => hx ⟨by have := h.1; omega, by
      have := h.2; omega⟩
    rw [store, ih _ _ _ x hout, Function.update_of_ne hne]

theorem store_apply_of_outside (m : Mem) (a k v x : ℕ) (hx : x < a ∨ a+k ≤ x) :
    store m a k v x = m x :=
  store_sameOff m a k v x (fun h => by have h1 := h.1; have h2 := h.2; omega)

/-- A word reads back what was written, cut to its width. -/
theorem load_store (m : Mem) (a k v : ℕ) : load (store m a k v) a k = v % 256^k := by
  induction k generalizing m a v with
  | zero => simp [load, Nat.mod_one]
  | succ k ih =>
    have hhead : store m a (k+1) v a = BitVec.ofNat 8 v := by
      rw [store, store_apply_of_outside _ _ _ _ _ (Or.inl (by omega)), Function.update_self]
    rw [load, hhead, store, ih, BitVec.toNat_ofNat]
    change v%256 + 256*(v/256 % 256^k) = v % 256^(k+1)
    rw [pow_succ, mul_comm (256^k) 256, Nat.mod_mul]

theorem load_store_of_disjoint (m : Mem) (a j v b k : ℕ) (hd : b+k ≤ a ∨ a+j ≤ b) :
    load (store m a j v) b k = load m b k :=
  load_congr _ _ _ _ (fun x h1 h2 => store_apply_of_outside m a j v x (by omega))

theorem fill_apply (m : Mem) (a : ℕ) (b : Byte) (n x : ℕ) :
    fill m a b n x = if a ≤ x ∧ x < a+n then b else m x := by
  induction n generalizing m a with
  | zero => rw [fill, if_neg (by omega)]
  | succ n ih =>
    rw [fill, ih]
    by_cases hx : x = a
    · subst hx
      rw [if_neg (by omega), if_pos (by omega), Function.update_self]
    · rw [Function.update_of_ne hx]
      by_cases hi : a+1 ≤ x ∧ x < a+1+n
      · rw [if_pos hi, if_pos (by omega)]
      · rw [if_neg hi, if_neg (by omega)]

theorem fill_sameOff (m : Mem) (a : ℕ) (b : Byte) (n : ℕ) :
    SameOff {x | a ≤ x ∧ x < a+n} m (fill m a b n) := by
  intro x hx
  rw [fill_apply]
  exact if_neg hx

theorem copy_sameOff (m : Mem) (d s n : ℕ) :
    SameOff {x | d ≤ x ∧ x < d+n} m (copy m d s n) := by
  induction n generalizing m d s with
  | zero => exact SameOff.rfl
  | succ n ih =>
    intro x hx
    have hne : x ≠ d := fun h => hx ⟨by omega, by omega⟩
    have hout : x ∉ {y | d+1 ≤ y ∧ y < d+1+n} := fun h => hx ⟨by have := h.1; omega, by
      have := h.2; omega⟩
    rw [copy, ih _ _ _ x hout, Function.update_of_ne hne]

/-- A copy to bytes apart from its source. -/
theorem copy_apply (m : Mem) (d s n : ℕ) (hd : d+n ≤ s ∨ s+n ≤ d) {i : ℕ} (hi : i < n) :
    copy m d s n (d+i) = m (s+i) := by
  induction n generalizing m d s i with
  | zero => exact absurd hi (Nat.not_lt_zero i)
  | succ n ih =>
    rw [copy]
    cases i with
    | zero =>
      -- the rest of the loop writes behind the first byte
      have hout : d+0 ∉ {y | d+1 ≤ y ∧ y < d+1+n} := fun h => by
        have h1 := h.1
        omega
      rw [copy_sameOff _ _ _ _ _ hout, Nat.add_zero, Nat.add_zero, Function.update_self]
    | succ i =>
      have h1 : d+(i+1) = d+1+i := by omega
      have h2 : s+(i+1) = s+1+i := by omega
      rw [h1, h2, ih _ _ _ (by omega) (by omega), Function.update_of_ne (by omega)]

/-! ### 64-bit words -/

def load64 (m : Mem) (a : ℕ) : ℕ := load m a 8

def store64 (m : Mem) (a v : ℕ) : Mem := store m a 8 v

theorem load64_eq (m : Mem) (a : ℕ) : load64 m a = load m a 8 := rfl

theorem load64_lt (m : Mem) (a : ℕ) : load64 m a < 2^64 := by
  have h := load_lt m a 8
  rwa [show (256:ℕ)^8 = 2^64 from by decide] at h

theorem load64_store64 (m : Mem) (a v : ℕ) (hv : v < 2^64) : load64 (store64 m a v) a = v := by
  rw [load64, store64, load_store, show (256:ℕ)^8 = 2^64 from by decide, Nat.mod_eq_of_lt hv]

theorem load64_store64_of_disjoint (m : Mem) (a v b : ℕ) (hd : b+8 ≤ a ∨ a+8 ≤ b) :
    load64 (store64 m a v) b = load64 m b :=
  load_store_of_disjoint m a 8 v b 8 hd

theorem store64_sameOff (m : Mem) (a v : ℕ) :
    SameOff {x | a ≤ x ∧ x < a+8} m (store64 m a v) :=
  store_sameOff m a 8 v

theorem load64_of_sameOff {S : Set ℕ} {m m' : Mem} (h : SameOff S m m') (a : ℕ)
    (hd : ∀ x, a ≤ x → x < a+8 → x ∉ S) : load64 m' a = load64 m a :=
  load_of_sameOff h a 8 hd

theorem load64_congr (m m' : Mem) (a : ℕ) (h : ∀ x, a ≤ x → x < a+8 → m' x = m x) :
    load64 m' a = load64 m a :=
  load_congr m m' a 8 h

theorem load_add (m : Mem) (a j k : ℕ) :
    load m a (j+k) = load m a j + 256^j * load m (a+j) k := by
  induction j generalizing a with
  | zero => simp [load]
  | succ j ih =>
    have hidx : a + (j+1) = a + 1 + j := by omega
    rw [Nat.succ_add, load, load, ih, pow_succ, hidx]
    ring

/-- A 32-bit store to a 64-bit word whose upper half is zero. -/
theorem load64_store32 (m : Mem) (a v : ℕ) (hv : v < 2^32) (hm : load64 m a < 2^32) :
    load64 (store m a 4 v) a = v := by
  have hsplit (m' : Mem) : load64 m' a = load m' a 4 + 2^32 * load m' (a+4) 4 :=
    load_add m' a 4 4
  have hhigh : load (store m a 4 v) (a+4) 4 = load m (a+4) 4 :=
    load_store_of_disjoint m a 4 v (a+4) 4 (Or.inr le_rfl)
  have hlow : load (store m a 4 v) a 4 = v := by
    rw [load_store]
    exact Nat.mod_eq_of_lt hv
  rw [hsplit] at hm ⊢
  rw [hlow, hhigh]
  omega

/-- Consecutive 64-bit words. -/
def loadWords (m : Mem) (a : ℕ) : ℕ → List ℕ
  | 0 => []
  | n+1 => load64 m a :: loadWords m (a+8) n

def storeWords (m : Mem) (a : ℕ) : List ℕ → Mem
  | [] => m
  | w::ws => storeWords (store64 m a w) (a+8) ws

theorem storeWords_sameOff (m : Mem) (a : ℕ) (ws : List ℕ) :
    SameOff {x | a ≤ x ∧ x < a + 8*ws.length} m (storeWords m a ws) := by
  induction ws generalizing m a with
  | nil => exact SameOff.rfl
  | cons w ws ih =>
    refine SameOff.trans ((store64_sameOff m a w).mono ?_) ((ih _ _).mono ?_)
    · intro x hx
      have h1 := hx.1
      have h2 := hx.2
      exact ⟨h1, by rw [List.length_cons]; omega⟩
    · intro x hx
      have h1 := hx.1
      have h2 := hx.2
      exact ⟨by omega, by rw [List.length_cons]; omega⟩

theorem loadWords_congr (m m' : Mem) (a n : ℕ) (h : ∀ x, a ≤ x → x < a + 8*n → m' x = m x) :
    loadWords m' a n = loadWords m a n := by
  induction n generalizing a with
  | zero => rfl
  | succ n ih =>
    rw [loadWords, loadWords, load64_congr m m' a (fun x h1 h2 => h x h1 (by omega)),
      ih (a+8) (fun x h1 h2 => h x (by omega) (by omega))]

theorem loadWords_getD (m : Mem) (a n i : ℕ) (hi : i < n) :
    (loadWords m a n).getD i 0 = load64 m (a + 8*i) := by
  induction n generalizing a i with
  | zero => omega
  | succ n ih =>
    cases i with
    | zero => rfl
    | succ i =>
      rw [loadWords, List.getD_cons_succ, ih (a+8) i (by omega)]
      congr 1
      omega

theorem loadWords_storeWords (m : Mem) (a : ℕ) (ws : List ℕ) (hw : ∀ w ∈ ws, w < 2^64) :
    loadWords (storeWords m a ws) a ws.length = ws := by
  induction ws generalizing m a with
  | nil => rfl
  | cons w ws ih =>
    have hhead : load64 (storeWords (store64 m a w) (a+8) ws) a = w := by
      rw [load64_of_sameOff (storeWords_sameOff _ _ _) a (fun x h1 h2 hx => by
        have := hx.1
        omega)]
      exact load64_store64 m a w (hw w List.mem_cons_self)
    rw [List.length_cons, loadWords, storeWords, hhead,
      ih _ _ (fun v hv => hw v (List.mem_cons_of_mem _ hv))]

attribute [irreducible] load64 store64

end ByteMemory

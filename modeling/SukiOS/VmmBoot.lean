import SukiOS.VmmProgress

/-! The tables `boot.asm` leaves, and the invariant of the page tables from there to the end of
`vmm_init`. -/
namespace SukiOS
open ByteMemory MachineWord RadixTree

/-! ### The entries of the boot tables -/

/-- The 64-bit word `k` of memory: entry `k % 512` of the table in frame `k / 512`. -/
def slot (m : Mem) (k : ℕ) : ℕ := load64 m (8*k)

section Slots
variable {m : Mem} {i k v : ℕ}

theorem entry_eq_slot (m : Mem) (f j : ℕ) : entry m f j = slot m (512*f + j) := by
  unfold entry slot
  rw [Nat.mul_add, ← Nat.mul_assoc, Nat.mul_comm f 4096]

theorem slot_store32 (hv : v < 2^32) (hm : slot m i < 2^32) :
    slot (store32 m (8*i) v) k = if k = i then v else slot m k := by
  by_cases h : k = i
  · rw [if_pos h, h]
    exact load64_store32 m (8*i) v hv hm
  · rw [if_neg h]
    unfold slot store32
    rw [load64_eq, load64_eq]
    exact load_store_of_disjoint m (8*i) 4 v (8*k) 8 (by omega)

theorem slot_fill (m : Mem) (i n k : ℕ) :
    slot (fill m (8*i) 0#8 (8*n)) k = if i ≤ k ∧ k < i + n then 0 else slot m k := by
  by_cases h : i ≤ k ∧ k < i + n
  · rw [if_pos h, slot, load64_eq]
    exact load_fill_zero m _ _ _ _ (by omega) (by omega)
  · rw [if_neg h]
    apply load64_of_sameOff (fill_sameOff m (8*i) 0#8 (8*n))
    intro x h1 h2 hx
    have h3 := hx.1
    have h4 := hx.2
    omega

theorem slot_fillPt (n : ℕ) : ∀ (m : Mem) (i v : ℕ), (∀ k, i ≤ k → k < i + n → slot m k < 2^32) →
    v + n*0x1000 ≤ 2^32 → ∀ k, slot (fillPt m (8*i) v n) k =
      if i ≤ k ∧ k < i + n then v + (k-i)*0x1000 else slot m k := by
  induction n with
  | zero =>
    intro m i v _ _ k
    exact (if_neg (by omega)).symm
  | succ n ih =>
    intro m i v hm hv k
    have hstore (j : ℕ) : slot (store32 m (8*i) v) j = if j = i then v else slot m j :=
      slot_store32 (by omega) (hm i le_rfl (by omega))
    have hrest (j : ℕ) (h1 : i + 1 ≤ j) (h2 : j < i + 1 + n) :
        slot (store32 m (8*i) v) j < 2^32 := by
      rw [hstore, if_neg (by omega)]
      exact hm j (by omega) (by omega)
    have h := ih (store32 m (8*i) v) (i+1) (v+0x1000) hrest (by omega) k
    rw [fillPt, show 8*i + 8 = 8*(i+1) from (Nat.mul_succ 8 i).symm, h, hstore]
    by_cases hk : k = i
    · subst hk
      rw [if_neg (by omega), if_pos rfl, if_pos (by omega)]
      omega
    · by_cases hr : i + 1 ≤ k ∧ k < i + 1 + n
      · rw [if_pos hr, if_pos (by omega)]
        omega
      · rw [if_neg hr, if_neg hk, if_neg (by omega)]

/-- Every word of memory after the page tables of `boot.asm` were built. The loop that fills `PT_A`
runs on through the next table. -/
theorem slot_bootTables (m : Mem) (k : ℕ) : slot (bootTables m) k =
    if 0xEC00 ≤ k ∧ k < 0xEC00 + 512 then 0x110003 + (k-0xEC00)*0x1000
    else if k = 0xEA00 then 0x76003
    else if k = 0xE9FE then 0x75003
    else if k = 0xE1FF then 0x74003
    else if 0xE600 ≤ k ∧ k < 0xE600 + 1024 then 3 + (k-0xE600)*0x1000
    else if k = 0xE400 then 0x73003
    else if k = 0xE200 then 0x72003
    else if k = 0xE000 then 0x71003
    else if 0xE000 ≤ k ∧ k < 0xE000 + 3584 then 0
    else slot m k := by
  -- one step of `bootTables` after the other, each with the words it leaves
  have h1 (k : ℕ) := slot_fill m 0xE000 3584 k
  generalize hm1 : fill m (8*0xE000) 0#8 (8*3584) = m1 at h1
  have h2 (k : ℕ) : slot (store32 m1 (8*0xE000) 0x71003) k = _ :=
    slot_store32 (by decide) (by rw [h1]; simp)
  generalize hm2 : store32 m1 (8*0xE000) 0x71003 = m2 at h2
  have h3 (k : ℕ) : slot (store32 m2 (8*0xE200) 0x72003) k = _ :=
    slot_store32 (by decide) (by rw [h2, h1]; simp)
  generalize hm3 : store32 m2 (8*0xE200) 0x72003 = m3 at h3
  have h4 (k : ℕ) : slot (store32 m3 (8*0xE400) 0x73003) k = _ :=
    slot_store32 (by decide) (by rw [h3, h2, h1]; simp)
  generalize hm4 : store32 m3 (8*0xE400) 0x73003 = m4 at h4
  have hzero4 (k : ℕ) (hk : 0xE400 < k) (hk' : k < 0xE000 + 3584) : slot m4 k = 0 := by
    rw [h4, h3, h2, h1, if_neg (by omega), if_neg (by omega), if_neg (by omega), if_pos (by omega)]
  have h5 := slot_fillPt 1024 m4 0xE600 3
    (fun k h1 h2 => by rw [hzero4 k (by omega) (by omega)]; decide) (by decide)
  generalize hm5 : fillPt m4 (8*0xE600) 3 1024 = m5 at h5
  have h6 (k : ℕ) : slot (store32 m5 (8*0xE1FF) 0x74003) k = _ :=
    slot_store32 (by decide) (by rw [h5, h4, h3, h2, h1]; simp)
  generalize hm6 : store32 m5 (8*0xE1FF) 0x74003 = m6 at h6
  have h7 (k : ℕ) : slot (store32 m6 (8*0xE9FE) 0x75003) k = _ :=
    slot_store32 (by decide) (by rw [h6, h5, hzero4 _ (by decide) (by decide)]; simp)
  generalize hm7 : store32 m6 (8*0xE9FE) 0x75003 = m7 at h7
  have h8 (k : ℕ) : slot (store32 m7 (8*0xEA00) 0x76003) k = _ :=
    slot_store32 (by decide) (by rw [h7, h6, h5, hzero4 _ (by decide) (by decide)]; decide)
  generalize hm8 : store32 m7 (8*0xEA00) 0x76003 = m8 at h8
  have hzero8 (k : ℕ) (hk : 0xEA00 < k) (hk' : k < 0xE000 + 3584) : slot m8 k = 0 := by
    rw [h8, h7, h6, h5, if_neg (by omega), if_neg (by omega), if_neg (by omega), if_neg (by omega)]
    exact hzero4 k (by omega) hk'
  have h9 := slot_fillPt 512 m8 0xEC00 0x110003
    (fun k h1 h2 => by rw [hzero8 k (by omega) (by omega)]; decide) (by decide) k
  have hboot : bootTables m = fillPt m8 (8*0xEC00) 0x110003 512 := by
    rw [← hm8, ← hm7, ← hm6, ← hm5, ← hm4, ← hm3, ← hm2, ← hm1]
    rfl
  rw [hboot, h9, h8, h7, h6, h5, h4, h3, h2, h1]

end Slots

/-! ### The tree of the boot tables -/

/-- What the machine starts from: the memory map, the end of the kernel image, and the memory that
`boot.asm` finds. -/
structure Boot where
  entries : List MmapEntry
  kernelEnd : ℕ
  mem : Mem

/-- The kernel lies in the 2 MB that the higher half maps. -/
def Boot.Fits (b : Boot) : Prop := kernelLma ≤ b.kernelEnd ∧ b.kernelEnd ≤ kernelLma + 2^21

/-- The state after `boot.asm` and `pmm_init`. -/
def Boot.start (b : Boot) : Vmm where
  mem := bootTables b.mem
  pmm := pmmInit b.entries b.kernelEnd
  pml4 := pml4Addr
  mmioNext := vmmMmioBase

/-- The same with other contents of memory. -/
def Boot.withMem (b : Boot) (m : Mem) : Vmm := { b.start with mem := m }

@[simp] theorem Boot.withMem_pml4 (b : Boot) (m : Mem) : (b.withMem m).pml4 = pml4Addr := rfl

theorem Boot.withMem_root (b : Boot) (m : Mem) : (b.withMem m).root = 0x70 := by
  unfold Vmm.root
  rw [b.withMem_pml4]
  decide

/-- The tables of `boot.asm` in memory, up to the flags of the first entry. -/
structure BootEntries (b : Boot) (m : Mem) : Prop where
  first : frameOf (entry m 0x70 0) = 0x71 ∧ entry m 0x70 0 &&& vmmPresent ≠ 0
  middle : ∀ j, 0 < j → j < 511 → entry m 0x70 j = 0
  last : entry m 0x70 511 = 0x74003
  pdpteA : ∀ j, j < 512 → entry m 0x71 j = if j = 0 then 0x72003 else 0
  pdA : ∀ j, j < 512 → entry m 0x72 j = if j = 0 then 0x73003 else 0
  ptA : ∀ j, j < 512 → entry m 0x73 j = j*4096 + 3
  pdpteB : ∀ j, j < 512 → entry m 0x74 j = if j = 510 then 0x75003 else (0x200 + j)*4096 + 3
  pdB : ∀ j, j < 512 → entry m 0x75 j = if j = 0 then 0x76003 else 0
  rest : ∀ f j, j < 512 → f < 0x70 ∨ 0x76 < f → entry m f j = entry b.mem f j

theorem Boot.bootEntries (b : Boot) : BootEntries b (bootTables b.mem) := by
  have h (f j : ℕ) :=
    (entry_eq_slot (bootTables b.mem) f j).trans (slot_bootTables b.mem (512*f + j))
  refine { first := ?_, middle := ?_, last := ?_, pdpteA := ?_, pdA := ?_, ptA := ?_, pdpteB := ?_
           pdB := ?_, rest := ?_ }
  · have h0 : entry (bootTables b.mem) 0x70 0 = 0x71003 := by
      rw [h]
      simp
    rw [h0]
    decide
  · intro j h1 h2
    rw [h, if_neg (by omega), if_neg (by omega), if_neg (by omega), if_neg (by omega),
      if_neg (by omega), if_neg (by omega), if_neg (by omega), if_neg (by omega), if_pos (by omega)]
  · rw [h]
    simp
  · intro j hj
    rw [h, if_neg (by omega), if_neg (by omega), if_neg (by omega), if_neg (by omega),
      if_neg (by omega), if_neg (by omega)]
    by_cases h0 : j = 0
    · rw [if_pos h0, if_pos (by omega)]
    · rw [if_neg h0, if_neg (by omega), if_neg (by omega), if_pos (by omega)]
  · intro j hj
    rw [h, if_neg (by omega), if_neg (by omega), if_neg (by omega), if_neg (by omega),
      if_neg (by omega)]
    by_cases h0 : j = 0
    · rw [if_pos h0, if_pos (by omega)]
    · rw [if_neg h0, if_neg (by omega), if_neg (by omega), if_neg (by omega), if_pos (by omega)]
  · intro j hj
    rw [h, if_neg (by omega), if_neg (by omega), if_neg (by omega), if_neg (by omega),
      if_pos (by omega)]
    omega
  · intro j hj
    rw [h, if_neg (by omega), if_neg (by omega)]
    by_cases h0 : j = 510
    · rw [if_pos h0, if_pos (by omega)]
    · rw [if_neg h0, if_neg (by omega), if_neg (by omega), if_pos (by omega)]
      omega
  · intro j hj
    rw [h, if_neg (by omega)]
    by_cases h0 : j = 0
    · rw [if_pos h0, if_pos (by omega)]
    · rw [if_neg h0, if_neg (by omega), if_neg (by omega), if_neg (by omega), if_neg (by omega),
        if_neg (by omega), if_neg (by omega), if_neg (by omega), if_pos (by omega)]
  · intro f j hj hf
    rw [h, if_neg (by omega), if_neg (by omega), if_neg (by omega), if_neg (by omega),
      if_neg (by omega), if_neg (by omega), if_neg (by omega), if_neg (by omega), if_neg (by omega),
      entry_eq_slot]

/-- `PDPTE_B[i]` is present, but for `i = 510` no table was ever set up in the frame it points to.
It does no harm when the frame is not handed out and points to no further table. -/
def Boot.StrayHarmless (b : Boot) (i : ℕ) : Prop :=
  0x200 + i ∉ usableFrames b.entries b.kernelEnd ∧
    ∀ j, j < 512 → entry b.mem (0x200 + i) j &&& vmmPresent ≠ 0 →
      entry b.mem (0x200 + i) j &&& vmmPs ≠ 0

/-- The tables that can be reached after `boot.asm`. -/
inductive BootTable (live : List ℕ → Prop) : List ℕ → ℕ → Prop
  | pml4 : BootTable live [] 0x70
  | pdpteA : BootTable live [0] 0x71
  | pdA : BootTable live [0, 0] 0x72
  | ptA : BootTable live [0, 0, 0] 0x73
  | pdpteB : BootTable live [511] 0x74
  | pdB : BootTable live [511, 510] 0x75
  | ptB : BootTable live [511, 510, 0] 0x76
  | stray (i : ℕ) (hi : i < 512) (hne : i ≠ 510) (hl : live [511, i]) :
      BootTable live [511, i] (0x200 + i)

section Boot
variable {b : Boot} {m : Mem} {live : List ℕ → Prop} {p : List ℕ} {f i g : ℕ}

/-- The paths that count: all but some through `PDPTE_B`, whose entries do no harm. -/
structure Boot.Lives (b : Boot) (live : List ℕ → Prop) : Prop where
  fits : b.Fits
  short : ∀ p : List ℕ, p.length ≤ 1 → live p
  low : ∀ p, live (0::p)
  stray : ∀ i, i < 512 → i ≠ 510 → live [511, i] → b.StrayHarmless i

theorem BootEntries.child (hb : b.Lives live) (he : BootEntries b m) (ht : BootTable live p f)
    (hc : child m live p f i = some g) : BootTable live (p ++ [i]) g := by
  obtain ⟨⟨hi, hlen, hl, hpres, hs⟩, hframe⟩ := child_eq_some.mp hc
  have hzero : entry m f i ≠ 0 := by
    intro h0
    rw [h0] at hpres
    exact hpres rfl
  cases ht with
  | pml4 =>
    by_cases h0 : i = 0
    · subst h0
      rw [he.first.1] at hframe
      subst hframe
      exact .pdpteA
    · by_cases h511 : i = 511
      · subst h511
        rw [he.last] at hframe
        subst hframe
        exact .pdpteB
      · exact absurd (he.middle i (by omega) (by omega)) hzero
  | pdpteA =>
    rw [he.pdpteA i hi] at hframe hzero
    by_cases h0 : i = 0
    · subst h0
      subst hframe
      exact .pdA
    · exact absurd (if_neg h0) hzero
  | pdA =>
    rw [he.pdA i hi] at hframe hzero
    by_cases h0 : i = 0
    · subst h0
      subst hframe
      exact .ptA
    · exact absurd (if_neg h0) hzero
  | ptA => exact absurd hlen (by decide)
  | pdpteB =>
    rw [he.pdpteB i hi] at hframe
    by_cases h0 : i = 510
    · subst h0
      subst hframe
      exact .pdB
    · rw [if_neg h0] at hframe
      have hg : g = 0x200 + i := by
        rw [← hframe, frameOf]
        omega
      rw [hg]
      exact .stray i hi h0 hl
  | pdB =>
    rw [he.pdB i hi] at hframe hzero
    by_cases h0 : i = 0
    · subst h0
      subst hframe
      exact .ptB
    · exact absurd (if_neg h0) hzero
  | ptB => exact absurd hlen (by decide)
  | stray k hk hne hlk =>
    -- a frame that only looks like a table has no tables below it
    rw [he.rest (0x200 + k) i hi (Or.inr (by omega))] at hpres hs
    have hps := (hb.stray k hk hne hlk).2 i hi hpres
    exact absurd (hs.resolve_left (List.cons_ne_nil _ _)) hps

theorem BootEntries.bootTable (hb : b.Lives live) (he : BootEntries b m)
    (h : table m live 0x70 p = some f) : BootTable live p f := by
  induction p using List.reverseRecOn generalizing f with
  | nil =>
    obtain rfl := Option.some.inj h
    exact .pml4
  | append_singleton p i ih =>
    obtain ⟨x, hx, hc⟩ := table_parent h
    exact he.child hb (ih hx) hc

/-- The path to a frame of the boot tables. -/
def bootPath (f : ℕ) : List ℕ :=
  if 0x200 ≤ f then [511, f - 0x200]
  else match f with
  | 0x71 => [0]
  | 0x72 => [0, 0]
  | 0x73 => [0, 0, 0]
  | 0x74 => [511]
  | 0x75 => [511, 510]
  | 0x76 => [511, 510, 0]
  | _ => []

theorem BootTable.path (h : BootTable live p f) : p = bootPath f := by
  cases h with
  | stray i hi hne hl =>
    unfold bootPath
    rw [if_pos (Nat.le_add_right 0x200 i), Nat.add_sub_cancel_left]
  | _ => rfl

theorem BootTable.inj {q : List ℕ} (h : BootTable live p f) (h' : BootTable live q f) : p = q :=
  h.path.trans h'.path.symm

theorem BootTable.bounds (h : BootTable live p f) : 0x70 ≤ f ∧ f < 0x400 := by
  cases h with
  | stray i hi hne hl => omega
  | _ => decide

/-- The tables below the first entry of the page map level 4. -/
theorem BootTable.low (h : BootTable live p f) : (p = [0] → f = 0x71) ∧
    (∀ j, p = [0, j] → j = 0 ∧ f = 0x72) ∧
    (∀ j k, p = [0, j, k] → j = 0 ∧ k = 0 ∧ f = 0x73) := by
  cases h with
  | _ => simp

/-- No table of the boot tables is handed out. -/
theorem BootTable.not_usable (hb : b.Lives live) (h : BootTable live p f) :
    f ∉ usableFrames b.entries b.kernelEnd := by
  have hend : 0x110 ≤ kernelEndPage b.kernelEnd := by
    have hlo := hb.fits.1
    have hhi := hb.fits.2
    simp only [kernelLma] at hlo hhi
    simp only [kernelEndPage, pageSize]
    omega
  have hsmall (hf : f < 0x110) : f ∉ usableFrames b.entries b.kernelEnd :=
    fun hu => by have := hu.2.1; omega
  cases h with
  | stray i hi hne hl => exact (hb.stray i hi hne hl).1
  | _ => exact hsmall (by decide)

/-- Addresses below 512 GB use only paths that count. -/
theorem Boot.Lives.liveWalk (hb : b.Lives live) {v : ℕ} (hv : v < 2^39) : LiveWalk live v := by
  intro p hne hpre
  have h0 : vmmPml4Index v = 0 := by
    rw [vmmPml4Index_eq]
    omega
  cases p with
  | nil => exact absurd rfl hne
  | cons i p =>
    obtain rfl : i = vmmPml4Index v := (List.cons_prefix_cons.mp hpre).1
    rw [h0]
    exact hb.low p

/-- The tables that the addresses below 2 MB are mapped by. -/
theorem BootEntries.low (hb : b.Lives live) (he : BootEntries b m) :
    table m live 0x70 [0] = some 0x71 ∧ table m live 0x70 [0, 0] = some 0x72 ∧
      table m live 0x70 [0, 0, 0] = some 0x73 := by
  have he3 := he.pdpteA 0 (by decide)
  rw [if_pos rfl] at he3
  have he2 := he.pdA 0 (by decide)
  rw [if_pos rfl] at he2
  have h1 : table m live 0x70 [0] = some 0x71 := (table_step (p := []) rfl).trans
    (child_eq_some.mpr ⟨⟨by decide, by decide, hb.low [], he.first.2, Or.inl rfl⟩, he.first.1⟩)
  have h2 : table m live 0x70 [0, 0] = some 0x72 := by
    refine (table_step (p := [0]) h1).trans (child_eq_some.mpr ?_)
    rw [he3]
    exact ⟨⟨by decide, by decide, hb.low [0], by decide, by decide⟩, by decide⟩
  refine ⟨h1, h2, (table_step (p := [0, 0]) h2).trans (child_eq_some.mpr ?_)⟩
  rw [he2]
  exact ⟨⟨by decide, by decide, hb.low [0, 0], by decide, by decide⟩, by decide⟩

/-- The boot tables map the first 2 MB to themselves, and nothing else below 512 GB. -/
theorem BootEntries.translate (hb : b.Lives live) (he : BootEntries b m) {v : ℕ} (hv : v < 2^39) :
    SukiOS.translate m pml4Addr v = if v < 2^21 then some v else none := by
  have hc : Canonical v := Or.inl (by omega)
  obtain ⟨ht1, ht2, ht3⟩ := he.low hb
  rw [show pml4Addr = 0x70*4096 from rfl, translate_eq hc (hb.liveWalk hv)]
  have h4 : vmmPml4Index v = 0 := by
    rw [vmmPml4Index_eq]
    omega
  have h3 := vmmPdpteIndex_lt v
  have h2 := vmmPdIndex_lt v
  have h1 := vmmPtIndex_lt v
  have hpre1 : OnWalk v [vmmPml4Index v] (vmmPdpteIndex v) := ⟨_, rfl⟩
  have hpre2 : OnWalk v [vmmPml4Index v, vmmPdpteIndex v] (vmmPdIndex v) := ⟨_, rfl⟩
  rw [h4] at hpre1 hpre2
  by_cases h30 : vmmPdpteIndex v = 0
  · rw [h30] at hpre2
    by_cases h20 : vmmPdIndex v = 0
    · have hsmall : v < 2^21 := by
        rw [vmmPdpteIndex_eq] at h30
        rw [vmmPdIndex_eq] at h20
        omega
      have hent := he.ptA _ h1
      have hpres : ¬ entry m 0x73 (vmmPtIndex v) &&& vmmPresent = 0 := by
        rw [← ne_eq, land_present, hent, Nat.testBit_zero, decide_eq_true_eq]
        omega
      have hwalk : table m live 0x70 [vmmPml4Index v, vmmPdpteIndex v, vmmPdIndex v] =
        some 0x73 := by
        rw [h4, h30, h20]
        exact ht3
      rw [treeWalk_page hwalk, if_neg hpres, if_pos hsmall, hent, frameOf, vmmPtIndex_eq]
      apply congrArg
      omega
    · have hbig : ¬ v < 2^21 := by
        rw [vmmPdIndex_eq] at h20
        omega
      have hent := he.pdA _ h2
      rw [if_neg h20] at hent
      rw [if_neg hbig]
      exact treeWalk_none ht2 hpre2 (by rw [hent]; rfl)
  · have hbig : ¬ v < 2^21 := by
      rw [vmmPdpteIndex_eq] at h30
      omega
    have hent := he.pdpteA _ h3
    rw [if_neg h30] at hent
    rw [if_neg hbig]
    exact treeWalk_none ht1 hpre1 (by rw [hent]; rfl)

/-- The invariant of the page tables holds at the boot. -/
theorem BootEntries.tables (hb : b.Lives live) (he : BootEntries b m) :
    Tables live (b.withMem m) := by
  have hfree (f : ℕ) : Free (b.withMem m) f ↔ f ∈ usableFrames b.entries b.kernelEnd :=
    bitmapTest_pmmInit b.entries b.kernelEnd f
  have htable (p : List ℕ) (f : ℕ) (h : Vmm.table (b.withMem m) live p = some f) :
      BootTable live p f := by
    unfold Vmm.table at h
    rw [b.withMem_root] at h
    exact he.bootTable hb h
  have hlow (f : ℕ) (hm : Vmm.Managed (b.withMem m) live f) : f < 2^27 := by
    rcases hm with hm | ⟨p, hp⟩
    · exact ((hfree f).mp hm).1.trans (by decide)
    · have h := (htable p f hp).bounds
      omega
  refine { aligned := ?_, distinct := ?_, used := ?_, reach := ?_, window := ?_, low := hlow
           large := ?_ }
  · rw [b.withMem_root]
    rfl
  · exact fun p q f hp hq => (htable p f hp).inj (htable q f hq)
  · exact fun p f hp hm => (htable p f hp).not_usable hb ((hfree f).mp hm)
  · intro f hm o ho
    have := hlow f hm
    exact hb.liveWalk (by omega)
  · intro f hm o ho a hta
    have := hlow f hm
    have htr := he.translate hb (v := f*4096 + o) (by omega)
    have hta : SukiOS.translate m pml4Addr (f*4096 + o) = some a := hta
    rw [htr] at hta
    by_cases hv : f*4096 + o < 2^21
    · rw [if_pos hv] at hta
      exact (Option.some.inj hta).symm
    · rw [if_neg hv] at hta
      exact nomatch hta
  · intro j f i hp hi hps
    obtain ⟨rfl, rfl⟩ := ((htable _ f hp).low.2.1) j rfl
    have hent : entry m 0x72 i = _ := he.pdA i hi
    change entry m 0x72 i &&& vmmPs ≠ 0 at hps
    rw [hent] at hps
    by_cases h0 : i = 0
    · rw [if_pos h0] at hps
      exact absurd hps (by decide)
    · rw [if_neg h0] at hps
      exact absurd hps (by decide)

end Boot

end SukiOS

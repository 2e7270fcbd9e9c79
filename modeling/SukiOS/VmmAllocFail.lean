import SukiOS.VmmExact

/-! A call of `vmm_alloc_map` that fails: the frame it took for the page stays taken. -/
namespace SukiOS
open ByteMemory MachineWord RadixTree

/-! ### Frames are only taken -/

/-- From `s` to `s'` at most `n` frames were taken, and none was given back. -/
def TakesAtMost (n : ℕ) (s s' : Vmm) : Prop :=
  ∃ G : List ℕ, G.length ≤ n ∧ ∀ f, Free s' f ↔ Free s f ∧ f ∉ G

section Taken
variable {s s' s'' : Vmm} {a v w f i t n k phys virt flags : ℕ} {alloc : Bool} {r : ℤ}

theorem TakesAtMost.trans (h : TakesAtMost n s s') (h' : TakesAtMost k s' s'') :
    TakesAtMost (n + k) s s'' := by
  obtain ⟨G, hG, hfree⟩ := h
  obtain ⟨H, hH, hfree'⟩ := h'
  refine ⟨G ++ H, by rw [List.length_append]; omega, fun f => ?_⟩
  rw [hfree', hfree, List.mem_append, not_or, and_assoc]

theorem TakesAtMost.mono (h : TakesAtMost n s s') (hk : n ≤ k) : TakesAtMost k s s' := by
  obtain ⟨G, hG, hfree⟩ := h
  exact ⟨G, hG.trans hk, hfree⟩

theorem TakesAtMost.of_pmm (h : s'.pmm = s.pmm) : TakesAtMost 0 s s' := by
  refine ⟨[], le_rfl, fun f => ?_⟩
  unfold Free
  rw [h]
  exact ⟨fun hf => ⟨hf, List.not_mem_nil⟩, And.left⟩

theorem TakesAtMost.ofAlloc (s : Vmm) : TakesAtMost 1 s
    { s with pmm := (pmmAllocPage s.pmm).1 } := by
  rcases pmmAllocPage_free s with ⟨g, -, -, hfree⟩ | ⟨-, hres⟩
  · refine ⟨[g], le_rfl, fun f => ?_⟩
    rw [List.mem_singleton]
    exact hfree f
  · refine (TakesAtMost.of_pmm ?_).mono (Nat.zero_le 1)
    exact congrArg Prod.fst hres

theorem TakesAtMost.free (h : TakesAtMost n s s') (hf : Free s' f) : Free s f := by
  obtain ⟨G, -, hfree⟩ := h
  exact ((hfree f).mp hf).1

theorem Vmm.write_pmm (h : s.write a w = some s') : s'.pmm = s.pmm := by
  obtain ⟨p, -, rfl⟩ := Option.map_eq_some_iff.mp h
  rfl

theorem clearFrom_pmm (n : ℕ) : ∀ s p, clearFrom s p n = some s' → s'.pmm = s.pmm := by
  induction n with
  | zero =>
    intro s p h
    rw [← Option.some.inj h]
  | succ n ih =>
    intro s p h
    obtain ⟨b, -, h⟩ := Option.bind_eq_some_iff.mp h
    exact ih { s with mem := Function.update s.mem b 0#8 } (p+1) h

theorem splitFrom_pmm (n : ℕ) : ∀ s i, splitFrom s a w i n = some s' → s'.pmm = s.pmm := by
  induction n with
  | zero =>
    intro s i h
    rw [← Option.some.inj h]
  | succ n ih =>
    intro s i h
    obtain ⟨t, ht, h⟩ := Option.bind_eq_some_iff.mp h
    exact (ih t (i+1) h).trans (Vmm.write_pmm ht)

theorem nextTable_takes (h : nextTable s a i alloc = some (s', t)) : TakesAtMost 1 s s' := by
  obtain ⟨e, -, h⟩ := Option.bind_eq_some_iff.mp h
  have hsame : TakesAtMost 1 s s := (TakesAtMost.of_pmm rfl).mono (Nat.zero_le 1)
  by_cases hp : e &&& vmmPresent = 0
  · rw [if_pos hp] at h
    by_cases ha : alloc = false
    · rw [if_pos ha] at h
      obtain ⟨rfl, -⟩ := Prod.mk.inj (Option.some.inj h)
      exact hsame
    rw [if_neg ha] at h
    dsimp only at h
    by_cases h0 : (pmmAllocPage s.pmm).2 = 0
    · rw [if_pos h0] at h
      obtain ⟨rfl, -⟩ := Prod.mk.inj (Option.some.inj h)
      exact TakesAtMost.ofAlloc s
    -- the frame is cleared and linked, which the allocator does not see
    rw [if_neg h0] at h
    obtain ⟨s1, h1, h⟩ := Option.bind_eq_some_iff.mp h
    obtain ⟨s2, h2, h⟩ := Option.bind_eq_some_iff.mp h
    obtain ⟨e', -, h⟩ := Option.bind_eq_some_iff.mp h
    obtain ⟨rfl, -⟩ := Prod.mk.inj (Option.some.inj h)
    have hpmm := (Vmm.write_pmm h2).trans (clearFrom_pmm vmmPageSize _ _ h1)
    exact (TakesAtMost.ofAlloc s).trans (TakesAtMost.of_pmm hpmm)
  · rw [if_neg hp] at h
    obtain ⟨rfl, -⟩ := Prod.mk.inj (Option.some.inj h)
    exact hsame

theorem nextTableNotLarge_takes (h : nextTableNotLarge s a i alloc = some (s', t)) :
    TakesAtMost 1 s s' := by
  obtain ⟨e, -, h⟩ := Option.bind_eq_some_iff.mp h
  by_cases hs : e &&& vmmPs ≠ 0
  · rw [if_pos hs] at h
    obtain ⟨rfl, -⟩ := Prod.mk.inj (Option.some.inj h)
    exact (TakesAtMost.of_pmm rfl).mono (Nat.zero_le 1)
  · rw [if_neg hs] at h
    exact nextTable_takes h

/-- A step that looks a table up first and goes on when there is one. -/
theorem TakesAtMost.lookup {β : Type} {x : Option (Vmm × ℕ)} {b r : β}
    {f : Vmm × ℕ → Option (Vmm × β)} (hx : ∀ s1 t1, x = some (s1, t1) → TakesAtMost n s s1)
    (hf : ∀ s1 t1, f (s1, t1) = some (s', r) → TakesAtMost k s1 s')
    (h : (x >>= fun p => if p.2 = 0 then some (p.1, b) else f p) = some (s', r)) :
    TakesAtMost (n + k) s s' := by
  obtain ⟨⟨s1, t1⟩, h1, h⟩ := Option.bind_eq_some_iff.mp h
  have hfirst := hx s1 t1 h1
  by_cases h0 : t1 = 0
  · rw [if_pos h0] at h
    obtain ⟨rfl, -⟩ := Prod.mk.inj (Option.some.inj h)
    exact hfirst.mono (Nat.le_add_right n k)
  · rw [if_neg h0] at h
    exact hfirst.trans (hf s1 t1 h)

theorem getPd_takes (h : getPd s v alloc = some (s', t)) : TakesAtMost 2 s s' :=
  TakesAtMost.lookup (f := fun p => nextTableNotLarge p.1 p.2 (vmmPdpteIndex v) alloc)
    (fun _ _ h1 => nextTable_takes h1) (fun _ _ h2 => nextTableNotLarge_takes h2) h

theorem getPt_takes (h : getPt s v alloc = some (s', t)) : TakesAtMost 3 s s' :=
  TakesAtMost.lookup (f := fun p => nextTableNotLarge p.1 p.2 (vmmPdIndex v) alloc)
    (fun _ _ h1 => getPd_takes h1) (fun _ _ h2 => nextTableNotLarge_takes h2) h

theorem setPage_takes (h : setPage s phys v flags = some (s', r)) : TakesAtMost 3 s s' := by
  apply TakesAtMost.lookup (n := 3) (k := 0) (fun _ _ h1 => getPt_takes h1) _ h
  intro s1 t1 h
  -- the write of the entry takes no frame
  obtain ⟨s2, h2, h⟩ := Option.bind_eq_some_iff.mp h
  obtain ⟨rfl, -⟩ := Prod.mk.inj (Option.some.inj h)
  exact TakesAtMost.of_pmm (Vmm.write_pmm h2)

/-- `vmm_map_page` gives no frame back, whether it succeeds or fails: it looks for a directory, for
the table of a split, and for a page table. -/
theorem vmmMapPage_takes (h : vmmMapPage s phys virt flags = some (s', r)) :
    TakesAtMost 6 s s' := by
  obtain ⟨⟨s1, t1⟩, h1, h⟩ := Option.bind_eq_some_iff.mp h
  have hfirst := getPd_takes h1
  by_cases h0 : t1 = 0
  · rw [if_pos h0] at h
    obtain ⟨rfl, -⟩ := Prod.mk.inj (Option.some.inj h)
    exact hfirst.mono (by decide)
  rw [if_neg h0] at h
  obtain ⟨pde, -, h⟩ := Option.bind_eq_some_iff.mp h
  by_cases hps : pde &&& vmmPs ≠ 0
  · rw [if_pos hps] at h
    dsimp only at h
    by_cases hq : (pmmAllocPage s1.pmm).2 = 0
    · rw [if_pos hq] at h
      obtain ⟨rfl, -⟩ := Prod.mk.inj (Option.some.inj h)
      exact (hfirst.trans (TakesAtMost.ofAlloc s1)).mono (by decide)
    · rw [if_neg hq] at h
      obtain ⟨s2, h2, h⟩ := Option.bind_eq_some_iff.mp h
      obtain ⟨s3, h3, h⟩ := Option.bind_eq_some_iff.mp h
      obtain ⟨s4, h4, h⟩ := Option.bind_eq_some_iff.mp h
      have hpmm := (Vmm.write_pmm h4).trans
        ((splitFrom_pmm 512 s2 0 h3).trans (clearFrom_pmm vmmPageSize _ _ h2))
      exact (hfirst.trans (TakesAtMost.ofAlloc s1)).trans
        ((TakesAtMost.of_pmm hpmm).trans (setPage_takes h))
  · rw [if_neg hps] at h
    exact (hfirst.trans (setPage_takes h)).mono (by decide)

end Taken

/-! ### A call that fails -/

/-- What a call that went from `s` to `s'` and failed should leave behind: the frame that was taken
for the page is free, and every other frame that was taken holds a table. -/
structure FailsCleanly (s s' : Vmm) : Prop where
  data : ∀ d, Free s d → (pmmAllocPage s.pmm).2 = d*4096 → Free s' d
  tables : ∀ f, Free s f → ¬ Free s' f → ∃ p, p ≠ [] ∧ s'.table every p = some f

/-- The frame for the page is the first one taken, and no later step gives it back. -/
theorem FailsCleanly.no_free {s s' : Vmm} {virt flags : ℕ} (hclean : FailsCleanly s s')
    (h : vmmAllocMap s virt flags = some (s', -1)) (f : ℕ) : ¬ Free s f := by
  intro hf
  obtain ⟨g, hg, haddr, hfree⟩ := (pmmAllocPage_free s).resolve_right (fun hno => hno.1 f hf)
  have htaken : TakesAtMost 6 { s with pmm := (pmmAllocPage s.pmm).1 } s' := by
    unfold vmmAllocMap at h
    dsimp only at h
    by_cases h0 : (pmmAllocPage s.pmm).2 = 0
    · rw [if_pos h0] at h
      obtain ⟨rfl, -⟩ := Prod.mk.inj (Option.some.inj h)
      exact (TakesAtMost.of_pmm rfl).mono (by decide)
    · rw [if_neg h0] at h
      obtain ⟨s1, h1, h⟩ := Option.bind_eq_some_iff.mp h
      have hpmm := clearFrom_pmm vmmPageSize _ _ h1
      exact ((TakesAtMost.of_pmm hpmm).trans (vmmMapPage_takes h)).mono (by decide)
  have hback : Free s' g := hclean.data g hg haddr
  exact ((hfree g).mp (htaken.free hback)).2 rfl

/-- `vmm_alloc_map` fails cleanly when there was no free frame at all, and at no other time. -/
theorem vmm_alloc_map_clean_iff {s s' : Vmm} {virt flags : ℕ}
    (h : vmmAllocMap s virt flags = some (s', -1)) : FailsCleanly s s' ↔ ∀ f, ¬ Free s f := by
  refine ⟨fun hclean => hclean.no_free h, fun hnone => ?_⟩
  have hres : pmmAllocPage s.pmm = (s.pmm, 0) := by
    rcases pmmAllocPage_free s with ⟨g, hg, -⟩ | ⟨-, hres⟩
    · exact absurd hg (hnone g)
    · exact hres
  unfold vmmAllocMap at h
  rw [hres] at h
  dsimp only at h
  rw [if_pos rfl] at h
  obtain ⟨rfl, -⟩ := Prod.mk.inj (Option.some.inj h)
  exact ⟨fun d hd => absurd hd (hnone d), fun f hf => absurd hf (hnone f)⟩

/-! ### A huge page -/

section Huge
variable {live : List ℕ → Prop} {s : Vmm} {f g v virt : ℕ}

/-- There is no directory behind a page of 1 GB. -/
theorem Backed.getPd_huge (hb : Backed live s) (h3 : s.table live [vmmPml4Index v] = some f)
    (hs : entry s.mem f (vmmPdpteIndex v) &&& vmmPs ≠ 0) (alloc : Bool) :
    getPd s v alloc = some (s, 0) := by
  have hm : s.Managed live f := Or.inr ⟨_, h3⟩
  have hnext := hb.nextTable_eq (p := []) (f := s.root) alloc rfl h3
  rw [← hb.tables.aligned] at hnext
  unfold getPd getPdpte
  rw [hnext]
  dsimp only [Option.bind_eq_bind, Option.bind_some]
  rw [if_neg (hb.address_ne_zero hm)]
  unfold nextTableNotLarge
  rw [hb.read hm (vmmPdpteIndex_lt v)]
  dsimp only [Option.bind_eq_bind, Option.bind_some]
  rw [if_pos hs]

theorem Backed.vmmMapPage_huge (hb : Backed live s)
    (h3 : s.table live [vmmPml4Index (virt &&& pageMask)] = some f)
    (hs : entry s.mem f (vmmPdpteIndex (virt &&& pageMask)) &&& vmmPs ≠ 0) (phys flags : ℕ) :
    vmmMapPage s phys virt flags = some (s, -1) := by
  unfold vmmMapPage
  dsimp only
  rw [hb.getPd_huge h3 hs]
  dsimp only [Option.bind_eq_bind, Option.bind_some]
  rw [if_pos rfl]

/-- A page in a page of 1 GB cannot be mapped, which is found out after its frame was taken. -/
theorem Backed.vmmAllocMap_huge (hb : Backed live s)
    (h3 : s.table live [vmmPml4Index (virt &&& pageMask)] = some f)
    (hs : entry s.mem f (vmmPdpteIndex (virt &&& pageMask)) &&& vmmPs ≠ 0) (hg : Free s g)
    (flags : ℕ) : ∃ s', vmmAllocMap s virt flags = some (s', -1) := by
  obtain ⟨x, hx, haddr, hfree⟩ := (pmmAllocPage_free s).resolve_right (fun hno => hno.1 g hg)
  have hmx : s.Managed live x := Or.inl hx
  obtain ⟨s1, h1⟩ :=
    hb.tables.reached.clearPage_some (t := { s with pmm := (pmmAllocPage s.pmm).1 })
    hx (hb.windows x hmx) rfl rfl
  obtain ⟨hs1, hgrow⟩ := hb.tables.take_cleared hx hfree h1
  -- the frame that was cleared is not the table, which is not free
  have hne : f ≠ x := fun e => hb.tables.used _ f h3 (e ▸ hx)
  have hent : entry s1.mem f (vmmPdpteIndex (virt &&& pageMask)) =
      entry s.mem f (vmmPdpteIndex (virt &&& pageMask)) := by
    rewrite [hs1]
    dsimp only
    exact (entry_fill (vmmPdpteIndex_lt _)).trans (if_neg hne)
  refine ⟨s1, ?_⟩
  unfold vmmAllocMap
  dsimp only
  rw [haddr, if_neg (hb.address_ne_zero hmx), h1]
  dsimp only [Option.bind_eq_bind, Option.bind_some]
  apply (hb.grown hgrow).vmmMapPage_huge
  · rw [land_pageMask_idem]
    exact hgrow.keep _ f h3
  · rw [land_pageMask_idem, hent]
    exact hs

end Huge

theorem hugeSpace_first : entry hugeSpace.mem 16 0 = 17*4096 ||| 3 :=
  (hugeSpace_entry (by decide)).trans (by decide)

theorem hugeSpace_page : entry hugeSpace.mem 17 0 = 0x83 :=
  (hugeSpace_entry (by decide)).trans (by decide)

theorem hugeSpace_table_first : hugeSpace.table every [0] = some 17 := by
  have hroot : hugeSpace.root = 16 := by decide
  have hstep : hugeSpace.table every [0] = child hugeSpace.mem every [] hugeSpace.root 0 :=
    table_step (p := []) rfl
  rw [hstep, hroot]
  refine child_eq_some.mpr ⟨⟨by decide, by decide, trivial, ?_, Or.inl rfl⟩, ?_⟩
  · rw [hugeSpace_first]
    decide
  · rw [hugeSpace_first]
    decide

theorem hugeSpace_managed {f : ℕ} (hm : hugeSpace.Managed every f) : 16 ≤ f ∧ f < 40 := by
  rcases hm with hf | ⟨p, hp⟩
  · have h := hugeSpace_free hf
    omega
  · rcases hugeSpace_table hp with ⟨-, rfl⟩ | ⟨-, rfl⟩ <;> omega

theorem hugeSpace_backed : Backed every hugeSpace := by
  have hs := hugeSpace_space
  have hr := hs.reached
  refine ⟨⟨hr.aligned, hr.distinct, hr.used, hr.reach, hr.window, ?_, ?_⟩, hs.accessible, ?_⟩
  · intro f hm
    have h := (hugeSpace_managed hm).2
    omega
  · exact fun b f i hp => hs.large [0, b] f i (List.cons_ne_nil _ _) (by simp) hp
  · intro hm
    have h := (hugeSpace_managed hm).1
    omega

theorem hugeSpace_free_frame : Free hugeSpace 32 := by
  unfold Free
  rw [bitmapTest_eq _ _ (by decide)]
  decide

/-- Page 1 is part of the page of 1 GB. -/
theorem hugeSpace_alloc_fails : ∃ s', vmmAllocMap hugeSpace 0x1000 3 = some (s', -1) := by
  have h4 : vmmPml4Index (0x1000 &&& pageMask) = 0 := by decide
  have h3 : vmmPdpteIndex (0x1000 &&& pageMask) = 0 := by decide
  apply hugeSpace_backed.vmmAllocMap_huge (f := 17) _ _ hugeSpace_free_frame
  · rw [h4]
    exact hugeSpace_table_first
  · rw [h3, hugeSpace_page]
    decide

theorem vmm_alloc_map_clean_iff_huge : ∃ s', vmmAllocMap hugeSpace 0x1000 3 = some (s', -1) ∧
    (FailsCleanly hugeSpace s' ↔ ∀ f, ¬ Free hugeSpace f) := by
  obtain ⟨s', h⟩ := hugeSpace_alloc_fails
  exact ⟨s', h, vmm_alloc_map_clean_iff h⟩

/-- The frame for page 1 is lost. -/
theorem vmm_alloc_map_loses_frame : ∃ s', vmmAllocMap hugeSpace 0x1000 3 = some (s', -1) ∧
    ¬ FailsCleanly hugeSpace s' := by
  obtain ⟨s', h⟩ := hugeSpace_alloc_fails
  exact ⟨s', h, fun hclean => hclean.no_free h 32 hugeSpace_free_frame⟩

end SukiOS

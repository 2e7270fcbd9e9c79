import SukiOS.VmmGrow

/-! What `vmm_map_page` and its callers do: they add tables, then set entries of page tables. -/
namespace SukiOS
open ByteMemory MachineWord RadixTree

/-! ### Setting the entry of a page -/

section Leaf
variable {live : List ℕ → Prop} {s s' : Vmm} {p : List ℕ} {f i v w : ℕ}

/-- The page of `v` is the one behind the entry `i` of the page table at `p`. -/
theorem onWalk_leaf (h : OnWalk v p i) (hp : p.length = 3) : walkPath v = p ++ [i] := by
  have hlen : (p ++ [i]).length = (walkPath v).length := by
    rw [List.length_append, List.length_singleton, hp]
    rfl
  exact (h.eq_of_length hlen).symm

/-- `s'` is `s` with the entry `i` of the page table `f` at `p` set to `w`. -/
structure LeafSet (live : List ℕ → Prop) (s s' : Vmm) (p : List ℕ) (f i w : ℕ) : Prop where
  path : s.table live p = some f
  depth : p.length = 3
  idx : i < 512
  pmm : s'.pmm = s.pmm
  pml4 : s'.pml4 = s.pml4
  entries : ∀ f' j, j < 512 → entry s'.mem f' j = if f' = f ∧ j = i then w else entry s.mem f' j

theorem LeafSet.of_store (hp : s.table live p = some f) (hlen : p.length = 3) (hi : i < 512)
    (hw : w < 2^64) : LeafSet live s { s with mem := store64 s.mem (f*4096 + 8*i) w } p f i w :=
  ⟨hp, hlen, hi, rfl, rfl, fun _ _ hj => entry_store64 hi hj hw⟩

theorem LeafSet.root (hs : LeafSet live s s' p f i w) : s'.root = s.root := by
  unfold Vmm.root
  rw [hs.pml4]

theorem LeafSet.free (hs : LeafSet live s s' p f i w) (h : ℕ) : Free s' h ↔ Free s h := by
  unfold Free
  rw [hs.pmm]

theorem LeafSet.child (ht : Reached live s) (hs : LeafSet live s s' p f i w) (q : List ℕ) (f' j : ℕ)
    (hq : s.table live q = some f') : child s'.mem live q f' j = child s.mem live q f' j := by
  by_cases hlen : 3 ≤ q.length
  · rw [child_leaf hlen, child_leaf hlen]
  · by_cases hj : j < 512
    · apply child_congr
      rw [hs.entries f' j hj]
      apply if_neg
      -- the page table is at `p` only, and `q` is shorter
      rintro ⟨rfl, -⟩
      have hqp := ht.distinct q p _ hq hs.path
      have hd := hs.depth
      rw [← hqp] at hd
      omega
    · rw [child_of_ge hj, child_of_ge hj]

theorem LeafSet.table (ht : Reached live s) (hs : LeafSet live s s' p f i w) (q : List ℕ) :
    s'.table live q = s.table live q := by
  unfold Vmm.table
  rw [hs.root]
  exact follow_congr (LeafSet.child ht hs) q

theorem LeafSet.managed (ht : Reached live s) (hs : LeafSet live s s' p f i w) (h : ℕ) :
    s'.Managed live h ↔ s.Managed live h := by
  unfold Vmm.Managed
  simp only [hs.free, hs.table ht]

/-- Other pages are as before. -/
theorem LeafSet.walk_off (ht : Reached live s) (hs : LeafSet live s s' p f i w)
    (hl : LiveWalk live v) (hv : walkPath v ≠ p ++ [i]) :
    translate s'.mem s'.pml4 v = translate s.mem s.pml4 v := by
  rw [hs.pml4, ht.aligned]
  apply translate_congr hl
  intro q f' j hq hw
  rw [hs.entries f' j (walkPath_lt (hw.subset (by simp)))]
  apply if_neg
  rintro ⟨rfl, rfl⟩
  have hqp : q = p := ht.distinct q p _ hq hs.path
  exact hv (onWalk_leaf (hqp ▸ hw) hs.depth)

/-- The page itself. -/
theorem LeafSet.walk_on (ht : Reached live s) (hs : LeafSet live s s' p f i w)
    (hl : LiveWalk live v) (hv : walkPath v = p ++ [i]) (hc : Canonical v) :
    translate s'.mem s'.pml4 v =
      if w &&& vmmPresent = 0 then none else some (frameOf w * 4096 + v % 2^12) := by
  have hpml : s'.pml4 = s'.root * 4096 := by
    rw [hs.root, hs.pml4]
    exact ht.aligned
  obtain ⟨hp, hi⟩ : p = [vmmPml4Index v, vmmPdpteIndex v, vmmPdIndex v] ∧ vmmPtIndex v = i := by
    have h : [vmmPml4Index v, vmmPdpteIndex v, vmmPdIndex v] ++ [vmmPtIndex v] = p ++ [i] := hv
    obtain ⟨h1, h2⟩ := List.append_inj' h rfl
    exact ⟨h1.symm, (List.cons.inj h2).1⟩
  have hpath : s'.table live [vmmPml4Index v, vmmPdpteIndex v, vmmPdIndex v] = some f := by
    rw [hs.table ht, ← hp]
    exact hs.path
  have he : entry s'.mem f i = w := (hs.entries f i hs.idx).trans (if_pos ⟨rfl, rfl⟩)
  rw [hpml, translate_eq hc hl, treeWalk_page hpath, hi, he]

/-- The invariant is kept when the page is not in the window of a table or a free frame, or leads
where it should. -/
theorem LeafSet.tables (ht : Tables live s) (hs : LeafSet live s s' p f i w)
    (hwin : ∀ h, s.Managed live h → walkPath (h*4096) = p ++ [i] → w &&& vmmPresent ≠ 0 →
      frameOf w = h) : Tables live s' := by
  have hmanaged := hs.managed ht.reached
  refine { aligned := ?_, distinct := ?_, used := ?_, reach := ?_, window := ?_
           low := fun h hm => ht.low h ((hmanaged h).mp hm), large := ?_ }
  · rw [hs.root, hs.pml4]
    exact ht.aligned
  · intro q q' x hq hq'
    have h1 : s.table live q = some x := (hs.table ht.reached q).symm.trans hq
    have h2 : s.table live q' = some x := (hs.table ht.reached q').symm.trans hq'
    exact ht.distinct q q' x h1 h2
  · intro q h hq hf
    rw [hs.table ht.reached] at hq
    exact ht.used q h hq ((hs.free h).mp hf)
  · exact fun h hm => ht.reach h ((hmanaged h).mp hm)
  · intro h hm o ho a hta
    have hm' := (hmanaged h).mp hm
    have hl := ht.reach h hm' o ho
    -- only the page itself moves, and it is in no window or leads where it should
    by_cases hv : walkPath (h*4096 + o) = p ++ [i]
    · by_cases hc : Canonical (h*4096 + o)
      · rw [hs.walk_on ht.reached hl hv hc] at hta
        by_cases hp : w &&& vmmPresent = 0
        · rw [if_pos hp] at hta
          cases hta
        · rw [if_neg hp] at hta
          have hpage : walkPath (h*4096) = p ++ [i] := by
            rw [← hv, ← walkPath_page (h*4096 + o)]
            apply congrArg
            omega
          rw [← Option.some.inj hta, hwin h hm' hpage hp]
          omega
      · unfold translate at hta
        rw [if_pos hc] at hta
        cases hta
    · rw [hs.walk_off ht.reached hl hv] at hta
      exact ht.window h hm' o ho a hta
  · intro b h j hq hj hps
    rw [hs.table ht.reached] at hq
    -- a directory is not the page table, whose path is longer
    have hne : ¬ (h = f ∧ j = i) := by
      rintro ⟨rfl, -⟩
      have hqp := ht.distinct [0, b] p _ hq hs.path
      have hd := hs.depth
      rw [← hqp] at hd
      cases hd
    rw [hs.entries h j hj, if_neg hne] at hps ⊢
    exact ht.large b h j hq hj hps

/-- In any set of paths the page is all that can be new: an entry of a page table that some other
path takes for a directory. -/
theorem LeafSet.other (ht : Tables live s) (hs : LeafSet live s s' p f i w)
    (hlive : ∀ q : List ℕ, q.length ≤ 1 → live q) {live' : List ℕ → Prop} (q : List ℕ) :
    ∀ h, s'.table live' q = some h →
      s.table live' q = some h ∨ q.length = 3 ∧ w &&& vmmPresent ≠ 0 ∧ frameOf w = h := by
  induction q using List.reverseRecOn with
  | nil =>
    intro h hq
    refine Or.inl ?_
    rw [← hq]
    exact congrArg some hs.root.symm
  | append_singleton q j ih =>
    intro h hq
    obtain ⟨x, hx, hj⟩ := table_parent hq
    obtain ⟨⟨hj512, hlen, -, hpres, -⟩, hframe⟩ := child_eq_some.mp hj
    have hold : s.table live' q = some x := by
      rcases ih x hx with hold | ⟨h3, -⟩
      · exact hold
      · omega
    have hent := hs.entries x j hj512
    by_cases hslot : x = f ∧ j = i
    · rw [if_pos hslot] at hent
      rw [hent] at hpres hframe
      refine Or.inr ⟨?_, hpres, hframe⟩
      rw [List.length_append, List.length_singleton]
      by_contra hne
      -- the short paths are live, where the page table is at `p` only
      have hshort : s.table live q = some x := by
        rw [← hold]
        have h1 : q.length ≤ 1 := by omega
        match q, h1 with
        | [], _ => rfl
        | [a], _ =>
          obtain ⟨y, hy, ha⟩ := table_parent (p := []) hold
          rw [hold]
          obtain ⟨⟨ha512, -, -, hrest⟩, hya⟩ := child_eq_some.mp ha
          have hstep : s.table live [a] = SukiOS.child s.mem live [] s.root a :=
            table_step (p := []) rfl
          rw [hstep]
          obtain rfl : y = s.root := (Option.some.inj hy).symm
          exact child_eq_some.mpr ⟨⟨ha512, by decide, hlive [a] le_rfl, hrest⟩, hya⟩
      rw [hslot.1] at hshort
      have hqp := ht.distinct q p f hshort hs.path
      have hd := hs.depth
      rw [← hqp] at hd
      omega
    · rw [if_neg hslot] at hent
      exact Or.inl ((table_step hold).trans ((child_congr hent).symm.trans hj))

end Leaf

/-! ### `vmm_map_page` -/

/-- The entry `vmm_map_page` writes. -/
def pageEntry (phys flags : ℕ) : ℕ :=
  ((phys &&& pageMask) &&& addrMask) ||| ((flags &&& 0xFFF) &&& (2^64 - 1 - vmmXd))

/-- The path to the page table of an address. -/
def ptPath (v : ℕ) : List ℕ := [vmmPml4Index v, vmmPdpteIndex v, vmmPdIndex v]

theorem walkPath_eq (v : ℕ) : walkPath v = ptPath v ++ [vmmPtIndex v] := rfl

section MapPage
variable {live : List ℕ → Prop} {s s' : Vmm} {phys virt flags : ℕ} {r : ℤ}

theorem pageEntry_flags (flags : ℕ) : (flags &&& 0xFFF) &&& (2^64 - 1 - vmmXd) = flags % 4096 := by
  have h1 : flags &&& 0xFFF = flags % 2^12 := Nat.and_two_pow_sub_one_eq_mod flags 12
  have h2 : (2^64 - 1 - vmmXd : ℕ) = 2^63 - 1 := by decide
  rw [h1, h2, Nat.and_two_pow_sub_one_eq_mod]
  omega

theorem pageEntry_eq (phys flags : ℕ) :
    pageEntry phys flags = frameOf phys * 4096 ||| flags % 4096 := by
  have h : (phys &&& pageMask) &&& addrMask = frameOf phys * 4096 := by
    rw [Nat.and_assoc]
    exact land_addrMask phys
  rw [pageEntry, h, pageEntry_flags]

theorem frameOf_lt (e : ℕ) : frameOf e < 2^40 := Nat.mod_lt _ (by decide)

theorem pageEntry_lt (phys flags : ℕ) : pageEntry phys flags < 2^64 := by
  rw [pageEntry_eq]
  exact frame_lor_lt (frameOf_lt phys) (Nat.mod_lt _ (by decide))

theorem pageEntry_present (phys : ℕ) {flags : ℕ} (hf : flags &&& vmmPresent ≠ 0) :
    pageEntry phys flags &&& vmmPresent ≠ 0 := by
  rw [land_present] at hf ⊢
  rw [pageEntry_eq, testBit_frame_lor _ _ _ (by decide)]
  exact (Nat.testBit_mod_two_pow flags 12 0).trans hf

theorem frameOf_pageEntry (phys flags : ℕ) : frameOf (pageEntry phys flags) = frameOf phys := by
  rw [pageEntry_eq]
  exact frameOf_lor (frameOf_lt phys) (Nat.mod_lt _ (by decide))

/-- A page was mapped, or no frame was left for a table; the tables that were added do not matter.
-/
def PageMapped (live : List ℕ → Prop) (s s' : Vmm) (v w : ℕ) (r : ℤ) : Prop :=
  ∃ t, Grown live s t ∧ (r = -1 ∧ s' = t ∨
    r = 0 ∧ s'.mmioNext = t.mmioNext ∧ ∃ f, LeafSet live t s' (ptPath v) f (vmmPtIndex v) w)

theorem PageMapped.of_grown {v w : ℕ} (hg : Grown live s s') : PageMapped live s s' v w (-1) :=
  ⟨s', hg, Or.inl ⟨rfl, rfl⟩⟩

theorem PageMapped.trans {t : Vmm} {v w : ℕ} (hg : Grown live s t)
    (h : PageMapped live t s' v w r) : PageMapped live s s' v w r := by
  obtain ⟨t', hg', h⟩ := h
  exact ⟨t', hg.trans hg', h⟩

theorem setPage_spec {v : ℕ} (ht : Tables live s) (hl : LiveWalk live v)
    (h : setPage s (phys &&& pageMask) v flags = some (s', r)) :
    PageMapped live s s' v (pageEntry phys flags) r := by
  obtain ⟨⟨s1, t⟩, h1, h⟩ := Option.bind_eq_some_iff.mp h
  obtain ⟨hg, hf⟩ := getPt_spec ht hl h1
  by_cases h0 : t = 0
  · rw [if_pos h0] at h
    obtain ⟨rfl, rfl⟩ := Prod.mk.inj (Option.some.inj h)
    exact PageMapped.of_grown hg
  · rw [if_neg h0] at h
    obtain ⟨f1, rfl, ht1⟩ := hf h0
    obtain ⟨s2, h2, h⟩ := Option.bind_eq_some_iff.mp h
    obtain ⟨rfl, rfl⟩ := Prod.mk.inj (Option.some.inj h)
    have hs2 := hg.tables.reached.write_eq (Tables.managed_table ht1) (vmmPtIndex_lt v) h2
    rw [hs2]
    exact ⟨s1, hg, Or.inr ⟨rfl, rfl, f1,
      LeafSet.of_store ht1 rfl (vmmPtIndex_lt v) (pageEntry_lt phys flags)⟩⟩

/-- `vmm_map_page` adds tables, without a change to any translation, and then sets the entry of
the page. -/
theorem vmmMapPage_spec (ht : Tables live s) (hl : LiveWalk live (virt &&& pageMask))
    (h : vmmMapPage s phys virt flags = some (s', r)) :
    PageMapped live s s' (virt &&& pageMask) (pageEntry phys flags) r := by
  unfold vmmMapPage at h
  generalize virt &&& pageMask = v at hl h ⊢
  obtain ⟨⟨s1, t⟩, h1, h⟩ := Option.bind_eq_some_iff.mp h
  obtain ⟨hg, hf⟩ := getPd_spec ht hl h1
  by_cases h0 : t = 0
  · rw [if_pos h0] at h
    obtain ⟨rfl, rfl⟩ := Prod.mk.inj (Option.some.inj h)
    exact PageMapped.of_grown hg
  rw [if_neg h0] at h
  obtain ⟨f2, rfl, ht2⟩ := hf h0
  have hm2 := Tables.managed_table ht2
  have hc := vmmPdIndex_lt v
  obtain ⟨pde, hpde, h⟩ := Option.bind_eq_some_iff.mp h
  obtain rfl := hg.tables.reached.read_eq hm2 hc hpde
  by_cases hps : entry s1.mem f2 (vmmPdIndex v) &&& vmmPs ≠ 0
  · -- a 2 MB page is split first, which keeps every translation
    rw [if_pos hps] at h
    rcases pmmAllocPage_free s1 with ⟨g, hfg, haddr, hfree⟩ | ⟨-, hres⟩
    · dsimp only at h
      rw [haddr] at h
      have hshrink := Grown.shrink hg.tables (fun h hh => ((hfree h).mp hh).1)
      by_cases hg0 : g*4096 = 0
      · rw [if_pos hg0] at h
        obtain ⟨rfl, rfl⟩ := Prod.mk.inj (Option.some.inj h)
        exact PageMapped.of_grown (hg.trans hshrink)
      rw [if_neg hg0] at h
      obtain ⟨s2, hclear, h⟩ := Option.bind_eq_some_iff.mp h
      obtain ⟨s3, hfill, h⟩ := Option.bind_eq_some_iff.mp h
      obtain ⟨s4, hlink, h⟩ := Option.bind_eq_some_iff.mp h
      have htab := hg.tables
      have hfr := htab.reached.fresh hfg
      obtain ⟨hs2, hoff, hpml⟩ := htab.reached.clearPage_taken hfg hclear
      obtain ⟨m, hs3, hoff3, hent⟩ := htab.reached.fillEntries (Or.inl hfg) hfr
        (fun j hj => splitEntry_lt (entry s1.mem f2 (vmmPdIndex v)) hj)
        (F := fun t i n => splitFrom t (g*4096) (entry s1.mem f2 (vmmPdIndex v)) i n)
        (fun _ _ => rfl) (fun _ _ _ => rfl) 512 0 s2 s3 le_rfl hpml hoff hfill
      have hpml3 : s3.pml4 = s1.pml4 := by
        rw [hs3]
        exact hpml
      have hoff3' : SameOff {x | g*4096 ≤ x ∧ x < g*4096 + 4096} s1.mem s3.mem := by
        rw [hs3]
        exact hoff3
      have hs4 := htab.reached.write_off hm2 hc hfr hpml3 hoff3' hlink
      rw [hs3, hs2, Nat.or_assoc, Nat.or_assoc, ← Nat.or_assoc vmmPresent] at hs4
      dsimp only at hs4
      have hlive : live (ptPath v) := hl _ (List.cons_ne_nil _ _) ⟨_, rfl⟩
      obtain ⟨hsplit, -⟩ := htab.split ht2 hc hlive hps hfg hfree hoff3
        (fun j hj => (hent j hj).trans (if_pos ⟨Nat.zero_le j, by omega⟩)) hs4
      exact PageMapped.trans (hg.trans hsplit) (setPage_spec hsplit.tables hl h)
    · dsimp only at h
      rw [hres, if_pos rfl] at h
      obtain ⟨rfl, rfl⟩ := Prod.mk.inj (Option.some.inj h)
      exact PageMapped.of_grown hg
  · rw [if_neg hps] at h
    exact PageMapped.trans hg (setPage_spec hg.tables hl h)

theorem land_pageMask_idem (x : ℕ) : (x &&& pageMask) &&& pageMask = x &&& pageMask := by
  rw [Nat.and_assoc, Nat.and_self]

/-- A frame that is taken and cleared through its window. -/
theorem Tables.take_cleared (ht : Tables live s) {g : ℕ} (hg : Free s g)
    (hfree : ∀ h, bitmapTest (pmmAllocPage s.pmm).1.bitmap h = false ↔ Free s h ∧ h ≠ g)
    (h : clearPage { s with pmm := (pmmAllocPage s.pmm).1 } (g*4096) = some s') :
    s' = { s with pmm := (pmmAllocPage s.pmm).1, mem := fill s.mem (g*4096) 0#8 4096 } ∧
      Grown live s s' := by
  have hs' := (ht.reached.clearPage_taken hg h).1
  refine ⟨hs', ?_⟩
  rewrite [hs']
  apply Grown.take ht hg hfree (fill_sameOff s.mem (g*4096) 0#8 4096)
  intro j hj
  rw [entry_fill hj, if_pos rfl]
  rfl

/-- `vmm_alloc_map` maps the frame that `pmm_alloc_page` hands out. -/
theorem vmmAllocMap_spec (ht : Tables live s) (hl : LiveWalk live (virt &&& pageMask))
    (h : vmmAllocMap s virt flags = some (s', r)) :
    PageMapped live s s' (virt &&& pageMask) (pageEntry (pmmAllocPage s.pmm).2 flags) r := by
  unfold vmmAllocMap at h
  rcases pmmAllocPage_free s with ⟨g, hg, haddr, hfree⟩ | ⟨-, hres⟩
  · dsimp only at h
    rw [haddr] at h ⊢
    by_cases hg0 : g*4096 = 0
    · rw [if_pos hg0] at h
      obtain ⟨rfl, rfl⟩ := Prod.mk.inj (Option.some.inj h)
      exact PageMapped.of_grown (Grown.shrink ht (fun h hh => ((hfree h).mp hh).1))
    rw [if_neg hg0] at h
    obtain ⟨s1, hclear, h⟩ := Option.bind_eq_some_iff.mp h
    obtain ⟨-, hgrow⟩ := ht.take_cleared hg hfree hclear
    have hl' : LiveWalk live ((virt &&& pageMask) &&& pageMask) := by
      rw [land_pageMask_idem]
      exact hl
    have hspec := vmmMapPage_spec hgrow.tables hl' h
    rw [land_pageMask_idem] at hspec
    exact PageMapped.trans hgrow hspec
  · dsimp only at h
    rw [hres, if_pos rfl] at h
    obtain ⟨rfl, rfl⟩ := Prod.mk.inj (Option.some.inj h)
    exact PageMapped.of_grown (Grown.rfl ht)

/-! ### What a mapping keeps -/

section Keeps
variable {v w : ℕ}

/-- Mapping the page of `v` keeps the windows of the kernel: `v` is in none of them, or leads where
the window does. -/
def KeepsWindows (live : List ℕ → Prop) (s : Vmm) (v w : ℕ) : Prop :=
  ∀ h, s.Managed live h → walkPath (h*4096) = walkPath v → w &&& vmmPresent ≠ 0 → frameOf w = h

theorem KeepsWindows.mono {t : Vmm} (hk : KeepsWindows live s v w)
    (hm : ∀ h, t.Managed live h → s.Managed live h) : KeepsWindows live t v w :=
  fun h hh => hk h (hm h hh)

theorem PageMapped.managed (hp : PageMapped live s s' v w r) {h : ℕ}
    (hm : s'.Managed live h) : s.Managed live h := by
  obtain ⟨t, hg, ⟨-, rfl⟩ | ⟨-, -, f, hs⟩⟩ := hp
  · exact hg.managed hm
  · exact hg.managed ((hs.managed hg.tables.reached h).mp hm)

theorem PageMapped.tables (hp : PageMapped live s s' v w r) (hk : KeepsWindows live s v w) :
    Tables live s' := by
  obtain ⟨t, hg, ⟨-, rfl⟩ | ⟨-, -, f, hs⟩⟩ := hp
  · exact hg.tables
  · exact hs.tables hg.tables (fun h hm hw => hk h (hg.managed hm) hw)

theorem PageMapped.mmioNext (hp : PageMapped live s s' v w r) : s'.mmioNext = s.mmioNext := by
  obtain ⟨t, hg, ⟨-, rfl⟩ | ⟨-, hm, -⟩⟩ := hp
  · exact hg.mmioNext
  · exact hm.trans hg.mmioNext

end Keeps

/-! ### `vmm_map_mmio` -/

/-- The page `k` of a mapping by `vmm_map_mmio`. -/
def mmioVirt (s : Vmm) (k : ℕ) : ℕ := ((s.mmioNext + k*vmmPageSize) % 2^64) &&& pageMask

def mmioPhys (physStart k : ℕ) : ℕ := (physStart + k*vmmPageSize) % 2^64

/-- What each page of the loop preserves, the loop preserves. -/
theorem mmioFrom_rule {P : Vmm → Prop} {physStart next : ℕ} (htab : ∀ t, P t → Tables live t)
    (hnext : ∀ t m, m < 2^64 → P t → P { t with mmioNext := m })
    (n : ℕ) : ∀ i t t' b, t.mmioNext = (next + i*vmmPageSize) % 2^64 →
      (∀ k, i ≤ k → k < i + n → LiveWalk live (((next + k*vmmPageSize) % 2^64) &&& pageMask)) →
      (∀ k u u' x, i ≤ k → k < i + n → P u →
        PageMapped live u u' (((next + k*vmmPageSize) % 2^64) &&& pageMask)
          (pageEntry (mmioPhys physStart k) vmmKernRwCd) x → P u') →
      P t → mmioFrom t physStart i n = some (t', b) → P t' := by
  -- on the pages; the next free address runs along with the page number
  induction n with
  | zero =>
    intro i t t' b _ _ _ ht h
    obtain ⟨rfl, -⟩ := Prod.mk.inj (Option.some.inj h)
    exact ht
  | succ n ih =>
    intro i t t' b hm hlive hpage ht h
    obtain ⟨⟨t1, x⟩, h1, h⟩ := Option.bind_eq_some_iff.mp h
    rw [hm] at h1
    have hspec := vmmMapPage_spec (htab t ht) (hlive i le_rfl (by omega)) h1
    have ht1 := hpage i t t1 x le_rfl (by omega) ht hspec
    by_cases hx : x ≠ 0
    · rw [if_pos hx] at h
      obtain ⟨rfl, -⟩ := Prod.mk.inj (Option.some.inj h)
      exact ht1
    · rw [if_neg hx] at h
      have hm1 : (t1.mmioNext + vmmPageSize) % 2^64 = (next + (i+1)*vmmPageSize) % 2^64 := by
        rw [hspec.mmioNext, hm, Nat.mod_add_mod, Nat.add_mul, Nat.one_mul, Nat.add_assoc]
      exact ih (i+1) { t1 with mmioNext := (t1.mmioNext + vmmPageSize) % 2^64 } t' b hm1
        (fun k h1 h2 => hlive k (by omega) (by omega))
        (fun k u u' x h1 h2 => hpage k u u' x (by omega) (by omega))
        (hnext t1 _ (Nat.mod_lt _ (by decide)) ht1) h

end MapPage

end SukiOS

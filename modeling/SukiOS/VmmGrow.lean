import SukiOS.VmmTables

/-! Finding a table and splitting a large page add tables in frames that were free, and change
nothing else that matters. -/
namespace SukiOS
open ByteMemory MachineWord RadixTree

/-- New tables were added in frames that were free; the translations through the first entry of
the page map level 4 are as before. -/
structure Grown (live : List ℕ → Prop) (s s' : Vmm) : Prop where
  tables : Tables live s'
  pml4 : s'.pml4 = s.pml4
  mmioNext : s'.mmioNext = s.mmioNext
  keep : ∀ q h, s.table live q = some h → s'.table live q = some h
  free : ∀ h, Free s' h → Free s h
  other : ∀ live' q h, s'.table live' q = some h → s.table live' q = some h ∨ Free s h
  walk : ∀ v, LiveWalk live v → vmmPml4Index v = 0 →
    translate s'.mem s'.pml4 v = translate s.mem s.pml4 v

section Grown
variable {live : List ℕ → Prop} {s s' s'' : Vmm} {p : List ℕ} {f i g : ℕ}

theorem Grown.rfl (ht : Tables live s) : Grown live s s :=
  ⟨ht, Eq.refl _, Eq.refl _, fun _ _ h => h, fun _ h => h, fun _ _ _ h => Or.inl h,
    fun _ _ _ => Eq.refl _⟩

theorem Grown.trans (h : Grown live s s') (h' : Grown live s' s'') : Grown live s s'' := by
  refine ⟨h'.tables, h'.pml4.trans h.pml4, h'.mmioNext.trans h.mmioNext,
    fun q x hq => h'.keep q x (h.keep q x hq), fun x hx => h.free x (h'.free x hx), ?_,
    fun v hv h0 => (h'.walk v hv h0).trans (h.walk v hv h0)⟩
  intro live' q x hq
  rcases h'.other live' q x hq with hq | hx
  · exact h.other live' q x hq
  · exact Or.inr (h.free x hx)

theorem Grown.managed (h : Grown live s s') (hm : s'.Managed live f) : s.Managed live f := by
  rcases hm with hm | ⟨q, hq⟩
  · exact Or.inl (h.free f hm)
  · rcases h.other live q f hq with hq | hf
    · exact Or.inr ⟨q, hq⟩
    · exact Or.inl hf

/-- Taking frames from the allocator. -/
theorem Grown.shrink (ht : Tables live s) {pmm : Pmm}
    (hfree : ∀ h, bitmapTest pmm.bitmap h = false → Free s h) :
    Grown live s { s with pmm := pmm } := by
  have hm (h : ℕ) (hm : Vmm.Managed { s with pmm := pmm } live h) : s.Managed live h :=
    hm.imp (hfree h) (fun h => h)
  refine ⟨⟨ht.aligned, ht.distinct, fun q h hq hf => ht.used q h hq (hfree h hf),
    fun h hh => ht.reach h (hm h hh), fun h hh => ht.window h (hm h hh),
    fun h hh => ht.low h (hm h hh), ht.large⟩,
    Eq.refl _, Eq.refl _, fun _ _ h => h, hfree, fun _ _ _ h => Or.inl h, fun _ _ _ => Eq.refl _⟩

/-- In any set of paths the new table is all that is new. -/
theorem Attach.other (ht : Tables live s) (ha : Attach live s s' p f i g) {live' : List ℕ → Prop}
    (q : List ℕ) : ∀ h, s'.table live' q = some h → s.table live' q = some h ∨ h = g := by
  have hroot : s'.root = s.root := ha.root
  have hgroot : g ≠ s.root := by
    rintro rfl
    exact ht.used [] s.root rfl ha.fresh
  induction q using List.reverseRecOn with
  | nil =>
    intro h hq
    refine Or.inl ?_
    rw [← hq]
    exact congrArg some hroot.symm
  | append_singleton q j ih =>
    intro h hq
    obtain ⟨x, hx, hj⟩ := table_parent hq
    -- the new table has no children, so the parent is an old one
    have hxg : x ≠ g := by
      rintro rfl
      have hne : q ≠ [] := by
        rintro rfl
        exact hgroot ((Option.some.inj hx).symm.trans hroot)
      rw [ha.child_fresh hne] at hj
      cases hj
    have hold := (ih x hx).resolve_right hxg
    by_cases hslot : x = f ∧ j = i
    · obtain ⟨rfl, rfl⟩ := hslot
      exact Or.inr ((child_eq_some.mp hj).2.symm.trans ha.frame)
    · refine Or.inl ?_
      have hj512 := (child_eq_some.mp hj).1.1
      rw [child_congr (ha.same x j hj512 hxg hslot)] at hj
      exact (table_step hold).trans hj

/-- A table behind an entry that led to no table. -/
theorem Attach.grown (ht : Tables live s) (ha : Attach live s s' p f i g)
    (hnone : child s.mem live p f i = none)
    (hwalk : ∀ v, LiveWalk live v → vmmPml4Index v = 0 → OnWalk v p i →
      translate s'.mem s'.pml4 v = translate s.mem s.pml4 v) : Grown live s s' := by
  refine ⟨ha.tables ht ?_, ha.pml4, ha.mmioNext, ha.keeps ht.reached hnone,
    fun h hf => ((ha.free h).mp hf).1, ?_, ?_⟩
  · intro v hl h0 hv a hta
    exact Or.inl ((hwalk v hl h0 hv).symm.trans hta)
  · intro live' q h hq
    rcases ha.other ht q h hq with hq | rfl
    · exact Or.inl hq
    · exact Or.inr ha.fresh
  · intro v hl h0
    by_cases hv : OnWalk v p i
    · exact hwalk v hl h0 hv
    · exact ha.walk_off ht.reached hl hv

/-- Taking a frame for data, and clearing it. -/
theorem Grown.take (ht : Tables live s) (hg : Free s g) {pmm : Pmm}
    (hfree : ∀ h, bitmapTest pmm.bitmap h = false ↔ Free s h ∧ h ≠ g) {m : Mem}
    (hoff : SameOff {x | g*4096 ≤ x ∧ x < g*4096 + 4096} s.mem m)
    (hzero : ∀ j, j < 512 → entry m g j &&& vmmPresent = 0) :
    Grown live s { s with pmm := pmm, mem := m } := by
  have hfresh (q : List ℕ) : s.table live q ≠ some g := fun h => ht.used q g h hg
  have hsame (live' : List ℕ → Prop) (q : List ℕ) (x j : ℕ) (hx : x ≠ g) :
      child m live' q x j = child s.mem live' q x j := by
    by_cases hj : j < 512
    · exact child_congr (entry_of_sameOff hoff hx hj)
    · rw [child_of_ge hj, child_of_ge hj]
  -- no live path leads to the frame, so the tree does not see what was written to it
  have htable (q : List ℕ) : Vmm.table { s with pmm := pmm, mem := m } live q = s.table live q := by
    apply follow_congr
    intro q x j hq
    exact hsame live q x j (fun h => hfresh q (h ▸ hq))
  have hwalk (v : ℕ) (hl : LiveWalk live v) :
      translate m s.pml4 v = translate s.mem s.pml4 v :=
        ht.reached.translate_of_sameOff hfresh hoff hl
  have hmanaged (h : ℕ) (hm : Vmm.Managed { s with pmm := pmm, mem := m } live h) :
      s.Managed live h := by
    rcases hm with hm | ⟨q, hq⟩
    · exact Or.inl ((hfree h).mp hm).1
    · exact Or.inr ⟨q, (htable q).symm.trans hq⟩
  refine { tables := ?_, pml4 := Eq.refl _, mmioNext := Eq.refl _
           keep := fun q h hq => (htable q).trans hq, free := fun h hh => ((hfree h).mp hh).1
           other := ?_, walk := fun v hl _ => hwalk v hl }
  · refine { aligned := ht.aligned, distinct := ?_, used := ?_, reach := ?_, window := ?_
             low := fun h hm => ht.low h (hmanaged h hm), large := ?_ }
    · intro q q' x hq hq'
      exact ht.distinct q q' x ((htable q).symm.trans hq) ((htable q').symm.trans hq')
    · intro q h hq hh
      exact ht.used q h ((htable q).symm.trans hq) ((hfree h).mp hh).1
    · exact fun h hm => ht.reach h (hmanaged h hm)
    · intro h hm o ho a hta
      have hm' := hmanaged h hm
      rw [hwalk _ (ht.reach h hm' o ho)] at hta
      exact ht.window h hm' o ho a hta
    · intro b h j hq hj hps
      rw [htable] at hq
      have hx : h ≠ g := fun e => hfresh [0, b] (e ▸ hq)
      have he : entry m h j = entry s.mem h j := entry_of_sameOff hoff hx hj
      dsimp only at hps ⊢
      rw [he] at hps ⊢
      exact ht.large b h j hq hj hps
  · intro live' q h hq
    -- a path that is not live may lead to the frame, but not further
    refine Or.inl (follow_mono ?_ hq)
    intro q x j y _ hy
    by_cases hx : x = g
    · by_cases hj : j < 512
      · rw [hx, child_none (hzero j hj)] at hy
        cases hy
      · rw [child_of_ge hj] at hy
        cases hy
    · exact (hsame live' q x j hx).symm.trans hy

end Grown

/-! ### Finding a table -/

section Next
variable {live : List ℕ → Prop} {s s' : Vmm} {p : List ℕ} {f i t : ℕ} {alloc : Bool}

theorem Tables.managed_table (hp : s.table live p = some f) : s.Managed live f := Or.inr ⟨p, hp⟩

/-- A walk through an entry that is not present goes nowhere. -/
theorem translate_none {m : Mem} {r v : ℕ} (hp : table m live r p = some f) (hl : LiveWalk live v)
    (hv : OnWalk v p i) (he : entry m f i &&& vmmPresent = 0) : translate m (r*4096) v = none := by
  by_cases hc : Canonical v
  · rw [translate_eq hc hl]
    exact treeWalk_none hp hv he
  · unfold translate
    rw [if_pos hc]

/-- The walk goes on from a table that is not a page table. -/
theorem OnWalk.next {v : ℕ} (h : OnWalk v p i) (hlen : p.length < 3) :
    ∃ j, j < 512 ∧ OnWalk v (p ++ [i]) j := by
  have hpre := List.prefix_iff_eq_take.mp h
  have hl1 : (p ++ [i]).length = p.length + 1 := by
    rw [List.length_append, List.length_singleton]
  have h4 : (walkPath v).length = 4 := rfl
  have hlt : (p ++ [i]).length < (walkPath v).length := by omega
  have hj : OnWalk v (p ++ [i]) (walkPath v)[(p ++ [i]).length] := by
    unfold OnWalk
    nth_rewrite 1 [hpre]
    rw [List.take_concat_get']
    exact List.take_prefix _ _
  exact ⟨_, walkPath_lt (List.getElem_mem hlt), hj⟩

/-- A cleared frame behind an entry that was not present. -/
theorem Tables.link (ht : Tables live s) (hp : s.table live p = some f) (hi : i < 512)
    (hl : live (p ++ [i])) (hlen : p.length < 3) {g : ℕ} (hg : Free s g) {pmm : Pmm}
    (hfree : ∀ h, bitmapTest pmm.bitmap h = false ↔ Free s h ∧ h ≠ g)
    (he : entry s.mem f i &&& vmmPresent = 0)
    (hs' : s' = { s with
      pmm := pmm, mem := store64 (fill s.mem (g*4096) 0#8 4096) (f*4096 + 8*i) (g*4096 ||| 3) }) :
    Grown live s s' ∧ s'.table live (p ++ [i]) = some g ∧
      entry s'.mem f i = g*4096 ||| 3 := by
  obtain ⟨ha, hslot, hempty⟩ := ht.reached.attach_link hp hi hl hlen hg hfree hs'
  have hnew : s'.table live (p ++ [i]) = some g :=
    (ha.table_iff ht.reached (p ++ [i]) g).mpr (Or.inl ⟨rfl, rfl⟩)
  refine ⟨ha.grown ht (child_none he) ?_, hnew, hslot⟩
  · -- the walk stopped at the entry before, and stops in the new table now
    intro v hlv _ hv
    obtain ⟨j, hj, hvj⟩ := hv.next hlen
    have hold : translate s.mem s.pml4 v = none := by
      rw [ht.aligned]
      exact translate_none hp hlv hv he
    have hpml : s'.pml4 = s'.root * 4096 := by
      rw [ha.root, ha.pml4]
      exact ht.aligned
    rw [hold, hpml]
    exact translate_none hnew hlv hvj (by rw [hempty j hj]; rfl)

/-- The table behind an entry, old or new. -/
def Found (live : List ℕ → Prop) (s : Vmm) (p : List ℕ) (t : ℕ) : Prop :=
  t ≠ 0 → ∃ g, t = g*4096 ∧ s.table live p = some g

theorem nextTable_spec (ht : Tables live s) (hp : s.table live p = some f) (hi : i < 512)
    (hl : live (p ++ [i])) (hlen : p.length < 3) (hs : p = [] ∨ entry s.mem f i &&& vmmPs = 0)
    (h : nextTable s (f*4096) i alloc = some (s', t)) :
    Grown live s s' ∧ Found live s' (p ++ [i]) t := by
  have hmf := Tables.managed_table hp
  obtain ⟨e, he, h⟩ := Option.bind_eq_some_iff.mp h
  obtain rfl := ht.reached.read_eq hmf hi he
  by_cases hpres : entry s.mem f i &&& vmmPresent = 0
  · rw [if_pos hpres] at h
    cases alloc with
    | false =>
      rw [if_pos rfl] at h
      obtain ⟨rfl, rfl⟩ := Prod.mk.inj (Option.some.inj h)
      exact ⟨Grown.rfl ht, fun h0 => absurd rfl h0⟩
    | true =>
      rw [if_neg (by decide)] at h
      dsimp only at h
      rcases pmmAllocPage_free s with ⟨g, hg, haddr, hfree⟩ | ⟨-, hres⟩
      · rw [haddr] at h
        have hfr := ht.reached.fresh hg
        by_cases hg0 : g*4096 = 0
        · rw [if_pos hg0] at h
          obtain ⟨rfl, rfl⟩ := Prod.mk.inj (Option.some.inj h)
          exact ⟨Grown.shrink ht (fun h hh => ((hfree h).mp hh).1), fun h0 => absurd rfl h0⟩
        rw [if_neg hg0] at h
        obtain ⟨s1, h1, h⟩ := Option.bind_eq_some_iff.mp h
        obtain ⟨s2, h2, h⟩ := Option.bind_eq_some_iff.mp h
        obtain ⟨e', h3, h⟩ := Option.bind_eq_some_iff.mp h
        obtain ⟨rfl, rfl⟩ := Prod.mk.inj (Option.some.inj h)
        -- the frame is cleared and linked where the entry says, since both have their windows
        obtain ⟨hs1, hoff, hpml⟩ := ht.reached.clearPage_taken hg h1
        have hs2 := ht.reached.write_off hmf hi hfr hpml hoff h2
        rw [hs1, Nat.or_assoc] at hs2
        dsimp only at hs2
        obtain ⟨hgrow, hnew, hslot⟩ := ht.link hp hi hl hlen hg hfree hpres hs2
        obtain rfl := hgrow.tables.reached.read_eq (Or.inr ⟨p, hgrow.keep p f hp⟩) hi h3
        refine ⟨hgrow, fun _ => ⟨g, ?_, hnew⟩⟩
        rw [hslot, land_addrMask, frameOf_lor ((lt_max_of_free hg).trans (by decide)) (by decide)]
      · rw [hres] at h
        rw [if_pos rfl] at h
        obtain ⟨rfl, rfl⟩ := Prod.mk.inj (Option.some.inj h)
        exact ⟨Grown.rfl ht, fun h0 => absurd rfl h0⟩
  · rw [if_neg hpres] at h
    obtain ⟨rfl, rfl⟩ := Prod.mk.inj (Option.some.inj h)
    refine ⟨Grown.rfl ht, fun _ => ⟨_, land_addrMask _, ?_⟩⟩
    exact (table_step hp).trans (child_eq_some.mpr ⟨⟨hi, hlen, hl, hpres, hs⟩, rfl⟩)

theorem nextTableNotLarge_spec (ht : Tables live s) (hp : s.table live p = some f) (hi : i < 512)
    (hl : live (p ++ [i])) (hlen : p.length < 3)
    (h : nextTableNotLarge s (f*4096) i alloc = some (s', t)) :
    Grown live s s' ∧ Found live s' (p ++ [i]) t := by
  obtain ⟨e, he, h⟩ := Option.bind_eq_some_iff.mp h
  obtain rfl := ht.reached.read_eq (Tables.managed_table hp) hi he
  by_cases hs : entry s.mem f i &&& vmmPs ≠ 0
  · rw [if_pos hs] at h
    obtain ⟨rfl, rfl⟩ := Prod.mk.inj (Option.some.inj h)
    exact ⟨Grown.rfl ht, fun h0 => absurd rfl h0⟩
  · rw [if_neg hs] at h
    exact nextTable_spec ht hp hi hl hlen (Or.inr (not_not.mp hs)) h

section Get
variable {v : ℕ}

theorem getPdpte_spec (ht : Tables live s) (hl : LiveWalk live v)
    (h : getPdpte s v alloc = some (s', t)) :
    Grown live s s' ∧ Found live s' [vmmPml4Index v] t := by
  have hlive : live ([] ++ [vmmPml4Index v]) := hl _ (List.cons_ne_nil _ _) ⟨_, rfl⟩
  unfold getPdpte at h
  rw [ht.aligned] at h
  exact nextTable_spec ht (p := []) rfl (vmmPml4Index_lt v) hlive (by decide) (Or.inl rfl) h

theorem getPd_spec (ht : Tables live s) (hl : LiveWalk live v)
    (h : getPd s v alloc = some (s', t)) :
    Grown live s s' ∧ Found live s' [vmmPml4Index v, vmmPdpteIndex v] t := by
  obtain ⟨⟨s1, t1⟩, h1, h⟩ := Option.bind_eq_some_iff.mp h
  obtain ⟨hg1, hf1⟩ := getPdpte_spec ht hl h1
  by_cases h0 : t1 = 0
  · rw [if_pos h0] at h
    obtain ⟨rfl, rfl⟩ := Prod.mk.inj (Option.some.inj h)
    exact ⟨hg1, fun h0 => absurd rfl h0⟩
  · rw [if_neg h0] at h
    obtain ⟨f3, rfl, ht3⟩ := hf1 h0
    have hlive : live ([vmmPml4Index v] ++ [vmmPdpteIndex v]) :=
      hl _ (List.cons_ne_nil _ _) ⟨_, rfl⟩
    have hspec := nextTableNotLarge_spec hg1.tables ht3 (vmmPdpteIndex_lt v) hlive (by simp) h
    exact ⟨hg1.trans hspec.1, hspec.2⟩

theorem getPt_spec (ht : Tables live s) (hl : LiveWalk live v)
    (h : getPt s v alloc = some (s', t)) :
    Grown live s s' ∧ Found live s' [vmmPml4Index v, vmmPdpteIndex v, vmmPdIndex v] t := by
  obtain ⟨⟨s1, t1⟩, h1, h⟩ := Option.bind_eq_some_iff.mp h
  obtain ⟨hg1, hf1⟩ := getPd_spec ht hl h1
  by_cases h0 : t1 = 0
  · rw [if_pos h0] at h
    obtain ⟨rfl, rfl⟩ := Prod.mk.inj (Option.some.inj h)
    exact ⟨hg1, fun h0 => absurd rfl h0⟩
  · rw [if_neg h0] at h
    obtain ⟨f2, rfl, ht2⟩ := hf1 h0
    have hlive : live ([vmmPml4Index v, vmmPdpteIndex v] ++ [vmmPdIndex v]) :=
      hl _ (List.cons_ne_nil _ _) ⟨_, rfl⟩
    have hspec := nextTableNotLarge_spec hg1.tables ht2 (vmmPdIndex_lt v) hlive (by simp) h
    exact ⟨hg1.trans hspec.1, hspec.2⟩

end Get

end Next

/-! ### Splitting a large page -/

/-- The entry `j` of the table that replaces the large page of `pde`. -/
def splitEntry (pde j : ℕ) : ℕ :=
  ((pde &&& largeMask) + j*vmmPageSize) ||| (pde &&& 0xFFF) ||| vmmPresent

section Split
variable {live : List ℕ → Prop} {s s' : Vmm} {a b c f g j pde : ℕ}

/-- The frame in the entry `j`, and its flags. -/
theorem splitEntry_eq (pde j : ℕ) : splitEntry pde j =
    (pde / 2^21 % 2^31 * 512 + j)*4096 ||| ((pde &&& 0xFFF) ||| 1) := by
  have haddr : (pde &&& largeMask) + j*4096 = (pde / 2^21 % 2^31 * 512 + j)*4096 := by
    rw [land_largeMask]
    omega
  calc splitEntry pde j = ((pde &&& largeMask) + j*4096) ||| (pde &&& 0xFFF) ||| 1 := rfl
    _ = _ := by rw [haddr, Nat.or_assoc]

theorem splitFlags_lt (pde : ℕ) : (pde &&& 0xFFF) ||| 1 < 4096 := by
  have h : pde &&& 0xFFF < 2^12 := Nat.and_lt_two_pow pde (by decide)
  exact Nat.or_lt_two_pow (n := 12) h (by decide)

theorem splitFrame_lt (pde : ℕ) (hj : j < 512) : pde / 2^21 % 2^31 * 512 + j < 2^40 := by
  have h : pde / 2^21 % 2^31 < 2^31 := Nat.mod_lt _ (by decide)
  omega

theorem splitEntry_lt (pde : ℕ) (hj : j < 512) : splitEntry pde j < 2^64 := by
  rw [splitEntry_eq]
  exact frame_lor_lt (splitFrame_lt pde hj) (splitFlags_lt pde)

theorem frameOf_splitEntry (pde : ℕ) (hj : j < 512) :
    frameOf (splitEntry pde j) = pde / 2^21 % 2^31 * 512 + j := by
  rw [splitEntry_eq]
  exact frameOf_lor (splitFrame_lt pde hj) (splitFlags_lt pde)

theorem splitEntry_present (pde j : ℕ) : splitEntry pde j &&& vmmPresent ≠ 0 := by
  rw [land_present, splitEntry_eq, testBit_frame_lor _ _ _ (by decide), Nat.testBit_or]
  exact Bool.or_true _

theorem splitEntry_ps (j : ℕ) (h : pde &&& vmmPs ≠ 0) : splitEntry pde j &&& vmmPs ≠ 0 := by
  rw [land_ps] at h ⊢
  rw [splitEntry_eq, testBit_frame_lor _ _ _ (by decide), Nat.testBit_or, Nat.testBit_and, h]
  rfl

/-- A table of 4 KB pages behind the entry of the 2 MB page they make up. -/
theorem Reached.attach_split {p : List ℕ} (hr : Reached live s) (hp : s.table live p = some f)
    (hlen : p.length = 2) (hc : c < 512) (hl : live (p ++ [c]))
    (hps : entry s.mem f c &&& vmmPs ≠ 0)
    (hg : Free s g) {pmm : Pmm} (hfree : ∀ h, bitmapTest pmm.bitmap h = false ↔ Free s h ∧ h ≠ g)
    {m : Mem} (hoff : SameOff {x | g*4096 ≤ x ∧ x < g*4096 + 4096} s.mem m)
    (hm : ∀ j, j < 512 → entry m g j = splitEntry (entry s.mem f c) j)
    (hs' : s' = { s with
      pmm := pmm
      mem := store64 m (f*4096 + 8*c) (g*4096 ||| (3 ||| (entry s.mem f c &&& vmmUser))) }) :
    Attach live s s' p f c g ∧
      entry s'.mem f c = g*4096 ||| (3 ||| (entry s.mem f c &&& vmmUser)) ∧
      ∀ j, j < 512 → entry s'.mem g j = splitEntry (entry s.mem f c) j := by
  have hg40 : g < 2^40 := (lt_max_of_free hg).trans (by decide)
  have huser : entry s.mem f c &&& vmmUser < 2^3 := Nat.and_lt_two_pow _ (by decide)
  have hfl : 3 ||| (entry s.mem f c &&& vmmUser) < 2^3 := Nat.or_lt_two_pow (by decide) huser
  have hgf : g ≠ f := fun h => hr.used p f hp (h ▸ hg)
  refine ⟨?_, ?_, fun j hj => ?_⟩
  · -- the entries of the new table keep the bit 7 of the large page, so none of them is a table
    rw [hs']
    apply hr.attach_store hp hc hl (by omega) hg hfree hoff (by omega)
    · rw [Nat.testBit_or]
      rfl
    · exact Nat.testBit_lt_two_pow (by omega)
    · intro j hj
      rw [hm j hj]
      exact Or.inr (splitEntry_ps j hps)
    · intro h0
      rw [h0] at hlen
      cases hlen
  · rw [hs']
    exact (entry_store64 hc hc (frame_lor_lt hg40 (by omega))).trans (if_pos ⟨rfl, rfl⟩)
  · rw [← hm j hj, hs']
    exact (entry_store64 hc hj (frame_lor_lt hg40 (by omega))).trans (if_neg (fun h => hgf h.1))

/-- The walks through a large page that is present lead through the table that replaces it to the
same address. -/
theorem Attach.split_walk {p : List ℕ} {v : ℕ} (hr : Reached live s) (ha : Attach live s s' p f c g)
    (hlen : p.length = 2) (hpres : entry s.mem f c &&& vmmPresent ≠ 0)
    (hps : entry s.mem f c &&& vmmPs ≠ 0)
    (hent : ∀ j, j < 512 → entry s'.mem g j = splitEntry (entry s.mem f c) j)
    (hlv : LiveWalk live v)
    (hv : OnWalk v p c) : translate s'.mem s'.pml4 v = translate s.mem s.pml4 v := by
  by_cases hcan : Canonical v
  swap
  · unfold translate
    rw [if_pos hcan, if_pos hcan]
  obtain ⟨rfl, rfl⟩ : p = [vmmPml4Index v, vmmPdpteIndex v] ∧ c = vmmPdIndex v := by
    rcases onWalk_cases hv with ⟨rfl, -⟩ | ⟨rfl, -⟩ | h | ⟨rfl, -⟩
    · cases hlen
    · cases hlen
    · exact h
    · cases hlen
  have hj := vmmPtIndex_lt v
  have hpml : s'.pml4 = s'.root * 4096 := by
    rw [ha.root, ha.pml4]
    exact hr.aligned
  have hnew : s'.table live [vmmPml4Index v, vmmPdpteIndex v, vmmPdIndex v] = some g :=
    (ha.table_iff hr _ g).mpr (Or.inl ⟨rfl, rfl⟩)
  have hold : translate s.mem s.pml4 v =
      some ((entry s.mem f (vmmPdIndex v) &&& largeMask) + v % 2^21) := by
    rw [hr.aligned, translate_eq hcan hlv]
    exact treeWalk_large ha.path hpres hps
  have hnow : translate s'.mem s'.pml4 v =
      some ((entry s.mem f (vmmPdIndex v) / 2^21 % 2^31 * 512 + vmmPtIndex v)*4096 + v % 2^12) := by
    rw [hpml, translate_eq hcan hlv, treeWalk_page hnew, hent _ hj,
      if_neg (splitEntry_present _ _), frameOf_splitEntry _ hj]
  rw [hold, hnow, land_largeMask, vmmPtIndex_eq]
  apply congrArg some
  omega

/-- The split of a 2 MB page of the first entry. -/
theorem Tables.split (ht : Tables live s) (hp : s.table live [a, b] = some f) (hc : c < 512)
    (hl : live [a, b, c]) (hps : entry s.mem f c &&& vmmPs ≠ 0) (hg : Free s g) {pmm : Pmm}
    (hfree : ∀ h, bitmapTest pmm.bitmap h = false ↔ Free s h ∧ h ≠ g) {m : Mem}
    (hoff : SameOff {x | g*4096 ≤ x ∧ x < g*4096 + 4096} s.mem m)
    (hm : ∀ j, j < 512 → entry m g j = splitEntry (entry s.mem f c) j)
    (hs' : s' = { s with
      pmm := pmm
      mem := store64 m (f*4096 + 8*c) (g*4096 ||| (3 ||| (entry s.mem f c &&& vmmUser))) }) :
    Grown live s s' ∧ s'.table live [a, b, c] = some g := by
  obtain ⟨ha, -, hent⟩ := ht.reached.attach_split hp rfl hc hl hps hg hfree hoff hm hs'
  refine ⟨ha.grown ht (child_large hps (List.cons_ne_nil _ _)) ?_,
    (ha.table_iff ht.reached [a, b, c] g).mpr (Or.inl ⟨rfl, rfl⟩)⟩
  intro v hlv h0 hv
  -- below the first entry the page is present
  obtain rfl : a = 0 := by
    obtain ⟨is, his⟩ := hv
    exact (List.cons.inj his).1.trans h0
  exact ha.split_walk ht.reached rfl (ht.large b f c hp hc hps) hps hent hlv hv

end Split

end SukiOS

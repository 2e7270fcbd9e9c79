import SukiOS.VmmAllocFail
import SukiOS.VmmBuild
import SukiOS.VmmQueries

/-! The rights of user mode on a page that was mapped for it: they depend on the tables above the
page, and `vmm.c` opens none of these. -/
namespace SukiOS
open ByteMemory MachineWord RadixTree Transition

/-- User mode reaches the page of `v`, and may write to it when `flags` say so: all four entries on
the walk allow it. -/
def UserAccess (s : Vmm) (v flags : ℕ) : Prop :=
  ∃ es, walkEntries s.mem s.pml4 v = some es ∧ es.length = 4 ∧
    ∀ e ∈ es, e &&& vmmUser ≠ 0 ∧ (flags &&& vmmWrite ≠ 0 → e &&& vmmWrite ≠ 0)

/-- The entries above the page of `v` are there and are open to user mode, and to writes when
`flags` ask for them. The entry of a 2 MB page gets the right to write when the page is split. -/
def OpenTables (s : Vmm) (v flags : ℕ) : Prop :=
  let e4 := load64 s.mem (s.pml4 + 8*vmmPml4Index v)
  let e3 := load64 s.mem ((e4 &&& addrMask) + 8*vmmPdpteIndex v)
  let e2 := load64 s.mem ((e3 &&& addrMask) + 8*vmmPdIndex v)
  (e4 &&& vmmPresent ≠ 0 ∧ e3 &&& vmmPresent ≠ 0 ∧ (e2 &&& vmmPresent ≠ 0 ∨ e2 &&& vmmPs ≠ 0)) ∧
  (e4 &&& vmmUser ≠ 0 ∧ e3 &&& vmmUser ≠ 0 ∧ e2 &&& vmmUser ≠ 0) ∧
  (flags &&& vmmWrite ≠ 0 → e4 &&& vmmWrite ≠ 0 ∧ e3 &&& vmmWrite ≠ 0 ∧
    (e2 &&& vmmWrite ≠ 0 ∨ e2 &&& vmmPs ≠ 0))

section Levels
variable {live : List ℕ → Prop} {s t s' : Vmm} {d f v w flags f3 f2 f1 : ℕ}

/-- An entry of a table other than a directory: it is the old one, or it was absent and user mode
does not pass the new one. -/
theorem EntryBuilt.upper {depth e e' : ℕ} (h : EntryBuilt depth e e') (hd : depth ≠ 2) :
    e' = e ∨ e &&& vmmPresent = 0 ∧ e' &&& vmmUser = 0 := by
  cases h with
  | same => exact Or.inl rfl
  | link g _ _ he _ =>
    refine Or.inr ⟨he, ?_⟩
    have hbit : ¬ (g*4096 ||| 3) &&& 2^2 ≠ 0 := by
      rw [land_bit, link_bit g (Or.inr rfl)]
      decide
    exact not_not.mp hbit
  | split g hd2 _ _ => exact absurd hd2 hd

/-- The rights on the three entries after the call, by the entries before it. -/
def OpenEntries (e4 e3 e2 flags : ℕ) : Prop :=
  (e4 &&& vmmUser ≠ 0 ∧ e3 &&& vmmUser ≠ 0 ∧ e2 &&& vmmUser ≠ 0) ∧
  (flags &&& vmmWrite ≠ 0 → e4 &&& vmmWrite ≠ 0 ∧ e3 &&& vmmWrite ≠ 0 ∧ e2 &&& vmmWrite ≠ 0)

theorem Built.open_iff (hr : Reached live s) (hb : Built live d s t)
    (hw : TableWalk t.mem live t.root v f3 f2 f1) :
    OpenEntries (entry t.mem t.root (vmmPml4Index v)) (entry t.mem f3 (vmmPdpteIndex v))
      (entry t.mem f2 (vmmPdIndex v)) flags ↔ OpenTables s v flags := by
  obtain ⟨hc4, hc3, hc2⟩ := hw.children
  obtain ⟨⟨hi4, hlen4, hl4, hp4, -⟩, hf3⟩ := child_eq_some.mp hc4
  obtain ⟨⟨hi3, hlen3, hl3, hp3, hs3⟩, hf2⟩ := child_eq_some.mp hc3
  obtain ⟨⟨hi2, hlen2, hl2, hp2, hs2⟩, -⟩ := child_eq_some.mp hc2
  have hs3 := hs3.resolve_left (List.cons_ne_nil _ _)
  have hs2 := hs2.resolve_left (List.cons_ne_nil _ _)
  have hroot : t.root = s.root := by
    unfold Vmm.root
    rw [hb.pml4]
  have hfirst : load64 s.mem (s.pml4 + 8*vmmPml4Index v) = entry s.mem s.root (vmmPml4Index v) := by
    rw [hr.aligned]
    rfl
  unfold OpenTables OpenEntries
  simp only [hfirst, load_entry]
  rw [hroot] at hp4 hf3 ⊢
  -- level 4: unless the entry is the old one, both sides fail
  rcases (hb.entries [] s.root _ rfl hi4).upper (by decide) with h4 | ⟨h4, hu4⟩
  swap
  · exact iff_of_false (fun h => h.1.1 hu4) (fun h => h.1.1 h4)
  rw [h4] at hp4 hf3 ⊢
  have ht3 : s.table live [vmmPml4Index v] = some f3 :=
    table_pdpte.trans (child_eq_some.mpr ⟨⟨hi4, hlen4, hl4, hp4, Or.inl rfl⟩, hf3⟩)
  rw [hf3]
  -- level 3
  rcases (hb.entries [vmmPml4Index v] f3 _ ht3 hi3).upper (by simp) with h3 | ⟨h3, hu3⟩
  swap
  · exact iff_of_false (fun h => h.1.2.1 hu3) (fun h => h.1.2.1 h3)
  rw [h3] at hp3 hf2 hs3 ⊢
  have ht2 : s.table live [vmmPml4Index v, vmmPdpteIndex v] = some f2 :=
    (table_step ht3).trans (child_eq_some.mpr ⟨⟨hi3, hlen3, hl3, hp3, Or.inr hs3⟩, hf2⟩)
  rw [hf2]
  -- level 2, where a large page may have been split
  have hbuilt := hb.entries [vmmPml4Index v, vmmPdpteIndex v] f2 _ ht2 hi2
  have huser := hbuilt.user_iff hp2
  have hwrite := hbuilt.write_iff hp2 (fun _ => hs2)
  have hdepth : [vmmPml4Index v, vmmPdpteIndex v].length = 2 := rfl
  simp only [hdepth, true_and] at huser hwrite
  constructor
  · rintro ⟨⟨h4u, h3u, h2u⟩, hwr⟩
    obtain ⟨hpres, h2u'⟩ := huser.mp h2u
    refine ⟨⟨hp4, hp3, hpres⟩, ⟨h4u, h3u, h2u'⟩, fun hf => ?_⟩
    obtain ⟨h4w, h3w, h2w⟩ := hwr hf
    exact ⟨h4w, h3w, (hwrite h2u).mp h2w⟩
  · rintro ⟨⟨-, -, hpres⟩, ⟨h4u, h3u, h2u⟩, hwr⟩
    have h2u' := huser.mpr ⟨hpres, h2u⟩
    refine ⟨⟨h4u, h3u, h2u'⟩, fun hf => ?_⟩
    obtain ⟨h4w, h3w, h2w⟩ := hwr hf
    exact ⟨h4w, h3w, (hwrite h2u').mpr h2w⟩

/-- The walk after the entry of the page was set. -/
theorem LeafSet.walk_entries (hr : Reached live s)
    (hl : LeafSet live s s' (ptPath v) f (vmmPtIndex v) w)
    (hc : Canonical v) (hw : w &&& vmmPresent ≠ 0) :
    ∃ f3 f2, TableWalk s.mem live s.root v f3 f2 f ∧ walkEntries s'.mem s'.pml4 v =
      some [entry s.mem s.root (vmmPml4Index v), entry s.mem f3 (vmmPdpteIndex v),
        entry s.mem f2 (vmmPdIndex v), w] := by
  obtain ⟨f3, f2, hwalk⟩ := TableWalk.of_pt hl.path
  have hwalk' : TableWalk s'.mem live s.root v f3 f2 f := by
    have htable (q : List ℕ) : SukiOS.table s'.mem live s.root q = s.table live q := by
      rw [← hl.root]
      exact hl.table hr q
    exact ⟨(htable _).trans hwalk.pdpte, (htable _).trans hwalk.pd, (htable _).trans hwalk.pt⟩
  -- the tables above the page table are others, so their entries are as before
  have hsame (q : List ℕ) (x j : ℕ) (hq : s.table live q = some x) (hlen : q.length ≠ 3)
    (hj : j < 512) :
      entry s'.mem x j = entry s.mem x j := by
    refine (hl.entries x j hj).trans (if_neg ?_)
    rintro ⟨rfl, -⟩
    exact hlen (hr.distinct q _ x hq hl.path ▸ rfl)
  have hlast : entry s'.mem f (vmmPtIndex v) = w :=
    (hl.entries f _ hl.idx).trans (if_pos ⟨rfl, rfl⟩)
  refine ⟨f3, f2, hwalk, ?_⟩
  rw [hl.pml4, hr.aligned, hwalk'.walkEntries hc, if_neg (hlast ▸ hw)]
  unfold fourEntries
  rw [hlast, hsame [] s.root _ rfl (by decide) (vmmPml4Index_lt v),
    hsame _ f3 _ hwalk.pdpte (by simp) (vmmPdpteIndex_lt v),
    hsame _ f2 _ hwalk.pd (by simp) (vmmPdIndex_lt v)]

theorem land_pageEntry (phys flags : ℕ) {i : ℕ} (hi : i < 12) :
    pageEntry phys flags &&& 2^i ≠ 0 ↔ flags &&& 2^i ≠ 0 := by
  rw [land_bit, land_bit, pageEntry_eq, testBit_frame_lor _ _ _ hi,
    show (4096 : ℕ) = 2^12 from rfl, Nat.testBit_mod_two_pow, decide_eq_true hi, Bool.true_and]

/-- A page with the rights of user mode is accessible when the tables above it are open. -/
theorem PageBuilt.user_iff (hs : TableSpace live s) {phys : ℕ}
    (h : PageBuilt live d s s' v (pageEntry phys flags) 0) (hc : Canonical v)
    (hp : flags &&& vmmPresent ≠ 0) (hu : flags &&& vmmUser ≠ 0) :
    UserAccess s' v flags ↔ OpenTables s v flags := by
  rcases h with ⟨h0, -⟩ | ⟨-, t, f, hb, -, hl⟩
  · exact absurd h0 (by decide)
  have hpres : pageEntry phys flags &&& vmmPresent ≠ 0 :=
    (land_pageEntry (i := 0) phys flags (by decide)).mpr hp
  have huser : pageEntry phys flags &&& vmmUser ≠ 0 :=
    (land_pageEntry (i := 2) phys flags (by decide)).mpr hu
  have hwrite : pageEntry phys flags &&& vmmWrite ≠ 0 ↔ flags &&& vmmWrite ≠ 0 :=
    land_pageEntry (i := 1) phys flags (by decide)
  -- the entry of the page is open, so the tables above it decide
  obtain ⟨f3, f2, hw, hwalk⟩ := hl.walk_entries hb.space.reached hc hpres
  rw [← hb.open_iff hs.reached hw]
  unfold UserAccess OpenEntries
  constructor
  · rintro ⟨es, hes, -, hall⟩
    obtain rfl := Option.some.inj (hwalk.symm.trans hes)
    have h4 := hall _ List.mem_cons_self
    have h3 := hall _ (List.mem_cons_of_mem _ List.mem_cons_self)
    have h2 := hall _ (List.mem_cons_of_mem _ (List.mem_cons_of_mem _ List.mem_cons_self))
    exact ⟨⟨h4.1, h3.1, h2.1⟩, fun hf => ⟨h4.2 hf, h3.2 hf, h2.2 hf⟩⟩
  · rintro ⟨⟨h4, h3, h2⟩, hwr⟩
    refine ⟨_, hwalk, rfl, fun e he => ?_⟩
    simp only [List.mem_cons, List.not_mem_nil, or_false] at he
    rcases he with rfl | rfl | rfl | rfl
    · exact ⟨h4, fun hf => (hwr hf).1⟩
    · exact ⟨h3, fun hf => (hwr hf).2.1⟩
    · exact ⟨h2, fun hf => (hwr hf).2.2⟩
    · exact ⟨huser, hwrite.mpr⟩

end Levels

/-- A list without the elements of a shorter one. -/
theorem exists_sublist_avoiding {G l : List ℕ} (hl : l.Nodup) (n : ℕ)
    (h : G.length + n ≤ l.length) :
    ∃ A : List ℕ, A.Nodup ∧ n ≤ A.length ∧ ∀ a ∈ A, a ∈ l ∧ a ∉ G := by
  refine ⟨l.filter (fun a => a ∉ G), hl.filter _, ?_, fun a ha => ?_⟩
  · have hsum := List.length_eq_length_filter_add (l := l) (fun a => decide (a ∈ G))
    have hsub : l.filter (fun a => decide (a ∈ G)) ⊆ G := by
      intro a ha
      exact of_decide_eq_true (List.mem_filter.mp ha).2
    have hnd : (l.filter (fun a => decide (a ∈ G))).Nodup := hl.filter _
    have hle := (hnd.subperm hsub).length_le
    have hneg : (l.filter (fun a => !decide (a ∈ G))) = l.filter (fun a => decide (a ∉ G)) := by
      congr 1
      funext a
      exact (decide_not).symm
    rw [hneg] at hsum
    omega
  · obtain ⟨hal, haG⟩ := List.mem_filter.mp ha
    exact ⟨hal, of_decide_eq_true haG⟩

/-! ### Runs -/

section Runs
variable {live : List ℕ → Prop} {s s' : Vmm} {b : Boot} {phys virt flags f g v : ℕ}

theorem Backed.space (hb : Backed live s) : TableSpace live s := ⟨hb.tables.reached, hb.windows⟩

/-- The page of the call is the page of the address. -/
theorem PageBuilt.of_page {d w : ℕ} {r : ℤ} (hc : Canonical v)
    (h : PageBuilt live d s s' (v &&& pageMask) w r) : PageBuilt live d s s' v w r := by
  obtain ⟨hpage, hidx⟩ := ptPath_page hc
  unfold PageBuilt at h ⊢
  rwa [hpage, hidx] at h

/-- A call that maps a page for user mode and returns 0. -/
def MapsForUser (s s' : Vmm) (virt flags : ℕ) : Prop :=
  (∃ phys, vmmMapPage s phys virt flags = some (s', 0)) ∨ vmmAllocMap s virt flags = some (s', 0)

theorem Backed.user_iff (hb : Backed live s) (hc : Canonical virt) (hl : LiveWalk live virt)
    (hp : flags &&& vmmPresent ≠ 0) (hu : flags &&& vmmUser ≠ 0) (h : MapsForUser s s' virt flags) :
    UserAccess s' virt flags ↔ OpenTables s virt flags := by
  have hs := hb.space
  have hl' := liveWalk_page hc hl
  rcases h with ⟨phys, h⟩ | h
  · obtain ⟨t, r, hr, hbuilt⟩ := hs.vmmMapPage_built hl' phys flags
    obtain ⟨rfl, rfl⟩ := Prod.mk.inj (Option.some.inj (hr.symm.trans h))
    exact (hbuilt.of_page hc).user_iff hs hc hp hu
  · obtain ⟨t, r, d, hr, -, hbuilt⟩ := hs.vmmAllocMap_built hl' flags
    obtain ⟨rfl, rfl⟩ := Prod.mk.inj (Option.some.inj (hr.symm.trans h))
    exact (hbuilt.of_page hc).user_iff hs hc hp hu

/-- `vmm_map_page` on an address whose directory was just found or added. -/
theorem Backed.vmmMapPage_found (hb : Backed live s') (h : getPd s (virt &&& pageMask) true =
      some (s', f*4096)) (h2 : s'.table live [vmmPml4Index (virt &&& pageMask),
      vmmPdpteIndex (virt &&& pageMask)] = some f) (phys flags : ℕ) :
    vmmMapPage s phys virt flags = vmmMapPage s' phys virt flags := by
  have hpd := hb.getPd_eq true h2
  unfold vmmMapPage
  dsimp only
  rw [h, hpd]

/-- An address behind a table of directories is mapped as long as there are frames. -/
theorem Backed.vmmMapPage_some (hb : Backed live s) (hl : LiveWalk live (virt &&& pageMask))
    (h3 : s.table live [vmmPml4Index (virt &&& pageMask)] = some f)
    (hps : entry s.mem f (vmmPdpteIndex (virt &&& pageMask)) &&& vmmPs = 0) {A : List ℕ}
    (hnd : A.Nodup) (hlen : 6 < A.length) (hA : ∀ a ∈ A, Free s a) (phys flags : ℕ) :
    ∃ s', vmmMapPage s phys virt flags = some (s', 0) := by
  have hleft {t : Vmm} (ht : TakesAtMost 6 s t) : ∃ a, Free t a := by
    obtain ⟨G, hG, hfree⟩ := ht
    obtain ⟨a, ha, haG⟩ := exists_not_mem_of_short hnd (by omega : G.length < A.length)
    exact ⟨a, (hfree a).mpr ⟨hA a ha, haG⟩⟩
  have hlive : live ([vmmPml4Index (virt &&& pageMask)] ++ [vmmPdpteIndex (virt &&& pageMask)]) :=
    hl _ (List.cons_ne_nil _ _) ⟨_, rfl⟩
  obtain ⟨s1, t, h1, hfull⟩ :=
    hb.nextTableNotLarge_total true h3 (vmmPdpteIndex_lt _) hlive (by simp)
  have hpd : getPd s (virt &&& pageMask) true = some (s1, t) := by
    have hnext := hb.nextTable_eq (p := []) (f := s.root) true rfl h3
    rw [← hb.tables.aligned] at hnext
    unfold getPd getPdpte
    rw [hnext]
    dsimp only [Option.bind_eq_bind, Option.bind_some]
    rw [if_neg (hb.address_ne_zero (Or.inr ⟨_, h3⟩))]
    exact h1
  obtain ⟨hg, hfound⟩ := getPd_spec hb.tables hl hpd
  have h0 : t ≠ 0 := by
    intro h0
    obtain ⟨a, ha⟩ := hleft ((getPd_takes hpd).mono (by decide))
    exact hfull hps rfl h0 a ha
  obtain ⟨f2, rfl, h2⟩ := hfound h0
  have hb1 := hb.grown hg
  have hsame := hb1.vmmMapPage_found hpd h2 phys flags
  obtain ⟨s', r, hmap, hfail⟩ := hb1.vmmMapPage_total hl phys flags
  rw [← hsame] at hmap
  obtain ⟨a, ha⟩ := hleft (vmmMapPage_takes hmap)
  have hr : r ≠ -1 := fun h => hfail f2 h2 h a ha
  obtain ⟨t', r', hr', hbuilt⟩ := hb.space.vmmMapPage_built hl phys flags
  obtain ⟨rfl, rfl⟩ := Prod.mk.inj (Option.some.inj (hr'.symm.trans hmap))
  rcases hbuilt with ⟨h, -⟩ | ⟨rfl, -⟩
  · exact absurd h hr
  · exact ⟨_, hmap⟩

/-- The same for an address without a table of directories, which is added then. -/
theorem Backed.vmmMapPage_first (hb : Backed live s) (hl : LiveWalk live (virt &&& pageMask))
    (h3 : s.table live [vmmPml4Index (virt &&& pageMask)] = none) {A : List ℕ} (hnd : A.Nodup)
    (hlen : 7 < A.length) (hA : ∀ a ∈ A, Free s a) (phys flags : ℕ) :
    ∃ s', vmmMapPage s phys virt flags = some (s', 0) := by
  have hlive : live ([] ++ [vmmPml4Index (virt &&& pageMask)]) :=
    hl _ (List.cons_ne_nil _ _) ⟨_, rfl⟩
  have hidx := vmmPml4Index_lt (virt &&& pageMask)
  obtain ⟨s1, t, h1, hbuilt, hfound⟩ :=
    built_rule.nextTable (v := virt &&& pageMask) hb.space (p := []) (f := s.root) rfl hidx
    hlive ⟨_, rfl⟩ (by decide) (Or.inl rfl)
  obtain ⟨t1, u, h1', hfull⟩ := hb.nextTable_total (p := []) (f := s.root) true rfl hidx hlive
    (by decide) (Or.inl rfl)
  obtain ⟨rfl, rfl⟩ := Prod.mk.inj (Option.some.inj (h1.symm.trans h1'))
  obtain ⟨hg, -⟩ := nextTable_spec hb.tables (p := []) (f := s.root) rfl hidx hlive (by decide)
    (Or.inl rfl) h1
  -- one frame was taken, so seven of the eight are left
  obtain ⟨G, hG, hfree⟩ := nextTable_takes h1
  obtain ⟨B, hBnd, hBlen, hB⟩ := exists_sublist_avoiding (G := G) hnd 7 (by omega)
  have hBfree (a : ℕ) (ha : a ∈ B) : Free s1 a := (hfree a).mpr ⟨hA a (hB a ha).1, (hB a ha).2⟩
  have h0 : t ≠ 0 := by
    intro h0
    obtain ⟨a, ha⟩ := List.exists_mem_of_length_pos (by omega : 0 < B.length)
    exact hfull rfl h0 a (hBfree a ha)
  obtain ⟨f3, rfl, ht3⟩ := hfound h0
  have hb1 := hb.grown hg
  have hsmall : entry s1.mem f3 (vmmPdpteIndex (virt &&& pageMask)) &&& vmmPs = 0 :=
    (hbuilt.blank _ f3 _ h3 ht3 (by simp) (vmmPdpteIndex_lt _)).small (Nat.zero_and _)
  obtain ⟨s', hmap⟩ := hb1.vmmMapPage_some hl ht3 hsmall hBnd (by omega) hBfree phys flags
  refine ⟨s', Eq.trans ?_ hmap⟩
  -- from the new table on the two calls do the same
  have hfirst : getPdpte s (virt &&& pageMask) true = some (s1, f3*4096) := by
    unfold getPdpte
    rw [hb.tables.aligned]
    exact h1
  have hsecond : getPdpte s1 (virt &&& pageMask) true = some (s1, f3*4096) := by
    unfold getPdpte
    rw [hb1.tables.aligned]
    exact hb1.nextTable_eq (p := []) true rfl ht3
  have hpd : getPd s (virt &&& pageMask) true = getPd s1 (virt &&& pageMask) true := by
    unfold getPd
    rw [hfirst, hsecond]
  unfold vmmMapPage
  dsimp only
  rw [hpd]

end Runs

/-! ### A page behind the identity map -/

end SukiOS

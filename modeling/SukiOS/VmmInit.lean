import SukiOS.VmmBoot

/-! `vmm_init`: the first four gigabytes mapped to themselves in large pages. -/
namespace SukiOS
open ByteMemory MachineWord RadixTree

/-! ### The entries of the identity map -/

/-- The entry `i` of the directory of gigabyte `gb`. -/
def identityEntry (gb i : ℕ) : ℕ :=
  (gb*0x40000000 + i*0x200000) ||| vmmPresent ||| vmmWrite ||| vmmUser ||| vmmPs

section Entry
variable {gb i : ℕ}

theorem identityEntry_eq (gb i : ℕ) :
    identityEntry gb i = ((gb*512 + i)*512)*4096 ||| 0x87 := by
  have haddr : gb*0x40000000 + i*0x200000 = ((gb*512 + i)*512)*4096 := by omega
  calc identityEntry gb i
      = (gb*0x40000000 + i*0x200000) ||| (vmmPresent ||| vmmWrite ||| vmmUser ||| vmmPs) := by
        unfold identityEntry
        rw [Nat.or_assoc, Nat.or_assoc, Nat.or_assoc]
        rfl
    _ = ((gb*512 + i)*512)*4096 ||| 0x87 := by rw [haddr]; rfl

theorem identityEntry_lt (hgb : gb < 4) (hi : i < 512) : identityEntry gb i < 2^64 := by
  rw [identityEntry_eq]
  exact frame_lor_lt (by omega) (by decide)

theorem identityEntry_present (gb i : ℕ) : identityEntry gb i &&& vmmPresent ≠ 0 := by
  rw [land_present, identityEntry_eq, testBit_frame_lor _ _ _ (by decide)]
  decide

theorem identityEntry_ps (gb i : ℕ) : identityEntry gb i &&& vmmPs ≠ 0 := by
  rw [land_ps, identityEntry_eq, testBit_frame_lor _ _ _ (by decide)]
  decide

theorem identityEntry_address (hgb : gb < 4) (hi : i < 512) :
    identityEntry gb i &&& largeMask = (gb*512 + i)*2^21 := by
  have hsum : ((gb*512 + i)*512)*2^12 ||| 0x87 = ((gb*512 + i)*512)*2^12 + 0x87 :=
    lor_eq_add _ _ 12 (by decide)
  rw [land_largeMask, identityEntry_eq, show (4096 : ℕ) = 2^12 from rfl, hsum]
  omega

end Entry

/-! ### One directory -/

/-- From `s` to `s'` the frames `G` became directories of gigabytes `lo` to `hi`, which are mapped
to themselves now. -/
structure Mapped (live : List ℕ → Prop) (s s' : Vmm) (G : List ℕ) (lo hi : ℕ) : Prop where
  tables : Tables live s'
  dir : s'.table live [0] = some 0x71
  pml4 : s'.pml4 = s.pml4
  mmioNext : s'.mmioNext = s.mmioNext
  fresh : ∀ g ∈ G, Free s g
  free : ∀ h, Free s' h ↔ Free s h ∧ h ∉ G
  first : ∀ g ∈ G, ∀ h, Free s' h → g < h
  same : ∀ f j, j < 512 → f ≠ 0x71 → f ∉ G → entry s'.mem f j = entry s.mem f j
  walk : ∀ v, v < 2^39 → translate s'.mem s'.pml4 v =
    if lo ≤ v / 2^30 ∧ v / 2^30 < hi then some v else translate s.mem s.pml4 v
  keep : ∀ q x, (∀ k, lo ≤ k → k < hi → ¬ [0, k] <+: q) → s.table live q = some x →
    s'.table live q = some x
  other : ∀ q x, s'.table live q = some x → s.table live q = some x ∨ x ∈ G
  dirs : ∀ k, lo ≤ k → k < hi → ∃ g, s'.table live [0, k] = some g ∧
    ∀ j, j < 512 → entry s'.mem g j = identityEntry k j

section Mapped
variable {live : List ℕ → Prop} {s s' s1 s2 : Vmm} {G H : List ℕ} {lo mid hi gb g : ℕ} {pmm : Pmm}

theorem Mapped.rfl (ht : Tables live s) (hd : s.table live [0] = some 0x71) (lo : ℕ) :
    Mapped live s s [] lo lo where
  tables := ht
  dir := hd
  pml4 := Eq.refl _
  mmioNext := Eq.refl _
  fresh := fun g hg => absurd hg List.not_mem_nil
  free := fun h => ⟨fun hf => ⟨hf, List.not_mem_nil⟩, And.left⟩
  first := fun g hg => absurd hg List.not_mem_nil
  same := fun _ _ _ _ _ => Eq.refl _
  walk := fun v _ => (if_neg (by omega)).symm
  keep := fun _ _ _ h => h
  other := fun _ _ h => Or.inl h
  dirs := fun k h1 h2 => absurd h1 (by omega)

theorem Mapped.trans (h : Mapped live s s1 G lo mid) (h' : Mapped live s1 s2 H mid hi)
    (h1 : lo ≤ mid) (h2 : mid ≤ hi) : Mapped live s s2 (G ++ H) lo hi where
  keep := by
    intro q x hq hx
    apply h'.keep q x (fun k hk1 hk2 => hq k (by omega) hk2)
    exact h.keep q x (fun k hk1 hk2 => hq k hk1 (by omega)) hx
  other := by
    intro q x hx
    rcases h'.other q x hx with hx | hx
    · exact (h.other q x hx).imp_right (List.mem_append_left H)
    · exact Or.inr (List.mem_append_right G hx)
  dirs := by
    intro k hlo hhi
    by_cases hk : k < mid
    · -- a directory of the first part is a table of its own, which the second part leaves
      obtain ⟨g, hg, hent⟩ := h.dirs k hlo hk
      have hg' : s2.table live [0, k] = some g := by
        refine h'.keep [0, k] g (fun k' hk1 _ hpre => ?_) hg
        have heq := List.cons_prefix_cons.mp (List.cons_prefix_cons.mp hpre).2
        omega
      have hne : g ≠ 0x71 := by
        rintro rfl
        exact absurd (h.tables.distinct [0] [0, k] _ h.dir hg) (by simp)
      have hH : g ∉ H := fun hgH => h.tables.used _ g hg (h'.fresh g hgH)
      exact ⟨g, hg', fun j hj => (h'.same g j hj hne hH).trans (hent j hj)⟩
    · exact h'.dirs k (by omega) hhi
  tables := h'.tables
  dir := h'.dir
  pml4 := h'.pml4.trans h.pml4
  mmioNext := h'.mmioNext.trans h.mmioNext
  fresh := by
    intro g hg
    rcases List.mem_append.mp hg with hg | hg
    · exact h.fresh g hg
    · exact ((h.free g).mp (h'.fresh g hg)).1
  free := by
    intro x
    rw [h'.free, h.free, List.mem_append, not_or, and_assoc]
  first := by
    intro g hg x hx
    rcases List.mem_append.mp hg with hg | hg
    · exact h.first g hg x ((h'.free x).mp hx).1
    · exact h'.first g hg x hx
  same := by
    intro f j hj hf hG
    obtain ⟨hg, hh⟩ := not_or.mp (fun h => hG (List.mem_append.mpr h))
    exact (h'.same f j hj hf hh).trans (h.same f j hj hf hg)
  walk := by
    intro v hv
    rw [h'.walk v hv, h.walk v hv]
    by_cases hin : mid ≤ v / 2^30 ∧ v / 2^30 < hi
    · rw [if_pos hin, if_pos (by omega)]
    · rw [if_neg hin]
      by_cases hlow : lo ≤ v / 2^30 ∧ v / 2^30 < mid
      · rw [if_pos hlow, if_pos (by omega)]
      · rw [if_neg hlow, if_neg (by omega)]

/-- Each address of the identity map lies in a large page. -/
theorem Mapped.large_page (h : Mapped live s s' G 0 4) {v : ℕ} (hv : v < 2^32) :
    ∃ f, s'.table live [vmmPml4Index v, vmmPdpteIndex v] = some f ∧
      entry s'.mem f (vmmPdIndex v) &&& vmmPs ≠ 0 := by
  have h4 : vmmPml4Index v = 0 := by
    rw [vmmPml4Index_eq]
    omega
  have h3 : vmmPdpteIndex v < 4 := by
    rw [vmmPdpteIndex_eq]
    omega
  obtain ⟨f, hf, hent⟩ := h.dirs (vmmPdpteIndex v) (Nat.zero_le _) h3
  refine ⟨f, by rw [h4, hf], ?_⟩
  rw [hent _ (vmmPdIndex_lt v)]
  exact identityEntry_ps _ _

/-- A canonical address with the first index 0. -/
theorem canonical_low {v : ℕ} (hc : Canonical v) (h0 : vmmPml4Index v = 0) : v < 2^39 := by
  rw [vmmPml4Index_eq] at h0
  rcases hc with h | ⟨h1, h2⟩
  · omega
  · omega

theorem onWalk_second {v a i : ℕ} (h : OnWalk v [a] i) : i = vmmPdpteIndex v := by
  have hlen (l : List ℕ) (h : [a] = l) : l.length = 1 := by rw [← h]; exact Eq.refl _
  rcases onWalk_cases h with ⟨h, -⟩ | ⟨-, h⟩ | ⟨h, -⟩ | ⟨h, -⟩
  · exact absurd (hlen _ h) (by decide)
  · exact h
  · exact absurd (hlen _ h) (by simp)
  · exact absurd (hlen _ h) (by simp)

/-- The frame `g` is filled with the large pages of one gigabyte, and linked. -/
theorem Tables.identityAttach (ht : Tables live s) (hd : s.table live [0] = some 0x71)
    (hl : live [0, gb]) (hgb : gb < 4) (hg : Free s g)
    (hfree : ∀ h, bitmapTest pmm.bitmap h = false ↔ Free s h ∧ h ≠ g)
    (h1 : identityFrom { s with pmm := pmm } (g*4096) gb 0 512 = some s1)
    (h2 : s1.write (0x71*4096 + 8*gb) (g*4096 ||| 7) = some s2) :
    Attach live s s2 [0] 0x71 gb g ∧ ∀ j, j < 512 → entry s2.mem g j = identityEntry gb j := by
  have hfr := ht.reached.fresh hg
  have hm : s.Managed live 0x71 := Or.inr ⟨_, hd⟩
  have hgb512 : gb < 512 := by omega
  have hg40 : g < 2^40 := (lt_max_of_free hg).trans (by decide)
  have hfg : g ≠ 0x71 := by
    rintro rfl
    exact ht.used _ _ hd hg
  obtain ⟨m, hs1, hoff, hent⟩ := ht.reached.fillEntries (Or.inl hg) hfr
    (fun j hj => identityEntry_lt hgb hj)
    (F := fun t i n => identityFrom t (g*4096) gb i n) (fun _ _ => Eq.refl _)
    (fun _ _ _ => Eq.refl _) 512 0 { s with pmm := pmm } s1 le_rfl (Eq.refl _) SameOff.rfl h1
  have hpml1 : s1.pml4 = s.pml4 := by rw [hs1]
  have hoff1 : SameOff {x | g*4096 ≤ x ∧ x < g*4096 + 4096} s.mem s1.mem := by
    rw [hs1]
    exact hoff
  have hs2 := ht.reached.write_off hm hgb512 hfr hpml1 hoff1 h2
  rw [hs1] at hs2
  have hword (j : ℕ) (hj : j < 512) : entry m g j = identityEntry gb j :=
    (hent j hj).trans (if_pos ⟨Nat.zero_le j, by omega⟩)
  refine ⟨?_, fun j hj => ?_⟩
  · rw [hs2]
    apply ht.reached.attach_store hd hgb512 hl (by decide) hg hfree hoff (by decide) (by decide)
      (by decide)
    · intro j hj
      rw [hword j hj]
      exact Or.inr (identityEntry_ps gb j)
    · intro _ j hj _
      rw [hword j hj]
      exact identityEntry_present gb j
  · -- the link is written to another table
    rw [← hword j hj, hs2]
    exact (entry_store64 hgb512 hj (frame_lor_lt hg40 (by decide))).trans
      (if_neg (fun h => hfg h.1))

/-- In a directory of the identity map an address of its gigabyte leads to itself. -/
theorem identity_walk (hpml : s.pml4 = s.root * 4096) (hgb : gb < 4) {v : ℕ} (hv : v < 2^39)
    (hvg : v / 2^30 = gb) (hl : LiveWalk live v) (hg : s.table live [0, gb] = some g)
    (hent : ∀ j, j < 512 → entry s.mem g j = identityEntry gb j) :
    translate s.mem s.pml4 v = some v := by
  have h4 : vmmPml4Index v = 0 := by
    rw [vmmPml4Index_eq]
    omega
  have h3 : vmmPdpteIndex v = gb := by
    rw [vmmPdpteIndex_eq]
    omega
  have hc := vmmPdIndex_lt v
  have htab : s.table live [vmmPml4Index v, vmmPdpteIndex v] = some g := by
    rw [h4, h3]
    exact hg
  rw [hpml, translate_eq (Or.inl (by omega)) hl]
  have hwalk := treeWalk_large htab (by rw [hent _ hc]; exact identityEntry_present _ _)
    (by rw [hent _ hc]; exact identityEntry_ps _ _)
  refine hwalk.trans (congrArg some ?_)
  rw [hent _ hc, identityEntry_address hgb hc, vmmPdIndex_eq]
  omega

/-- One gigabyte is mapped to itself. -/
theorem Tables.identityDir (ht : Tables live s) (hd : s.table live [0] = some 0x71)
    (hlow : ∀ v, v < 2^39 → LiveWalk live v) (hl : live [0, gb]) (hgb : gb < 4) (hg : Free s g)
    (hleast : ∀ h, Free s h → g ≤ h)
    (hfree : ∀ h, bitmapTest pmm.bitmap h = false ↔ Free s h ∧ h ≠ g)
    (h1 : identityFrom { s with pmm := pmm } (g*4096) gb 0 512 = some s1)
    (h2 : s1.write (0x71*4096 + 8*gb) (g*4096 ||| 7) = some s2) :
    Mapped live s s2 [g] gb (gb+1) := by
  obtain ⟨ha, hent⟩ := ht.identityAttach hd hl hgb hg hfree h1 h2
  have hnew : s2.table live [0, gb] = some g :=
    (ha.table_iff ht.reached [0, gb] g).mpr (Or.inl ⟨Eq.refl _, Eq.refl _⟩)
  have hpml2 : s2.pml4 = s2.root * 4096 := by
    rw [ha.root, ha.pml4]
    exact ht.aligned
  have hin (v : ℕ) (hv : v < 2^39) (hvg : v / 2^30 = gb) : translate s2.mem s2.pml4 v = some v :=
    identity_walk hpml2 hgb hv hvg (hlow v hv) hnew hent
  refine { tables := ?_, dir := ?_, pml4 := ha.pml4, mmioNext := ha.mmioNext, fresh := ?_
           free := ?_, first := ?_, same := ?_, walk := ?_, keep := ?_, other := ?_, dirs := ?_ }
  · -- the walks through the new directory lead to the address itself
    apply ha.tables ht
    intro v hlv h0 hv a hta
    refine Or.inr ?_
    by_cases hc : Canonical v
    · have h39 := canonical_low hc h0
      have h := onWalk_second hv
      rw [vmmPdpteIndex_eq] at h
      rw [hin v h39 (by omega)] at hta
      exact (Option.some.inj hta).symm
    · unfold translate at hta
      rw [if_pos hc] at hta
      cases hta
  · refine (ha.table_iff ht.reached [0] 0x71).mpr (Or.inr ⟨fun h => ?_, hd⟩)
    exact absurd h.length_le (by simp)
  · intro x hx
    rw [List.mem_singleton.mp hx]
    exact hg
  · intro h
    rw [ha.free, List.mem_singleton]
  · intro x hx h hh
    obtain ⟨hf, hne⟩ := (ha.free h).mp hh
    have hle := hleast h hf
    rw [List.mem_singleton.mp hx]
    omega
  · intro f j hj hf hG
    exact ha.same f j hj (fun h => hG (List.mem_singleton.mpr h)) (fun h => hf h.1)
  · intro v hv
    by_cases hvg : v / 2^30 = gb
    · rw [if_pos (by omega)]
      exact hin v hv hvg
    · rw [if_neg (by omega)]
      apply ha.walk_off ht.reached (hlow v hv)
      intro hw
      have h := onWalk_second hw
      rw [vmmPdpteIndex_eq] at h
      omega
  · intro q x hq hx
    exact (ha.table_iff ht.reached q x).mpr (Or.inr ⟨hq gb le_rfl (by omega), hx⟩)
  · intro q x hx
    rcases (ha.table_iff ht.reached q x).mp hx with ⟨-, rfl⟩ | ⟨-, hx⟩
    · exact Or.inr (List.mem_singleton_self _)
    · exact Or.inl hx
  · intro k h1 h2
    obtain rfl : k = gb := by omega
    exact ⟨g, hnew, hent⟩

end Mapped

/-! ### The loop -/

section Loop
variable {live : List ℕ → Prop} {s s' : Vmm} {gb n : ℕ} {r : Bool}

/-- One turn of the loop: no frame is left, or the first free one becomes the directory of the
gigabyte and the loop goes on. -/
theorem identityMap_turn (hlow : ∀ v, v < 2^39 → LiveWalk live v) (hl : live [0, gb]) (hgb : gb < 4)
    (ht : Tables live s) (hd : s.table live [0] = some 0x71) (hz : ¬ Free s 0)
    (h : identityMap s gb (n+1) = some (s', r)) : s' = s ∧ r = false ∧ (∀ h, ¬ Free s h) ∨
      ∃ g s2, Attach live s s2 [0] 0x71 gb g ∧ Mapped live s s2 [g] gb (gb+1) ∧ ¬ Free s2 0 ∧
        identityMap s2 (gb+1) n = some (s', r) := by
  unfold identityMap at h
  rcases pmmAllocPage_free s with ⟨g, hg, haddr, hfree⟩ | ⟨hnone, hres⟩
  · dsimp only at h
    rw [haddr] at h
    have hleast (a : ℕ) (ha : Free s a) : g ≤ a := pmmAllocPage_least ha haddr
    have h0 : ¬ g*4096 = 0 := by
      intro h0
      obtain rfl : g = 0 := by omega
      exact hz hg
    rw [if_neg h0] at h
    obtain ⟨s1, h1, h⟩ := Option.bind_eq_some_iff.mp h
    obtain ⟨s2, h2, h⟩ := Option.bind_eq_some_iff.mp h
    rw [Nat.or_assoc, Nat.or_assoc] at h2
    obtain ⟨ha, -⟩ := ht.identityAttach hd hl hgb hg hfree h1 h2
    have hmap := ht.identityDir hd hlow hl hgb hg hleast hfree h1 h2
    exact Or.inr ⟨g, s2, ha, hmap, fun hf => hz ((hmap.free 0).mp hf).1, h⟩
  · rw [hres] at h
    obtain ⟨rfl, rfl⟩ := Prod.mk.inj (Option.some.inj h)
    exact Or.inl ⟨Eq.refl _, Eq.refl _, hnone⟩

/-- The loop of `vmm_init` maps gigabytes from `gb` on, all of them when it succeeds. -/
theorem identityMap_spec (hlow : ∀ v, v < 2^39 → LiveWalk live v) (hl : ∀ i, live [0, i]) (n : ℕ) :
    ∀ (s : Vmm) (gb : ℕ), gb + n ≤ 4 → Tables live s → s.table live [0] = some 0x71 → ¬ Free s 0 →
      identityMap s gb n = some (s', r) →
      ∃ G hi, G.length ≤ n ∧ gb ≤ hi ∧ Mapped live s s' G gb hi ∧
        (r = true ∧ hi = gb + n ∨ r = false ∧ G.length < n ∧ ∀ h, ¬ Free s' h) := by
  induction n with
  | zero =>
    intro s gb _ ht hd _ h
    obtain ⟨rfl, rfl⟩ := Prod.mk.inj (Option.some.inj h)
    exact ⟨[], gb, le_rfl, le_rfl, Mapped.rfl ht hd gb, Or.inl ⟨Eq.refl _, Eq.refl _⟩⟩
  | succ n ih =>
    intro s gb hn ht hd hz h
    rcases identityMap_turn hlow (hl gb) (by omega) ht hd hz h with
      ⟨rfl, hr, hnone⟩ | ⟨g, s2, -, hmap, hz2, h⟩
    · exact ⟨[], gb, Nat.zero_le _, le_rfl, Mapped.rfl ht hd gb,
        Or.inr ⟨hr, Nat.succ_pos n, hnone⟩⟩
    · obtain ⟨G, hi, hlen, hle, hrest, hend⟩ := ih s2 (gb+1) (by omega) hmap.tables hmap.dir hz2 h
      refine ⟨g::G, hi, Nat.succ_le_succ hlen, by omega, hmap.trans hrest (by omega) hle, ?_⟩
      rcases hend with ⟨hr, hhi⟩ | ⟨hr, hshort, hfull⟩
      · exact Or.inl ⟨hr, by omega⟩
      · exact Or.inr ⟨hr, Nat.succ_lt_succ hshort, hfull⟩

/-- The loop succeeds when it finds enough free frames in the 2 MB that are mapped already. -/
theorem identityMap_total (hlow : ∀ v, v < 2^39 → LiveWalk live v) (hl : ∀ i, live [0, i]) (n : ℕ) :
    ∀ (s : Vmm) (gb : ℕ) (A : List ℕ), gb + n ≤ 4 → Tables live s → s.table live [0] = some 0x71 →
      ¬ Free s 0 → (∀ v, v < 2^21 → translate s.mem s.pml4 v = some v) → A.Nodup → n ≤ A.length →
      (∀ a ∈ A, Free s a ∧ a < 0x200) → ∃ s', identityMap s gb n = some (s', true) := by
  induction n with
  | zero => exact fun s _ _ _ _ _ _ _ _ _ _ => ⟨s, Eq.refl _⟩
  | succ n ih =>
    intro s gb A hn ht hd hz hwin hnd hlen hA
    have hwindow (f : ℕ) (hf : f < 0x200) : Window s f := fun o ho => hwin _ (by omega)
    obtain ⟨a, ha⟩ := List.exists_mem_of_length_pos (by omega : 0 < A.length)
    obtain ⟨hfa, ha200⟩ := hA a ha
    obtain ⟨g, hg, haddr, hfree⟩ := (pmmAllocPage_free s).resolve_right (fun h => h.1 a hfa)
    -- the frame is the first free one, so it is not above the one we know
    have hleast (a : ℕ) (ha : Free s a) : g ≤ a := pmmAllocPage_least ha haddr
    have hg200 : g < 0x200 := (hleast a hfa).trans_lt ha200
    have hfr := ht.reached.fresh hg
    have hgb512 : gb < 512 := by omega
    have h0 : ¬ g*4096 = 0 := by
      intro h0
      obtain rfl : g = 0 := by omega
      exact hz hg
    obtain ⟨s1, h1⟩ := ht.reached.fillEntries_some hg (hwindow g hg200) (identityEntry gb)
      (F := fun t i n => identityFrom t (g*4096) gb i n) (fun _ _ => Eq.refl _)
      (fun _ _ _ => Eq.refl _) 512 0 { s with pmm := (pmmAllocPage s.pmm).1 } le_rfl (Eq.refl _)
      SameOff.rfl
    obtain ⟨m, hs1, hoff, -⟩ := ht.reached.fillEntries (Or.inl hg) hfr
      (fun j hj => identityEntry_lt (by omega : gb < 4) hj)
      (F := fun t i n => identityFrom t (g*4096) gb i n) (fun _ _ => Eq.refl _)
      (fun _ _ _ => Eq.refl _) 512 0 { s with pmm := (pmmAllocPage s.pmm).1 } s1 le_rfl (Eq.refl _)
      SameOff.rfl h1
    have hpml1 : s1.pml4 = s.pml4 := by rw [hs1]
    have hoff1 : SameOff {x | g*4096 ≤ x ∧ x < g*4096 + 4096} s.mem s1.mem := by
      rw [hs1]
      exact hoff
    obtain ⟨s2, h2⟩ := ht.reached.write_some (w := g*4096 ||| 7) (Or.inr ⟨_, hd⟩)
      (hwindow 0x71 (by decide)) hgb512 hfr hpml1 hoff1
    have hmap := ht.identityDir hd hlow (hl gb) (by omega) hg hleast hfree h1 h2
    have hwin2 (v : ℕ) (hv : v < 2^21) : translate s2.mem s2.pml4 v = some v := by
      rw [hmap.walk v (by omega), hwin v hv]
      exact ite_self _
    obtain ⟨s', hs'⟩ := ih s2 (gb+1) (A.erase g) (by omega) hmap.tables hmap.dir
      (fun hf => hz ((hmap.free 0).mp hf).1) hwin2 (hnd.erase g)
      (by have := List.le_length_erase (a := g) (l := A); omega)
      (fun x hx => by
        obtain ⟨hxg, hxA⟩ := (hnd.mem_erase_iff).mp hx
        obtain ⟨hfx, hx200⟩ := hA x hxA
        exact ⟨(hmap.free x).mpr ⟨hfx, fun h => hxg (List.mem_singleton.mp h)⟩, hx200⟩)
    refine ⟨s', ?_⟩
    unfold identityMap
    dsimp only
    rw [haddr, if_neg h0, h1]
    dsimp only [Option.bind_eq_bind, Option.bind_some]
    rw [Nat.or_assoc, Nat.or_assoc]
    rw [show s1.write (pdpteAAddr + 8*gb) (g*4096 ||| (vmmPresent ||| (vmmWrite ||| vmmUser))) =
      some s2 from h2]
    exact hs'

end Loop

/-! ### From the boot to the end of `vmm_init` -/

/-- The memory after `vmm_init` opened the first entry for user mode. -/
def Boot.userMem (b : Boot) : Mem := store64 (bootTables b.mem) pml4Addr 0x71007

section Init
variable {b : Boot} {live : List ℕ → Prop} {s : Vmm} {r : Bool}

theorem Boot.start_mem (b : Boot) : b.start.mem = bootTables b.mem := by
  simp only [Boot.start]

theorem Boot.start_pml4 (b : Boot) : b.start.pml4 = pml4Addr := by
  simp only [Boot.start]

theorem Boot.first_entry (b : Boot) : entry (bootTables b.mem) 0x70 0 = 0x71003 := by
  rw [entry_eq_slot, slot_bootTables]
  simp

theorem Boot.userEntries (b : Boot) : BootEntries b b.userMem := by
  have hboot := b.bootEntries
  have hent (f j : ℕ) (hj : j < 512) : entry b.userMem f j =
      if f = 0x70 ∧ j = 0 then 0x71007 else entry (bootTables b.mem) f j :=
    entry_store64 (f := 0x70) (i := 0) (by decide) hj (by decide)
  -- only the flags of the first entry change
  have hother (f j : ℕ) (hj : j < 512) (h : ¬ (f = 0x70 ∧ j = 0)) :
      entry b.userMem f j = entry (bootTables b.mem) f j := (hent f j hj).trans (if_neg h)
  refine { first := ?_, middle := ?_, last := ?_, pdpteA := ?_, pdA := ?_, ptA := ?_, pdpteB := ?_
           pdB := ?_, rest := ?_ }
  · rw [hent 0x70 0 (by decide), if_pos ⟨Eq.refl _, Eq.refl _⟩]
    decide
  · intro j h1 h2
    rw [hother 0x70 j (by omega) (by omega)]
    exact hboot.middle j h1 h2
  · rw [hother 0x70 511 (by decide) (by decide)]
    exact hboot.last
  · intro j hj
    rw [hother 0x71 j hj (by omega)]
    exact hboot.pdpteA j hj
  · intro j hj
    rw [hother 0x72 j hj (by omega)]
    exact hboot.pdA j hj
  · intro j hj
    rw [hother 0x73 j hj (by omega)]
    exact hboot.ptA j hj
  · intro j hj
    rw [hother 0x74 j hj (by omega)]
    exact hboot.pdpteB j hj
  · intro j hj
    rw [hother 0x75 j hj (by omega)]
    exact hboot.pdB j hj
  · intro f j hj hf
    rw [hother f j hj (by omega)]
    exact hboot.rest f j hj hf

/-- The first steps of `vmm_init` do not fault. -/
theorem Boot.init_eq (hb : b.Lives live) :
    vmmInit b.start = identityMap (b.withMem b.userMem) 0 4 := by
  have htr : translate (bootTables b.mem) pml4Addr pml4Addr = some pml4Addr :=
    (b.bootEntries.translate hb (by decide)).trans (if_pos (by decide))
  have hfirst : load64 (bootTables b.mem) pml4Addr = 0x71003 := by
    have haddr : 0x70*4096 + 8*0 = pml4Addr := by decide
    have h := b.first_entry
    rw [entry, haddr] at h
    exact h
  have hread : b.start.read pml4Addr = some 0x71003 := by
    rw [Vmm.read, b.start_mem, b.start_pml4, htr, Option.map_some, hfirst]
  have huser : 0x71003 ||| vmmUser = 0x71007 := by decide
  have hwrite : b.start.write pml4Addr 0x71007 = some (b.withMem b.userMem) := by
    rw [Vmm.write, b.start_mem, b.start_pml4, htr, Option.map_some]
    simp only [Boot.withMem, Boot.userMem, Boot.start_pml4]
  rw [vmmInit, b.start_pml4, hread, Option.bind_eq_bind, Option.bind_some, huser, hwrite]
  exact Option.bind_some _ _

theorem Boot.zero_not_free (hb : b.Fits) (m : Mem) : ¬ Free (b.withMem m) 0 := by
  intro h
  have hu := ((bitmapTest_pmmInit b.entries b.kernelEnd 0).mp h).2.1
  have hlo := hb.1
  have hhi := hb.2
  simp only [kernelLma] at hlo hhi
  simp only [kernelEndPage, pageSize] at hu
  omega

theorem Boot.dir (hb : b.Lives live) : (b.withMem b.userMem).table live [0] = some 0x71 := by
  unfold Vmm.table
  rw [b.withMem_root]
  exact (b.userEntries.low hb).1

/-- What `vmm_init` leaves: the identity map of four gigabytes, or no free frame. -/
theorem Boot.init_mapped (hb : b.Lives live) (h : vmmInit b.start = some (s, r)) :
    ∃ G hi, G.length ≤ 4 ∧ Mapped live (b.withMem b.userMem) s G 0 hi ∧
      (r = true ∧ hi = 4 ∨ r = false ∧ G.length < 4 ∧ ∀ h, ¬ Free s h) := by
  rw [b.init_eq hb] at h
  obtain ⟨G, hi, hlen, -, hmap, hend⟩ := identityMap_spec (fun _ hv => hb.liveWalk hv)
    (fun i => hb.low [i]) 4 _ 0 le_rfl (b.userEntries.tables hb) (b.dir hb)
    (b.zero_not_free hb.fits _) h
  exact ⟨G, hi, hlen, hmap, hend⟩

/-- `vmm_init` succeeds when there are four free frames in the first 2 MB. -/
theorem Boot.init_total (hb : b.Lives live) {A : List ℕ} (hnd : A.Nodup) (hlen : 4 ≤ A.length)
    (hA : ∀ a ∈ A, a ∈ usableFrames b.entries b.kernelEnd ∧ a < 0x200) :
    ∃ s, vmmInit b.start = some (s, true) := by
  rw [b.init_eq hb]
  refine identityMap_total (fun _ hv => hb.liveWalk hv) (fun i => hb.low [i]) 4 _ 0 A le_rfl
    (b.userEntries.tables hb) (b.dir hb) (b.zero_not_free hb.fits _) (fun v hv => ?_) hnd hlen
    (fun a ha => ⟨(bitmapTest_pmmInit _ _ a).mpr (hA a ha).1, (hA a ha).2⟩)
  exact (b.userEntries.translate hb (by omega)).trans (if_pos hv)

/-- The tables after `vmm_init` are those of `boot.asm` and frames that were free. -/
theorem Boot.init_table (hb : b.Lives live) {G : List ℕ}
    (hmap : Mapped live (b.withMem b.userMem) s G 0 4) {p : List ℕ} {f : ℕ}
    (hp : s.table live p = some f) : 0x70 ≤ f ∧ f < 0x400 ∨ Free (b.withMem b.userMem) f := by
  rcases hmap.other p f hp with hp | hG
  · unfold Vmm.table at hp
    rw [b.withMem_root] at hp
    exact Or.inl (b.userEntries.bootTable hb hp).bounds
  · exact Or.inr (hmap.fresh f hG)

/-- After `vmm_init` everything the kernel reaches is at its own address. -/
theorem Boot.init_backed (hb : b.Lives live) {G : List ℕ}
    (hmap : Mapped live (b.withMem b.userMem) s G 0 4) : Backed live s := by
  have hz := b.zero_not_free hb.fits b.userMem
  refine ⟨hmap.tables, fun f hm o ho => ?_, fun hm => ?_⟩
  · have hlt : f < 2^20 := by
      rcases hm with hf | ⟨p, hp⟩
      · exact lt_max_of_free hf
      · rcases Boot.init_table hb hmap hp with ⟨-, h⟩ | hf
        · omega
        · exact lt_max_of_free hf
    rw [hmap.walk _ (by omega), if_pos (by omega)]
  · rcases hm with hf | ⟨p, hp⟩
    · exact hz ((hmap.free 0).mp hf).1
    · rcases Boot.init_table hb hmap hp with ⟨h, -⟩ | hf
      · exact absurd h (by decide)
      · exact hz hf

end Init

end SukiOS

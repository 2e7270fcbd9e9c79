import SukiOS.VmmAccess

/-! Where the walk of an address ends: in a page table, in a large page, or at an entry that is not
present. -/
namespace SukiOS
open ByteMemory MachineWord RadixTree

/-- The address lies in a page of 2 MB or 1 GB: its walk ends before the page table. -/
def LargePage (m : Mem) (cr3 v : ℕ) : Prop := ∃ es, walkEntries m cr3 v = some es ∧ es.length < 4

/-- The entries for the tables on the walk are present. -/
def HasTables (m : Mem) (cr3 v : ℕ) : Prop :=
  ∃ es, entriesFrom m false (cr3 / 4096) (ptPath v) = some es

/-- The walk of an address reads the entries of a page table, of the directories above it and of the
root `r`. -/
structure TableWalk (m : Mem) (live : List ℕ → Prop) (r v f3 f2 f1 : ℕ) : Prop where
  pdpte : table m live r [vmmPml4Index v] = some f3
  pd : table m live r [vmmPml4Index v, vmmPdpteIndex v] = some f2
  pt : table m live r (ptPath v) = some f1

/-- The four entries of such a walk. -/
def fourEntries (m : Mem) (r v f3 f2 f1 : ℕ) : List ℕ :=
  [entry m r (vmmPml4Index v), entry m f3 (vmmPdpteIndex v), entry m f2 (vmmPdIndex v),
    entry m f1 (vmmPtIndex v)]

section Walk
variable {m : Mem} {live : List ℕ → Prop} {r v f3 f2 f1 : ℕ} {es : List ℕ}

theorem table_pdpte : table m live r [vmmPml4Index v] = child m live [] r (vmmPml4Index v) :=
  table_step (p := []) rfl

/-- The table of each level is a child of the one above. -/
theorem TableWalk.of_pt (h : table m live r (ptPath v) = some f1) :
    ∃ f3 f2, TableWalk m live r v f3 f2 f1 := by
  obtain ⟨f2, h2, -⟩ := table_parent (p := [vmmPml4Index v, vmmPdpteIndex v]) h
  obtain ⟨f3, h3, -⟩ := table_parent (p := [vmmPml4Index v]) h2
  exact ⟨f3, f2, h3, h2, h⟩

theorem TableWalk.children (h : TableWalk m live r v f3 f2 f1) :
    child m live [] r (vmmPml4Index v) = some f3 ∧
    child m live [vmmPml4Index v] f3 (vmmPdpteIndex v) = some f2 ∧
    child m live [vmmPml4Index v, vmmPdpteIndex v] f2 (vmmPdIndex v) = some f1 :=
  ⟨table_pdpte.symm.trans h.pdpte, (table_step h.pdpte).symm.trans h.pd,
    (table_step h.pd).symm.trans h.pt⟩

theorem TableWalk.entriesFrom (h : TableWalk m live r v f3 f2 f1) (is : List ℕ) :
    entriesFrom m false r (ptPath v ++ is) = (entriesFrom m true f1 is).map
      ([entry m r (vmmPml4Index v), entry m f3 (vmmPdpteIndex v), entry m f2 (vmmPdIndex v)] ++
        ·) := by
  obtain ⟨h4, h3, h2⟩ := h.children
  obtain ⟨⟨-, -, -, hp4, -⟩, rfl⟩ := child_eq_some.mp h4
  obtain ⟨⟨-, -, -, hp3, hs3⟩, rfl⟩ := child_eq_some.mp h3
  obtain ⟨⟨-, -, -, hp2, hs2⟩, rfl⟩ := child_eq_some.mp h2
  have hs3 := hs3.resolve_left (List.cons_ne_nil _ _)
  have hs2 := hs2.resolve_left (List.cons_ne_nil _ _)
  have hpath : ptPath v ++ is = vmmPml4Index v :: vmmPdpteIndex v :: vmmPdIndex v :: is := rfl
  rw [hpath, entriesFrom_next hp4 (Or.inl rfl), entriesFrom_next hp3 (Or.inr hs3),
    entriesFrom_next hp2 (Or.inr hs2), Option.map_map, Option.map_map]
  rfl

/-- The walk through a page table. -/
theorem TableWalk.walkEntries (h : TableWalk m live r v f3 f2 f1) (hc : Canonical v) :
    walkEntries m (r*4096) v = if entry m f1 (vmmPtIndex v) &&& vmmPresent = 0 then none
      else some (fourEntries m r v f3 f2 f1) := by
  unfold SukiOS.walkEntries
  rw [if_pos hc, Nat.mul_div_cancel _ (by decide), walkPath_eq, h.entriesFrom]
  by_cases hp : entry m f1 (vmmPtIndex v) &&& vmmPresent = 0
  · rw [if_pos hp, entriesFrom_none hp]
    rfl
  · rw [if_neg hp, entriesFrom_last hp]
    rfl

theorem TableWalk.hasTables (h : TableWalk m live r v f3 f2 f1) : HasTables m (r*4096) v := by
  have he := h.entriesFrom []
  rw [List.append_nil] at he
  unfold HasTables
  rw [Nat.mul_div_cancel _ (by decide), he]
  exact ⟨_, rfl⟩

theorem TableWalk.not_large (h : TableWalk m live r v f3 f2 f1) (hc : Canonical v) :
    ¬ LargePage m (r*4096) v := by
  rintro ⟨es, hes, hlen⟩
  rw [h.walkEntries hc] at hes
  split at hes
  · cases hes
  · rw [← Option.some.inj hes] at hlen
    exact absurd hlen (by simp [fourEntries])

/-- A walk that does not get to a page table stops at an entry that is not present, or at a large
page. -/
theorem no_table_walk (hc : Canonical v) (hl : LiveWalk live v)
    (h : table m live r (ptPath v) = none) :
    walkEntries m (r*4096) v = none ∧ ¬ HasTables m (r*4096) v ∨ LargePage m (r*4096) v := by
  have hpre1 : [vmmPml4Index v] <+: walkPath v := ⟨_, rfl⟩
  have hpre2 : [vmmPml4Index v, vmmPdpteIndex v] <+: walkPath v := ⟨_, rfl⟩
  have hpre3 : [vmmPml4Index v, vmmPdpteIndex v, vmmPdIndex v] <+: walkPath v := ⟨_, rfl⟩
  have hpath : walkPath v = ptPath v ++ [vmmPtIndex v] := rfl
  unfold LargePage HasTables walkEntries
  simp only [if_pos hc, Nat.mul_div_cancel r (show 0 < 4096 by decide)]
  rw [hpath]
  unfold ptPath at h ⊢
  by_cases hp4 : entry m r (vmmPml4Index v) &&& vmmPresent = 0
  · refine Or.inl ⟨entriesFrom_none hp4, fun ⟨es, hes⟩ => ?_⟩
    rw [entriesFrom_none hp4] at hes
    cases hes
  have hc4 : table m live r [vmmPml4Index v] = some (frameOf (entry m r (vmmPml4Index v))) :=
    table_pdpte.trans (child_eq_some.mpr
      ⟨⟨vmmPml4Index_lt v, by decide, hl _ (by simp) hpre1, hp4, Or.inl rfl⟩, rfl⟩)
  simp only [List.cons_append, List.nil_append, entriesFrom_next hp4 (Or.inl rfl)]
  generalize frameOf (entry m r (vmmPml4Index v)) = f3 at hc4 ⊢
  -- level 3
  by_cases hp3 : entry m f3 (vmmPdpteIndex v) &&& vmmPresent = 0
  · simp only [entriesFrom_none hp3]
    exact Or.inl ⟨rfl, fun ⟨es, hes⟩ => nomatch hes⟩
  by_cases hs3 : entry m f3 (vmmPdpteIndex v) &&& vmmPs ≠ 0
  · rw [entriesFrom_large hp3 hs3 (List.cons_ne_nil _ _)]
    exact Or.inr ⟨_, rfl, by simp⟩
  have hc3 : table m live r [vmmPml4Index v, vmmPdpteIndex v] =
      some (frameOf (entry m f3 (vmmPdpteIndex v))) :=
    (table_step hc4).trans (child_eq_some.mpr
      ⟨⟨vmmPdpteIndex_lt v, by simp, hl _ (by simp) hpre2, hp3, Or.inr (not_not.mp hs3)⟩, rfl⟩)
  simp only [entriesFrom_next hp3 (Or.inr (not_not.mp hs3))]
  generalize frameOf (entry m f3 (vmmPdpteIndex v)) = f2 at hc3 ⊢
  -- level 2
  by_cases hp2 : entry m f2 (vmmPdIndex v) &&& vmmPresent = 0
  · simp only [entriesFrom_none hp2]
    exact Or.inl ⟨rfl, fun ⟨es, hes⟩ => nomatch hes⟩
  by_cases hs2 : entry m f2 (vmmPdIndex v) &&& vmmPs ≠ 0
  · rw [entriesFrom_large hp2 hs2 (List.cons_ne_nil _ _)]
    exact Or.inr ⟨_, rfl, by simp⟩
  have hc2 : table m live r [vmmPml4Index v, vmmPdpteIndex v, vmmPdIndex v] =
      some (frameOf (entry m f2 (vmmPdIndex v))) :=
    (table_step hc3).trans (child_eq_some.mpr
      ⟨⟨vmmPdIndex_lt v, by simp, hl _ (by simp) hpre3, hp2, Or.inr (not_not.mp hs2)⟩, rfl⟩)
  rw [hc2] at h
  cases h

theorem walkEntries_isSome_iff : (∃ es, walkEntries m (r*4096) v = some es) ↔
    ∃ a, translate m (r*4096) v = some a := by
  rw [← access_phys]
  unfold access
  rw [Option.map_map]
  constructor
  · rintro ⟨es, hes⟩
    rw [hes]
    exact ⟨_, rfl⟩
  · rintro ⟨a, ha⟩
    obtain ⟨es, hes, -⟩ := Option.map_eq_some_iff.mp ha
    exact ⟨es, hes⟩

/-- The translation through a page table. -/
theorem TableWalk.translate (h : TableWalk m live r v f3 f2 f1) (hc : Canonical v) :
    translate m (r*4096) v = if entry m f1 (vmmPtIndex v) &&& vmmPresent = 0 then none
      else some (frameOf (entry m f1 (vmmPtIndex v)) * 4096 + v % 2^12) := by
  rw [← access_phys]
  unfold access
  rw [h.walkEntries hc]
  by_cases hp : entry m f1 (vmmPtIndex v) &&& vmmPresent = 0
  · rw [if_pos hp, if_pos hp]
    rfl
  · rw [if_neg hp, if_neg hp]
    have hlen : (fourEntries m r v f3 f2 f1).length = 4 := rfl
    have hlast : (fourEntries m r v f3 f2 f1).getLastD 0 = entry m f1 (vmmPtIndex v) := rfl
    refine congrArg some ?_
    unfold accessOf pageAddress
    dsimp only
    rw [hlen, if_neg (by decide), if_neg (by decide), hlast, land_addrMask]

end Walk

end SukiOS

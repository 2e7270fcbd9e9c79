import SukiOS.VmmProgress

/-! What an address gives access to: the entries that the page walk reads, the physical address they
lead to, and the permissions they grant together. -/
namespace SukiOS
open ByteMemory MachineWord RadixTree

/-- The entries on the path `is` from the table `f` on, or `none` when one of them is not present.
The bit PS of an entry of the page map level 4 does not count. -/
def entriesFrom (m : Mem) (sized : Bool) (f : ℕ) : List ℕ → Option (List ℕ)
  | [] => some []
  | i::is =>
    let e := entry m f i
    if e &&& vmmPresent = 0 then none
    else if sized = true ∧ is ≠ [] ∧ e &&& vmmPs ≠ 0 then some [e]
    else (entriesFrom m true (frameOf e) is).map (e :: ·)

/-- The entries the walk of `v` reads, or `none` when the access faults. -/
def walkEntries (m : Mem) (cr3 v : ℕ) : Option (List ℕ) :=
  if Canonical v then entriesFrom m false (cr3 / 4096) (walkPath v) else none

/-- The physical address that the entries `es` give `v`: the number of them tells the size of the
page. -/
def pageAddress (v : ℕ) (es : List ℕ) : ℕ :=
  let e := es.getLastD 0
  if es.length = 2 then (e &&& hugeMask) + v % 2^30
  else if es.length = 3 then (e &&& largeMask) + v % 2^21
  else (e &&& addrMask) + v % 2^12

/-- A page is writable, or open to user mode, when every entry of the walk says so. -/
structure Access where
  phys : ℕ
  write : Bool
  user : Bool
deriving DecidableEq

def accessOf (v : ℕ) (es : List ℕ) : Access where
  phys := pageAddress v es
  write := es.all (fun e => decide (e &&& vmmWrite ≠ 0))
  user := es.all (fun e => decide (e &&& vmmUser ≠ 0))

/-- What `v` gives access to; `none` when it is not present. -/
def access (m : Mem) (cr3 v : ℕ) : Option Access := (walkEntries m cr3 v).map (accessOf v)

section Entries
variable {m : Mem} {f i r v : ℕ} {sized : Bool} {is : List ℕ}

theorem entriesFrom_none (h : entry m f i &&& vmmPresent = 0) :
    entriesFrom m sized f (i::is) = none := if_pos h

theorem entriesFrom_large (hp : entry m f i &&& vmmPresent ≠ 0) (hs : entry m f i &&& vmmPs ≠ 0)
    (his : is ≠ []) : entriesFrom m true f (i::is) = some [entry m f i] :=
  (if_neg hp).trans (if_pos ⟨rfl, his, hs⟩)

theorem entriesFrom_next (hp : entry m f i &&& vmmPresent ≠ 0)
    (hs : sized = false ∨ entry m f i &&& vmmPs = 0) : entriesFrom m sized f (i::is) =
      (entriesFrom m true (frameOf (entry m f i)) is).map (entry m f i :: ·) := by
  apply (if_neg hp).trans
  apply if_neg
  rintro ⟨h1, -, h2⟩
  rcases hs with hs | hs
  · rw [hs] at h1
    cases h1
  · exact h2 hs

theorem entriesFrom_last (hp : entry m f i &&& vmmPresent ≠ 0) :
    entriesFrom m sized f [i] = some [entry m f i] := by
  apply (if_neg hp).trans
  exact if_neg (fun h => h.2.1 rfl)

/-- The physical address of an access is the one of the walk. -/
theorem access_phys (m : Mem) (r v : ℕ) :
    (access m (r*4096) v).map Access.phys = translate m (r*4096) v := by
  unfold access walkEntries translate
  by_cases hc : Canonical v
  · rw [if_pos hc, if_neg (not_not.mpr hc), Nat.mul_div_cancel _ (by decide)]
    unfold walkPath
    have h4 : load64 m (r*4096 + 8*vmmPml4Index v) = entry m r (vmmPml4Index v) := rfl
    simp only [h4, load_entry]
    -- level by level, as `translate` goes
    by_cases hp4 : entry m r (vmmPml4Index v) &&& vmmPresent = 0
    · rw [if_pos hp4, entriesFrom_none hp4]
      rfl
    rw [if_neg hp4, entriesFrom_next hp4 (Or.inl rfl)]
    generalize frameOf (entry m r (vmmPml4Index v)) = f3
    by_cases hp3 : entry m f3 (vmmPdpteIndex v) &&& vmmPresent = 0
    · rw [if_pos hp3, entriesFrom_none hp3]
      rfl
    rw [if_neg hp3]
    by_cases hs3 : entry m f3 (vmmPdpteIndex v) &&& vmmPs ≠ 0
    · rw [if_pos hs3, entriesFrom_large hp3 hs3 (List.cons_ne_nil _ _)]
      rfl
    rw [if_neg hs3, entriesFrom_next hp3 (Or.inr (not_not.mp hs3))]
    generalize frameOf (entry m f3 (vmmPdpteIndex v)) = f2
    by_cases hp2 : entry m f2 (vmmPdIndex v) &&& vmmPresent = 0
    · rw [if_pos hp2, entriesFrom_none hp2]
      rfl
    rw [if_neg hp2]
    by_cases hs2 : entry m f2 (vmmPdIndex v) &&& vmmPs ≠ 0
    · rw [if_pos hs2, entriesFrom_large hp2 hs2 (List.cons_ne_nil _ _)]
      rfl
    rw [if_neg hs2, entriesFrom_next hp2 (Or.inr (not_not.mp hs2))]
    generalize frameOf (entry m f2 (vmmPdIndex v)) = f1
    by_cases hp1 : entry m f1 (vmmPtIndex v) &&& vmmPresent = 0
    · rw [if_pos hp1, entriesFrom_none hp1]
      rfl
    · rw [if_neg hp1, entriesFrom_last hp1]
      rfl
  · rw [if_neg hc, if_pos hc]
    rfl

theorem access_eq_none (hc : ¬ Canonical v) : access m r v = none := by
  unfold access walkEntries
  rw [if_neg hc]
  rfl

end Entries

/-! ### Walks and the tree of tables -/

/-- All paths count. -/
def every : List ℕ → Prop := fun _ => True

section Tree
variable {m m' : Mem} {r f i : ℕ} {p is path : List ℕ}

theorem liveWalk_every (v : ℕ) : LiveWalk every v := fun _ _ _ => trivial

theorem child_every (hi : i < 512) (hlen : p.length < 3) (hp : entry m f i &&& vmmPresent ≠ 0)
    (hs : p = [] ∨ entry m f i &&& vmmPs = 0) :
    child m every p f i = some (frameOf (entry m f i)) :=
  child_eq_some.mpr ⟨⟨hi, hlen, trivial, hp, hs⟩, rfl⟩

/-- The entries in the tables on a path decide the rest of the walk. -/
theorem entriesFrom_congr (hpath : ∀ i ∈ path, i < 512) (hlen : path.length = 4)
    (h : ∀ q g j, table m every r q = some g → q ++ [j] <+: path → entry m' g j = entry m g j)
    (is : List ℕ) : ∀ p f, p ++ is = path → table m every r p = some f →
      entriesFrom m' (decide (p ≠ [])) f is = entriesFrom m (decide (p ≠ [])) f is := by
  induction is with
  | nil => exact fun _ _ _ _ => rfl
  | cons i is ih =>
    intro p f hp hf
    have hcons : p ++ [i] ++ is = path := by
      rw [List.append_assoc]
      exact hp
    have he : entry m' f i = entry m f i := h p f i hf ⟨is, hcons⟩
    have hi : i < 512 := by
      apply hpath
      rw [← hp]
      exact List.mem_append_right p List.mem_cons_self
    by_cases hpres : entry m f i &&& vmmPresent = 0
    · rw [entriesFrom_none hpres, entriesFrom_none (he.symm ▸ hpres)]
    -- at the page itself, at a large page, or on to the next table
    rcases is with _ | ⟨i', is⟩
    · rw [entriesFrom_last hpres, entriesFrom_last (he.symm ▸ hpres), he]
    by_cases hs : p = [] ∨ entry m f i &&& vmmPs = 0
    · have hsized : decide (p ≠ []) = false ∨ entry m f i &&& vmmPs = 0 := by
        refine hs.imp_left (fun hnil => ?_)
        exact decide_eq_false (not_not.mpr hnil)
      have hp3 : p.length < 3 := by
        rw [← hp, List.length_append, List.length_cons, List.length_cons] at hlen
        omega
      have hnext : table m every r (p ++ [i]) = some (frameOf (entry m f i)) :=
        (table_step hf).trans (child_every hi hp3 hpres hs)
      have hrec := ih (p ++ [i]) _ hcons hnext
      have hne : decide (p ++ [i] ≠ []) = true :=
        decide_eq_true (List.append_ne_nil_of_right_ne_nil p (List.cons_ne_nil i []))
      rw [hne] at hrec
      rw [entriesFrom_next hpres hsized, entriesFrom_next (he.symm ▸ hpres) (he.symm ▸ hsized), he,
        hrec]
    · have hnot := not_or.mp hs
      rw [decide_eq_true hnot.1, entriesFrom_large hpres hnot.2 (List.cons_ne_nil _ _),
        entriesFrom_large (he.symm ▸ hpres) (he.symm ▸ hnot.2) (List.cons_ne_nil _ _), he]

/-- The walk up to a table, the same in two memories that agree on the entries before it. -/
theorem entriesFrom_prefix (hp : table m every r p = some f)
    (h : ∀ q g j, table m every r q = some g → q ++ [j] <+: p → entry m' g j = entry m g j) :
    ∃ es, es.length = p.length ∧ ∀ is,
      entriesFrom m false r (p ++ is) = (entriesFrom m (decide (p ≠ [])) f is).map (es ++ ·) ∧
      entriesFrom m' false r (p ++ is) = (entriesFrom m' (decide (p ≠ [])) f is).map (es ++ ·) := by
  induction p using List.reverseRecOn generalizing f with
  | nil =>
    obtain rfl : f = r := (Option.some.inj hp).symm
    refine ⟨[], rfl, fun is => ?_⟩
    have hid : (([] : List ℕ) ++ ·) = id := rfl
    rw [hid, Option.map_id]
    exact ⟨rfl, rfl⟩
  | append_singleton p i ih =>
    obtain ⟨g, hg, hi⟩ := table_parent hp
    obtain ⟨⟨-, -, -, hpres, hs⟩, rfl⟩ := child_eq_some.mp hi
    obtain ⟨es, hlen, hes⟩ :=
      ih hg (fun q x j hq hj => h q x j hq (hj.trans (List.prefix_append p [i])))
    have he : entry m' g i = entry m g i := h p g i hg List.prefix_rfl
    have hsized : decide (p ≠ []) = false ∨ entry m g i &&& vmmPs = 0 := by
      refine hs.imp_left (fun hnil => ?_)
      exact decide_eq_false (not_not.mpr hnil)
    have hne : decide (p ++ [i] ≠ []) = true :=
      decide_eq_true (List.append_ne_nil_of_right_ne_nil p (List.cons_ne_nil i []))
    refine ⟨es ++ [entry m g i], by simp [hlen], fun is => ?_⟩
    have happ : (es ++ [entry m g i] ++ ·) = (es ++ ·) ∘ (entry m g i :: ·) := by
      funext l
      simp
    obtain ⟨h1, h2⟩ := hes (i::is)
    rw [hne, happ, ← Option.map_map, ← Option.map_map, List.append_assoc]
    rw [entriesFrom_next hpres hsized] at h1
    rw [entriesFrom_next (he.symm ▸ hpres) (he.symm ▸ hsized), he] at h2
    exact ⟨h1, h2⟩

end Tree

section Walks
variable {s s' : Vmm} {v : ℕ}

/-- The entries of the tables on the walk decide what is read. -/
theorem walkEntries_congr (hpml : s'.pml4 = s.pml4)
    (h : ∀ p f i, s.table every p = some f → OnWalk v p i → entry s'.mem f i = entry s.mem f i) :
    walkEntries s'.mem s'.pml4 v = walkEntries s.mem s.pml4 v := by
  have hroot : s.pml4 / 4096 = s.root := rfl
  unfold walkEntries
  rw [hpml, hroot]
  have hw : entriesFrom s'.mem false s.root (walkPath v) =
    entriesFrom s.mem false s.root (walkPath v) :=
    entriesFrom_congr (fun i hi => walkPath_lt (v := v) hi) rfl h (walkPath v) [] s.root rfl rfl
  rw [hw]

end Walks

end SukiOS

import Mathlib.Data.Fin.Basic
import SukiOS.VmmTree

/-! The rights of user mode on a page, in page tables whose frames are left out. Every entry on the
walk has a say in them. A missing table is added without the user bit, and a 2 MB page is split into
a table of pages with its rights; so the first page mapped in a place may decide for the others. -/
namespace SukiOS

/-! ### Entries -/

/-- What an entry lets user mode do. -/
structure Rights where
  user : Bool
  write : Bool
deriving DecidableEq

namespace Rights

/-- What two entries of a walk allow together. -/
def meet (r r' : Rights) : Rights := ⟨r.user && r'.user, r.write && r'.write⟩

/-- User mode passes, and may write where `w` asks for it. -/
def Allows (r : Rights) (w : Prop) : Prop := r.user = true ∧ (w → r.write = true)

theorem meet_allows {r r' : Rights} {w : Prop} :
    (r.meet r').Allows w ↔ r.Allows w ∧ r'.Allows w := by
  unfold meet Allows
  simp only [Bool.and_eq_true]
  tauto

end Rights

/-- The rights that the flags of an entry give. -/
def rightsOf (flags : ℕ) : Rights := ⟨flags &&& vmmUser ≠ 0, flags &&& vmmWrite ≠ 0⟩

/-- An entry together with what is behind it. -/
inductive TableEntry (ι : Type)
  | absent
  | page (r : Rights)
  | next (r : Rights) (entries : ι → TableEntry ι)

namespace TableEntry

variable {ι : Type} [DecidableEq ι]

/-- The rights on the page at the path `is` behind an entry. -/
def rights : TableEntry ι → List ι → Option Rights
  | absent, _ => none
  | page r, _ => some r
  | next _ _, [] => none
  | next r es, i::is => ((es i).rights is).map r.meet

/-- There is an entry of a page table: none is behind a large page. -/
def mapped : TableEntry ι → List ι → Bool
  | page _, [] => true
  | next _ es, i::is => (es i).mapped is
  | _, _ => false

/-- Set the entry of the page at a path. -/
def setPage (r : Rights) : TableEntry ι → List ι → TableEntry ι
  | _, [] => page r
  | absent, i::is => next ⟨false, true⟩ (Function.update (fun _ => absent) i (absent.setPage r is))
  -- the table of a 2 MB page
  | page r', [i] => next ⟨r'.user, true⟩ (Function.update (fun _ => page r') i (page r))
  | page r', _::_::_ => page r'
  | next r' es, i::is => next r' (Function.update es i ((es i).setPage r is))

/-- A page that has no entry yet is given one. -/
def visit (e : TableEntry ι) (x : List ι × Rights) : TableEntry ι :=
  if e.mapped x.1 then e else e.setPage x.2 x.1

/-- The visits that go through the entry `i`. -/
def through (i : ι) (l : List (List ι × Rights)) : List (List ι × Rights) :=
  l.filterMap (fun x => match x.1 with
    | [] => none
    | j::js => if j = i then some (js, x.2) else none)

/-- The entry opens the page at a path, when the pages of `l` are visited: the tables on the way are
there and open; the page has an open entry, or the first visit to it gives it one. A 2 MB page is
split by the first visit; its other pages keep its rights. -/
def Opens (w : Prop) : TableEntry ι → List ι → List (List ι × Rights) → Prop
  | page r, [], _ => r.Allows w
  | _, [], l => ∃ x ∈ l.head?, x.2.Allows w
  | absent, _::_, _ => False
  | page r, [i], l =>
    match l.head? with
    | none => r.Allows w
    | some x => if x.1 = [i] then r.user = true ∧ x.2.Allows w else r.Allows w
  | page r, _::_::_, _ => r.Allows w
  | next r es, i::is, l => r.Allows w ∧ (es i).Opens w is (through i l)

section Visits
variable {e e' : TableEntry ι} {r : Rights} {es : ι → TableEntry ι} {w : Prop} {i : ι} {is : List ι}
  {x : List ι × Rights} {l : List (List ι × Rights)}

theorem visits_page_nil (h : ∀ x ∈ l, x.1 = []) : l.foldl visit (page r) = page r := by
  induction l with
  | nil => rfl
  | cons x l ih =>
    have hx : (page r).visit x = page r := by
      unfold visit
      rw [h x List.mem_cons_self]
      exact if_pos rfl
    rw [List.foldl_cons, hx]
    exact ih (fun y hy => h y (List.mem_cons_of_mem x hy))

/-- A table of pages stays as it is. -/
theorem visits_pages (hes : ∀ i, ∃ r', es i = page r') (h : ∀ x ∈ l, x.1.length = 1) :
    l.foldl visit (next r es) = next r es := by
  induction l with
  | nil => rfl
  | cons x l ih =>
    obtain ⟨j, hj⟩ := List.length_eq_one_iff.mp (h x List.mem_cons_self)
    obtain ⟨r', hr'⟩ := hes j
    have hx : (next r es).visit x = next r es := by
      unfold visit
      rw [hj, mapped, hr']
      exact if_pos rfl
    rw [List.foldl_cons, hx]
    exact ih (fun y hy => h y (List.mem_cons_of_mem x hy))

theorem visit_next : (next r es).visit (i::is, r') =
    next r (Function.update es i ((es i).visit (is, r'))) := by
  unfold visit
  rw [mapped, setPage]
  dsimp only
  by_cases hm : (es i).mapped is
  · rw [if_pos hm, if_pos hm, Function.update_eq_self]
  · rw [if_neg hm, if_neg hm]

/-- A visit behind a table goes through one of its entries. -/
theorem visits_next (l : List (List ι × Rights)) : ∀ es : ι → TableEntry ι, (∀ x ∈ l, x.1 ≠ []) →
    l.foldl visit (next r es) = next r (fun i => (through i l).foldl visit (es i)) := by
  induction l with
  | nil => exact fun es _ => rfl
  | cons x l ih =>
    intro es h
    obtain ⟨is, r'⟩ := x
    obtain ⟨j, js, rfl⟩ := List.exists_cons_of_ne_nil (h (is, r') List.mem_cons_self)
    rw [List.foldl_cons, visit_next, ih _ (fun y hy => h y (List.mem_cons_of_mem _ hy))]
    congr 1
    funext i
    by_cases hij : j = i
    · have hthrough : through i ((j::js, r')::l) = (js, r')::through i l := by
        simp [through, hij]
      rw [hthrough, List.foldl_cons, hij, Function.update_self]
    · have hthrough : through i ((j::js, r')::l) = through i l := by
        simp [through, hij]
      rw [hthrough, Function.update_of_ne (Ne.symm hij)]

theorem through_length {n : ℕ} (h : ∀ x ∈ l, x.1.length = n+1) :
    ∀ x ∈ through i l, x.1.length = n := by
  intro x hx
  obtain ⟨y, hy, hyx⟩ := List.mem_filterMap.mp hx
  have hlen := h y hy
  split at hyx
  · cases hyx
  · rename_i j js hyj
    rw [hyj, List.length_cons] at hlen
    split at hyx
    · obtain rfl := Option.some.inj hyx
      exact Nat.add_right_cancel hlen
    · cases hyx

/-- A table that was added is closed to user mode. -/
theorem visits_closed (h : ∀ x ∈ l, x.1 ≠ []) :
    ¬ ∃ r', (l.foldl visit (next ⟨false, true⟩ es)).rights (i::is) = some r' ∧ r'.Allows w := by
  rw [visits_next l es h, rights]
  intro hr
  obtain ⟨r', hr', hallow⟩ := hr
  obtain ⟨r'', -, rfl⟩ := Option.map_eq_some_iff.mp hr'
  exact absurd (Rights.meet_allows.mp hallow).1.1 Bool.false_ne_true

/-- The first visit splits a 2 MB page, and the visits after it find their pages mapped. -/
theorem visits_split {j : ι} {r' : Rights} (h : ∀ x ∈ l, x.1.length = 1) :
    (([j], r')::l).foldl visit (page r) =
      next ⟨r.user, true⟩ (Function.update (fun _ => page r) j (page r')) := by
  rw [List.foldl_cons]
  apply visits_pages
  · intro i
    by_cases hij : i = j
    · exact ⟨r', by rw [hij, Function.update_self]⟩
    · exact ⟨r, by rw [Function.update_of_ne hij]⟩
  · exact h

/-- There is no table behind a 1 GB page, and none is added. -/
theorem visits_huge (h : ∀ x ∈ l, 2 ≤ x.1.length) : l.foldl visit (page r) = page r := by
  induction l with
  | nil => rfl
  | cons x l ih =>
    have hx : (page r).visit x = page r := by
      obtain ⟨i, is, hi⟩ := List.exists_cons_of_length_pos
        (Nat.lt_of_succ_lt (h x List.mem_cons_self))
      have hlen := h x List.mem_cons_self
      rw [hi, List.length_cons] at hlen
      obtain ⟨j, js, rfl⟩ := List.exists_cons_of_length_pos (Nat.le_of_succ_le_succ hlen)
      unfold visit
      rw [hi]
      rfl
    rw [List.foldl_cons, hx]
    exact ih (fun y hy => h y (List.mem_cons_of_mem x hy))

omit [DecidableEq ι] in
theorem page_allows : (∃ r', (page r).rights is = some r' ∧ r'.Allows w) ↔ r.Allows w := by
  simp [rights]

/-- The entry of the page itself. -/
theorem visits_entry (h : ∀ x ∈ l, x.1 = []) :
    (∃ r, (l.foldl visit e).rights [] = some r ∧ r.Allows w) ↔ e.Opens w [] l := by
  by_cases he : ∃ r, e = page r
  · obtain ⟨r, rfl⟩ := he
    rw [visits_page_nil h, page_allows, Opens]
  -- no entry: the first visit sets it
  have hopens : e.Opens w [] l ↔ ∃ x ∈ l.head?, x.2.Allows w := by
    rw [Opens]
    exact fun r hr => he ⟨r, hr⟩
  have hnone : e.mapped [] = false ∧ e.rights [] = none ∧ ∀ r, e.setPage r [] = page r := by
    cases e with
    | page r => exact absurd ⟨r, rfl⟩ he
    | absent => exact ⟨rfl, rfl, fun _ => rfl⟩
    | next r es => exact ⟨rfl, rfl, fun _ => rfl⟩
  rw [hopens]
  cases l with
  | nil => simp [hnone.2.1]
  | cons x l =>
    have hx : e.visit x = page x.2 := by
      unfold visit
      rw [h x List.mem_cons_self, hnone.1, if_neg Bool.false_ne_true, hnone.2.2]
    rw [List.foldl_cons, hx, visits_page_nil (fun y hy => h y (List.mem_cons_of_mem x hy)),
      page_allows]
    simp

/-- Nothing is behind the entry. -/
theorem visits_absent (h : ∀ x ∈ l, x.1 ≠ []) :
    ¬ ∃ r, (l.foldl visit absent).rights (i::is) = some r ∧ r.Allows w := by
  cases l with
  | nil => simp [rights]
  | cons x l =>
    obtain ⟨j, js, hj⟩ := List.exists_cons_of_ne_nil (h x List.mem_cons_self)
    have hx : absent.visit x = next ⟨false, true⟩
        (Function.update (fun _ => absent) j (absent.setPage x.2 js)) := by
      unfold visit
      rw [hj]
      rfl
    rw [List.foldl_cons, hx]
    exact visits_closed (fun y hy => h y (List.mem_cons_of_mem x hy))

/-- The entry is that of a 2 MB page. -/
theorem visits_large (h : ∀ x ∈ l, x.1.length = 1) :
    (∃ r', (l.foldl visit (page r)).rights [i] = some r' ∧ r'.Allows w) ↔
      (page r).Opens w [i] l := by
  cases l with
  | nil => exact page_allows
  | cons x l =>
    obtain ⟨js, r'⟩ := x
    obtain ⟨j, rfl⟩ := List.length_eq_one_iff.mp (h (js, r') List.mem_cons_self)
    rw [visits_split (fun y hy => h y (List.mem_cons_of_mem _ hy)), Opens, List.head?_cons]
    dsimp only
    by_cases hij : i = j
    · rw [if_pos (by rw [hij])]
      simp [rights, hij, Rights.Allows, Rights.meet, and_assoc]
    · rw [if_neg (by simpa using Ne.symm hij)]
      simp [rights, hij, Rights.Allows, Rights.meet]

/-- What the visits leave is decided by the entries before them. -/
theorem visits_allow (is : List ι) : ∀ (e : TableEntry ι) (l : List (List ι × Rights)),
    (∀ x ∈ l, x.1.length = is.length) →
    ((∃ r, (l.foldl visit e).rights is = some r ∧ r.Allows w) ↔ e.Opens w is l) := by
  -- on the path; behind a table only the visits through the same entry count
  induction is with
  | nil => exact fun e l h => visits_entry (fun x hx => List.length_eq_zero_iff.mp (h x hx))
  | cons i is ih =>
    intro e l h
    have hcons (x : List ι × Rights) (hx : x ∈ l) : x.1 ≠ [] := by
      apply List.ne_nil_of_length_pos
      rw [h x hx]
      exact Nat.succ_pos is.length
    cases e with
    | absent =>
      rw [Opens]
      exact iff_false_intro (visits_absent hcons)
    | page r =>
      cases is with
      | nil => exact visits_large h
      | cons j is =>
        rw [visits_huge (fun x hx => by rw [h x hx]; simp), page_allows, Opens]
    | next r es =>
      rw [visits_next l es hcons, Opens, rights, ← ih (es i) _ (through_length h)]
      constructor
      · intro hr
        obtain ⟨r', hr', hallow⟩ := hr
        obtain ⟨r'', hr'', rfl⟩ := Option.map_eq_some_iff.mp hr'
        have hboth := Rights.meet_allows.mp hallow
        exact ⟨hboth.1, r'', hr'', hboth.2⟩
      · intro hr
        obtain ⟨htable, r', hr', hallow⟩ := hr
        refine ⟨r.meet r', ?_, Rights.meet_allows.mpr ⟨htable, hallow⟩⟩
        rw [hr']
        rfl

omit [DecidableEq ι] in
theorem rights_next : ((next r es).rights (i::is)).isSome = ((es i).rights is).isSome :=
  Option.isSome_map

theorem visit_absent {is : List ι} {r : Rights} : absent.visit (is, r) = absent.setPage r is := by
  unfold visit
  cases is <;> rfl

/-- A visit makes one page present. -/
theorem visit_present {r : Rights} (is : List ι) : ∀ (e : TableEntry ι) (js : List ι),
    js.length = is.length →
    (((e.visit (js, r)).rights is).isSome ↔ (e.rights is).isSome ∨ js = is) := by
  induction is with
  | nil =>
    intro e js h
    obtain rfl := List.length_eq_zero_iff.mp h
    refine iff_of_true ?_ (Or.inr rfl)
    unfold visit
    cases e <;> rfl
  | cons i is ih =>
    intro e js h
    obtain ⟨j, js, rfl⟩ := List.exists_cons_of_length_eq_add_one h
    have hlen : js.length = is.length := Nat.add_right_cancel h
    cases e with
    | absent =>
      rw [visit_absent, setPage, rights_next, List.cons.injEq]
      by_cases hij : i = j
      · rw [hij, Function.update_self, ← visit_absent, ih absent js hlen]
        simp [rights]
      · rw [Function.update_of_ne hij]
        simp [rights, Ne.symm hij]
    | page r' =>
      refine iff_of_true ?_ (Or.inl rfl)
      cases is with
      | nil =>
        obtain rfl := List.length_eq_zero_iff.mp hlen
        have hsplit : (page r').visit ([j], r) = next ⟨r'.user, true⟩
            (Function.update (fun _ => page r') j (page r)) := rfl
        rw [hsplit, rights_next]
        by_cases hij : i = j
        · rw [hij, Function.update_self]
          rfl
        · rw [Function.update_of_ne hij]
          rfl
      | cons k is =>
        have hhuge : ([(j::js, r)] : List (List ι × Rights)).foldl visit (page r') = page r' := by
          apply visits_huge
          intro x hx
          rw [List.mem_singleton.mp hx, h]
          simp
        exact (congrArg (fun e => (rights e (i::k::is)).isSome) hhuge).trans rfl
    | next r' es =>
      rw [visit_next, rights_next, rights_next, List.cons.injEq]
      by_cases hij : i = j
      · rw [hij, Function.update_self, ih (es j) js hlen]
        simp
      · rw [Function.update_of_ne hij]
        simp [Ne.symm hij]

end Visits

/-- Tables without pages were added. -/
inductive Extended : TableEntry ι → TableEntry ι → Prop
  | refl (e : TableEntry ι) : Extended e e
  | table {es : ι → TableEntry ι} (h : ∀ i, Extended absent (es i)) :
      Extended absent (next ⟨false, true⟩ es)
  | behind {r : Rights} {es es' : ι → TableEntry ι} (h : ∀ i, Extended (es i) (es' i)) :
      Extended (next r es) (next r es')

/-- They open no page. -/
theorem Extended.opens_iff {e e' : TableEntry ι} {w : Prop} (h : Extended e e') :
    ∀ is l, e'.Opens w is l ↔ e.Opens w is l := by
  induction h with
  | refl e => exact fun is l => Iff.rfl
  | table h ih =>
    intro is l
    cases is with
    | nil => exact Iff.rfl
    | cons i is => exact iff_of_false (fun h => Bool.false_ne_true h.1.1) id
  | behind h ih =>
    intro is l
    cases is with
    | nil => exact Iff.rfl
    | cons i is => exact and_congr_right (fun _ => ih i is _)

end TableEntry

/-! ### Four levels -/

/-- The indices of the four entries on the walk of `v`. -/
def pagePath (v : ℕ) : List (Fin 512) :=
  [⟨vmmPml4Index v, vmmPml4Index_lt v⟩, ⟨vmmPdpteIndex v, vmmPdpteIndex_lt v⟩,
    ⟨vmmPdIndex v, vmmPdIndex_lt v⟩, ⟨vmmPtIndex v, vmmPtIndex_lt v⟩]

theorem pagePath_eq_iff {v v' : ℕ} : pagePath v = pagePath v' ↔ walkPath v = walkPath v' :=
  (List.map_injective_iff.mpr Fin.val_injective).eq_iff.symm

theorem pagePath_page (v : ℕ) : pagePath (v / 4096 * 4096) = pagePath v :=
  pagePath_eq_iff.mpr (walkPath_page v)

/-- The entries of the page map level 4. -/
structure PageTables where
  entries : Fin 512 → TableEntry (Fin 512)

namespace PageTables

/-- CR3 leads to the tables and closes nothing. -/
def top (t : PageTables) : TableEntry (Fin 512) := .next ⟨true, true⟩ t.entries

/-- The rights of user mode on the page of `v`; `none` when it is not present. -/
def rights (t : PageTables) (v : ℕ) : Option Rights :=
  if Canonical v then t.top.rights (pagePath v) else none

/-- `vmm_is_mapped` finds an entry. -/
def mapped (t : PageTables) (v : ℕ) : Bool := t.top.mapped (pagePath v)

/-- `vmm_map_page`, when it succeeds. -/
def setPage (t : PageTables) (v : ℕ) (r : Rights) : PageTables where
  entries := Function.update t.entries ⟨vmmPml4Index v, vmmPml4Index_lt v⟩
    ((t.entries ⟨vmmPml4Index v, vmmPml4Index_lt v⟩).setPage r (pagePath v).tail)

/-- A page without an entry is mapped with the rights that come with it. -/
def visit (t : PageTables) (x : ℕ × Rights) : PageTables :=
  if t.mapped x.1 then t else t.setPage x.1 x.2

/-- The tables open the page of `v` after the visits of `l`, by what they were before. -/
def Opens (t : PageTables) (l : List (ℕ × Rights)) (v : ℕ) (w : Prop) : Prop :=
  Canonical v ∧ t.top.Opens w (pagePath v) (l.map (fun x => (pagePath x.1, x.2)))

section Visits
variable {t t' : PageTables} {x : ℕ × Rights} {l l' : List (ℕ × Rights)} {v : ℕ} {w : Prop}

theorem top_visit : (t.visit x).top = t.top.visit (pagePath x.1, x.2) := by
  unfold visit TableEntry.visit
  by_cases hm : t.mapped x.1
  · rw [if_pos hm]
    exact (if_pos hm).symm
  · rw [if_neg hm]
    exact (if_neg hm).symm

theorem top_visits (l : List (ℕ × Rights)) : ∀ t : PageTables,
    (l.foldl visit t).top =
      (l.map (fun x => (pagePath x.1, x.2))).foldl TableEntry.visit t.top := by
  induction l with
  | nil => exact fun t => rfl
  | cons x l ih =>
    intro t
    rw [List.foldl_cons, ih, top_visit]
    rfl

/-- What the visits leave is decided by the tables before them. -/
theorem visits_allow : (∃ r, (l.foldl visit t).rights v = some r ∧ r.Allows w) ↔ t.Opens l v w := by
  unfold rights Opens
  by_cases hc : Canonical v
  · rw [if_pos hc, top_visits, TableEntry.visits_allow]
    · exact (and_iff_right hc).symm
    · intro x hx
      obtain ⟨y, -, rfl⟩ := List.mem_map.mp hx
      rfl
  · rw [if_neg hc]
    simp [hc]

theorem visit_opens : (t.visit x).Opens l v w ↔ t.Opens (x::l) v w := by
  rw [← visits_allow, ← visits_allow, List.foldl_cons]

theorem visits_opens : (l.foldl visit t).Opens l' v w ↔ t.Opens (l ++ l') v w := by
  rw [← visits_allow, ← visits_allow, List.foldl_append]

/-- The pages that the visits make present. -/
theorem visits_present (l : List (ℕ × Rights)) : ∀ t : PageTables,
    ((l.foldl visit t).rights v).isSome ↔
      (t.rights v).isSome ∨ Canonical v ∧ ∃ x ∈ l, pagePath x.1 = pagePath v := by
  induction l with
  | nil => simp
  | cons x l ih =>
    intro t
    have hvisit : ((t.visit x).rights v).isSome ↔
        (t.rights v).isSome ∨ Canonical v ∧ pagePath x.1 = pagePath v := by
      unfold rights
      by_cases hc : Canonical v
      · rw [if_pos hc, if_pos hc, top_visit]
        have hvisit := TableEntry.visit_present (r := x.2) (pagePath v) t.top (pagePath x.1) rfl
        exact hvisit.trans (or_congr_right (and_iff_right hc).symm)
      · simp [hc]
    rw [List.foldl_cons, ih, hvisit]
    simp only [List.mem_cons, exists_eq_or_imp]
    tauto

/-- Tables that were added open no page. -/
theorem opens_of_extended (h : t.top.Extended t'.top) : t'.Opens l v w ↔ t.Opens l v w :=
  and_congr_right (fun _ => h.opens_iff _ _)

end Visits

end PageTables

end SukiOS

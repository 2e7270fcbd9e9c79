import SukiOS.PageRights
import SukiOS.VmmBuild
import SukiOS.VmmQueries

/-! The page tables in memory have the rights, and the changes, of page tables without frames. -/
namespace SukiOS
open ByteMemory MachineWord RadixTree

open Classical in
/-- The slot `i` of the table `f` at the path `p`, with what is behind it; `n` levels are below it.
Only the tables on the paths in `live` count. -/
noncomputable def slotTree (m : Mem) (live : List ℕ → Prop) : ℕ → List ℕ → ℕ → Fin 512 →
    TableEntry (Fin 512)
  | 0, _, f, i =>
    if entry m f i &&& vmmPresent ≠ 0 then .page (rightsOf (entry m f i)) else .absent
  | n+1, p, f, i =>
    if live (p ++ [i.val]) ∧ entry m f i &&& vmmPresent ≠ 0 then
      if p ≠ [] ∧ entry m f i &&& vmmPs ≠ 0 then .page (rightsOf (entry m f i))
      else .next (rightsOf (entry m f i))
        (slotTree m live n (p ++ [i.val]) (frameOf (entry m f i)))
    else .absent

/-- The page tables of a state. -/
noncomputable def tablesOf (live : List ℕ → Prop) (s : Vmm) : PageTables where
  entries := slotTree s.mem live 3 [] s.root

section Slots
variable {m m' : Mem} {live : List ℕ → Prop} {n f g v : ℕ} {p : List ℕ} {i : Fin 512}

theorem slotTree_absent (h : n ≠ 0 ∧ ¬ live (p ++ [i.val]) ∨ entry m f i &&& vmmPresent = 0) :
    slotTree m live n p f i = .absent := by
  cases n with
  | zero => exact if_neg (not_not.mpr (h.resolve_left (fun h => h.1 rfl)))
  | succ n => exact if_neg (fun hc => h.elim (fun h => h.2 hc.1) hc.2)

theorem slotTree_page (hp : entry m f i &&& vmmPresent ≠ 0)
    (h : n = 0 ∨ live (p ++ [i.val]) ∧ p ≠ [] ∧ entry m f i &&& vmmPs ≠ 0) :
    slotTree m live n p f i = .page (rightsOf (entry m f i)) := by
  cases n with
  | zero => exact if_pos hp
  | succ n =>
    obtain ⟨hl, hs⟩ := h.resolve_left (Nat.succ_ne_zero n)
    exact (if_pos ⟨hl, hp⟩).trans (if_pos hs)

theorem slotTree_next (h : child m live p f i = some g) :
    slotTree m live (n+1) p f i =
      .next (rightsOf (entry m f i)) (slotTree m live n (p ++ [i.val]) g) := by
  obtain ⟨⟨-, -, hl, hp, hs⟩, rfl⟩ := child_eq_some.mp h
  refine (if_pos ⟨hl, hp⟩).trans (if_neg (fun hc => ?_))
  exact hs.elim hc.1 hc.2

/-- What a slot is: no entry, a page, or a table. -/
theorem slotTree_cases (m : Mem) (live : List ℕ → Prop) (f : ℕ) (i : Fin 512)
    (hlen : p.length + n = 3) :
    (n ≠ 0 ∧ ¬ live (p ++ [i.val]) ∨ entry m f i &&& vmmPresent = 0) ∨
    (entry m f i &&& vmmPresent ≠ 0 ∧
      (n = 0 ∨ live (p ++ [i.val]) ∧ p ≠ [] ∧ entry m f i &&& vmmPs ≠ 0)) ∨
    ∃ k g, n = k+1 ∧ child m live p f i = some g := by
  by_cases hp : entry m f i &&& vmmPresent = 0
  · exact Or.inl (Or.inr hp)
  by_cases hn : n = 0
  · exact Or.inr (Or.inl ⟨hp, Or.inl hn⟩)
  by_cases hl : live (p ++ [i.val])
  swap
  · exact Or.inl (Or.inl ⟨hn, hl⟩)
  by_cases hs : p ≠ [] ∧ entry m f i &&& vmmPs ≠ 0
  · exact Or.inr (Or.inl ⟨hp, Or.inr ⟨hl, hs⟩⟩)
  · obtain ⟨k, rfl⟩ := Nat.exists_eq_succ_of_ne_zero hn
    have hs' : p = [] ∨ entry m f i &&& vmmPs = 0 := by
      by_cases hnil : p = []
      · exact Or.inl hnil
      · exact Or.inr (not_not.mp (fun h => hs ⟨hnil, h⟩))
    exact Or.inr (Or.inr ⟨k, _, rfl, child_eq_some.mpr ⟨⟨i.isLt, by omega, hl, hp, hs'⟩, rfl⟩⟩)

/-- The slots at and below one depend on the entries on the paths that go through it. -/
theorem slotTree_congr {r : ℕ} (n : ℕ) : ∀ p f (i : Fin 512), table m live r p = some f →
    p.length + n = 3 →
    (∀ q x j, p ++ [i.val] <+: q ++ [j] → table m live r q = some x → j < 512 →
      entry m' x j = entry m x j) → slotTree m' live n p f i = slotTree m live n p f i := by
  induction n with
  | zero =>
    intro p f i ht hlen h
    have he := h p f i List.prefix_rfl ht i.isLt
    unfold slotTree
    rw [he]
  | succ n ih =>
    intro p f i ht hlen h
    have he := h p f i List.prefix_rfl ht i.isLt
    rcases slotTree_cases m live f i hlen with
      hnone | ⟨hp, hpage⟩ | ⟨k, g, hk, hc⟩
    · rw [slotTree_absent hnone, slotTree_absent (he.symm ▸ hnone)]
    · rw [slotTree_page hp hpage, slotTree_page (he.symm ▸ hp) (he.symm ▸ hpage), he]
    · have hnext : table m live r (p ++ [i.val]) = some g := (table_step ht).trans hc
      rw [slotTree_next hc, slotTree_next ((child_congr he).trans hc), he]
      congr 1
      funext j
      apply ih _ g j hnext
      · rw [List.length_append, List.length_singleton]
        omega
      · exact fun q x j' hq => h q x j' ((List.prefix_append _ _).trans hq)

/-! ### Rights -/

/-- What the entries of a walk allow together. -/
def rightsOfWalk (es : List ℕ) : Rights where
  user := es.all (fun e => decide (e &&& vmmUser ≠ 0))
  write := es.all (fun e => decide (e &&& vmmWrite ≠ 0))

theorem slotTree_rights (n : ℕ) : ∀ p f (i : Fin 512) is, p.length + n = 3 → is.length = n →
    (∀ q, q ≠ [] → q <+: p ++ i.val :: is.map Fin.val → live q) →
    (slotTree m live n p f i).rights is =
      (entriesFrom m (decide (p ≠ [])) f (i.val :: is.map Fin.val)).map rightsOfWalk := by
  induction n with
  | zero =>
    intro p f i is hlen his hl
    obtain rfl := List.length_eq_zero_iff.mp his
    have hlive : live (p ++ [i.val]) := hl _ (by simp) List.prefix_rfl
    by_cases hp : entry m f i &&& vmmPresent = 0
    · rw [slotTree_absent (Or.inr hp), entriesFrom_none hp]
      rfl
    · rw [slotTree_page hp (Or.inl rfl), List.map_nil, entriesFrom_last hp]
      simp [TableEntry.rights, rightsOf, rightsOfWalk]
  | succ n ih =>
    intro p f i is hlen his hl
    obtain ⟨j, is, rfl⟩ := List.exists_cons_of_length_eq_add_one his
    have hlive : live (p ++ [i.val]) := by
      apply hl _ (by simp)
      exact ⟨(j::is).map Fin.val, by simp⟩
    rcases slotTree_cases m live f i hlen with
      hnone | ⟨hp, hpage⟩ | ⟨k, g, hk, hc⟩
    · have hp := hnone.resolve_left (fun h => h.2 hlive)
      rw [slotTree_absent hnone, entriesFrom_none hp]
      rfl
    · have hs := (hpage.resolve_left (Nat.succ_ne_zero n)).2
      rw [slotTree_page hp hpage, decide_eq_true hs.1, entriesFrom_large hp hs.2 (by simp)]
      simp [TableEntry.rights, rightsOf, rightsOfWalk]
    · obtain ⟨⟨-, -, -, hp, hs⟩, hg⟩ := child_eq_some.mp hc
      have hsized : decide (p ≠ []) = false ∨ entry m f i &&& vmmPs = 0 := by
        refine hs.imp_left (fun hnil => ?_)
        exact decide_eq_false (not_not.mpr hnil)
      have hlen' : (p ++ [i.val]).length + n = 3 := by
        rw [List.length_append, List.length_singleton]
        omega
      have hrest := ih (p ++ [i.val]) g j is hlen' (Nat.add_right_cancel his)
        (fun q hq hpre => hl q hq (by simpa using hpre))
      rw [decide_eq_true (by simp)] at hrest
      rw [slotTree_next hc, TableEntry.rights, hrest, entriesFrom_next hp hsized, hg,
        Option.map_map,
        Option.map_map, List.map_cons]
      congr 1

/-- The rights in the page tables are those that the walk grants. -/
theorem tablesOf_rights {s : Vmm} (hl : LiveWalk live v) :
    (tablesOf live s).rights v = (s.access v).map (fun a => ⟨a.user, a.write⟩) := by
  unfold PageTables.rights Vmm.access access walkEntries
  by_cases hc : Canonical v
  · have hslot : (slotTree s.mem live 3 [] s.root ⟨vmmPml4Index v, vmmPml4Index_lt v⟩).rights
        (pagePath v).tail = (entriesFrom s.mem false s.root (walkPath v)).map rightsOfWalk :=
      slotTree_rights 3 [] s.root _ _ rfl rfl hl
    have htop : (tablesOf live s).top.rights (pagePath v) =
        ((slotTree s.mem live 3 [] s.root ⟨vmmPml4Index v, vmmPml4Index_lt v⟩).rights
          (pagePath v).tail).map (Rights.meet ⟨true, true⟩) := rfl
    rw [if_pos hc, if_pos hc, Option.map_map, htop, hslot, Option.map_map]
    rfl
  · rw [if_neg hc, if_neg hc]
    rfl

/-! ### Pages with an entry -/

/-- A page has an entry when there is a table for it, whose slot is present. -/
theorem slotTree_mapped {r : ℕ} (n : ℕ) : ∀ p f (i : Fin 512) is, table m live r p = some f →
    p.length + n = 3 → is.length = n → live (p ++ i.val :: is.map Fin.val) →
    ((slotTree m live n p f i).mapped is = true ↔ ∃ q g j, q ++ [j] = p ++ i.val :: is.map Fin.val ∧
      table m live r q = some g ∧ entry m g j &&& vmmPresent ≠ 0) := by
  induction n with
  | zero =>
    intro p f i is ht hlen his hl
    obtain rfl := List.length_eq_zero_iff.mp his
    have hiff : (∃ q g j, q ++ [j] = p ++ [i.val] ∧ table m live r q = some g ∧
        entry m g j &&& vmmPresent ≠ 0) ↔ entry m f i &&& vmmPresent ≠ 0 := by
      constructor
      · intro h
        obtain ⟨q, g, j, hq, hg, hp⟩ := h
        obtain ⟨rfl, hj⟩ := List.append_inj' hq rfl
        obtain rfl : f = g := Option.some.inj (ht.symm.trans hg)
        rw [← (List.cons.inj hj).1]
        exact hp
      · exact fun hp => ⟨p, f, i, rfl, ht, hp⟩
    rw [List.map_nil, hiff]
    by_cases hp : entry m f i &&& vmmPresent = 0
    · rw [slotTree_absent (Or.inr hp)]
      exact iff_of_false Bool.false_ne_true (not_not.mpr hp)
    · rw [slotTree_page hp (Or.inl rfl)]
      exact iff_of_true rfl hp
  | succ n ih =>
    intro p f i is ht hlen his hl
    obtain ⟨j, is, rfl⟩ := List.exists_cons_of_length_eq_add_one his
    -- without a table behind the slot there is none further down
    have hnone (hc : child m live p f i = none) : ¬ ∃ q g k,
        q ++ [k] = p ++ i.val :: (j::is).map Fin.val ∧ table m live r q = some g ∧
          entry m g k &&& vmmPresent ≠ 0 := by
      intro h
      obtain ⟨q, g, k, hq, hg, -⟩ := h
      have hpre : p ++ [i.val] <+: q := by
        have hleft : p ++ [i.val] <+: q ++ [k] := by
          rw [hq]
          exact ⟨(j::is).map Fin.val, by simp⟩
        apply List.prefix_of_prefix_length_le hleft (List.prefix_append q [k])
        have hlenq := congrArg List.length hq
        simp only [List.length_append, List.length_cons, List.length_map,
          List.length_nil] at hlenq ⊢
        omega
      obtain ⟨x, hx⟩ := follow_of_prefix hg hpre
      exact nomatch ((table_step ht).trans hc).symm.trans hx
    rcases slotTree_cases m live f i hlen with
      habsent | ⟨hp, hpage⟩ | ⟨k, g, hk, hc⟩
    · rw [slotTree_absent habsent]
      refine iff_of_false Bool.false_ne_true (hnone ?_)
      rw [Option.eq_none_iff_forall_ne_some]
      intro g hg
      obtain ⟨⟨-, -, hl', hp, -⟩, -⟩ := child_eq_some.mp hg
      exact habsent.elim (fun h => h.2 hl') hp
    · have hs := (hpage.resolve_left (Nat.succ_ne_zero n)).2
      rw [slotTree_page hp hpage]
      exact iff_of_false Bool.false_ne_true (hnone (child_large hs.2 hs.1))
    · rw [slotTree_next hc, TableEntry.mapped, ih (p ++ [i.val]) g j is ((table_step ht).trans hc)
        (by rw [List.length_append, List.length_singleton]; omega) (Nat.add_right_cancel his)
        (by simpa using hl)]
      simp

/-- `vmm_is_mapped` finds the entries of the page tables. -/
theorem Backed.vmmIsMapped_tablesOf {s : Vmm} (hb : Backed live s) (hc : Canonical v)
    (hl : LiveWalk live v) : vmmIsMapped s v = some ((tablesOf live s).mapped v) := by
  obtain ⟨hpath, hidx⟩ := ptPath_page hc
  have hlive : live (walkPath v) := hl _ (List.cons_ne_nil _ _) List.prefix_rfl
  have hmapped : (tablesOf live s).mapped v = true ↔ ∃ q g j, q ++ [j] = walkPath v ∧
      s.table live q = some g ∧ entry s.mem g j &&& vmmPresent ≠ 0 :=
    slotTree_mapped 3 [] s.root ⟨vmmPml4Index v, vmmPml4Index_lt v⟩ (pagePath v).tail rfl rfl rfl
      hlive
  have hwalk {q : List ℕ} {j : ℕ} (h : q ++ [j] = ptPath v ++ [vmmPtIndex v]) :
      q = ptPath v ∧ j = vmmPtIndex v := by
    obtain ⟨h1, h2⟩ := List.append_inj' h rfl
    exact ⟨h1, (List.cons.inj h2).1⟩
  cases ht : s.table live (ptPath v) with
  | none =>
    rw [(hb.no_table hl (liveWalk_page hc hl) ht hpath).1]
    apply congrArg some
    refine (Bool.eq_false_iff.mpr (fun h => ?_)).symm
    obtain ⟨q, g, j, hq, hg, -⟩ := hmapped.mp h
    rw [(hwalk hq).1, ht] at hg
    cases hg
  | some f =>
    rw [(hb.with_table ht hpath hidx).1]
    apply congrArg some
    rw [Bool.eq_iff_iff, hmapped, decide_eq_true_eq]
    constructor
    · exact fun hp => ⟨ptPath v, f, vmmPtIndex v, rfl, ht, hp⟩
    · intro h
      obtain ⟨q, g, j, hq, hg, hp⟩ := h
      obtain ⟨rfl, rfl⟩ := hwalk hq
      obtain rfl : f = g := Option.some.inj (ht.symm.trans hg)
      exact hp

/-! ### One slot changes -/

/-- A relation between the entries before and after that goes on from an entry to the table it is
in, along the path `is`. -/
def Climbs (Rel : List (Fin 512) → TableEntry (Fin 512) → TableEntry (Fin 512) → Prop) : Prop :=
  ∀ i is r es e', Rel is (es i) e' → Rel (i::is) (.next r es) (.next r (Function.update es i e'))

/-- Where one slot is all that changes, the relation of its contents is that of the page tables. -/
theorem tablesOf_climb {s s' : Vmm}
    {Rel : List (Fin 512) → TableEntry (Fin 512) → TableEntry (Fin 512) → Prop} (hrel : Climbs Rel)
    (hroot : s'.root = s.root) {path : List ℕ}
    (hsame : ∀ q x j, s.table live q = some x → j < 512 → q ++ [j] ≠ path →
      entry s'.mem x j = entry s.mem x j) (p : List (Fin 512)) :
    ∀ i is n f, s.table live (p.map Fin.val) = some f → p.length + n = 3 →
      p.map Fin.val ++ [i.val] <+: path →
      Rel is (slotTree s.mem live n (p.map Fin.val) f i)
        (slotTree s'.mem live n (p.map Fin.val) f i) →
      Rel (p ++ i::is) (tablesOf live s).top (tablesOf live s').top := by
  -- the other slots of a table on the path, and what is behind them, stay
  have hslots (p : List (Fin 512)) (i : Fin 512) (n f : ℕ)
    (ht : s.table live (p.map Fin.val) = some f)
      (hlen : p.length + n = 3) (hpre : p.map Fin.val ++ [i.val] <+: path) :
      slotTree s'.mem live n (p.map Fin.val) f =
        Function.update (slotTree s.mem live n (p.map Fin.val) f) i
          (slotTree s'.mem live n (p.map Fin.val) f i) := by
    funext j
    by_cases hji : j = i
    · rw [hji, Function.update_self]
    rw [Function.update_of_ne hji]
    apply slotTree_congr n _ f j ht (by rw [List.length_map]; exact hlen)
    intro q x k hq hx hk
    apply hsame q x k hx hk
    intro hpath
    rw [hpath] at hq
    have hboth := List.prefix_of_prefix_length_le hq hpre (by simp)
    have heq := hboth.eq_of_length (by simp)
    exact hji (Fin.ext (List.cons.inj (List.append_inj' heq rfl).2).1)
  induction p using List.reverseRecOn with
  | nil =>
    intro i is n f ht hlen hpre h
    obtain rfl : s.root = f := Option.some.inj ht
    obtain rfl : n = 3 := by simpa using hlen
    have htop : (tablesOf live s').top = .next ⟨true, true⟩
        (Function.update (slotTree s.mem live 3 [] s.root) i
          (slotTree s'.mem live 3 [] s.root i)) := by
      unfold PageTables.top tablesOf
      rw [hroot]
      exact congrArg _ (hslots [] i 3 s.root rfl rfl hpre)
    rw [htop]
    exact hrel i is ⟨true, true⟩ _ _ h
  | append_singleton p k ih =>
    intro i is n f ht hlen hpre h
    rw [List.map_append, List.map_singleton] at ht hpre h
    obtain ⟨g, hg, hc⟩ := table_parent ht
    rw [List.length_append, List.length_singleton] at hlen
    have hpre' : p.map Fin.val ++ [k.val] <+: path := (List.prefix_append _ _).trans hpre
    have hne : p.map Fin.val ++ [k.val] ≠ path := by
      intro heq
      have hle := hpre.length_le
      rw [← heq, List.length_append, List.length_singleton] at hle
      omega
    have he : entry s'.mem g k = entry s.mem g k := hsame _ g k hg k.isLt hne
    rw [List.append_assoc, List.singleton_append]
    apply ih k (i::is) (n+1) g hg (by omega) hpre'
    have hslot := hslots (p ++ [k]) i n f (by rw [List.map_append]; exact ht)
      (by rw [List.length_append, List.length_singleton]; omega)
      (by rw [List.map_append]; exact hpre)
    rw [List.map_append, List.map_singleton] at hslot
    rw [slotTree_next hc, slotTree_next ((child_congr he).trans hc), he, hslot]
    exact hrel i is _ _ _ h

end Slots

/-! ### Mapping a page -/

/-- The entries of large pages are present. -/
def LargePresent (live : List ℕ → Prop) (s : Vmm) : Prop :=
  ∀ p f i, p ≠ [] → p.length < 3 → s.table live p = some f → i < 512 →
    entry s.mem f i &&& vmmPs ≠ 0 → entry s.mem f i &&& vmmPresent ≠ 0

/-- Tables were added on the walk of `v` that setting its page would add as well, and no frame but
those of tables and free frames was written to. -/
structure TreeKept (live : List ℕ → Prop) (v : ℕ) (s s' : Vmm) : Prop where
  built : Built live 0 s s'
  large : LargePresent live s'
  set : ∀ r, (tablesOf live s').setPage v r = (tablesOf live s).setPage v r
  data : ∀ f j, j < 512 → ¬ s.Managed live f → entry s'.mem f j = entry s.mem f j

section Rule
variable {live : List ℕ → Prop} {s s' : Vmm} {p : List ℕ} {f i g v w d : ℕ}

theorem top_inj {t t' : PageTables} (h : t.top = t'.top) : t = t' := by
  cases t
  cases t'
  exact congrArg PageTables.mk (TableEntry.next.inj h).2

theorem climbs_set (r : Rights) : Climbs (fun is e e' => e'.setPage r is = e.setPage r is) := by
  intro i is r' es e' h
  simp only [TableEntry.setPage, Function.update_self, Function.update_idem, h]

theorem climbs_leaf (r : Rights) : Climbs (fun is e e' => e' = e.setPage r is) := by
  intro i is r' es e' h
  rw [h, TableEntry.setPage]

/-- A prefix of the walk and what is left of it. -/
theorem OnWalk.split (h : OnWalk v p i) :
    ∃ (q : List (Fin 512)) (j : Fin 512) (is : List (Fin 512)),
    q.map Fin.val = p ∧ j.val = i ∧ q ++ j::is = pagePath v := by
  obtain ⟨is, his⟩ := h
  have hpath : (pagePath v).map Fin.val = p ++ i::is := by
    rw [← List.singleton_append, ← List.append_assoc]
    exact his.symm
  obtain ⟨q, rest, hq, rfl, hrest⟩ := List.map_eq_append_iff.mp hpath
  obtain ⟨j, js, rfl, hj, -⟩ := List.map_eq_cons_iff.mp hrest
  exact ⟨q, j, js, rfl, hj, hq.symm⟩

theorem rightsOf_eq (e : ℕ) : rightsOf e = ⟨e.testBit 2, e.testBit 1⟩ := by
  have hbit (k : ℕ) : decide (e &&& 2^k ≠ 0) = e.testBit k := by
    rw [Bool.eq_iff_iff, decide_eq_true_eq, land_bit]
  unfold rightsOf
  exact congrArg₂ Rights.mk (hbit 2) (hbit 1)

/-- A new table on the walk, whose slot setting the page of `v` would fill in the same way. -/
theorem Attach.set_kept (hr : Reached live s) (ha : Attach live s s' p f i g) (hon : OnWalk v p i)
    {r : Rights}
    (h : ∀ (j : Fin 512) is n, j.val = i → p.length + n = 3 → is.length = n →
      (slotTree s'.mem live n p f j).setPage r is = (slotTree s.mem live n p f j).setPage r is) :
    (tablesOf live s').setPage v r = (tablesOf live s).setPage v r := by
  obtain ⟨q, j, is, rfl, rfl, hpath⟩ := hon.split
  have hlen : q.length + is.length = 3 := by
    have h4 : (pagePath v).length = 4 := rfl
    rw [← hpath, List.length_append, List.length_cons] at h4
    omega
  have htop := tablesOf_climb (climbs_set r) ha.root
    (fun q' x k hx hk hne => ha.entry_same hr hx hk (fun hslot => hne (by
      rw [hslot.1] at hx
      rw [hr.distinct q' _ f hx ha.path, hslot.2])))
    q j is is.length f ha.path hlen List.prefix_rfl
    (h j is is.length rfl (by rw [List.length_map]; exact hlen) rfl)
  apply top_inj
  rw [hpath] at htop
  exact htop

theorem Attach.large_kept (hr : Reached live s) (ha : Attach live s s' p f i g)
    (hlarge : LargePresent live s)
    (hnew : p.length < 2 → ∀ j, j < 512 → entry s'.mem g j &&& vmmPs = 0) :
    LargePresent live s' := by
  intro q x j hq hlen ht hj hps
  rcases (ha.table_iff hr q x).mp ht with ⟨rfl, rfl⟩ | ⟨-, ht⟩
  · rw [List.length_append, List.length_singleton] at hlen
    exact absurd (hnew (by omega) j hj) hps
  · by_cases hslot : x = f ∧ j = i
    · rw [hslot.1, hslot.2] at hps
      exact absurd ha.small hps
    · rw [ha.entry_same hr ht hj hslot] at hps ⊢
      exact hlarge q x j hq hlen ht hj hps

theorem Attach.data_kept (ha : Attach live s s' p f i g) {x j : ℕ} (hj : j < 512)
    (hx : ¬ s.Managed live x) : entry s'.mem x j = entry s.mem x j := by
  apply ha.same x j hj
  · rintro rfl
    exact hx (Or.inl ha.fresh)
  · rintro ⟨rfl, -⟩
    exact hx (Or.inr ⟨p, ha.path⟩)

/-- An empty table, behind an entry that was not present. -/
theorem TreeKept.link (hs : TableSpace live s) (hlarge : LargePresent live s) (hon : OnWalk v p i)
    (ha : Attach live s s' p f i g) (he : entry s.mem f i &&& vmmPresent = 0)
    (hsm : p = [] ∨ entry s.mem f i &&& vmmPs = 0) (hslot : entry s'.mem f i = g*4096 ||| 3)
    (hempty : ∀ j, j < 512 → entry s'.mem g j = 0) : TreeKept live v s s' where
  built := hs.link ha he hsm hslot hempty
  large := by
    apply ha.large_kept hs.reached hlarge
    intro _ j hj
    rw [hempty j hj]
    exact Nat.zero_and _
  set r := by
    apply ha.set_kept hs.reached hon
    intro j is n hji hlen his
    have hdepth := ha.depth
    obtain ⟨k, rfl⟩ := Nat.exists_eq_succ_of_ne_zero (show n ≠ 0 by omega)
    obtain ⟨l, is, rfl⟩ := List.exists_cons_of_length_eq_add_one his
    rw [← hji] at he hslot
    have hchild : child s'.mem live p f j = some g := hji.symm ▸ ha.child_slot
    have hnone : slotTree s'.mem live k (p ++ [j.val]) g = fun _ => .absent := by
      funext l
      apply slotTree_absent
      rw [hempty l l.isLt]
      exact Or.inr (Nat.zero_and _)
    have hrights : rightsOf (g*4096 ||| 3) = ⟨false, true⟩ := by
      rw [rightsOf_eq, link_bit g (Or.inr rfl), link_bit g (Or.inl rfl)]
      rfl
    rw [slotTree_absent (Or.inr he), slotTree_next hchild, hslot, hrights, hnone]
    rfl
  data _ _ hj hx := ha.data_kept hj hx

/-- A page table in the place of a 2 MB page. -/
theorem TreeKept.split (hs : TableSpace live s) (hlarge : LargePresent live s) (hon : OnWalk v p i)
    (ha : Attach live s s' p f i g) (hlen : p.length = 2) (hps : entry s.mem f i &&& vmmPs ≠ 0)
    (hslot : entry s'.mem f i = g*4096 ||| (3 ||| (entry s.mem f i &&& vmmUser)))
    (hent : ∀ j, j < 512 → entry s'.mem g j = splitEntry (entry s.mem f i) j) :
    TreeKept live v s s' where
  built := hs.split ha hlen hps hslot hent
  large := ha.large_kept hs.reached hlarge (fun h => absurd hlen (by omega))
  set r := by
    apply ha.set_kept hs.reached hon
    intro j is n hji hn his
    have hne : p ≠ [] := by
      rintro rfl
      cases hlen
    obtain rfl : n = 1 := by omega
    obtain ⟨l, rfl⟩ := List.length_eq_one_iff.mp his
    have hl : live (p ++ [j.val]) := hji.symm ▸ ha.live
    have hpres := hlarge p f i hne (by omega) ha.path ha.idx hps
    rw [← hji] at hps hslot hent hpres
    have hchild : child s'.mem live p f j = some g := hji.symm ▸ ha.child_slot
    -- the pages of the new table have the rights of the large one
    have hpages : slotTree s'.mem live 0 (p ++ [j.val]) g =
        fun _ => .page (rightsOf (entry s.mem f j)) := by
      funext l
      have hl := hent l l.isLt
      have hpage : entry s'.mem g l &&& vmmPresent ≠ 0 := by
        rw [hl]
        exact splitEntry_present _ _
      rw [slotTree_page hpage (Or.inl rfl), hl, rightsOf_eq, rightsOf_eq,
        testBit_splitEntry _ _ (Or.inr rfl), testBit_splitEntry _ _ (Or.inl rfl)]
    have hrights : rightsOf (g*4096 ||| (3 ||| (entry s.mem f j &&& vmmUser))) =
        ⟨(rightsOf (entry s.mem f j)).user, true⟩ := by
      rw [rightsOf_eq, rightsOf_eq, split_bit g _ (Or.inr rfl), split_bit g _ (Or.inl rfl)]
      rfl
    rw [slotTree_page hpres (Or.inr ⟨hl, hne, hps⟩), slotTree_next hchild, hslot, hrights, hpages]
    rfl
  data _ _ hj hx := ha.data_kept hj hx

theorem Built.managed {x : ℕ} (h : Built live d s s') (hx : s'.Managed live x) :
    s.Managed live x := by
  rcases hx with hx | ⟨q, hx⟩
  · exact Or.inl (h.free x hx)
  · rcases h.fresh q x hx with hx | hx
    · exact Or.inr ⟨q, hx⟩
    · exact Or.inl hx

theorem tree_rule : TableRule live v (fun s => TableSpace live s ∧ LargePresent live s)
    (TreeKept live v) where
  reached := fun _ hs => hs.1.reached
  windows := fun _ hs => hs.1.accessible
  space := fun _ _ hk => ⟨hk.built.space, hk.large⟩
  refl := fun _ hs => ⟨Built.self hs.1, hs.2, fun _ => rfl, fun _ _ _ _ => rfl⟩
  trans := fun _ _ _ h h' => ⟨h.built.trans h'.built, h'.large, fun r => (h'.set r).trans (h.set r),
    fun x j hj hx => (h'.data x j hj (fun hm => hx (h.built.managed hm))).trans (h.data x j hj hx)⟩
  zero := fun _ hs hg hfree =>
    ⟨hs.1.take hg hfree SameOff.rfl, hs.2, fun _ => rfl, fun _ _ _ _ => rfl⟩
  link := fun _ _ _ _ _ _ hs hon ha he hsm hslot hempty =>
    TreeKept.link hs.1 hs.2 hon ha he hsm hslot hempty
  split := fun _ _ _ _ _ _ hs hon ha hlen hps hslot hent =>
    TreeKept.split hs.1 hs.2 hon ha hlen hps hslot hent

/-! ### `vmm_alloc_map` -/

/-- The page of `v` was set in the page tables, and leads to the frame `d`, which is neither free
nor a table. The kernel's frames only become fewer, and nothing else was written to. -/
structure AllocMapped (live : List ℕ → Prop) (s s' : Vmm) (v flags d : ℕ) : Prop where
  tables : tablesOf live s' = (tablesOf live s).setPage v (rightsOf flags)
  large : LargePresent live s'
  fresh : Free s d
  taken : ¬ s'.Managed live d
  here : ∀ x, Canonical x → LiveWalk live x → walkPath x = walkPath v →
    translate s'.mem s'.pml4 x = some (d*4096 + x % 4096)
  others : ∀ x, LiveWalk live x → walkPath x ≠ walkPath v → ∀ a,
    translate s.mem s.pml4 x = some a → translate s'.mem s'.pml4 x = some a
  data : ∀ f j, j < 512 → ¬ s.Managed live f → entry s'.mem f j = entry s.mem f j

theorem setPage_nil (r : Rights) (e : TableEntry (Fin 512)) : e.setPage r [] = .page r := by
  cases e <;> rfl

theorem rightsOf_pageEntry (phys flags : ℕ) : rightsOf (pageEntry phys flags) = rightsOf flags := by
  have hbit (k : ℕ) (hk : k < 12) : (pageEntry phys flags).testBit k = flags.testBit k := by
    rw [pageEntry_eq, testBit_frame_lor _ _ _ hk]
    exact (Nat.testBit_mod_two_pow flags 12 k).trans (by rw [decide_eq_true hk, Bool.true_and])
  rw [rightsOf_eq, rightsOf_eq, hbit 2 (by decide), hbit 1 (by decide)]

/-- Writing the entry of a page sets it in the page tables. -/
theorem LeafSet.tables_set (hr : Reached live s)
    (h : LeafSet live s s' (ptPath v) f (vmmPtIndex v) w)
    (hw : w &&& vmmPresent ≠ 0) : tablesOf live s' = (tablesOf live s).setPage v (rightsOf w) := by
  have hon : OnWalk v (ptPath v) (vmmPtIndex v) := ⟨[], List.append_nil _⟩
  obtain ⟨q, j, is, hq, hj, hpath⟩ := hon.split
  have hlen : q.length = 3 := by
    rw [← List.length_map (f := Fin.val), hq]
    rfl
  obtain rfl : is = [] := by
    have h4 : (pagePath v).length = 4 := rfl
    rw [← hpath, List.length_append, List.length_cons] at h4
    exact List.length_eq_zero_iff.mp (by omega)
  have hentry := (h.entries f _ h.idx).trans (if_pos ⟨rfl, rfl⟩)
  have htop := tablesOf_climb (climbs_leaf (rightsOf w)) h.root
    (fun q' x k hx hk hne => (h.entries x k hk).trans (if_neg (fun hslot => hne (by
      rw [hslot.1] at hx
      rw [hr.distinct q' _ f hx h.path, hslot.2]))))
    q j [] 0 f (hq ▸ h.path) hlen (by rw [hq, hj]) (by
      rw [← hj] at hentry
      rw [setPage_nil, slotTree_page (hentry.symm ▸ hw) (Or.inl rfl), hentry])
  apply top_inj
  rw [hpath] at htop
  exact htop

/-- Writing to a frame that is no table changes no page table. -/
theorem tables_of_sameOff (hg : ∀ q, s.table live q ≠ some g) (pmm : Pmm) {m : Mem}
    (hoff : SameOff {x | g*4096 ≤ x ∧ x < g*4096 + 4096} s.mem m) :
    (∀ q, Vmm.table { s with pmm := pmm, mem := m } live q = s.table live q) ∧
      tablesOf live { s with pmm := pmm, mem := m } = tablesOf live s := by
  have hent (q : List ℕ) (x j : ℕ) (hq : s.table live q = some x) (hj : j < 512) :
      entry m x j = entry s.mem x j := entry_of_sameOff hoff (fun h => hg q (h ▸ hq)) hj
  refine ⟨fun q => ?_, ?_⟩
  · apply follow_congr
    intro q x j hq
    by_cases hj : j < 512
    · exact child_congr (hent q x j hq hj)
    · rw [child_of_ge hj, child_of_ge hj]
  · apply congrArg PageTables.mk
    funext i
    exact slotTree_congr 3 [] s.root i rfl rfl (fun q x j _ hx hj => hent q x j hx hj)

/-- `vmm_alloc_map` returns, and sets the page when it succeeds. -/
theorem Backed.vmmAllocMap_tables (hb : Backed live s) (hlarge : LargePresent live s)
    {virt flags : ℕ} (hl : LiveWalk live (virt &&& pageMask)) (hf : flags &&& vmmPresent ≠ 0) :
    ∃ s' r, vmmAllocMap s virt flags = some (s', r) ∧
      (r = 0 → ∃ d, AllocMapped live s s' (virt &&& pageMask) flags d) := by
  have hs : TableSpace live s := ⟨hb.tables.reached, hb.windows⟩
  unfold vmmAllocMap
  dsimp only
  rcases pmmAllocPage_free s with ⟨g, hg, haddr, hfree⟩ | ⟨-, hres⟩
  swap
  · rw [hres, if_pos rfl]
    exact ⟨_, -1, rfl, fun h => absurd h (by decide)⟩
  rw [haddr, if_neg (hb.address_ne_zero (Or.inl hg))]
  obtain ⟨s1, h1⟩ := hs.reached.clearPage_some (t := { s with pmm := (pmmAllocPage s.pmm).1 })
    hg (hs.accessible g (Or.inl hg)) rfl rfl
  have hoff := fill_sameOff s.mem (g*4096) 0#8 4096
  have hs1 := (hs.reached.clearPage_taken hg h1).1
  have htake : Built live g s s1 := by
    rw [hs1]
    exact hs.take hg hfree hoff
  obtain ⟨htable, htree⟩ := tables_of_sameOff (hs.reached.fresh hg) (pmmAllocPage s.pmm).1 hoff
  rw [← hs1] at htable htree
  have hdata (x j : ℕ) (hj : j < 512) (hx : x ≠ g) : entry s1.mem x j = entry s.mem x j := by
    rw [hs1]
    dsimp only
    exact entry_of_sameOff hoff hx hj
  have hnot : ¬ s1.Managed live g := by
    intro hm
    rcases hm with hm | ⟨q, hq⟩
    · rw [hs1] at hm
      exact ((hfree g).mp hm).2 rfl
    · rw [htable] at hq
      exact hb.tables.used q g hq hg
  have hlarge1 : LargePresent live s1 := by
    intro q x j hq hlen ht hj
    rw [htable] at ht
    rw [hdata x j hj (fun h => hb.tables.used q x ht (h ▸ hg))]
    exact hlarge q x j hq hlen ht hj
  have hl' : LiveWalk live ((virt &&& pageMask) &&& pageMask) := by
    rw [land_pageMask_idem]
    exact hl
  obtain ⟨s2, r, h2, hw⟩ := tree_rule.vmmMapPage ⟨htake.space, hlarge1⟩ hl' (g*4096) flags
  rw [land_pageMask_idem] at hw
  refine ⟨s2, r, by rw [h1]; exact h2, fun hr => ⟨g, ?_⟩⟩
  rcases hw with ⟨h, -⟩ | ⟨-, t, f, hk, ht, hs2⟩
  · rw [h] at hr
    cases hr
  -- tables were added, and the entry of the page was written
  have hreach := hk.built.space.reached
  have hi := vmmPtIndex_lt (virt &&& pageMask)
  have hleaf := LeafSet.of_store ht rfl hi (pageEntry_lt (g*4096) flags)
  rw [← hs2] at hleaf
  have hpres := pageEntry_present (g*4096) hf
  refine { tables := ?_, large := ?_, fresh := hg, taken := ?_, here := ?_, others := ?_
           data := ?_ }
  · rw [hleaf.tables_set hreach hpres, rightsOf_pageEntry, hk.set, htree]
  · intro q x j hq hlen hx hj
    rw [hleaf.table hreach] at hx
    rw [hleaf.entries x j hj, if_neg]
    · exact hk.large q x j hq hlen hx hj
    · intro hslot
      rw [hslot.1] at hx
      rw [hreach.distinct q _ f hx ht] at hlen
      exact absurd hlen (lt_irrefl 3)
  · exact fun hm => hnot (hk.built.managed ((hleaf.managed hreach g).mp hm))
  · intro x hc hlx hx
    have hlt : g < 2^40 := (lt_max_of_free hg).trans (by decide)
    have hframe : frameOf (g*4096) = g := by
      unfold frameOf
      omega
    rw [hleaf.walk_on hreach hlx hx hc, if_neg hpres, frameOf_pageEntry, hframe]
    rfl
  · intro x hlx hne a ha
    rw [hleaf.walk_off hreach hlx hne]
    exact hk.built.walk x hlx a (htake.walk x hlx a ha)
  · intro x j hj hx
    have hx1 : ¬ s1.Managed live x := fun hm => hx (htake.managed hm)
    have hxf : ¬ (x = f ∧ j = vmmPtIndex (virt &&& pageMask)) := fun hslot =>
      hx1 (hk.built.managed (Or.inr ⟨_, hslot.1 ▸ ht⟩))
    rw [hleaf.entries x j hj, if_neg hxf, hk.data x j hj hx1]
    exact hdata x j hj (fun h => hx (Or.inl (h ▸ hg)))

end Rule

end SukiOS

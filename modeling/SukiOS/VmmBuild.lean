import SukiOS.VmmExact
import SukiOS.VmmWalks

/-! How `vmm_map_page` and `vmm_alloc_map` build tables. One relation between the state before and
the state after holds what each step does: the entries it may change, the frames it takes, and that
no walk is lost. -/
namespace SukiOS
open ByteMemory MachineWord RadixTree

/-- Tables with frames of their own, where the kernel reaches them and the free frames. -/
structure TableSpace (live : List ℕ → Prop) (s : Vmm) : Prop where
  reached : Reached live s
  accessible : ∀ f, s.Managed live f → Window s f

/-- What may become of an entry `e` of a table at the given depth: an entry that is not present gets
a new table, a large page is split. -/
inductive EntryBuilt (depth e : ℕ) : ℕ → Prop
  | same : EntryBuilt depth e e
  | link (g : ℕ) (hd : depth < 3) (hg : g < 2^40) (he : e &&& vmmPresent = 0)
      (hs : depth = 0 ∨ e &&& vmmPs = 0) : EntryBuilt depth e (g*4096 ||| 3)
  | split (g : ℕ) (hd : depth = 2) (hg : g < 2^40) (he : e &&& vmmPs ≠ 0) :
      EntryBuilt depth e (g*4096 ||| (3 ||| (e &&& vmmUser)))

/-- Every entry that leads to a table is writable. -/
def WritableTables (live : List ℕ → Prop) (s : Vmm) : Prop :=
  ∀ p f i g, s.table live p = some f → s.table live (p ++ [i]) = some g →
    entry s.mem f i &&& vmmWrite ≠ 0

/-- From `s` to `s'` tables were added, and the frame `d` was taken for data. Frame 0 is lost when
`pmm_alloc_page` hands it out, since its address is `NULL`. -/
structure Built (live : List ℕ → Prop) (d : ℕ) (s s' : Vmm) : Prop where
  space : TableSpace live s'
  pml4 : s'.pml4 = s.pml4
  mmioNext : s'.mmioNext = s.mmioNext
  free : ∀ h, Free s' h → Free s h
  taken : ∀ h, Free s h → ¬ Free s' h → h = 0 ∨ h = d ∨ ∃ q, q ≠ [] ∧ s'.table live q = some h
  keep : ∀ q h, s.table live q = some h → s'.table live q = some h
  fresh : ∀ q h, s'.table live q = some h → s.table live q = some h ∨ Free s h
  entries : ∀ p f i, s.table live p = some f → i < 512 →
    EntryBuilt p.length (entry s.mem f i) (entry s'.mem f i)
  blank : ∀ q h i, s.table live q = none → s'.table live q = some h → q.length < 3 → i < 512 →
    EntryBuilt q.length 0 (entry s'.mem h i)
  writable : WritableTables live s → WritableTables live s'
  walk : ∀ v, LiveWalk live v → ∀ a, translate s.mem s.pml4 v = some a →
    translate s'.mem s'.pml4 v = some a

section Entries
variable {depth e e' e'' g : ℕ}

theorem link_present (g : ℕ) : (g*4096 ||| 3) &&& vmmPresent ≠ 0 := by
  rw [land_present, testBit_frame_lor _ _ _ (by decide)]
  decide

theorem link_small (g : ℕ) : (g*4096 ||| 3) &&& vmmPs = 0 := by
  have h : ¬ (g*4096 ||| 3) &&& vmmPs ≠ 0 := by
    rw [land_ps, testBit_frame_lor _ _ _ (by decide)]
    decide
  exact not_not.mp h

theorem split_present (g e : ℕ) : (g*4096 ||| (3 ||| (e &&& vmmUser))) &&& vmmPresent ≠ 0 := by
  rw [land_present, testBit_frame_lor _ _ _ (by decide), Nat.testBit_or]
  exact Bool.true_or _

theorem split_small (g e : ℕ) : (g*4096 ||| (3 ||| (e &&& vmmUser))) &&& vmmPs = 0 := by
  have hlt : 3 ||| (e &&& vmmUser) < 2^3 :=
    Nat.or_lt_two_pow (by decide) (Nat.and_lt_two_pow _ (by decide))
  have h : ¬ (g*4096 ||| (3 ||| (e &&& vmmUser))) &&& vmmPs ≠ 0 := by
    rw [land_ps, testBit_frame_lor _ _ _ (by decide), Nat.testBit_lt_two_pow (by omega)]
    decide
  exact not_not.mp h

/-- An entry that leads to a table stays as it is. -/
theorem EntryBuilt.eq (h : EntryBuilt depth e e') (hp : e &&& vmmPresent ≠ 0)
    (hs : e &&& vmmPs = 0 ∨ depth ≠ 2) : e' = e := by
  cases h with
  | same => rfl
  | link g _ _ he _ => exact absurd he hp
  | split g hd _ he => exact absurd (hs.resolve_right (not_not.mpr hd)) he

theorem EntryBuilt.trans (h : EntryBuilt depth e e') (h' : EntryBuilt depth e' e'') :
    EntryBuilt depth e e'' := by
  cases h with
  | same => exact h'
  | link g hd hg he hs =>
    rw [h'.eq (link_present g) (Or.inl (link_small g))]
    exact .link g hd hg he hs
  | split g hd hg he =>
    rw [h'.eq (split_present g e) (Or.inl (split_small g e))]
    exact .split g hd hg he

theorem EntryBuilt.small (h : EntryBuilt depth e e') (hs : e &&& vmmPs = 0) : e' &&& vmmPs = 0 := by
  cases h with
  | same => exact hs
  | link g _ _ _ _ => exact link_small g
  | split g _ _ _ => exact split_small g e

theorem link_bit (g : ℕ) {i : ℕ} (hi : i = 1 ∨ i = 2) : (g*4096 ||| 3).testBit i =
    decide (i = 1) := by
  rw [testBit_frame_lor _ _ _ (by omega)]
  rcases hi with rfl | rfl <;> rfl

theorem split_bit (g e : ℕ) {i : ℕ} (hi : i = 1 ∨ i = 2) :
    (g*4096 ||| (3 ||| (e &&& vmmUser))).testBit i = if i = 1 then true else e.testBit 2 := by
  rw [testBit_frame_lor _ _ _ (by omega), testBit_user e hi]

/-- User mode passes an entry when it passed it before: a new table is for the kernel. -/
theorem EntryBuilt.user_iff (h : EntryBuilt depth e e') (hp : e' &&& vmmPresent ≠ 0) :
    e' &&& vmmUser ≠ 0 ↔
      (e &&& vmmPresent ≠ 0 ∨ depth = 2 ∧ e &&& vmmPs ≠ 0) ∧ e &&& vmmUser ≠ 0 := by
  have huser (x : ℕ) : x &&& vmmUser ≠ 0 ↔ x.testBit 2 = true := land_bit x 2
  cases h with
  | same => exact ⟨fun h => ⟨Or.inl hp, h⟩, And.right⟩
  | link g hd hg he hs =>
    refine iff_of_false (fun h => ?_) (fun h => ?_)
    · rw [huser, link_bit g (Or.inr rfl)] at h
      cases h
    · rcases h.1 with h1 | ⟨rfl, h1⟩
      · exact h1 he
      · exact h1 (hs.resolve_left (by decide))
  | split g hd hg he =>
    rw [huser, split_bit g e (Or.inr rfl), if_neg (by decide), huser]
    exact ⟨fun h => ⟨Or.inr ⟨hd, he⟩, h⟩, And.right⟩

/-- A write passes an entry when it passed it before, or the large page it stood for was split. -/
theorem EntryBuilt.write_iff (h : EntryBuilt depth e e') (hp : e' &&& vmmPresent ≠ 0)
    (hs : depth = 2 → e' &&& vmmPs = 0) (hu : e' &&& vmmUser ≠ 0) :
    e' &&& vmmWrite ≠ 0 ↔ e &&& vmmWrite ≠ 0 ∨ depth = 2 ∧ e &&& vmmPs ≠ 0 := by
  have hwrite (x : ℕ) : x &&& vmmWrite ≠ 0 ↔ x.testBit 1 = true := land_bit x 1
  cases h with
  | same => exact ⟨Or.inl, fun h => h.resolve_right (fun h => h.2 (hs h.1))⟩
  | link g hd hg he hs =>
    have huser : (g*4096 ||| 3) &&& 2^2 ≠ 0 := hu
    rw [land_bit, link_bit g (Or.inr rfl)] at huser
    cases huser
  | split g hd hg he =>
    rw [hwrite, split_bit g e (Or.inl rfl), if_pos rfl]
    exact ⟨fun _ => Or.inr ⟨hd, he⟩, fun _ => rfl⟩

end Entries

section Steps
variable {live : List ℕ → Prop} {s s' s'' : Vmm} {p : List ℕ} {d f g i a b c v : ℕ}

theorem Built.self (hs : TableSpace live s) : Built live 0 s s where
  space := hs
  pml4 := rfl
  mmioNext := rfl
  free := fun _ h => h
  taken := fun _ h hn => absurd h hn
  keep := fun _ _ h => h
  fresh := fun _ _ h => Or.inl h
  entries := fun _ _ _ _ _ => .same
  blank := fun _ _ _ h0 h => nomatch h0.symm.trans h
  writable := fun h => h
  walk := fun _ _ _ h => h

theorem Built.trans (h : Built live d s s') (h' : Built live 0 s' s'') : Built live d s s'' where
  space := h'.space
  pml4 := h'.pml4.trans h.pml4
  mmioNext := h'.mmioNext.trans h.mmioNext
  free := fun x hx => h.free x (h'.free x hx)
  taken := by
    intro x hx hn
    by_cases hx' : Free s' x
    · rcases h'.taken x hx' hn with h0 | h0 | hq
      · exact Or.inl h0
      · exact Or.inl h0
      · exact Or.inr (Or.inr hq)
    · rcases h.taken x hx hx' with h0 | h0 | ⟨q, hq, hx⟩
      · exact Or.inl h0
      · exact Or.inr (Or.inl h0)
      · exact Or.inr (Or.inr ⟨q, hq, h'.keep q x hx⟩)
  keep := fun q x hx => h'.keep q x (h.keep q x hx)
  fresh := by
    intro q x hx
    rcases h'.fresh q x hx with hx | hx
    · exact h.fresh q x hx
    · exact Or.inr (h.free x hx)
  entries := fun p f i hp hi => (h.entries p f i hp hi).trans (h'.entries p f i (h.keep p f hp) hi)
  blank := by
    intro q x i h0 hx hlen hi
    cases hq : s'.table live q with
    | none => exact h'.blank q x i hq hx hlen hi
    | some y =>
      obtain rfl : y = x := Option.some.inj ((h'.keep q y hq).symm.trans hx)
      exact (h.blank q y i h0 hq hlen hi).trans (h'.entries q y i hq hi)
  writable := fun hw => h'.writable (h.writable hw)
  walk := fun v hl a ha => h'.walk v hl a (h.walk v hl a ha)

/-- A frame is taken, and what is written goes into it. -/
theorem TableSpace.take (hs : TableSpace live s) (hg : Free s g) {pmm : Pmm}
    (hfree : ∀ h, bitmapTest pmm.bitmap h = false ↔ Free s h ∧ h ≠ g) {m : Mem}
    (hoff : SameOff {x | g*4096 ≤ x ∧ x < g*4096 + 4096} s.mem m) :
    Built live g s { s with pmm := pmm, mem := m } := by
  have hr := hs.reached
  have hfresh := hr.fresh hg
  have hent (q : List ℕ) (x j : ℕ) (hq : s.table live q = some x) (hj : j < 512) :
      entry m x j = entry s.mem x j := entry_of_sameOff hoff (fun h => hfresh q (h ▸ hq)) hj
  -- no path leads to the frame, so the tree is the same
  have htable (q : List ℕ) : Vmm.table { s with pmm := pmm, mem := m } live q = s.table live q := by
    apply follow_congr
    intro q x j hq
    by_cases hj : j < 512
    · exact child_congr (hent q x j hq hj)
    · rw [child_of_ge hj, child_of_ge hj]
  have hwalk (v : ℕ) (hl : LiveWalk live v) :
      translate m s.pml4 v = translate s.mem s.pml4 v := hr.translate_of_sameOff hfresh hoff hl
  have hmanaged (h : ℕ) (hm : Vmm.Managed { s with pmm := pmm, mem := m } live h) :
      s.Managed live h := by
    rcases hm with hm | ⟨q, hq⟩
    · exact Or.inl ((hfree h).mp hm).1
    · exact Or.inr ⟨q, (htable q).symm.trans hq⟩
  refine { space := ⟨⟨hr.aligned, ?_, ?_, ?_, ?_⟩, ?_⟩, pml4 := Eq.refl _, mmioNext := rfl
           free := fun h hf => ((hfree h).mp hf).1, taken := ?_
           keep := fun q h hq => (htable q).trans hq
           fresh := fun q h hq => Or.inl ((htable q).symm.trans hq), entries := ?_
           blank := fun q h i h0 hq => (nomatch h0.symm.trans ((htable q).symm.trans hq)),
             writable := ?_
           walk := fun v hl a ha => (hwalk v hl).trans ha }
  · intro q q' x hq hq'
    exact hr.distinct q q' x ((htable q).symm.trans hq) ((htable q').symm.trans hq')
  · intro q h hq hf
    exact hr.used q h ((htable q).symm.trans hq) ((hfree h).mp hf).1
  · exact fun h hm => hr.reach h (hmanaged h hm)
  · intro h hm o ho a ha
    have hm' := hmanaged h hm
    exact hr.window h hm' o ho a ((hwalk _ (hr.reach h hm' o ho)).symm.trans ha)
  · intro h hm o ho
    have hm' := hmanaged h hm
    exact (hwalk _ (hr.reach h hm' o ho)).trans (hs.accessible h hm' o ho)
  · intro h hh hn
    by_cases hx : h = g
    · exact Or.inr (Or.inl hx)
    · exact absurd ((hfree h).mpr ⟨hh, hx⟩) hn
  · intro q x j hq hj
    have he := hent q x j hq hj
    dsimp only
    rw [he]
    exact .same
  · intro hw q x j y hq hy
    rw [htable] at hq hy
    have hstep : s.table live (q ++ [j]) = child s.mem live q x j := table_step hq
    have hj : j < 512 := (child_eq_some.mp (hstep.symm.trans hy)).1.1
    have he := hent q x j hq hj
    dsimp only
    rw [he]
    exact hw q x j y hq hy

/-- A new table behind an entry that led to no table. -/
theorem TableSpace.attach (hs : TableSpace live s) (ha : Attach live s s' p f i g)
    (hnone : child s.mem live p f i = none)
    (hslot : EntryBuilt p.length (entry s.mem f i) (entry s'.mem f i))
    (hw : entry s'.mem f i &&& vmmWrite ≠ 0)
    (hblank : p.length < 2 → ∀ j, j < 512 → entry s'.mem g j = 0)
    (hon : ∀ v, LiveWalk live v → OnWalk v p i → ∀ a, translate s.mem s.pml4 v = some a →
      translate s'.mem s'.pml4 v = some a) : Built live 0 s s' := by
  have hr := hs.reached
  have hkeep := ha.keeps hr hnone
  have hwalk (v : ℕ) (hl : LiveWalk live v) (a : ℕ) (hta : translate s.mem s.pml4 v = some a) :
      translate s'.mem s'.pml4 v = some a := by
    by_cases hv : OnWalk v p i
    · exact hon v hl hv a hta
    · exact (ha.walk_off hr hl hv).trans hta
  have haccess (h : ℕ) (hm : s'.Managed live h) : Window s' h := by
    have hm' := ha.managed hr hm
    intro o ho
    exact hwalk _ (hr.reach h hm' o ho) _ (hs.accessible h hm' o ho)
  have hnew : s'.table live (p ++ [i]) = some g :=
    (ha.table_iff hr (p ++ [i]) g).mpr (Or.inl ⟨Eq.refl _, Eq.refl _⟩)
  refine { space := ⟨⟨ha.aligned hr, ha.distinct hr, ha.used hr, ?_, ?_⟩, haccess⟩
           pml4 := ha.pml4, mmioNext := ha.mmioNext
           free := fun h hf => ((ha.free h).mp hf).1, taken := ?_, keep := hkeep, fresh := ?_
           entries := ?_, blank := ?_, writable := ?_, walk := hwalk }
  · exact fun h hm => hr.reach h (ha.managed hr hm)
  · intro h hm o ho a hta
    exact Option.some.inj (hta.symm.trans (haccess h hm o ho))
  · intro h hh hn
    have hx : h = g := by
      by_contra hne
      exact hn ((ha.free h).mpr ⟨hh, hne⟩)
    exact Or.inr (Or.inr ⟨_, by simp, hx ▸ hnew⟩)
  · intro q h hq
    rcases (ha.table_iff hr q h).mp hq with ⟨-, rfl⟩ | ⟨-, hq⟩
    · exact Or.inr ha.fresh
    · exact Or.inl hq
  · intro q x j hq hj
    by_cases hx : x = f ∧ j = i
    · obtain ⟨rfl, rfl⟩ := hx
      rw [hr.distinct q p x hq ha.path]
      exact hslot
    · rw [ha.entry_same hr hq hj hx]
      exact .same
  · intro q h j h0 hq hlen hj
    rcases (ha.table_iff hr q h).mp hq with ⟨rfl, rfl⟩ | ⟨-, hq⟩
    · rw [List.length_append, List.length_singleton] at hlen
      rw [hblank (by omega) j hj]
      exact .same
    · exact nomatch h0.symm.trans hq
  · intro hwr q x j y hq hy
    -- the new entry is writable, and the others lead where they led
    obtain ⟨z, hz, hchild⟩ := table_parent hy
    obtain rfl : z = x := Option.some.inj (hz.symm.trans hq)
    have hj : j < 512 := (child_eq_some.mp hchild).1.1
    rcases (ha.table_iff hr q z).mp hq with ⟨rfl, rfl⟩ | ⟨-, hq⟩
    · rw [ha.child_fresh (by simp) j] at hchild
      cases hchild
    · by_cases hx : z = f ∧ j = i
      · rw [hx.1, hx.2]
        exact hw
      · have hqne : q ++ [j] ≠ p ++ [i] := by
          intro he
          obtain ⟨rfl, hj'⟩ := List.append_inj' he (Eq.refl _)
          have hzf : z = f := Option.some.inj (hq.symm.trans ha.path)
          exact hx ⟨hzf, (List.cons.inj hj').1⟩
        rw [Attach.child_same hr ha q z j hq hqne] at hchild
        rw [ha.entry_same hr hq hj hx]
        exact hwr q z j y hq ((table_step hq).trans hchild)

/-- An empty table behind an entry that was not present. -/
theorem TableSpace.link (hs : TableSpace live s) (ha : Attach live s s' p f i g)
    (he : entry s.mem f i &&& vmmPresent = 0) (hsm : p = [] ∨ entry s.mem f i &&& vmmPs = 0)
    (hslot : entry s'.mem f i = g*4096 ||| 3) (hempty : ∀ j, j < 512 → entry s'.mem g j = 0) :
    Built live 0 s s' := by
  have hr := hs.reached
  have hg40 : g < 2^40 := (lt_max_of_free ha.fresh).trans (by decide)
  refine hs.attach ha (child_none he) ?_ ?_ (fun _ => hempty) ?_
  · rw [hslot]
    exact .link g ha.depth hg40 he (hsm.imp_left List.length_eq_zero_iff.mpr)
  · have hbit : (g*4096 ||| 3) &&& 2^1 ≠ 0 := by
      rw [land_bit, testBit_frame_lor _ _ _ (by decide)]
      decide
    rw [hslot]
    exact hbit
  · -- the walk faulted at the entry
    intro v hlv hv x hx
    rw [hr.aligned, translate_none ha.path hlv hv he] at hx
    cases hx

/-- A table of 4 KB pages behind the entry of the 2 MB page they make up. -/
theorem TableSpace.split (hs : TableSpace live s) (ha : Attach live s s' p f i g)
    (hlen : p.length = 2)
    (hps : entry s.mem f i &&& vmmPs ≠ 0)
    (hslot : entry s'.mem f i = g*4096 ||| (3 ||| (entry s.mem f i &&& vmmUser)))
    (hent : ∀ j, j < 512 → entry s'.mem g j = splitEntry (entry s.mem f i) j) :
      Built live 0 s s' := by
  have hr := hs.reached
  have hg40 : g < 2^40 := (lt_max_of_free ha.fresh).trans (by decide)
  have hne : p ≠ [] := by
    rintro rfl
    cases hlen
  apply hs.attach ha (child_large hps hne)
  · rw [hslot]
    exact .split g hlen hg40 hps
  · have hbit : (g*4096 ||| (3 ||| (entry s.mem f i &&& vmmUser))) &&& 2^1 ≠ 0 := by
      rw [land_bit, testBit_frame_lor _ _ _ (by decide), Nat.testBit_or]
      exact Bool.true_or _
    rw [hslot]
    exact hbit
  · exact fun h => absurd hlen (by omega)
  · -- the walk faulted, or it led to the 2 MB page that the 4 KB pages make up
    intro v hlv hv x hx
    by_cases hpres : entry s.mem f i &&& vmmPresent = 0
    · rw [hr.aligned, translate_none ha.path hlv hv hpres] at hx
      cases hx
    rw [← hx]
    exact ha.split_walk hr hlen hpres hps hent hlv hv

end Steps

theorem built_rule {live : List ℕ → Prop} {v : ℕ} :
    TableRule live v (TableSpace live) (Built live 0) where
  reached := fun _ hs => hs.reached
  windows := fun _ hs => hs.accessible
  space := fun _ _ hb => hb.space
  refl := fun _ hs => Built.self hs
  trans := fun _ _ _ h h' => h.trans h'
  zero := fun _ hs hg hfree => hs.take hg hfree SameOff.rfl
  link := fun _ _ _ _ _ _ hs _ ha he hsm hslot hempty => hs.link ha he hsm hslot hempty
  split := fun _ _ _ _ _ _ hs _ ha hlen hps hslot hent => hs.split ha hlen hps hslot hent

/-! ### Mapping a page -/

/-- Tables were built, and then the entry of the page of `v` was set to `w`, unless the call
failed. -/
def PageBuilt (live : List ℕ → Prop) (d : ℕ) (s s' : Vmm) (v w : ℕ) (r : ℤ) : Prop :=
  r = -1 ∧ Built live d s s' ∨ r = 0 ∧ ∃ t f, Built live d s t ∧ s'.mmioNext = t.mmioNext ∧
    LeafSet live t s' (ptPath v) f (vmmPtIndex v) w

section MapPage
variable {live : List ℕ → Prop} {s s' s'' : Vmm} {d v w phys virt flags : ℕ} {r : ℤ}

theorem PageBuilt.trans (h : Built live d s s') (h' : PageBuilt live 0 s' s'' v w r) :
    PageBuilt live d s s'' v w r := by
  rcases h' with ⟨hr, hb⟩ | ⟨hr, t, f, hb, hleaf⟩
  · exact Or.inl ⟨hr, h.trans hb⟩
  · exact Or.inr ⟨hr, t, f, h.trans hb, hleaf⟩

/-- `vmm_map_page` returns, and builds a page. -/
theorem TableSpace.vmmMapPage_built (hs : TableSpace live s)
    (hl : LiveWalk live (virt &&& pageMask))
    (phys flags : ℕ) : ∃ s' r, vmmMapPage s phys virt flags = some (s', r) ∧
      PageBuilt live 0 s s' (virt &&& pageMask) (pageEntry phys flags) r := by
  obtain ⟨s', r, hmap, hw⟩ := built_rule.vmmMapPage hs hl phys flags
  refine ⟨s', r, hmap, ?_⟩
  rcases hw with ⟨hr, hb⟩ | ⟨hr, t, f, hb, ht, hs'⟩
  · exact Or.inl ⟨hr, hb⟩
  · have hi := vmmPtIndex_lt (virt &&& pageMask)
    have hleaf := LeafSet.of_store ht rfl hi (pageEntry_lt phys flags)
    rw [← hs'] at hleaf
    exact Or.inr ⟨hr, t, f, hb, by rw [hs'], hleaf⟩

/-- `vmm_alloc_map` returns, and builds a page that leads to the frame it took. -/
theorem TableSpace.vmmAllocMap_built (hs : TableSpace live s)
    (hl : LiveWalk live (virt &&& pageMask))
    (flags : ℕ) : ∃ s' r d, vmmAllocMap s virt flags = some (s', r) ∧
      (pmmAllocPage s.pmm).2 = d*4096 ∧
      PageBuilt live d s s' (virt &&& pageMask) (pageEntry (d*4096) flags) r := by
  unfold vmmAllocMap
  dsimp only
  rcases pmmAllocPage_free s with ⟨g, hg, haddr, hfree⟩ | ⟨-, hres⟩
  · rw [haddr]
    by_cases hg0 : g*4096 = 0
    · rw [if_pos hg0]
      exact ⟨_, -1, g, rfl, rfl, Or.inl ⟨rfl, hs.take hg hfree SameOff.rfl⟩⟩
    rw [if_neg hg0]
    have hm : s.Managed live g := Or.inl hg
    obtain ⟨s1, h1⟩ := hs.reached.clearPage_some (t := { s with pmm := (pmmAllocPage s.pmm).1 })
      hg (hs.accessible g hm) rfl rfl
    have hs1 := (hs.reached.clearPage_taken hg h1).1
    have hb : Built live g s s1 := by
      rw [hs1]
      exact hs.take hg hfree (fill_sameOff s.mem (g*4096) 0#8 4096)
    have hl' : LiveWalk live ((virt &&& pageMask) &&& pageMask) := by
      rw [land_pageMask_idem]
      exact hl
    obtain ⟨s2, r, h2, hp⟩ := hb.space.vmmMapPage_built hl' (g*4096) flags
    rw [land_pageMask_idem] at hp
    refine ⟨s2, r, g, ?_, rfl, PageBuilt.trans hb hp⟩
    rw [h1]
    exact h2
  · rw [hres, if_pos rfl]
    exact ⟨_, -1, 0, rfl, (Nat.zero_mul _).symm, Or.inl ⟨rfl, Built.self hs⟩⟩

/-- The frames a failed `vmm_alloc_map` took hold tables, but for the frame of the page, and for
frame 0. -/
theorem TableSpace.alloc_failed (hs : TableSpace live s) (hl : LiveWalk live (virt &&& pageMask))
    (h : vmmAllocMap s virt flags = some (s', -1)) {f : ℕ} (hf : Free s f) (hn : ¬ Free s' f) :
    f = 0 ∨ (pmmAllocPage s.pmm).2 = f*4096 ∨ ∃ q, q ≠ [] ∧ s'.table live q = some f := by
  obtain ⟨t, r, d, hr, haddr, hbuilt⟩ := hs.vmmAllocMap_built hl flags
  obtain ⟨rfl, rfl⟩ := Prod.mk.inj (Option.some.inj (hr.symm.trans h))
  rcases hbuilt with ⟨-, hb⟩ | ⟨h0, -⟩
  · rcases hb.taken f hf hn with h0 | rfl | hq
    · exact Or.inl h0
    · exact Or.inr (Or.inl haddr)
    · exact Or.inr (Or.inr hq)
  · exact absurd h0 (by decide)

end MapPage

end SukiOS

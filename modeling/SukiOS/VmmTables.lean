import SukiOS.PmmOwnership
import SukiOS.VmmTree

/-! The invariant of the page tables: every table has a frame of its own, which the frame allocator
does not hand out, and the kernel reaches tables and free frames where it expects them. -/
namespace SukiOS
open ByteMemory MachineWord RadixTree

/-- The frame is free in the bitmap. -/
def Free (s : Vmm) (f : ℕ) : Prop := bitmapTest s.pmm.bitmap f = false

namespace Vmm

def root (s : Vmm) : ℕ := s.pml4 / 4096

/-- The frame of the table at the path `p`. -/
noncomputable def table (s : Vmm) (live : List ℕ → Prop) (p : List ℕ) : Option ℕ :=
  SukiOS.table s.mem live s.root p

/-- The frames the kernel means to reach: those of the tables and those for new ones. -/
def Managed (s : Vmm) (live : List ℕ → Prop) (f : ℕ) : Prop :=
  Free s f ∨ ∃ p, s.table live p = some f

end Vmm

/-- The kernel reaches the frame at the virtual address equal to the physical one. -/
def Window (s : Vmm) (f : ℕ) : Prop :=
  ∀ o, o < 4096 → translate s.mem s.pml4 (f*4096 + o) = some (f*4096 + o)

/-- The tables reached through the paths in `live`. -/
structure Tables (live : List ℕ → Prop) (s : Vmm) : Prop where
  aligned : s.pml4 = s.root * 4096
  distinct : Distinct (child s.mem live) s.root
  used : ∀ p f, s.table live p = some f → ¬ Free s f
  reach : ∀ f, s.Managed live f → ∀ o, o < 4096 → LiveWalk live (f*4096 + o)
  window : ∀ f, s.Managed live f → ∀ o, o < 4096 → ∀ a,
    translate s.mem s.pml4 (f*4096 + o) = some a → a = f*4096 + o
  low : ∀ f, s.Managed live f → f < 2^27
  /-- An entry for a 2 MB page is present. -/
  large : ∀ b f i, s.table live [0, b] = some f → i < 512 →
    entry s.mem f i &&& vmmPs ≠ 0 → entry s.mem f i &&& vmmPresent ≠ 0

/-- Every table has a frame of its own, and the kernel finds its frames where it expects them. -/
structure Reached (live : List ℕ → Prop) (s : Vmm) : Prop where
  aligned : s.pml4 = s.root * 4096
  distinct : Distinct (child s.mem live) s.root
  used : ∀ p f, s.table live p = some f → ¬ Free s f
  reach : ∀ f, s.Managed live f → ∀ o, o < 4096 → LiveWalk live (f*4096 + o)
  window : ∀ f, s.Managed live f → ∀ o, o < 4096 → ∀ a,
    translate s.mem s.pml4 (f*4096 + o) = some a → a = f*4096 + o

theorem Reached.fresh {live : List ℕ → Prop} {s : Vmm} (ht : Reached live s) {g : ℕ} (hg : Free s g)
    (q : List ℕ) : s.table live q ≠ some g := fun h => ht.used q g h hg

theorem Tables.reached {live : List ℕ → Prop} {s : Vmm} (ht : Tables live s) : Reached live s :=
  ⟨ht.aligned, ht.distinct, ht.used, ht.reach, ht.window⟩

/-- The tables do not depend on where the next device goes. -/
theorem Tables.withNext {live : List ℕ → Prop} {s : Vmm} (ht : Tables live s) (n : ℕ) :
    Tables live { s with mmioNext := n } :=
  ⟨ht.aligned, ht.distinct, ht.used, ht.reach, ht.window, ht.low, ht.large⟩

section Access
variable {live : List ℕ → Prop} {s s' : Vmm} {f g i v w : ℕ} {m m' : Mem} {r : ℕ}

/-- The kernel reaches its frames through the first entry of the page map level 4. -/
theorem Tables.index_zero (ht : Tables live s) (hm : s.Managed live f) {o : ℕ} (ho : o < 4096) :
    vmmPml4Index (f*4096 + o) = 0 := by
  have hf := ht.low f hm
  rw [vmmPml4Index_eq]
  omega

/-- The entries of the tables on the walk decide the translation. -/
theorem translate_congr (hl : LiveWalk live v)
    (h : ∀ p f i, table m live r p = some f → OnWalk v p i → entry m' f i = entry m f i) :
    translate m' (r*4096) v = translate m (r*4096) v := by
  by_cases hc : Canonical v
  · rw [translate_eq hc hl, translate_eq hc hl, treeWalk_congr h]
  · unfold translate
    rw [if_pos hc, if_pos hc]

/-- Writes outside the tables keep every translation. -/
theorem Reached.translate_of_sameOff (ht : Reached live s) (hg : ∀ p, s.table live p ≠ some g)
    (hoff : SameOff {x | g*4096 ≤ x ∧ x < g*4096 + 4096} s.mem m') (hl : LiveWalk live v) :
    translate m' s.pml4 v = translate s.mem s.pml4 v := by
  rw [ht.aligned]
  apply translate_congr hl
  intro p f i hp hw
  have hf : f ≠ g := fun h => hg p (h ▸ hp)
  exact entry_of_sameOff hoff hf (walkPath_lt (hw.subset (by simp)))

theorem Reached.read_eq (ht : Reached live s) (hm : s.Managed live f) (hi : i < 512)
    (h : s.read (f*4096 + 8*i) = some w) : w = entry s.mem f i := by
  obtain ⟨a, ha, rfl⟩ := Option.map_eq_some_iff.mp h
  rw [ht.window f hm (8*i) (by omega) a ha]
  rfl

theorem Reached.write_eq (ht : Reached live s) (hm : s.Managed live f) (hi : i < 512)
    (h : s.write (f*4096 + 8*i) w = some s') :
    s' = { s with mem := store64 s.mem (f*4096 + 8*i) w } := by
  obtain ⟨a, ha, rfl⟩ := Option.map_eq_some_iff.mp h
  rw [ht.window f hm (8*i) (by omega) a ha]

/-- Clearing a frame that holds no table, from the offset `o` on. -/
theorem Reached.clearFrom_eq (ht : Reached live s) (hg : ∀ p, s.table live p ≠ some g)
    (hl : ∀ o, o < 4096 → LiveWalk live (g*4096 + o))
    (hw : ∀ o, o < 4096 → ∀ a, translate s.mem s.pml4 (g*4096 + o) = some a → a = g*4096 + o)
    (n : ℕ) : ∀ o t t', o + n ≤ 4096 → t.pml4 = s.pml4 →
      SameOff {x | g*4096 ≤ x ∧ x < g*4096 + 4096} s.mem t.mem →
      clearFrom t (g*4096 + o) n = some t' →
      t' = { t with mem := fill t.mem (g*4096 + o) 0#8 n } := by
  induction n with
  | zero =>
    intro o t t' _ _ _ h
    exact (Option.some.inj h).symm
  | succ n ih =>
    intro o t t' hon hpml hoff h
    obtain ⟨a, ha, hrest⟩ := Option.bind_eq_some_iff.mp h
    have hsame := ht.translate_of_sameOff hg hoff (hl o (by omega))
    -- what was cleared so far lies in the frame, so the next byte is still found there
    rw [hpml, hsame] at ha
    have hao := hw o (by omega) a ha
    rw [hao, Nat.add_assoc] at hrest
    have hoff' : SameOff {x | g*4096 ≤ x ∧ x < g*4096 + 4096} s.mem
        (Function.update t.mem (g*4096 + o) 0#8) := hoff.update ⟨by omega, by omega⟩
    have hres := ih (o+1) { t with mem := Function.update t.mem (g*4096 + o) 0#8 } t' (by omega)
      hpml hoff' hrest
    rw [hres, fill, Nat.add_assoc]

theorem Reached.clearPage_eq (ht : Reached live s) (hg : Free s g) {t t' : Vmm}
    (hpml : t.pml4 = s.pml4) (hmem : t.mem = s.mem) (h : clearPage t (g*4096) = some t') :
    t' = { t with mem := fill t.mem (g*4096) 0#8 4096 } := by
  have hall := ht.clearFrom_eq (ht.fresh hg) (fun o => ht.reach g (Or.inl hg) o)
    (fun o => ht.window g (Or.inl hg) o) vmmPageSize 0 t t' le_rfl hpml (hmem ▸ SameOff.rfl)
  rw [Nat.add_zero] at hall
  exact hall h

/-- A frame that was taken is cleared, and nothing else. -/
theorem Reached.clearPage_taken (ht : Reached live s) (hg : Free s g) {pmm : Pmm} {t : Vmm}
    (h : clearPage { s with pmm := pmm } (g*4096) = some t) :
    t = { s with pmm := pmm, mem := fill s.mem (g*4096) 0#8 4096 } ∧
      SameOff {x | g*4096 ≤ x ∧ x < g*4096 + 4096} s.mem t.mem ∧ t.pml4 = s.pml4 := by
  have ht := ht.clearPage_eq hg (t := { s with pmm := pmm }) rfl rfl h
  refine ⟨ht, ?_, ?_⟩
  · rewrite [ht]
    dsimp only
    exact fill_sameOff s.mem (g*4096) 0#8 4096
  · rewrite [ht]
    rfl

/-- A write to a managed frame after writes to one that holds no table. -/
theorem Reached.write_off (ht : Reached live s) (hm : s.Managed live f) (hi : i < 512)
    (hg : ∀ p, s.table live p ≠ some g) {t t' : Vmm} (hpml : t.pml4 = s.pml4)
    (hoff : SameOff {x | g*4096 ≤ x ∧ x < g*4096 + 4096} s.mem t.mem)
    (h : t.write (f*4096 + 8*i) w = some t') :
    t' = { t with mem := store64 t.mem (f*4096 + 8*i) w } := by
  obtain ⟨a, ha, rfl⟩ := Option.map_eq_some_iff.mp h
  have hreach := ht.reach f hm (8*i) (by omega)
  rw [hpml, ht.translate_of_sameOff hg hoff hreach] at ha
  rw [ht.window f hm (8*i) (by omega) a ha]

theorem store64_slot_sameOff (hi : i < 512) (m : Mem) (w : ℕ) :
    SameOff {x | g*4096 ≤ x ∧ x < g*4096 + 4096} m (store64 m (g*4096 + 8*i) w) := by
  refine SameOff.mono (store64_sameOff m (g*4096 + 8*i) w) ?_
  intro x hx
  have h1 := hx.1
  have h2 := hx.2
  exact ⟨le_trans (Nat.le_add_right _ _) h1, by omega⟩

/-- A loop that writes the entries `i`, `i+1`, .. of the frame `g`, which holds no table. -/
theorem Reached.fillEntries (ht : Reached live s) (hm : s.Managed live g)
    (hg : ∀ p, s.table live p ≠ some g) {word : ℕ → ℕ} (hword : ∀ j, j < 512 → word j < 2^64)
    {F : Vmm → ℕ → ℕ → Option Vmm} (hzero : ∀ t i, F t i 0 = some t)
    (hsucc : ∀ t i n, F t i (n+1) = (t.write (g*4096 + 8*i) (word i)).bind (fun t' => F t' (i+1) n))
    (n : ℕ) : ∀ i t t', i + n ≤ 512 → t.pml4 = s.pml4 →
      SameOff {x | g*4096 ≤ x ∧ x < g*4096 + 4096} s.mem t.mem → F t i n = some t' →
      ∃ m', t' = { t with mem := m' } ∧
        SameOff {x | g*4096 ≤ x ∧ x < g*4096 + 4096} s.mem m' ∧
        ∀ j, j < 512 → entry m' g j = if i ≤ j ∧ j < i + n then word j else entry t.mem g j := by
  induction n with
  | zero =>
    intro i t t' _ _ hoff h
    rw [hzero] at h
    obtain rfl := Option.some.inj h
    refine ⟨t.mem, rfl, hoff, fun j _ => ?_⟩
    rw [if_neg (by omega)]
  | succ n ih =>
    intro i t t' hin hpml hoff h
    rw [hsucc] at h
    obtain ⟨t1, hw, hrest⟩ := Option.bind_eq_some_iff.mp h
    have hi : i < 512 := by omega
    have ht1 := ht.write_off hm hi hg hpml hoff hw
    have hoff1 := hoff.trans (store64_slot_sameOff (g := g) hi t.mem (word i))
    rw [ht1] at hrest
    obtain ⟨m', rfl, hoff', hent⟩ := ih (i+1)
      { t with mem := store64 t.mem (g*4096 + 8*i) (word i) } t' (by omega) hpml hoff1 hrest
    refine ⟨m', rfl, hoff', fun j hj => ?_⟩
    rw [hent j hj, entry_store64 hi hj (hword i hi)]
    by_cases hji : j = i
    · rw [if_neg (by omega), if_pos ⟨rfl, hji⟩, if_pos (by omega), hji]
    · have hne : ¬ (g = g ∧ j = i) := fun h => hji h.2
      rw [if_neg hne]
      by_cases hr : i + 1 ≤ j ∧ j < i + 1 + n
      · rw [if_pos hr, if_pos (by omega)]
      · rw [if_neg hr, if_neg (by omega)]

/-- `pmm_alloc_page`: no frame, or one that was free. -/
theorem pmmAllocPage_free (s : Vmm) :
    (∃ g, Free s g ∧ (pmmAllocPage s.pmm).2 = g*4096 ∧
      ∀ f, bitmapTest (pmmAllocPage s.pmm).1.bitmap f = false ↔ Free s f ∧ f ≠ g) ∨
    ((∀ f, ¬ Free s f) ∧ pmmAllocPage s.pmm = (s.pmm, 0)) := by
  rcases pmmAllocPage_cases s.pmm with ⟨g, hg, -, ha, hb⟩ | ⟨hall, hres⟩
  · refine Or.inl ⟨g, hg, ha, fun f => ?_⟩
    rw [hb, Bool.or_eq_false_iff, decide_eq_false_iff_not]
    rfl
  · refine Or.inr ⟨fun f hf => ?_, hres⟩
    have h := hall f
    rw [hf] at h
    cases h

end Access

/-! ### A fresh table in the tree -/

/-- From `s` to `s'` the frame `g` leaves the allocator and becomes the table behind the entry `i`
of the table `f` at the path `p`. -/
structure Attach (live : List ℕ → Prop) (s s' : Vmm) (p : List ℕ) (f i g : ℕ) : Prop where
  path : s.table live p = some f
  idx : i < 512
  live : live (p ++ [i])
  depth : p.length < 3
  fresh : Free s g
  pml4 : s'.pml4 = s.pml4
  mmioNext : s'.mmioNext = s.mmioNext
  free : ∀ h, Free s' h ↔ Free s h ∧ h ≠ g
  present : entry s'.mem f i &&& vmmPresent ≠ 0
  small : entry s'.mem f i &&& vmmPs = 0
  frame : frameOf (entry s'.mem f i) = g
  /-- The new table has no children. -/
  leaf : ∀ j, j < 512 → entry s'.mem g j &&& vmmPresent = 0 ∨ entry s'.mem g j &&& vmmPs ≠ 0
  large : p = [0] → ∀ j, j < 512 → entry s'.mem g j &&& vmmPs ≠ 0 →
    entry s'.mem g j &&& vmmPresent ≠ 0
  same : ∀ f' j, j < 512 → f' ≠ g → ¬ (f' = f ∧ j = i) → entry s'.mem f' j = entry s.mem f' j

/-- A frame that was filled as a table and then linked. -/
theorem Reached.attach_store {live : List ℕ → Prop} {s : Vmm} {p : List ℕ} {f i g fl : ℕ} {m : Mem}
    {pmm : Pmm} (ht : Reached live s) (hp : s.table live p = some f) (hi : i < 512)
    (hl : live (p ++ [i])) (hlen : p.length < 3) (hg : Free s g)
    (hfree : ∀ h, bitmapTest pmm.bitmap h = false ↔ Free s h ∧ h ≠ g)
    (hoff : SameOff {x | g*4096 ≤ x ∧ x < g*4096 + 4096} s.mem m) (hfl : fl < 4096)
    (hpres : fl.testBit 0 = true) (hsmall : fl.testBit 7 = false)
    (hleaf : ∀ j, j < 512 → entry m g j &&& vmmPresent = 0 ∨ entry m g j &&& vmmPs ≠ 0)
    (hlarge : p = [0] → ∀ j, j < 512 → entry m g j &&& vmmPs ≠ 0 →
      entry m g j &&& vmmPresent ≠ 0) :
    Attach live s { s with pmm := pmm, mem := store64 m (f*4096 + 8*i) (g*4096 ||| fl) } p f i
      g := by
  have hg40 : g < 2^40 := (lt_max_of_free hg).trans (by decide)
  have hfg : g ≠ f := by
    rintro rfl
    exact ht.used p _ hp hg
  have hent (f' j : ℕ) (hj : j < 512) : entry (store64 m (f*4096 + 8*i) (g*4096 ||| fl)) f' j =
      if f' = f ∧ j = i then g*4096 ||| fl else entry m f' j :=
    entry_store64 hi hj (frame_lor_lt hg40 hfl)
  have hslot := hent f i hi
  rw [if_pos ⟨rfl, rfl⟩] at hslot
  have hnew (j : ℕ) (hj : j < 512) := (hent g j hj).trans (if_neg (fun h => hfg h.1))
  -- the link goes to another frame, so the new table keeps what it was filled with
  refine { path := hp, idx := hi, live := hl, depth := hlen, fresh := hg, pml4 := rfl
           mmioNext := rfl, free := hfree, present := ?_, small := ?_, frame := ?_, leaf := ?_
           large := ?_, same := ?_ }
  · rw [hslot, land_present, testBit_frame_lor _ _ _ (by decide)]
    exact hpres
  · rw [hslot]
    by_contra h
    rw [← ne_eq, land_ps, testBit_frame_lor _ _ _ (by decide), hsmall] at h
    cases h
  · rw [hslot, frameOf_lor hg40 hfl]
  · intro j hj
    rw [hnew j hj]
    exact hleaf j hj
  · intro hp1 j hj
    rw [hnew j hj]
    exact hlarge hp1 j hj
  · intro f' j hj hf' hne
    exact (hent f' j hj).trans ((if_neg hne).trans (entry_of_sameOff hoff hf' hj))

/-- A cleared frame behind an entry: what `get_pdpte`, `get_pd` and `get_pt` add. -/
theorem Reached.attach_link {live : List ℕ → Prop} {s s' : Vmm} {p : List ℕ} {f i g : ℕ} {pmm : Pmm}
    (hr : Reached live s) (hp : s.table live p = some f) (hi : i < 512) (hl : live (p ++ [i]))
    (hlen : p.length < 3) (hg : Free s g)
    (hfree : ∀ h, bitmapTest pmm.bitmap h = false ↔ Free s h ∧ h ≠ g)
    (hs' : s' = { s with
      pmm := pmm, mem := store64 (fill s.mem (g*4096) 0#8 4096) (f*4096 + 8*i) (g*4096 ||| 3) }) :
    Attach live s s' p f i g ∧ entry s'.mem f i = g*4096 ||| 3 ∧
      ∀ j, j < 512 → entry s'.mem g j = 0 := by
  have hg40 : g < 2^40 := (lt_max_of_free hg).trans (by decide)
  have hgf : g ≠ f := fun h => hr.used p f hp (h ▸ hg)
  have hzero (j : ℕ) (hj : j < 512) : entry (fill s.mem (g*4096) 0#8 4096) g j = 0 :=
    (entry_fill hj).trans (if_pos rfl)
  refine ⟨?_, ?_, fun j hj => ?_⟩
  · rw [hs']
    apply hr.attach_store hp hi hl hlen hg hfree (fill_sameOff s.mem (g*4096) 0#8 4096) (by decide)
      (by decide) (by decide)
    · intro j hj
      rw [hzero j hj]
      exact Or.inl rfl
    · intro _ j hj hps
      rw [hzero j hj] at hps
      exact absurd rfl hps
  · rw [hs']
    exact (entry_store64 hi hi (frame_lor_lt hg40 (by decide))).trans (if_pos ⟨rfl, rfl⟩)
  · -- the store goes to the parent
    rw [← hzero j hj, hs']
    exact (entry_store64 hi hj (frame_lor_lt hg40 (by decide))).trans (if_neg (fun h => hgf h.1))

section Attach
variable {live : List ℕ → Prop} {s s' : Vmm} {p : List ℕ} {f i g : ℕ}

theorem Attach.root (ha : Attach live s s' p f i g) : s'.root = s.root := by
  unfold Vmm.root
  rw [ha.pml4]

theorem child_of_ge {m : Mem} {q : List ℕ} {j : ℕ} (hj : ¬ j < 512) : child m live q f j =
    none := by
  unfold child
  rw [if_neg (fun h => hj h.1)]

theorem Attach.child_slot (ha : Attach live s s' p f i g) : child s'.mem live p f i = some g :=
  child_eq_some.mpr ⟨⟨ha.idx, ha.depth, ha.live, ha.present, Or.inr ha.small⟩, ha.frame⟩

theorem Attach.child_fresh (ha : Attach live s s' p f i g) {live' : List ℕ → Prop} {q : List ℕ}
    (hq : q ≠ []) (j : ℕ) : child s'.mem live' q g j = none := by
  by_cases hj : j < 512
  · rcases ha.leaf j hj with h | h
    · exact child_none h
    · exact child_large h hq
  · exact child_of_ge hj

/-- An entry of a table of before is as it was unless it is the new one. -/
theorem Attach.entry_same (hr : Reached live s) (ha : Attach live s s' p f i g) {q : List ℕ}
    {x j : ℕ} (hq : s.table live q = some x) (hj : j < 512) (hx : ¬ (x = f ∧ j = i)) :
    entry s'.mem x j = entry s.mem x j := by
  have hne : x ≠ g := by
    rintro rfl
    exact hr.used q x hq ha.fresh
  exact ha.same x j hj hne hx

theorem Attach.child_same (ht : Reached live s) (ha : Attach live s s' p f i g) (q : List ℕ)
    (f' j : ℕ)
    (hq : s.table live q = some f') (hne : q ++ [j] ≠ p ++ [i]) :
    child s'.mem live q f' j = child s.mem live q f' j := by
  by_cases hj : j < 512
  · apply child_congr
    apply ha.entry_same ht hq hj
    -- the table is reached by one path only
    rintro ⟨rfl, rfl⟩
    exact hne (by rw [ht.distinct q p _ hq ha.path])
  · rw [child_of_ge hj, child_of_ge hj]

/-- The new table replaces what was behind the entry. -/
theorem Attach.table_iff (ht : Reached live s) (ha : Attach live s s' p f i g) (q : List ℕ)
    (f' : ℕ) :
    s'.table live q = some f' ↔
      (q = p ++ [i] ∧ f' = g) ∨ (¬ p ++ [i] <+: q ∧ s.table live q = some f') := by
  unfold Vmm.table
  rw [ha.root]
  exact follow_attach ha.path ha.child_slot (ha.child_fresh (by simp))
    (Attach.child_same ht ha) q

theorem Attach.aligned (hr : Reached live s) (ha : Attach live s s' p f i g) :
    s'.pml4 = s'.root * 4096 := by
  rw [ha.root, ha.pml4]
  exact hr.aligned

theorem Attach.distinct (hr : Reached live s) (ha : Attach live s s' p f i g) :
    Distinct (child s'.mem live) s'.root := by
  rw [ha.root]
  exact hr.distinct.attach (hr.fresh ha.fresh) ha.path ha.child_slot (ha.child_fresh (by simp))
    (Attach.child_same hr ha)

theorem Attach.used (hr : Reached live s) (ha : Attach live s s' p f i g) (q : List ℕ) (h : ℕ)
    (hq : s'.table live q = some h) : ¬ Free s' h := by
  intro hfree
  obtain ⟨hfree, hne⟩ := (ha.free h).mp hfree
  rcases (ha.table_iff hr q h).mp hq with ⟨-, rfl⟩ | ⟨-, hq⟩
  · exact hne rfl
  · exact hr.used q h hq hfree

/-- Where the entry led to no table, no table is lost. -/
theorem Attach.keeps (hr : Reached live s) (ha : Attach live s s' p f i g)
    (hnone : child s.mem live p f i = none) (q : List ℕ) (h : ℕ) (hq : s.table live q = some h) :
    s'.table live q = some h := by
  refine (ha.table_iff hr q h).mpr (Or.inr ⟨fun hpre => ?_, hq⟩)
  obtain ⟨x, hx⟩ := follow_of_prefix hq hpre
  have hstep : s.table live (p ++ [i]) = child s.mem live p f i := table_step ha.path
  exact nomatch (hstep.trans hnone).symm.trans hx

/-- Walks that do not use the entry are as before. -/
theorem Attach.walk_off (ht : Reached live s) (ha : Attach live s s' p f i g) {v : ℕ}
    (hl : LiveWalk live v) (hv : ¬ OnWalk v p i) :
    translate s'.mem s'.pml4 v = translate s.mem s.pml4 v := by
  rw [ha.pml4, ht.aligned]
  apply translate_congr hl
  intro q f' j hq hw
  apply ha.entry_same ht hq (walkPath_lt (hw.subset (by simp)))
  rintro ⟨rfl, rfl⟩
  have hqp : q = p := ht.distinct q p _ hq ha.path
  exact hv (hqp ▸ hw)

theorem Attach.managed (ht : Reached live s) (ha : Attach live s s' p f i g) {h : ℕ}
    (hm : s'.Managed live h) : s.Managed live h := by
  rcases hm with hm | ⟨q, hq⟩
  · exact Or.inl ((ha.free h).mp hm).1
  · rcases (ha.table_iff ht q h).mp hq with ⟨-, rfl⟩ | ⟨-, hq⟩
    · exact Or.inl ha.fresh
    · exact Or.inr ⟨q, hq⟩

/-- The invariant is kept when the walks through the new table lead where they led, or to the
address itself. -/
theorem Attach.tables (ht : Tables live s) (ha : Attach live s s' p f i g)
    (hwalk : ∀ v, LiveWalk live v → vmmPml4Index v = 0 → OnWalk v p i → ∀ a,
      translate s'.mem s'.pml4 v = some a → translate s.mem s.pml4 v = some a ∨ a = v) :
    Tables live s' := by
  refine { aligned := ha.aligned ht.reached, distinct := ha.distinct ht.reached
           used := ha.used ht.reached, reach := ?_, window := ?_
           low := fun h hm => ht.low h (ha.managed ht.reached hm), large := ?_ }
  · exact fun h hm => ht.reach h (ha.managed ht.reached hm)
  · -- an address in a window either walks through the new table or as before
    intro h hm o ho a hta
    have hm' := ha.managed ht.reached hm
    have hl := ht.reach h hm' o ho
    by_cases hv : OnWalk (h*4096 + o) p i
    · rcases hwalk _ hl (ht.index_zero hm' ho) hv a hta with hta | rfl
      · exact ht.window h hm' o ho a hta
      · rfl
    · rw [ha.walk_off ht.reached hl hv] at hta
      exact ht.window h hm' o ho a hta
  · -- a directory of the first 512 GB: the new one, the one with the new entry, or another
    intro b h j hq hj hps
    rcases (ha.table_iff ht.reached [0, b] h).mp hq with ⟨he, rfl⟩ | ⟨hpre, hq⟩
    · have hsplit : [0] ++ [b] = p ++ [i] := he
      have hp : p = [0] := (List.append_inj' hsplit rfl).1.symm
      exact ha.large hp j hj hps
    · by_cases hslot : h = f ∧ j = i
      · rw [hslot.1, hslot.2] at hps
        exact absurd ha.small hps
      · rw [ha.entry_same ht.reached hq hj hslot] at hps ⊢
        exact ht.large b h j hq hj hps

end Attach

end SukiOS

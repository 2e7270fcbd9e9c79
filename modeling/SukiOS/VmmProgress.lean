import SukiOS.VmmMap

/-! The functions of `vmm.c` do not fault, and mapping a page in a directory that exists fails only
when no frame is left. -/
namespace SukiOS
open ByteMemory MachineWord RadixTree

section Access
variable {live : List ℕ → Prop} {s s' t : Vmm} {f g i w : ℕ} {p : List ℕ}

theorem Window.read (hw : Window s f) (hi : i < 512) :
    s.read (f*4096 + 8*i) = some (entry s.mem f i) := by
  unfold Vmm.read
  rw [hw (8*i) (by omega)]
  rfl

/-- A write to a window after writes to a frame that holds no table. -/
theorem Reached.write_some (ht : Reached live s) (hm : s.Managed live f) (hw : Window s f)
    (hi : i < 512) (hg : ∀ p, s.table live p ≠ some g) (hpml : t.pml4 = s.pml4)
    (hoff : SameOff {x | g*4096 ≤ x ∧ x < g*4096 + 4096} s.mem t.mem) :
    ∃ t', t.write (f*4096 + 8*i) w = some t' := by
  have hreach := ht.reach f hm (8*i) (by omega)
  unfold Vmm.write
  rw [hpml, ht.translate_of_sameOff hg hoff hreach, hw (8*i) (by omega)]
  exact ⟨_, rfl⟩

theorem Reached.clearFrom_some (ht : Reached live s) (hg : Free s g) (hw : Window s g) (n : ℕ) :
    ∀ o t, o + n ≤ 4096 → t.pml4 = s.pml4 →
      SameOff {x | g*4096 ≤ x ∧ x < g*4096 + 4096} s.mem t.mem →
      ∃ t', clearFrom t (g*4096 + o) n = some t' := by
  induction n with
  | zero => exact fun o t _ _ _ => ⟨t, rfl⟩
  | succ n ih =>
    intro o t hon hpml hoff
    have hta : translate t.mem t.pml4 (g*4096 + o) = some (g*4096 + o) := by
      rw [hpml, ht.translate_of_sameOff (ht.fresh hg) hoff (ht.reach g (Or.inl hg) o (by omega))]
      exact hw o (by omega)
    have hoff' : SameOff {x | g*4096 ≤ x ∧ x < g*4096 + 4096} s.mem
        (Function.update t.mem (g*4096 + o) 0#8) := hoff.update ⟨by omega, by omega⟩
    rw [clearFrom, hta, Option.bind_some, Nat.add_assoc]
    exact ih (o+1) { t with mem := Function.update t.mem (g*4096 + o) 0#8 } (by omega) hpml hoff'

theorem Reached.clearPage_some (ht : Reached live s) (hg : Free s g) (hw : Window s g)
    (hpml : t.pml4 = s.pml4) (hmem : t.mem = s.mem) : ∃ t', clearPage t (g*4096) = some t' := by
  have h := ht.clearFrom_some hg hw vmmPageSize 0 t le_rfl hpml (hmem ▸ SameOff.rfl)
  rwa [Nat.add_zero] at h

theorem Reached.fillEntries_some (ht : Reached live s) (hg : Free s g) (hw : Window s g)
    (word : ℕ → ℕ) {F : Vmm → ℕ → ℕ → Option Vmm} (hzero : ∀ t i, F t i 0 = some t)
    (hsucc : ∀ t i n, F t i (n+1) = (t.write (g*4096 + 8*i) (word i)).bind (fun t' => F t' (i+1) n))
    (n : ℕ) : ∀ i t, i + n ≤ 512 → t.pml4 = s.pml4 →
      SameOff {x | g*4096 ≤ x ∧ x < g*4096 + 4096} s.mem t.mem → ∃ t', F t i n = some t' := by
  induction n with
  | zero => exact fun i t _ _ _ => ⟨t, hzero t i⟩
  | succ n ih =>
    intro i t hin hpml hoff
    have hm : s.Managed live g := Or.inl hg
    have hi : i < 512 := by omega
    obtain ⟨t1, h1⟩ := ht.write_some (w := word i) hm hw hi (ht.fresh hg) hpml hoff
    have ht1 := ht.write_off hm hi (ht.fresh hg) hpml hoff h1
    have hoff1 := hoff.trans (store64_slot_sameOff (g := g) hi t.mem (word i))
    rw [hsucc, h1, ht1]
    exact ih (i+1) { t with mem := store64 t.mem (g*4096 + 8*i) (word i) } (by omega) hpml hoff1

/-- A free frame is cleared and linked behind the entry `i` of the table `f`. -/
theorem Reached.link_total (hr : Reached live s) (hm : s.Managed live f) (hwf : Window s f)
    (hi : i < 512) (hg : Free s g) (hwg : Window s g) :
    ∃ s1 s2, clearPage { s with pmm := (pmmAllocPage s.pmm).1 } (g*4096) = some s1 ∧
      s1.write (f*4096 + 8*i) (g*4096 ||| vmmPresent ||| vmmWrite) = some s2 ∧
      s2 = { s with
        pmm := (pmmAllocPage s.pmm).1
        mem := store64 (fill s.mem (g*4096) 0#8 4096) (f*4096 + 8*i) (g*4096 ||| 3) } := by
  have hfr := hr.fresh hg
  obtain ⟨s1, h1⟩ :=
    hr.clearPage_some hg hwg (t := { s with pmm := (pmmAllocPage s.pmm).1 }) rfl rfl
  obtain ⟨hs1, hoff, hpml⟩ := hr.clearPage_taken hg h1
  -- the table is reached as before, since only the free frame changed
  obtain ⟨s2, h2⟩ := hr.write_some (w := g*4096 ||| vmmPresent ||| vmmWrite) hm hwf hi hfr hpml hoff
  have hs2 := hr.write_off hm hi hfr hpml hoff h2
  rw [hs1, Nat.or_assoc] at hs2
  dsimp only at hs2
  exact ⟨s1, s2, h1, h2, hs2⟩

/-- A window is not behind an entry that was not present, so it stays. -/
theorem Attach.window {s' : Vmm} {p : List ℕ} {h : ℕ} (hr : Reached live s)
    (ha : Attach live s s' p f i g)
    (he : entry s.mem f i &&& vmmPresent = 0) (hm : s.Managed live h) (hw : Window s h) :
    Window s' h := by
  intro o ho
  have hl := hr.reach h hm o ho
  have hold := hw o ho
  have hoff : ¬ OnWalk (h*4096 + o) p i := by
    intro hv
    rw [hr.aligned, translate_none ha.path hl hv he] at hold
    cases hold
  exact (ha.walk_off hr hl hoff).trans hold

/-- What a call for the table behind the entry `i` of the table `f` does: the table is there, no
frame is left for it, it gets frame 0, which the callers take for a failure, or a frame is cleared
and linked. -/
inductive NextTable (s : Vmm) (f i : ℕ) : Vmm → ℕ → Prop
  | there (hp : entry s.mem f i &&& vmmPresent ≠ 0) :
      NextTable s f i s (frameOf (entry s.mem f i) * 4096)
  | full (hp : entry s.mem f i &&& vmmPresent = 0) (hall : ∀ h, ¬ Free s h) : NextTable s f i s 0
  | zero (hp : entry s.mem f i &&& vmmPresent = 0) (hg : Free s 0)
      (hfree : ∀ h, bitmapTest (pmmAllocPage s.pmm).1.bitmap h = false ↔ Free s h ∧ h ≠ 0) :
      NextTable s f i { s with pmm := (pmmAllocPage s.pmm).1 } 0
  | link (g : ℕ) (hp : entry s.mem f i &&& vmmPresent = 0) (hg : Free s g) (hg0 : g ≠ 0)
      (hfree : ∀ h, bitmapTest (pmmAllocPage s.pmm).1.bitmap h = false ↔ Free s h ∧ h ≠ g) :
      NextTable s f i { s with
        pmm := (pmmAllocPage s.pmm).1
        mem := store64 (fill s.mem (g*4096) 0#8 4096) (f*4096 + 8*i) (g*4096 ||| 3) } (g*4096)

theorem Reached.nextTable_cases {p : List ℕ} (hr : Reached live s)
    (hw : ∀ h, s.Managed live h → Window s h) (hp : s.table live p = some f) (hi : i < 512)
    (hl : live (p ++ [i])) (hlen : p.length < 3) :
    ∃ s' t, nextTable s (f*4096) i true = some (s', t) ∧ NextTable s f i s' t := by
  have hm : s.Managed live f := Or.inr ⟨p, hp⟩
  unfold nextTable
  rw [(hw f hm).read hi]
  dsimp only [Option.bind_eq_bind, Option.bind_some]
  by_cases hpres : entry s.mem f i &&& vmmPresent = 0
  swap
  · rw [if_neg hpres, land_addrMask]
    exact ⟨s, _, rfl, .there hpres⟩
  rw [if_pos hpres, if_neg (by decide)]
  rcases pmmAllocPage_free s with ⟨g, hg, haddr, hfree⟩ | ⟨hall, hres⟩
  · rw [haddr]
    by_cases hg0 : g*4096 = 0
    · obtain rfl : g = 0 := by omega
      rw [if_pos hg0]
      exact ⟨_, 0, rfl, .zero hpres hg hfree⟩
    rw [if_neg hg0]
    -- the frame is cleared and linked, and the entry is read back through the same window
    obtain ⟨s1, s2, h1, h2, hs2⟩ := hr.link_total hm (hw f hm) hi hg (hw g (Or.inl hg))
    obtain ⟨ha, hslot, -⟩ := hr.attach_link hp hi hl hlen hg hfree hs2
    have h3 := (ha.window hr hpres hm (hw f hm)).read hi
    refine ⟨s2, g*4096, ?_, hs2 ▸ .link g hpres hg (by omega) hfree⟩
    rw [h1]
    dsimp only [Option.bind_eq_bind, Option.bind_some]
    rw [h2]
    dsimp only [Option.bind_eq_bind, Option.bind_some]
    rw [h3, hslot]
    dsimp only [Option.bind_eq_bind, Option.bind_some]
    rw [land_addrMask, frameOf_lor ((lt_max_of_free hg).trans (by decide)) (by decide)]
  · rw [hres, if_pos rfl]
    exact ⟨s, 0, rfl, .full hpres hall⟩

/-- A free frame becomes the page table of the 2 MB page of `pde`, behind the entry `i` of the
directory `f`. -/
theorem Reached.split_total (hr : Reached live s) (hm : s.Managed live f) (hwf : Window s f)
    (hi : i < 512) (hg : Free s g) (hwg : Window s g) (pde : ℕ) :
    ∃ s1 s2 s3 m, clearPage { s with pmm := (pmmAllocPage s.pmm).1 } (g*4096) = some s1 ∧
      splitFrom s1 (g*4096) pde 0 512 = some s2 ∧
      s2.write (f*4096 + 8*i) (g*4096 ||| vmmPresent ||| vmmWrite ||| (pde &&& vmmUser)) = some s3 ∧
      s3 = { s with
        pmm := (pmmAllocPage s.pmm).1
        mem := store64 m (f*4096 + 8*i) (g*4096 ||| (3 ||| (pde &&& vmmUser))) } ∧
      SameOff {x | g*4096 ≤ x ∧ x < g*4096 + 4096} s.mem m ∧
      ∀ j, j < 512 → entry m g j = splitEntry pde j := by
  -- each write goes through the window of the new table or of the directory
  have hfr := hr.fresh hg
  obtain ⟨s1, hclear⟩ :=
    hr.clearPage_some hg hwg (t := { s with pmm := (pmmAllocPage s.pmm).1 }) rfl rfl
  obtain ⟨hs1, hoff, hpml⟩ := hr.clearPage_taken hg hclear
  obtain ⟨s2, hfill⟩ := hr.fillEntries_some hg hwg (splitEntry pde)
    (F := fun t i n => splitFrom t (g*4096) pde i n)
    (fun _ _ => rfl) (fun _ _ _ => rfl) 512 0 s1 le_rfl hpml hoff
  obtain ⟨m, hs2, hoff2, hent⟩ := hr.fillEntries (Or.inl hg) hfr
    (fun j hj => splitEntry_lt pde hj) (F := fun t i n => splitFrom t (g*4096) pde i n)
    (fun _ _ => rfl) (fun _ _ _ => rfl) 512 0 s1 s2 le_rfl hpml hoff hfill
  have hpml2 : s2.pml4 = s.pml4 := by
    rw [hs2]
    exact hpml
  have hoff2' : SameOff {x | g*4096 ≤ x ∧ x < g*4096 + 4096} s.mem s2.mem := by
    rw [hs2]
    exact hoff2
  obtain ⟨s3, hlink⟩ := hr.write_some
    (w := g*4096 ||| vmmPresent ||| vmmWrite ||| (pde &&& vmmUser)) hm hwf hi hfr hpml2 hoff2'
  have hs3 := hr.write_off hm hi hfr hpml2 hoff2' hlink
  rw [hs2, hs1, Nat.or_assoc, Nat.or_assoc, ← Nat.or_assoc vmmPresent] at hs3
  dsimp only at hs3
  exact ⟨s1, s2, s3, m, hclear, hfill, hlink, hs3, hoff2,
    fun j hj => (hent j hj).trans (if_pos ⟨Nat.zero_le j, by omega⟩)⟩

end Access

/-- The kernel's windows are all there, and frame 0 is neither a table nor free. -/
structure Backed (live : List ℕ → Prop) (s : Vmm) : Prop where
  tables : Tables live s
  windows : ∀ f, s.Managed live f → Window s f
  zero : ¬ s.Managed live 0

section Progress
variable {live : List ℕ → Prop} {s s' : Vmm} {f g i phys virt flags v : ℕ} {p : List ℕ}
  {alloc : Bool}

theorem Backed.grown (hb : Backed live s) (hg : Grown live s s') : Backed live s' := by
  refine ⟨hg.tables, ?_, fun h => hb.zero (hg.managed h)⟩
  intro f hf o ho
  have hm := hg.managed hf
  rw [hg.walk _ (hb.tables.reach f hm o ho) (hb.tables.index_zero hm ho)]
  exact hb.windows f hm o ho

theorem Backed.read (hb : Backed live s) (hm : s.Managed live f) (hi : i < 512) :
    s.read (f*4096 + 8*i) = some (entry s.mem f i) := (hb.windows f hm).read hi

theorem Backed.address_ne_zero (hb : Backed live s) (hm : s.Managed live g) : g*4096 ≠ 0 := by
  intro h
  obtain rfl : g = 0 := by omega
  exact hb.zero hm

/-- A table that exists is found. -/
theorem Backed.nextTable_eq (hb : Backed live s) (alloc : Bool) (hp : s.table live p = some f)
    (hc : s.table live (p ++ [i]) = some g) :
    nextTable s (f*4096) i alloc = some (s, g*4096) := by
  rw [show s.table live (p ++ [i]) = child s.mem live p f i from table_step hp] at hc
  obtain ⟨⟨hi, -, -, hpres, -⟩, rfl⟩ := child_eq_some.mp hc
  unfold nextTable
  rw [hb.read (Or.inr ⟨p, hp⟩) hi, ← land_addrMask]
  exact if_neg hpres

theorem Backed.nextTableNotLarge_eq (hb : Backed live s) (alloc : Bool)
    (hp : s.table live p = some f)
    (hne : p ≠ []) (hc : s.table live (p ++ [i]) = some g) :
    nextTableNotLarge s (f*4096) i alloc = some (s, g*4096) := by
  have hnext := hb.nextTable_eq alloc hp hc
  rw [show s.table live (p ++ [i]) = child s.mem live p f i from table_step hp] at hc
  obtain ⟨⟨hi, -, -, -, hs⟩, -⟩ := child_eq_some.mp hc
  have hs0 : ¬ entry s.mem f i &&& vmmPs ≠ 0 := not_not.mpr (hs.resolve_left hne)
  unfold nextTableNotLarge
  rw [hb.read (Or.inr ⟨p, hp⟩) hi]
  exact (if_neg hs0).trans hnext

theorem Backed.nextTable_total (hb : Backed live s) (alloc : Bool) (hp : s.table live p = some f)
    (hi : i < 512)
    (hl : live (p ++ [i])) (hlen : p.length < 3) (hs : p = [] ∨ entry s.mem f i &&& vmmPs = 0) :
    ∃ s' t, nextTable s (f*4096) i alloc = some (s', t) ∧
      (alloc = true → t = 0 → ∀ h, ¬ Free s' h) := by
  cases alloc with
  | false =>
    unfold nextTable
    rw [hb.read (Or.inr ⟨p, hp⟩) hi]
    dsimp only [Option.bind_eq_bind, Option.bind_some]
    rw [if_pos rfl]
    split <;> exact ⟨s, _, rfl, fun h => absurd h Bool.false_ne_true⟩
  | true =>
    obtain ⟨s', t, h, hn⟩ := hb.tables.reached.nextTable_cases hb.windows hp hi hl hlen
    refine ⟨s', t, h, fun _ h0 => ?_⟩
    cases hn with
    | there hpres =>
      have hc : s.table live (p ++ [i]) = some (frameOf (entry s.mem f i)) :=
        (table_step hp).trans (child_eq_some.mpr ⟨⟨hi, hlen, hl, hpres, hs⟩, rfl⟩)
      exact absurd h0 (hb.address_ne_zero (Or.inr ⟨_, hc⟩))
    | full _ hall => exact hall
    | zero _ hg => exact absurd (Or.inl hg) hb.zero
    | link g _ hg => exact absurd h0 (hb.address_ne_zero (Or.inl hg))

theorem Backed.nextTableNotLarge_total (hb : Backed live s) (alloc : Bool)
    (hp : s.table live p = some f)
    (hi : i < 512) (hl : live (p ++ [i])) (hlen : p.length < 3) :
    ∃ s' t, nextTableNotLarge s (f*4096) i alloc = some (s', t) ∧
      (entry s.mem f i &&& vmmPs = 0 → alloc = true → t = 0 → ∀ h, ¬ Free s' h) := by
  unfold nextTableNotLarge
  rw [hb.read (Or.inr ⟨p, hp⟩) hi]
  dsimp only [Option.bind_eq_bind, Option.bind_some]
  by_cases hs : entry s.mem f i &&& vmmPs ≠ 0
  · rw [if_pos hs]
    exact ⟨s, 0, rfl, fun h => absurd h hs⟩
  · rw [if_neg hs]
    obtain ⟨s', t, h, hfull⟩ :=
      hb.nextTable_total alloc hp hi hl hlen (Or.inr (not_not.mp hs))
    exact ⟨s', t, h, fun _ => hfull⟩

theorem Backed.getPdpte_total (hb : Backed live s) (alloc : Bool) (hl : LiveWalk live v) :
    ∃ s' t, getPdpte s v alloc = some (s', t) := by
  have hlive : live ([] ++ [vmmPml4Index v]) := hl _ (List.cons_ne_nil _ _) ⟨_, rfl⟩
  obtain ⟨s', t, h, -⟩ := hb.nextTable_total (p := []) (f := s.root) alloc rfl
    (vmmPml4Index_lt v) hlive (by decide) (Or.inl rfl)
  rw [← hb.tables.aligned] at h
  exact ⟨s', t, h⟩

theorem Backed.getPd_total (hb : Backed live s) (alloc : Bool) (hl : LiveWalk live v) :
    ∃ s' t, getPd s v alloc = some (s', t) := by
  obtain ⟨s1, t1, h1⟩ := hb.getPdpte_total alloc hl
  obtain ⟨hg1, hf1⟩ := getPdpte_spec hb.tables hl h1
  unfold getPd
  rw [h1]
  dsimp only [Option.bind_eq_bind, Option.bind_some]
  by_cases h0 : t1 = 0
  · rw [if_pos h0]
    exact ⟨s1, 0, rfl⟩
  · rw [if_neg h0]
    obtain ⟨f3, rfl, ht3⟩ := hf1 h0
    have hlive : live ([vmmPml4Index v] ++ [vmmPdpteIndex v]) :=
      hl _ (List.cons_ne_nil _ _) ⟨_, rfl⟩
    obtain ⟨s2, t2, h2, -⟩ := (hb.grown hg1).nextTableNotLarge_total alloc ht3
      (vmmPdpteIndex_lt v) hlive (by simp)
    exact ⟨s2, t2, h2⟩

/-- A directory that exists is found. -/
theorem Backed.getPd_eq (hb : Backed live s) (alloc : Bool)
    (h2 : s.table live [vmmPml4Index v, vmmPdpteIndex v] = some f) :
    getPd s v alloc = some (s, f*4096) := by
  obtain ⟨f3, h3, -⟩ := table_init (p := [vmmPml4Index v]) h2
  have hnext := hb.nextTable_eq (p := []) (f := s.root) alloc rfl h3
  rw [← hb.tables.aligned] at hnext
  have h3' : s.table live [vmmPml4Index v] = some f3 := h3
  unfold getPd getPdpte
  rw [hnext]
  dsimp only [Option.bind_eq_bind, Option.bind_some]
  rw [if_neg (hb.address_ne_zero (Or.inr ⟨_, h3'⟩))]
  exact hb.nextTableNotLarge_eq alloc h3' (List.cons_ne_nil _ _) h2

theorem Backed.getPt_total (hb : Backed live s) (alloc : Bool) (hl : LiveWalk live v) :
    ∃ s' t, getPt s v alloc = some (s', t) ∧
      ∀ f, s.table live [vmmPml4Index v, vmmPdpteIndex v] = some f →
        entry s.mem f (vmmPdIndex v) &&& vmmPs = 0 → alloc = true → t = 0 → ∀ h, ¬ Free s' h := by
  obtain ⟨s1, t1, h1⟩ := hb.getPd_total alloc hl
  obtain ⟨hg1, hf1⟩ := getPd_spec hb.tables hl h1
  have heq (f : ℕ) (h2 : s.table live [vmmPml4Index v, vmmPdpteIndex v] = some f) :
      s1 = s ∧ t1 = f*4096 :=
    Prod.mk.inj (Option.some.inj (h1.symm.trans (hb.getPd_eq alloc h2)))
  unfold getPt
  rw [h1]
  dsimp only [Option.bind_eq_bind, Option.bind_some]
  by_cases h0 : t1 = 0
  · rw [if_pos h0]
    refine ⟨s1, 0, rfl, fun f h2 => ?_⟩
    rw [(heq f h2).2] at h0
    exact absurd h0 (hb.address_ne_zero (Or.inr ⟨_, h2⟩))
  · rw [if_neg h0]
    obtain ⟨f2, rfl, ht2⟩ := hf1 h0
    have hlive : live ([vmmPml4Index v, vmmPdpteIndex v] ++ [vmmPdIndex v]) :=
      hl _ (List.cons_ne_nil _ _) ⟨_, rfl⟩
    obtain ⟨s2, t2, h2, hfull⟩ := (hb.grown hg1).nextTableNotLarge_total alloc ht2
      (vmmPdIndex_lt v) hlive (by simp)
    refine ⟨s2, t2, h2, fun f hf hs => hfull ?_⟩
    obtain ⟨rfl, hff⟩ := heq f hf
    obtain rfl : f2 = f := by omega
    exact hs

/-- The last step of `vmm_map_page` fails only when no frame is left for the page table. -/
theorem Backed.setPage_total (hb : Backed live s) (hl : LiveWalk live v) (phys flags : ℕ) :
    ∃ s' r, setPage s phys v flags = some (s', r) ∧
      ∀ f, s.table live [vmmPml4Index v, vmmPdpteIndex v] = some f →
        entry s.mem f (vmmPdIndex v) &&& vmmPs = 0 → r = -1 → ∀ h, ¬ Free s' h := by
  obtain ⟨s1, t1, h1, hfull⟩ := hb.getPt_total true hl
  obtain ⟨hg1, hf1⟩ := getPt_spec hb.tables hl h1
  unfold setPage
  rw [h1]
  dsimp only [Option.bind_eq_bind, Option.bind_some]
  by_cases h0 : t1 = 0
  · rw [if_pos h0]
    exact ⟨s1, -1, rfl, fun f h2 hs _ => hfull f h2 hs rfl h0⟩
  · rw [if_neg h0]
    obtain ⟨f1, rfl, ht1⟩ := hf1 h0
    have hread := (hb.grown hg1).windows f1 (Or.inr ⟨_, ht1⟩) (8*vmmPtIndex v)
      (by have := vmmPtIndex_lt v; omega)
    unfold Vmm.write
    rw [hread]
    exact ⟨_, 0, rfl, fun f _ _ h => absurd h (by decide)⟩

/-- A page table that exists is found. -/
theorem Backed.getPt_eq (hb : Backed live s) (alloc : Bool)
    (h1 : s.table live (ptPath v) = some f) :
    getPt s v alloc = some (s, f*4096) := by
  obtain ⟨f2, h2, -⟩ := table_init (p := [vmmPml4Index v, vmmPdpteIndex v]) h1
  have h2 : s.table live [vmmPml4Index v, vmmPdpteIndex v] = some f2 := h2
  unfold getPt
  rw [hb.getPd_eq alloc h2]
  dsimp only [Option.bind_eq_bind, Option.bind_some]
  rw [if_neg (hb.address_ne_zero (Or.inr ⟨_, h2⟩))]
  exact hb.nextTableNotLarge_eq alloc h2 (List.cons_ne_nil _ _) h1

/-- With a page table there the last step of `vmm_map_page` succeeds, and takes no frame. -/
theorem Backed.setPage_found (hb : Backed live s) (h1 : s.table live (ptPath v) = some f)
    (phys flags : ℕ) : ∃ s', setPage s phys v flags = some (s', 0) ∧ s'.pmm = s.pmm := by
  have hread := hb.windows f (Or.inr ⟨_, h1⟩) (8*vmmPtIndex v)
    (by have := vmmPtIndex_lt v; omega)
  unfold setPage
  rw [hb.getPt_eq true h1]
  dsimp only [Option.bind_eq_bind, Option.bind_some]
  rw [if_neg (hb.address_ne_zero (Or.inr ⟨_, h1⟩))]
  unfold Vmm.write
  rw [hread]
  exact ⟨_, rfl, rfl⟩

/-- The steps that put a page table in the place of a 2 MB page. -/
theorem Backed.split_total (hb : Backed live s) (hl : LiveWalk live v)
    (h2 : s.table live [vmmPml4Index v, vmmPdpteIndex v] = some f)
    (hps : entry s.mem f (vmmPdIndex v) &&& vmmPs ≠ 0) (hg : Free s g)
    (hfree : ∀ h, bitmapTest (pmmAllocPage s.pmm).1.bitmap h = false ↔ Free s h ∧ h ≠ g) :
    ∃ s1 s2 s3, clearPage { s with pmm := (pmmAllocPage s.pmm).1 } (g*4096) = some s1 ∧
      splitFrom s1 (g*4096) (entry s.mem f (vmmPdIndex v)) 0 512 = some s2 ∧
      s2.write (f*4096 + 8*vmmPdIndex v) (g*4096 ||| vmmPresent ||| vmmWrite |||
        (entry s.mem f (vmmPdIndex v) &&& vmmUser)) = some s3 ∧
      Grown live s s3 ∧ s3.table live (ptPath v) = some g ∧ s3.pmm = (pmmAllocPage s.pmm).1 := by
  have hm2 : s.Managed live f := Or.inr ⟨_, h2⟩
  obtain ⟨s1, s2, s3, m, hclear, hfill, hlink, hs3, hoff, hent⟩ := hb.tables.reached.split_total hm2
    (hb.windows f hm2) (vmmPdIndex_lt v) hg (hb.windows g (Or.inl hg))
    (entry s.mem f (vmmPdIndex v))
  have hlive : live (ptPath v) := hl _ (List.cons_ne_nil _ _) ⟨_, rfl⟩
  obtain ⟨hsplit, hpt⟩ := hb.tables.split h2 (vmmPdIndex_lt v) hlive hps hg hfree hoff hent hs3
  exact ⟨s1, s2, s3, hclear, hfill, hlink, hsplit, hpt, by rw [hs3]⟩

/-- `vmm_map_page` does not fault. In a directory that exists it fails only when no frame is left.
-/
theorem Backed.vmmMapPage_total (hb : Backed live s) (hl : LiveWalk live (virt &&& pageMask))
    (phys flags : ℕ) : ∃ s' r, vmmMapPage s phys virt flags = some (s', r) ∧
      ∀ f, s.table live [vmmPml4Index (virt &&& pageMask), vmmPdpteIndex (virt &&& pageMask)] =
        some f → r = -1 → ∀ h, ¬ Free s' h := by
  unfold vmmMapPage
  dsimp only
  generalize virt &&& pageMask = v at hl ⊢
  obtain ⟨s1, t1, h1⟩ := hb.getPd_total true hl
  obtain ⟨hg1, hf1⟩ := getPd_spec hb.tables hl h1
  -- a directory that was there is found, and no frame is taken
  have heq (f : ℕ) (h2 : s.table live [vmmPml4Index v, vmmPdpteIndex v] = some f) :
      s1 = s ∧ t1 = f*4096 :=
    Prod.mk.inj (Option.some.inj (h1.symm.trans (hb.getPd_eq true h2)))
  rw [h1]
  dsimp only [Option.bind_eq_bind, Option.bind_some]
  by_cases h0 : t1 = 0
  · rw [if_pos h0]
    refine ⟨s1, -1, rfl, fun f h2 => ?_⟩
    rw [(heq f h2).2] at h0
    exact absurd h0 (hb.address_ne_zero (Or.inr ⟨_, h2⟩))
  rw [if_neg h0]
  obtain ⟨f2, rfl, ht2⟩ := hf1 h0
  have hb1 := hb.grown hg1
  have hm2 : s1.Managed live f2 := Or.inr ⟨_, ht2⟩
  have hc := vmmPdIndex_lt v
  rw [hb1.read hm2 hc]
  dsimp only [Option.bind_eq_bind, Option.bind_some]
  by_cases hps : entry s1.mem f2 (vmmPdIndex v) &&& vmmPs ≠ 0
  · rw [if_pos hps]
    rcases pmmAllocPage_free s1 with ⟨g, hfg, haddr, hfree⟩ | ⟨hall, hres⟩
    · rw [haddr, if_neg (hb1.address_ne_zero (Or.inl hfg))]
      obtain ⟨s2, s3, s4, hclear, hfill, hlink, hsplit, hpt, -⟩ :=
        hb1.split_total hl ht2 hps hfg hfree
      obtain ⟨s5, r, hset, hfull⟩ := (hb1.grown hsplit).setPage_total hl (phys &&& pageMask) flags
      refine ⟨s5, r, ?_, fun f _ => hfull f2 (hsplit.keep _ _ ht2) ?_⟩
      · rw [hclear]
        dsimp only [Option.bind_eq_bind, Option.bind_some]
        rw [hfill]
        dsimp only [Option.bind_eq_bind, Option.bind_some]
        rw [hlink]
        exact hset
      · -- the entry leads to the new page table now
        obtain ⟨f, hf, -, hs⟩ := table_init (p := [vmmPml4Index v, vmmPdpteIndex v]) hpt
        obtain rfl : f = f2 := Option.some.inj (hf.symm.trans (hsplit.keep _ _ ht2))
        exact hs.resolve_left (List.cons_ne_nil _ _)
    · rw [hres, if_pos rfl]
      exact ⟨s1, -1, rfl, fun _ _ _ => hall⟩
  · rw [if_neg hps]
    obtain ⟨s5, r, hset, hfull⟩ := hb1.setPage_total hl (phys &&& pageMask) flags
    exact ⟨s5, r, hset, fun f _ => hfull f2 ht2 (not_not.mp hps)⟩

/-- In a 2 MB page `vmm_map_page` takes one frame for the page table, and succeeds. -/
theorem Backed.vmmMapPage_large (hb : Backed live s) (hl : LiveWalk live (virt &&& pageMask))
    (h2 : s.table live [vmmPml4Index (virt &&& pageMask),
      vmmPdpteIndex (virt &&& pageMask)] = some f)
    (hps : entry s.mem f (vmmPdIndex (virt &&& pageMask)) &&& vmmPs ≠ 0) (hfree : Free s g)
    (phys flags : ℕ) : ∃ s', vmmMapPage s phys virt flags = some (s', 0) ∧
      s'.pmm = (pmmAllocPage s.pmm).1 := by
  unfold vmmMapPage
  dsimp only
  generalize virt &&& pageMask = v at hl h2 hps ⊢
  rcases pmmAllocPage_free s with ⟨x, hx, haddr, hbits⟩ | ⟨hnone, -⟩
  · obtain ⟨s1, s2, s3, hclear, hfill, hlink, hsplit, hpt, hpmm⟩ :=
      hb.split_total hl h2 hps hx hbits
    obtain ⟨s', hset, hpmm'⟩ := (hb.grown hsplit).setPage_found hpt (phys &&& pageMask) flags
    refine ⟨s', ?_, hpmm'.trans hpmm⟩
    rw [hb.getPd_eq true h2]
    dsimp only [Option.bind_eq_bind, Option.bind_some]
    rw [if_neg (hb.address_ne_zero (Or.inr ⟨_, h2⟩)), hb.read (Or.inr ⟨_, h2⟩) (vmmPdIndex_lt v)]
    dsimp only [Option.bind_some]
    rw [if_pos hps, haddr, if_neg (hb.address_ne_zero (Or.inl hx)), hclear]
    dsimp only [Option.bind_some]
    rw [hfill]
    dsimp only [Option.bind_some]
    rw [hlink]
    exact hset
  · exact absurd hfree (hnone g)

/-- `pmm_alloc_page` takes the first free frame. -/
theorem pmmAllocPage_least {a : ℕ} (ha : Free s a) (haddr : (pmmAllocPage s.pmm).2 = g*4096) :
    g ≤ a := by
  rcases pmmAllocPage_cases s.pmm with ⟨x, -, hbefore, hx, -⟩ | ⟨hall, -⟩
  · have hx : (pmmAllocPage s.pmm).2 = x*4096 := hx
    obtain rfl : g = x := by omega
    by_contra hlt
    exact nomatch ha.symm.trans (hbefore a (by omega))
  · exact nomatch ha.symm.trans (hall a)

/-- In a 2 MB page `vmm_alloc_map` takes a frame for the page and one for the page table. -/
theorem Backed.vmmAllocMap_large (hb : Backed live s) (hl : LiveWalk live (virt &&& pageMask))
    (h2 : s.table live [vmmPml4Index (virt &&& pageMask),
      vmmPdpteIndex (virt &&& pageMask)] = some f)
    (hps : entry s.mem f (vmmPdIndex (virt &&& pageMask)) &&& vmmPs ≠ 0) {x y : ℕ}
    (hx : Free s x) (hy : Free s y) (hxy : x < y) (flags : ℕ) :
    ∃ s' g g', vmmAllocMap s virt flags = some (s', 0) ∧ (pmmAllocPage s.pmm).2 = g*4096 ∧
      g ≤ x ∧ g' ≤ y ∧ ∀ h, Free s' h ↔ Free s h ∧ h ≠ g ∧ h ≠ g' := by
  have ht := hb.tables
  obtain ⟨g, hg, haddr, hfree⟩ := (pmmAllocPage_free s).resolve_right (fun h => h.1 x hx)
  have hgx := pmmAllocPage_least hx haddr
  obtain ⟨s1, hclear⟩ := ht.reached.clearPage_some hg (hb.windows g (Or.inl hg))
    (t := { s with pmm := (pmmAllocPage s.pmm).1 }) rfl rfl
  obtain ⟨hs1, hgrow⟩ := ht.take_cleared hg hfree hclear
  have hfree1 (h : ℕ) : Free s1 h ↔ Free s h ∧ h ≠ g := by
    rw [hs1]
    exact hfree h
  -- the directory is another frame, so the large page is still there
  have hfg : f ≠ g := by
    rintro rfl
    exact ht.used _ f h2 hg
  have hps1 : entry s1.mem f (vmmPdIndex (virt &&& pageMask)) &&& vmmPs ≠ 0 := by
    rw [hs1]
    dsimp only
    rw [entry_fill (vmmPdIndex_lt _), if_neg hfg]
    exact hps
  have hy1 : Free s1 y := (hfree1 y).mpr ⟨hy, by omega⟩
  obtain ⟨g', -, haddr', hfree2⟩ := (pmmAllocPage_free s1).resolve_right (fun h => h.1 y hy1)
  have hgy := pmmAllocPage_least hy1 haddr'
  rw [← land_pageMask_idem virt] at hl h2 hps1
  obtain ⟨s', hmap, hpmm⟩ :=
    (hb.grown hgrow).vmmMapPage_large hl (hgrow.keep _ _ h2) hps1 hy1 (g*4096) flags
  refine ⟨s', g, g', ?_, haddr, hgx, hgy, fun h => ?_⟩
  · unfold vmmAllocMap
    dsimp only
    rw [haddr, if_neg (hb.address_ne_zero (Or.inl hg)), hclear]
    exact hmap
  · have hfree' : Free s' h ↔ bitmapTest (pmmAllocPage s1.pmm).1.bitmap h = false := by
      rw [Free, hpmm]
    rw [hfree', hfree2, hfree1, and_assoc]

/-- A page inside a 2 MB page counts as not mapped. -/
theorem Backed.vmmIsMapped_large (hb : Backed live s)
    (h2 : s.table live [vmmPml4Index v, vmmPdpteIndex v] = some f)
    (hps : entry s.mem f (vmmPdIndex v) &&& vmmPs ≠ 0) : vmmIsMapped s v = some false := by
  have hpt : getPt s v false = some (s, 0) := by
    unfold getPt
    rw [hb.getPd_eq false h2]
    dsimp only [Option.bind_eq_bind, Option.bind_some]
    rw [if_neg (hb.address_ne_zero (Or.inr ⟨_, h2⟩))]
    unfold nextTableNotLarge
    rw [hb.read (Or.inr ⟨_, h2⟩) (vmmPdIndex_lt v)]
    exact if_pos hps
  unfold vmmIsMapped
  rw [hpt]
  dsimp only [Option.bind_eq_bind, Option.bind_some]
  exact if_pos rfl

end Progress

end SukiOS

import SukiOS.VmmProgress

/-! The paths through `vmm_map_page`. A property of the tables that is kept when a frame is taken,
when a table is linked, and when a large page is split, is kept up to the write of the page entry.
-/
namespace SukiOS
open ByteMemory MachineWord RadixTree

/-- A relation `R` between the states before and after, on the spaces where `P` holds, that each
change of the tables on the walk of `v` keeps. -/
structure TableRule (live : List ℕ → Prop) (v : ℕ) (P : Vmm → Prop) (R : Vmm → Vmm → Prop) :
    Prop where
  reached : ∀ s, P s → Reached live s
  windows : ∀ s, P s → ∀ f, s.Managed live f → Window s f
  space : ∀ s s', R s s' → P s'
  refl : ∀ s, P s → R s s
  trans : ∀ s s' s'', R s s' → R s' s'' → R s s''
  /-- Frame 0 is taken, which the callers take for a failure. -/
  zero : ∀ s, P s → Free s 0 →
    (∀ h, bitmapTest (pmmAllocPage s.pmm).1.bitmap h = false ↔ Free s h ∧ h ≠ 0) →
    R s { s with pmm := (pmmAllocPage s.pmm).1 }
  /-- An empty table is linked where nothing was present. -/
  link : ∀ s s' p f i g, P s → OnWalk v p i → Attach live s s' p f i g →
    entry s.mem f i &&& vmmPresent = 0 →
    (p = [] ∨ entry s.mem f i &&& vmmPs = 0) → entry s'.mem f i = g*4096 ||| 3 →
    (∀ j, j < 512 → entry s'.mem g j = 0) → R s s'
  /-- A page table takes the place of the large page it makes up. -/
  split : ∀ s s' p f i g, P s → OnWalk v p i → Attach live s s' p f i g → p.length = 2 →
    entry s.mem f i &&& vmmPs ≠ 0 →
    entry s'.mem f i = g*4096 ||| (3 ||| (entry s.mem f i &&& vmmUser)) →
    (∀ j, j < 512 → entry s'.mem g j = splitEntry (entry s.mem f i) j) → R s s'

section Rule
variable {live : List ℕ → Prop} {P : Vmm → Prop} {R : Vmm → Vmm → Prop} {s : Vmm} {p : List ℕ}
  {f i v virt : ℕ}

/-! ### Finding a table -/

theorem TableRule.nextTable (hr : TableRule live v P R) (hs : P s) (hp : s.table live p = some f)
    (hi : i < 512) (hl : live (p ++ [i])) (hon : OnWalk v p i) (hlen : p.length < 3)
    (hsm : p = [] ∨ entry s.mem f i &&& vmmPs = 0) :
    ∃ s' t, nextTable s (f*4096) i true = some (s', t) ∧ R s s' ∧ Found live s' (p ++ [i]) t := by
  have hreach := hr.reached s hs
  obtain ⟨s', t, h, hn⟩ := hreach.nextTable_cases (hr.windows s hs) hp hi hl hlen
  refine ⟨s', t, h, ?_⟩
  cases hn with
  | there hpres =>
    have hc : s.table live (p ++ [i]) = some (frameOf (entry s.mem f i)) :=
      (table_step hp).trans (child_eq_some.mpr ⟨⟨hi, hlen, hl, hpres, hsm⟩, rfl⟩)
    exact ⟨hr.refl s hs, fun _ => ⟨_, rfl, hc⟩⟩
  | full => exact ⟨hr.refl s hs, fun h0 => absurd rfl h0⟩
  | zero _ hg hfree => exact ⟨hr.zero s hs hg hfree, fun h0 => absurd rfl h0⟩
  | link g hpres hg _ hfree =>
    obtain ⟨ha, hslot, hempty⟩ := hreach.attach_link hp hi hl hlen hg hfree rfl
    exact ⟨hr.link s _ p f i g hs hon ha hpres hsm hslot hempty,
      fun _ => ⟨g, rfl, (ha.table_iff hreach (p ++ [i]) g).mpr (Or.inl ⟨rfl, rfl⟩)⟩⟩

theorem TableRule.nextTableNotLarge (hr : TableRule live v P R) (hs : P s)
    (hp : s.table live p = some f) (hi : i < 512) (hl : live (p ++ [i])) (hon : OnWalk v p i)
    (hlen : p.length < 3) :
    ∃ s' t, nextTableNotLarge s (f*4096) i true = some (s', t) ∧ R s s' ∧
      Found live s' (p ++ [i]) t := by
  unfold SukiOS.nextTableNotLarge
  rw [(hr.windows s hs f (Or.inr ⟨p, hp⟩)).read hi]
  dsimp only [Option.bind_eq_bind, Option.bind_some]
  by_cases hps : entry s.mem f i &&& vmmPs ≠ 0
  · rw [if_pos hps]
    exact ⟨s, 0, rfl, hr.refl s hs, fun h0 => absurd rfl h0⟩
  · -- the entry is not a large page, so the table is looked for behind it
    rw [if_neg hps]
    exact hr.nextTable hs hp hi hl hon hlen (Or.inr (not_not.mp hps))

theorem TableRule.getPd (hr : TableRule live v P R) (hs : P s) (hl : LiveWalk live v) :
    ∃ s' t, getPd s v true = some (s', t) ∧ R s s' ∧
      Found live s' [vmmPml4Index v, vmmPdpteIndex v] t := by
  have hl4 : live ([] ++ [vmmPml4Index v]) := hl _ (List.cons_ne_nil _ _) ⟨_, rfl⟩
  obtain ⟨s1, t1, h1, hr1, hf1⟩ := hr.nextTable hs (p := []) rfl (vmmPml4Index_lt v) hl4
    ⟨_, rfl⟩ (by decide) (Or.inl rfl)
  have hpdpte : getPdpte s v true = some (s1, t1) := by
    unfold getPdpte
    rw [(hr.reached s hs).aligned]
    exact h1
  unfold SukiOS.getPd
  rw [hpdpte]
  dsimp only [Option.bind_eq_bind, Option.bind_some]
  by_cases h0 : t1 = 0
  · rw [if_pos h0]
    exact ⟨s1, 0, rfl, hr1, fun h0 => absurd rfl h0⟩
  rw [if_neg h0]
  obtain ⟨f3, rfl, ht3⟩ := hf1 h0
  have hl3 : live ([vmmPml4Index v] ++ [vmmPdpteIndex v]) := hl _ (List.cons_ne_nil _ _) ⟨_, rfl⟩
  obtain ⟨s2, t2, h2, hr2, hf2⟩ := hr.nextTableNotLarge (hr.space s s1 hr1) ht3
    (vmmPdpteIndex_lt v) hl3 ⟨_, rfl⟩ (by simp)
  exact ⟨s2, t2, h2, hr.trans s s1 s2 hr1 hr2, hf2⟩

theorem TableRule.getPt (hr : TableRule live v P R) (hs : P s) (hl : LiveWalk live v) :
    ∃ s' t, getPt s v true = some (s', t) ∧ R s s' ∧ Found live s' (ptPath v) t := by
  obtain ⟨s1, t1, h1, hr1, hf1⟩ := hr.getPd hs hl
  unfold SukiOS.getPt
  rw [h1]
  dsimp only [Option.bind_eq_bind, Option.bind_some]
  by_cases h0 : t1 = 0
  · rw [if_pos h0]
    exact ⟨s1, 0, rfl, hr1, fun h0 => absurd rfl h0⟩
  rw [if_neg h0]
  obtain ⟨f2, rfl, ht2⟩ := hf1 h0
  have hl2 : live ([vmmPml4Index v, vmmPdpteIndex v] ++ [vmmPdIndex v]) :=
    hl _ (List.cons_ne_nil _ _) ⟨_, rfl⟩
  obtain ⟨s2, t2, h2, hr2, hf2⟩ := hr.nextTableNotLarge (hr.space s s1 hr1) ht2
    (vmmPdIndex_lt v) hl2 ⟨_, rfl⟩ (by simp)
  exact ⟨s2, t2, h2, hr.trans s s1 s2 hr1 hr2, hf2⟩

/-! ### Setting the page -/

/-- Tables were built as `R` says, and then the entry of the page of `v` was set to `w`, unless the
call failed. -/
def PageWritten (live : List ℕ → Prop) (R : Vmm → Vmm → Prop) (s s' : Vmm) (v w : ℕ) (r : ℤ) :
    Prop :=
  r = -1 ∧ R s s' ∨ r = 0 ∧ ∃ t f, R s t ∧ t.table live (ptPath v) = some f ∧
    s' = { t with mem := store64 t.mem (f*4096 + 8*vmmPtIndex v) w }

theorem TableRule.written {s1 s2 : Vmm} {w : ℕ} {r : ℤ} (hr : TableRule live v P R) (h1 : R s s1)
    (h2 : PageWritten live R s1 s2 v w r) : PageWritten live R s s2 v w r := by
  rcases h2 with ⟨hr0, h⟩ | ⟨hr0, t, f, ht, hrest⟩
  · exact Or.inl ⟨hr0, hr.trans s s1 s2 h1 h⟩
  · exact Or.inr ⟨hr0, t, f, hr.trans s s1 t h1 ht, hrest⟩

theorem TableRule.setPage (hr : TableRule live v P R) (hs : P s) (hl : LiveWalk live v)
    (phys flags : ℕ) : ∃ s' r, setPage s (phys &&& pageMask) v flags = some (s', r) ∧
      PageWritten live R s s' v (pageEntry phys flags) r := by
  obtain ⟨s1, t, h1, hr1, hfound⟩ := hr.getPt hs hl
  unfold SukiOS.setPage
  rw [h1]
  dsimp only [Option.bind_eq_bind, Option.bind_some]
  by_cases h0 : t = 0
  · rw [if_pos h0]
    exact ⟨s1, -1, rfl, Or.inl ⟨rfl, hr1⟩⟩
  rw [if_neg h0]
  obtain ⟨f, rfl, ht⟩ := hfound h0
  have hwin := hr.windows s1 (hr.space s s1 hr1) f (Or.inr ⟨_, ht⟩)
  have hi := vmmPtIndex_lt v
  have hwrite : s1.write (f*4096 + 8*vmmPtIndex v) (pageEntry phys flags) =
      some { s1 with mem := store64 s1.mem (f*4096 + 8*vmmPtIndex v) (pageEntry phys flags) } := by
    unfold Vmm.write
    rw [hwin _ (by omega)]
    rfl
  refine ⟨_, 0, ?_, Or.inr ⟨rfl, s1, f, hr1, ht, rfl⟩⟩
  exact congrArg (fun o => Option.bind o (fun t => some (t, (0 : ℤ)))) hwrite

/-- `vmm_map_page` returns. -/
theorem TableRule.vmmMapPage (hr : TableRule live (virt &&& pageMask) P R) (hs : P s)
    (hl : LiveWalk live (virt &&& pageMask)) (phys flags : ℕ) :
    ∃ s' r, vmmMapPage s phys virt flags = some (s', r) ∧
      PageWritten live R s s' (virt &&& pageMask) (pageEntry phys flags) r := by
  unfold SukiOS.vmmMapPage
  dsimp only
  generalize virt &&& pageMask = v at hr hl ⊢
  obtain ⟨s1, t, h1, hr1, hfound⟩ := hr.getPd hs hl
  have hs1 := hr.space s s1 hr1
  rw [h1]
  dsimp only [Option.bind_eq_bind, Option.bind_some]
  by_cases h0 : t = 0
  · rw [if_pos h0]
    exact ⟨s1, -1, rfl, Or.inl ⟨rfl, hr1⟩⟩
  rw [if_neg h0]
  obtain ⟨f2, rfl, ht2⟩ := hfound h0
  have hreach := hr.reached s1 hs1
  have hwin := hr.windows s1 hs1
  have hi := vmmPdIndex_lt v
  have hm2 : s1.Managed live f2 := Or.inr ⟨_, ht2⟩
  rw [(hwin f2 hm2).read hi]
  dsimp only [Option.bind_eq_bind, Option.bind_some]
  by_cases hps : entry s1.mem f2 (vmmPdIndex v) &&& vmmPs ≠ 0
  · -- a large page is split first
    rw [if_pos hps]
    rcases pmmAllocPage_free s1 with ⟨g, hg, haddr, hfree⟩ | ⟨-, hres⟩
    · rw [haddr]
      by_cases hg0 : g*4096 = 0
      · obtain rfl : g = 0 := by omega
        rw [if_pos hg0]
        exact ⟨_, -1, rfl, Or.inl ⟨rfl, hr.trans s s1 _ hr1 (hr.zero s1 hs1 hg hfree)⟩⟩
      rw [if_neg hg0]
      obtain ⟨s2, s3, s4, m, hclear, hfill, hlink, hs4, hoff, hent⟩ := hreach.split_total hm2
        (hwin f2 hm2) hi hg (hwin g (Or.inl hg)) (entry s1.mem f2 (vmmPdIndex v))
      have hl2 : live ([vmmPml4Index v, vmmPdpteIndex v] ++ [vmmPdIndex v]) :=
        hl _ (List.cons_ne_nil _ _) ⟨_, rfl⟩
      obtain ⟨ha, hslot, hnew⟩ := hreach.attach_split ht2 rfl hi hl2 hps hg hfree hoff hent hs4
      -- the table of the split keeps the relation, and the page is set after it
      have hr4 := hr.split s1 s4 _ f2 _ g hs1 ⟨_, rfl⟩ ha rfl hps hslot hnew
      obtain ⟨s5, r, hset, hw⟩ := hr.setPage (hr.space s1 s4 hr4) hl phys flags
      refine ⟨s5, r, ?_, hr.written (hr.trans s s1 s4 hr1 hr4) hw⟩
      rw [hclear]
      dsimp only [Option.bind_eq_bind, Option.bind_some]
      rw [hfill]
      dsimp only [Option.bind_eq_bind, Option.bind_some]
      rw [hlink]
      exact hset
    · rw [hres, if_pos rfl]
      exact ⟨s1, -1, rfl, Or.inl ⟨rfl, hr1⟩⟩
  · rw [if_neg hps]
    obtain ⟨s5, r, hset, hw⟩ := hr.setPage hs1 hl phys flags
    exact ⟨s5, r, hset, hr.written hr1 hw⟩

end Rule

end SukiOS

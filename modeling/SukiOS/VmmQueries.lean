import SukiOS.VmmExact
import SukiOS.VmmRuns
import SukiOS.VmmWalks

/-! What `vmm_is_mapped`, `vmm_get_phys`, `vmm_unmap_page` and `vmm_change_flags` know of the page
tables: the pages of 4 KB. -/
namespace SukiOS
open ByteMemory MachineWord RadixTree Transition

/-! ### The calls -/

inductive VmmCall where
  | op (o : VmmOp)
  | unmapPage (virt : ℕ)
  | changeFlags (virt flags : ℕ)

def vmmCall (s : Vmm) : VmmCall → Option Vmm
  | .op o => vmmApply s o
  | .unmapPage virt => vmmUnmapPage s virt
  | .changeFlags virt flags => vmmChangeFlags s virt flags

/-- The runs after a `vmm_init` that mapped the four gigabytes. -/
def vmmCalls (b : Boot) : System Vmm VmmCall where
  init s := vmmInit b.start = some (s, true)
  step s c s' := vmmCall s c = some s'

/-- The pages whose entries a call may write. -/
def calledPages (s : Vmm) : VmmCall → Set ℕ
  | .op o => {v | ∃ w, (v, w) ∈ pagesOf s o}
  | .unmapPage virt => {virt &&& pageMask}
  | .changeFlags virt _ => {virt &&& pageMask}

/-- The page is behind tables that count, and in no window of the kernel. -/
def Spared (live : List ℕ → Prop) (s : Vmm) (v : ℕ) : Prop :=
  LiveWalk live v ∧ ∀ h, s.Managed live h → walkPath (h*4096) ≠ walkPath v

def SparesWindows (live : List ℕ → Prop) (s : Vmm) (c : VmmCall) : Prop :=
  ∀ v ∈ calledPages s c, Spared live s v

/-! ### The page table of an address -/

section Find
variable {live : List ℕ → Prop} {s s' : Vmm} {v f i t w : ℕ}

theorem nextTable_keeps (h : nextTable s f i false = some (s', t)) : s' = s := by
  obtain ⟨e, -, h⟩ := Option.bind_eq_some_iff.mp h
  by_cases hp : e &&& vmmPresent = 0
  · rw [if_pos hp, if_pos rfl] at h
    exact (Prod.mk.inj (Option.some.inj h)).1.symm
  · rw [if_neg hp] at h
    exact (Prod.mk.inj (Option.some.inj h)).1.symm

theorem nextTableNotLarge_keeps (h : nextTableNotLarge s f i false = some (s', t)) : s' = s := by
  obtain ⟨e, -, h⟩ := Option.bind_eq_some_iff.mp h
  by_cases hs : e &&& vmmPs ≠ 0
  · rw [if_pos hs] at h
    exact (Prod.mk.inj (Option.some.inj h)).1.symm
  · rw [if_neg hs] at h
    exact nextTable_keeps h

theorem getPd_keeps (h : getPd s v false = some (s', t)) : s' = s := by
  obtain ⟨⟨s1, t1⟩, h1, hrest⟩ := Option.bind_eq_some_iff.mp h
  have hfirst : s1 = s := nextTable_keeps h1
  by_cases h0 : t1 = 0
  · rw [if_pos h0] at hrest
    exact (Prod.mk.inj (Option.some.inj hrest)).1.symm.trans hfirst
  · rw [if_neg h0] at hrest
    exact (nextTableNotLarge_keeps hrest).trans hfirst

/-- A search without `alloc` changes nothing. -/
theorem getPt_keeps (h : getPt s v false = some (s', t)) : s' = s := by
  obtain ⟨⟨s1, t1⟩, h1, hrest⟩ := Option.bind_eq_some_iff.mp h
  have hfirst : s1 = s := getPd_keeps h1
  by_cases h0 : t1 = 0
  · rw [if_pos h0] at hrest
    exact (Prod.mk.inj (Option.some.inj hrest)).1.symm.trans hfirst
  · rw [if_neg h0] at hrest
    exact (nextTableNotLarge_keeps hrest).trans hfirst

theorem Backed.getPt_none (hb : Backed live s) (hl : LiveWalk live v)
    (h : s.table live (ptPath v) = none) : getPt s v false = some (s, 0) := by
  obtain ⟨s', t, hpt, -⟩ := hb.getPt_total false hl
  obtain rfl := getPt_keeps hpt
  have hfound := (getPt_spec hb.tables hl hpt).2
  by_cases h0 : t = 0
  · rw [hpt, h0]
  · obtain ⟨g, -, hg⟩ := hfound h0
    exact nomatch h.symm.trans hg

/-! ### Writing an entry -/

theorem Backed.write_pte (hb : Backed live s) (h : s.table live (ptPath v) = some f)
    (hw : w < 2^64) :
    ∃ s', s.write (f*4096 + 8*vmmPtIndex v) w = some s' ∧
      LeafSet live s s' (ptPath v) f (vmmPtIndex v) w ∧ s'.mmioNext = s.mmioNext := by
  have hi := vmmPtIndex_lt v
  refine ⟨{ s with mem := store64 s.mem (f*4096 + 8*vmmPtIndex v) w }, ?_,
    LeafSet.of_store h rfl hi hw, rfl⟩
  unfold Vmm.write
  rw [hb.windows f (Or.inr ⟨_, h⟩) _ (by omega)]
  rfl

/-- A page outside of the windows may lead anywhere. -/
theorem LeafSet.backed (hb : Backed live s) (hs : LeafSet live s s' (ptPath v) f (vmmPtIndex v) w)
    (hv : ∀ h, s.Managed live h → walkPath (h*4096) ≠ walkPath v) : Backed live s' := by
  have ht := hb.tables
  have hm (h : ℕ) := hs.managed ht.reached h
  refine ⟨hs.tables ht (fun h hh hw => absurd hw (hv h hh)), ?_, fun h0 => hb.zero ((hm 0).mp h0)⟩
  intro h hh o ho
  have hh' := (hm h).mp hh
  rw [hs.walk_off ht.reached (ht.reach h hh' o ho)]
  · exact hb.windows h hh' o ho
  · -- a window is one page, so the walk of its first byte tells it
    have hpage : walkPath (h*4096 + o) = walkPath (h*4096) := by
      rw [← walkPath_page (h*4096 + o), ← walkPath_page (h*4096)]
      apply congrArg
      omega
    rw [hpage]
    exact hv h hh'

end Find

/-! ### Each call -/

section Calls
variable {live : List ℕ → Prop} {s s' : Vmm} {v f virt flags : ℕ} {r : ℤ}

/-- The entry `vmm_change_flags` writes. -/
def changedEntry (oldEntry flags : ℕ) : ℕ :=
  ((oldEntry &&& addrMask) ||| (flags &&& 0xFFF)) &&& (2^64 - 1 - vmmXd)

theorem changedEntry_eq (e flags : ℕ) : changedEntry e flags =
    frameOf e * 4096 ||| flags % 4096 := by
  have hflags : flags &&& 0xFFF = flags % 2^12 := Nat.and_two_pow_sub_one_eq_mod flags 12
  have hmask : (2^64 - 1 - vmmXd : ℕ) = 2^63 - 1 := by decide
  have hsum : frameOf e * 2^12 ||| flags % 2^12 = frameOf e * 2^12 + flags % 2^12 :=
    lor_eq_add _ _ 12 (Nat.mod_lt _ (by decide))
  have hlt := frameOf_lt e
  unfold changedEntry
  rw [land_addrMask, hflags, hmask, Nat.and_two_pow_sub_one_eq_mod]
  change (frameOf e * 2^12 ||| flags % 2^12) % 2^63 = frameOf e * 2^12 ||| flags % 2^12
  rw [hsum]
  omega

theorem changedEntry_lt (e flags : ℕ) : changedEntry e flags < 2^64 := by
  rw [changedEntry_eq]
  exact frame_lor_lt (frameOf_lt e) (Nat.mod_lt _ (by decide))

theorem frameOf_changedEntry (e flags : ℕ) : frameOf (changedEntry e flags) = frameOf e := by
  rw [changedEntry_eq]
  exact frameOf_lor (frameOf_lt e) (Nat.mod_lt _ (by decide))

theorem changedEntry_present (e flags : ℕ) :
    changedEntry e flags &&& vmmPresent = 0 ↔ flags &&& vmmPresent = 0 := by
  have h : changedEntry e flags &&& vmmPresent ≠ 0 ↔ flags &&& vmmPresent ≠ 0 := by
    rw [land_present, land_present, changedEntry_eq, testBit_frame_lor _ _ _ (by decide)]
    rw [show (4096 : ℕ) = 2^12 from rfl, Nat.testBit_mod_two_pow]
    exact Iff.rfl
  exact not_iff_not.mp h

/-- Without a page table the four functions find nothing and do nothing. -/
theorem Backed.no_table (hb : Backed live s) (hl : LiveWalk live v)
    (hl' : LiveWalk live (v &&& pageMask)) (h : s.table live (ptPath v) = none)
    (hpage : ptPath (v &&& pageMask) = ptPath v) :
    vmmIsMapped s v = some false ∧ vmmGetPhys s v = some 0 ∧ vmmUnmapPage s v = some s ∧
      ∀ flags, vmmChangeFlags s v flags = some s := by
  have hpt := hb.getPt_none hl h
  have hpt' := hb.getPt_none hl' (hpage ▸ h)
  refine ⟨?_, ?_, ?_, fun flags => ?_⟩
  · unfold vmmIsMapped
    rw [hpt]
    rfl
  · unfold vmmGetPhys
    rw [hpt]
    rfl
  · unfold vmmUnmapPage
    dsimp only
    rw [hpt']
    rfl
  · unfold vmmChangeFlags
    dsimp only
    rw [hpt']
    rfl

/-- With a page table they read and write the entry of the page. -/
theorem Backed.with_table (hb : Backed live s) (h : s.table live (ptPath v) = some f)
    (hpage : ptPath (v &&& pageMask) = ptPath v)
    (hidx : vmmPtIndex (v &&& pageMask) = vmmPtIndex v) :
    vmmIsMapped s v = some (decide (entry s.mem f (vmmPtIndex v) &&& vmmPresent ≠ 0)) ∧
    vmmGetPhys s v = some (if entry s.mem f (vmmPtIndex v) &&& vmmPresent = 0 then 0
      else (entry s.mem f (vmmPtIndex v) &&& addrMask) ||| (v &&& 0xFFF)) ∧
    vmmUnmapPage s v = s.write (f*4096 + 8*vmmPtIndex v) 0 ∧
    ∀ flags, vmmChangeFlags s v flags = s.write (f*4096 + 8*vmmPtIndex v)
      (changedEntry (entry s.mem f (vmmPtIndex v)) flags) := by
  have hm : s.Managed live f := Or.inr ⟨_, h⟩
  have hpt := hb.getPt_eq false h
  have hpt' := hb.getPt_eq (v := v &&& pageMask) false (hpage ▸ h)
  have hread := hb.read hm (vmmPtIndex_lt v)
  have hne := hb.address_ne_zero hm
  refine ⟨?_, ?_, ?_, fun flags => ?_⟩
  · unfold vmmIsMapped
    rw [hpt]
    dsimp only [Option.bind_eq_bind, Option.bind_some]
    rw [if_neg hne, hread]
    rfl
  · unfold vmmGetPhys
    rw [hpt]
    dsimp only [Option.bind_eq_bind, Option.bind_some]
    rw [if_neg hne, hread]
    rfl
  · unfold vmmUnmapPage
    dsimp only
    rw [hpt', hidx]
    dsimp only [Option.bind_eq_bind, Option.bind_some]
    rw [if_neg hne]
  · unfold vmmChangeFlags
    dsimp only
    rw [hpt', hidx]
    dsimp only [Option.bind_eq_bind, Option.bind_some]
    rw [if_neg hne, hread]
    rfl

end Calls

/-! ### Runs -/

section Runs
variable {live : List ℕ → Prop} {s s' : Vmm} {v f flags : ℕ} {b : Boot} {c : VmmCall}

theorem walkPath_mask (hc : Canonical v) : walkPath (v &&& pageMask) = walkPath v := by
  have hlt : v < 2^64 := by
    unfold Canonical at hc
    omega
  have hpage : v &&& pageMask = v / 4096 * 4096 := land_align_down v 12 (by decide) hlt
  rw [hpage]
  exact walkPath_page v

theorem ptPath_page (hc : Canonical v) : ptPath (v &&& pageMask) = ptPath v ∧
    vmmPtIndex (v &&& pageMask) = vmmPtIndex v := by
  have happ : ptPath (v &&& pageMask) ++ [vmmPtIndex (v &&& pageMask)] = ptPath v ++
    [vmmPtIndex v] :=
    walkPath_mask hc
  obtain ⟨h1, h2⟩ := List.append_inj' happ rfl
  exact ⟨h1, (List.cons.inj h2).1⟩

theorem liveWalk_page (hc : Canonical v) (hl : LiveWalk live v) : LiveWalk live (v &&& pageMask) :=
  fun p hp hpre => hl p hp (walkPath_mask hc ▸ hpre)

/-- What a call keeps: the windows, and that no frame becomes managed. -/
structure WindowsKept (live : List ℕ → Prop) (s s' : Vmm) : Prop where
  backed : Backed live s'
  next : s'.mmioNext < 2^64
  managed : ∀ f, s'.Managed live f → s.Managed live f

theorem PageMapped.kept {t : Vmm} {w : ℕ} {r : ℤ} (hk : WindowsKept live s t)
    (hp : PageMapped live t s' v w r) (hv : Spared live s v) : WindowsKept live s s' := by
  refine ⟨?_, hp.mmioNext ▸ hk.next, fun h hm => hk.managed h (hp.managed hm)⟩
  obtain ⟨t', hg, ⟨-, rfl⟩ | ⟨-, -, f, hs⟩⟩ := hp
  · exact hk.backed.grown hg
  · exact hs.backed (hk.backed.grown hg) (fun h hm => hv.2 h (hk.managed h (hg.managed hm)))

/-- The entry of a spared page may be written, or there is no page table. -/
theorem WindowsKept.write_pte (hb : Backed live s) (h64 : s.mmioNext < 2^64) (hv : Spared live s v)
    (h : s.table live (ptPath v) = some f) {w : ℕ} (hw : w < 2^64)
    (hwrite : s.write (f*4096 + 8*vmmPtIndex v) w = some s') : WindowsKept live s s' := by
  obtain ⟨t, ht, hs, hnext⟩ := hb.write_pte h hw
  obtain rfl : s' = t := Option.some.inj (hwrite.symm.trans ht)
  exact ⟨hs.backed hb hv.2, hnext ▸ h64, fun x hx => (hs.managed hb.tables.reached x).mp hx⟩

theorem WindowsKept.self (hb : Backed live s) (h64 : s.mmioNext < 2^64) : WindowsKept live s s :=
  ⟨hb, h64, fun _ hm => hm⟩

/-- `vmm_unmap_page` and `vmm_change_flags` on a page of the call. -/
theorem vmmCall_page (hb : Backed live s) (h64 : s.mmioNext < 2^64) {virt : ℕ}
    (hv : Spared live s (virt &&& pageMask))
    (h : vmmUnmapPage s virt = some s' ∨ vmmChangeFlags s virt flags = some s') :
    WindowsKept live s s' := by
  -- both calls round the address down themselves
  have hidem := land_pageMask_idem virt
  have hun : vmmUnmapPage s virt = vmmUnmapPage s (virt &&& pageMask) := by
    unfold vmmUnmapPage
    dsimp only
    rw [hidem]
  have hch : vmmChangeFlags s virt flags = vmmChangeFlags s (virt &&& pageMask) flags := by
    unfold vmmChangeFlags
    dsimp only
    rw [hidem]
  rw [hun, hch] at h
  generalize virt &&& pageMask = v at hidem hv h
  cases ht : s.table live (ptPath v) with
  | none =>
    obtain ⟨-, -, hunmap, hchange⟩ := hb.no_table hv.1 (hidem.symm ▸ hv.1) ht (by rw [hidem])
    rw [hunmap, hchange] at h
    obtain rfl : s = s' := h.elim Option.some.inj Option.some.inj
    exact WindowsKept.self hb h64
  | some f =>
    obtain ⟨-, -, hunmap, hchange⟩ := hb.with_table ht (by rw [hidem]) (by rw [hidem])
    rw [hunmap, hchange] at h
    rcases h with h | h
    · exact WindowsKept.write_pte hb h64 hv ht (by decide) h
    · exact WindowsKept.write_pte hb h64 hv ht (changedEntry_lt _ _) h

theorem WindowsKept.step (hb : Backed live s) (h64 : s.mmioNext < 2^64)
    (hk : SparesWindows live s c) (h : vmmCall s c = some s') : WindowsKept live s s' := by
  cases c with
  | op o =>
    refine vmmApply_rule (P := WindowsKept live s) (fun t h => h.backed.tables) ?_ ?_
      (fun x hx => (hk x.1 ⟨x.2, hx⟩).1) ?_ h64 (WindowsKept.self hb h64) h
    · intro t n hn h
      exact ⟨⟨h.backed.tables.withNext n, h.backed.windows, h.backed.zero⟩, hn, h.managed⟩
    · intro t h
      have hg := h.backed.tables.allocPage
      exact ⟨h.backed.grown hg, h.next, fun f hf => h.managed f (hg.managed hf)⟩
    · exact fun x hx u u' r hu hp => PageMapped.kept hu hp (hk x.1 ⟨x.2, hx⟩)
  | unmapPage virt =>
    have hor : vmmUnmapPage s virt = some s' ∨ vmmChangeFlags s virt 0 = some s' := Or.inl h
    exact vmmCall_page hb h64 (hk _ (Eq.refl _)) hor
  | changeFlags virt flags => exact vmmCall_page hb h64 (hk _ (Eq.refl _)) (Or.inr h)

/-- In every run that spares the windows the kernel reaches its tables and free frames. -/
theorem vmmCalls_backed (hb : b.Lives live)
    (hr : ((vmmCalls b).restrict (SparesWindows live)).Reachable s) : Backed live s := by
  have hinv : Backed live s ∧ s.mmioNext < 2^64 := by
    refine hr.restrict_invariant (I := fun s => Backed live s ∧ s.mmioNext < 2^64) (fun s h => ?_)
      (fun s c s' hi hk h => ?_)
    · have h64 := (b.init_inv hb h).2
      obtain ⟨G, hi, -, hmap, hend⟩ := b.init_mapped hb h
      refine ⟨?_, h64⟩
      rcases hend with ⟨-, rfl⟩ | ⟨hr, -⟩
      · exact b.init_backed hb hmap
      · cases hr
    · have hkept := WindowsKept.step hi.1 hi.2 hk h
      exact ⟨hkept.backed, hkept.next⟩
  exact hinv.1

end Runs

/-! ### Agreement with the page walk -/

/-- At `v`, and for new flags `flags`, the functions agree with the walk: the two queries tell its
result, a page that was unmapped has none, and new flags neither make one nor move it. -/
structure AgreesWithWalk (s : Vmm) (v flags : ℕ) : Prop where
  isMapped : ∃ b, vmmIsMapped s v = some b ∧ (b = true ↔ ∃ a, translate s.mem s.pml4 v = some a)
  getPhys : vmmGetPhys s v = some ((translate s.mem s.pml4 v).getD 0)
  unmapPage : ∃ s', vmmUnmapPage s v = some s' ∧
    ∀ x, x / 4096 = v / 4096 → translate s'.mem s'.pml4 x = none
  changeFlags : ∃ s', vmmChangeFlags s v flags = some s' ∧
    (translate s.mem s.pml4 v = none → translate s'.mem s'.pml4 v = none) ∧
    ∀ a a', translate s.mem s.pml4 v = some a → translate s'.mem s'.pml4 v = some a' → a' = a

/-- `v` is in no large page, and `flags` do not make an absent page present. -/
def SmallPageOnly (s : Vmm) (v flags : ℕ) : Prop :=
  ¬ LargePage s.mem s.pml4 v ∧
    (flags &&& vmmPresent ≠ 0 → HasTables s.mem s.pml4 v → ∃ a, translate s.mem s.pml4 v = some a)

section Agreement
variable {live : List ℕ → Prop} {s s' : Vmm} {v f flags : ℕ} {b : Boot}

/-- The addresses of a page take one way through the tables. -/
theorem same_page (hc : Canonical v) {x : ℕ} (hx : x / 4096 = v / 4096) :
    Canonical x ∧ walkPath x = walkPath v := by
  have hcx : Canonical x := by
    unfold Canonical at hc ⊢
    omega
  exact ⟨hcx, (walkPath_eq_iff hcx hc).mpr hx⟩

/-- Where the walk finds no entries nothing of the page is translated. -/
theorem untranslated_page (hal : s.pml4 = s.root * 4096) (hc : Canonical v)
    (hnone : walkEntries s.mem s.pml4 v = none) {x : ℕ} (hx : x / 4096 = v / 4096) :
    translate s.mem s.pml4 x = none := by
  obtain ⟨hcx, hwx⟩ := same_page hc hx
  rw [Option.eq_none_iff_forall_ne_some]
  intro a ha
  have hex : ∃ es, walkEntries s.mem s.pml4 x = some es := by
    rw [hal] at ha ⊢
    exact walkEntries_isSome_iff.mpr ⟨a, ha⟩
  obtain ⟨es, hes⟩ := hex
  unfold walkEntries at hes hnone
  rw [if_pos hcx, hwx] at hes
  rw [if_pos hc, hes] at hnone
  cases hnone

theorem Backed.agrees_no_table (hb : Backed live s) (hc : Canonical v) (hl : LiveWalk live v)
    (h : s.table live (ptPath v) = none) : AgreesWithWalk s v flags ↔ SmallPageOnly s v flags := by
  have hal := hb.tables.aligned
  have hpage := (ptPath_page hc).1
  obtain ⟨hmapped, hphys, hunmap, hchange⟩ := hb.no_table hl (liveWalk_page hc hl) h hpage
  have hsome : (∃ es, walkEntries s.mem s.pml4 v = some es) ↔
    ∃ a, translate s.mem s.pml4 v = some a := by
    rw [hal]
    exact walkEntries_isSome_iff
  have hwalk := no_table_walk hc hl h
  rw [← hal] at hwalk
  rcases hwalk with ⟨hnone, htab⟩ | hlarge
  · -- nothing is mapped, and nothing is done
    have htr : translate s.mem s.pml4 v = none := untranslated_page hal hc hnone rfl
    have hx (x : ℕ) (hx : x / 4096 = v / 4096) : translate s.mem s.pml4 x = none :=
      untranslated_page hal hc hnone hx
    refine iff_of_true ⟨⟨false, hmapped, ?_⟩, ?_, ⟨s, hunmap, hx⟩, ⟨s, hchange flags, id, ?_⟩⟩
      ⟨?_, fun _ h => absurd h htab⟩
    · rw [htr]
      exact ⟨fun h => (nomatch h), fun ⟨a, h⟩ => (nomatch h)⟩
    · rw [htr]
      exact hphys
    · intro a a' ha ha'
      exact Option.some.inj (ha'.symm.trans ha)
    · rintro ⟨es, hes, -⟩
      exact nomatch hnone.symm.trans hes
  · -- the walk succeeds, and `vmm_is_mapped` denies it
    refine iff_of_false (fun hagree => ?_) (fun hsmall => hsmall.1 hlarge)
    obtain ⟨x, hx, hiff⟩ := hagree.isMapped
    obtain rfl : false = x := Option.some.inj (hmapped.symm.trans hx)
    obtain ⟨es, hes, -⟩ := hlarge
    exact nomatch hiff.mpr (hsome.mp ⟨es, hes⟩)

/-- The two calls that write, each with what the walk of the page says afterwards. -/
theorem Backed.table_calls (hb : Backed live s) (hc : Canonical v) (hl : LiveWalk live v)
    (h : s.table live (ptPath v) = some f) (flags : ℕ) :
    (∃ su, vmmUnmapPage s v = some su ∧
      ∀ x, x / 4096 = v / 4096 → translate su.mem su.pml4 x = none) ∧
    ∃ sc, vmmChangeFlags s v flags = some sc ∧ translate sc.mem sc.pml4 v =
      if flags &&& vmmPresent = 0 then none
      else some (frameOf (entry s.mem f (vmmPtIndex v)) * 4096 + v % 2^12) := by
  have hr := hb.tables.reached
  obtain ⟨hpage, hidx⟩ := ptPath_page hc
  obtain ⟨-, -, hunmap, hchange⟩ := hb.with_table h hpage hidx
  obtain ⟨su, hsu, hleafu, -⟩ := hb.write_pte h (show 0 < 2^64 by decide)
  obtain ⟨sc, hsc, hleafc, -⟩ := hb.write_pte h
    (changedEntry_lt (entry s.mem f (vmmPtIndex v)) flags)
  refine ⟨⟨su, hunmap.trans hsu, fun x hx => ?_⟩, sc, (hchange flags).trans hsc, ?_⟩
  · obtain ⟨hcx, hwx⟩ := same_page hc hx
    have hlx : LiveWalk live x := by
      intro p hp hpre
      exact hl p hp (hwx ▸ hpre)
    rw [hleafu.walk_on hr hlx (hwx.trans (walkPath_eq v)) hcx]
    exact if_pos rfl
  · have hnew := hleafc.walk_on hr hl (walkPath_eq v) hc
    rw [frameOf_changedEntry] at hnew
    simp only [changedEntry_present] at hnew
    exact hnew

/-- New flags may make an absent page present, with the frame of the old entry. -/
theorem Backed.agrees_absent (hb : Backed live s) (hc : Canonical v) (hl : LiveWalk live v)
    (h : s.table live (ptPath v) = some f)
    (hp : entry s.mem f (vmmPtIndex v) &&& vmmPresent = 0)
    (htr : translate s.mem s.pml4 v = none) :
    AgreesWithWalk s v flags ↔ flags &&& vmmPresent = 0 := by
  obtain ⟨hpage, hidx⟩ := ptPath_page hc
  obtain ⟨hmapped, hphys, -⟩ := hb.with_table h hpage hidx
  obtain ⟨hunmap, sc, hsc, hnew⟩ := hb.table_calls hc hl h flags
  constructor
  · intro hagree
    obtain ⟨s', hs', hkeep, -⟩ := hagree.changeFlags
    obtain rfl : sc = s' := Option.some.inj (hsc.symm.trans hs')
    by_contra hf
    rw [if_neg hf] at hnew
    exact nomatch hnew.symm.trans (hkeep htr)
  · intro hf
    rw [if_pos hf] at hnew
    refine ⟨⟨_, hmapped, ?_⟩, ?_, hunmap, ⟨sc, hsc, fun _ => hnew, ?_⟩⟩
    · rw [decide_eq_true_eq]
      exact iff_of_false (not_not.mpr hp) (fun ⟨a, ha⟩ => nomatch htr.symm.trans ha)
    · rw [hphys, if_pos hp, htr]
      rfl
    · intro a a' ha
      exact nomatch htr.symm.trans ha

/-- New flags keep the frame of a present page or take it away. -/
theorem Backed.agrees_present (hb : Backed live s) (hc : Canonical v) (hl : LiveWalk live v)
    (h : s.table live (ptPath v) = some f)
    (hp : ¬ entry s.mem f (vmmPtIndex v) &&& vmmPresent = 0)
    (htr : translate s.mem s.pml4 v =
      some (frameOf (entry s.mem f (vmmPtIndex v)) * 4096 + v % 2^12)) :
    AgreesWithWalk s v flags := by
  obtain ⟨hpage, hidx⟩ := ptPath_page hc
  obtain ⟨hmapped, hphys, -⟩ := hb.with_table h hpage hidx
  obtain ⟨hunmap, sc, hsc, hnew⟩ := hb.table_calls hc hl h flags
  refine ⟨⟨_, hmapped, ?_⟩, ?_, hunmap, ⟨sc, hsc, ?_, ?_⟩⟩
  · rw [decide_eq_true_eq]
    exact iff_of_true hp ⟨_, htr⟩
  · have hoff : v &&& 0xFFF = v % 2^12 := Nat.and_two_pow_sub_one_eq_mod v 12
    have hsum : frameOf (entry s.mem f (vmmPtIndex v)) * 2^12 ||| v % 2^12 =
        frameOf (entry s.mem f (vmmPtIndex v)) * 2^12 + v % 2^12 :=
      lor_eq_add _ _ 12 (Nat.mod_lt _ (by decide))
    rw [hphys, if_neg hp, htr, land_addrMask, hoff]
    exact congrArg some hsum
  · intro hnone
    exact nomatch htr.symm.trans hnone
  · intro a a' ha ha'
    rw [hnew] at ha'
    rw [htr] at ha
    split at ha'
    · cases ha'
    · exact Option.some.inj (ha'.symm.trans ha)

theorem Backed.agrees_table (hb : Backed live s) (hc : Canonical v) (hl : LiveWalk live v)
    (h : s.table live (ptPath v) = some f) : AgreesWithWalk s v flags ↔
      SmallPageOnly s v flags := by
  have hal := hb.tables.aligned
  obtain ⟨f3, f2, hw⟩ := TableWalk.of_pt h
  have htr := hw.translate hc
  have hlarge := hw.not_large hc
  have htab := hw.hasTables
  rw [← hal] at htr hlarge htab
  unfold SmallPageOnly
  by_cases hp : entry s.mem f (vmmPtIndex v) &&& vmmPresent = 0
  · rw [if_pos hp] at htr
    rw [hb.agrees_absent hc hl h hp htr]
    have hno : ¬ ∃ a, translate s.mem s.pml4 v = some a := fun ⟨a, ha⟩ =>
      nomatch htr.symm.trans ha
    constructor
    · exact fun h0 => ⟨hlarge, fun hf _ => absurd h0 hf⟩
    · rintro ⟨-, hsmall⟩
      by_contra hf
      exact hno (hsmall hf htab)
  · rw [if_neg hp] at htr
    exact iff_of_true (hb.agrees_present hc hl h hp htr) ⟨hlarge, fun _ _ => ⟨_, htr⟩⟩

/-- In every run after `vmm_init` that spares the windows of the kernel, the functions agree with
the page walk on the addresses that are in no large page, as long as `vmm_change_flags` is not asked
to make an absent page present, and on no others. -/
theorem vmm_agrees_iff (hb : b.Fits)
    (hr : ((vmmCalls b).restrict (SparesWindows b.counted)).Reachable s) (hc : Canonical v)
    (hl : LiveWalk b.counted v) (flags : ℕ) : AgreesWithWalk s v flags ↔
      SmallPageOnly s v flags := by
  have hback := vmmCalls_backed (Boot.lives hb) hr
  cases h : s.table b.counted (ptPath v) with
  | none => exact hback.agrees_no_table hc hl h
  | some f => exact hback.agrees_table hc hl h

end Agreement

/-- Address 1 MB after the boot of the large machine. -/
theorem large_machine_run : ∃ s, ((vmmCalls largeMachine).restrict
    (SparesWindows largeMachine.counted)).Reachable s ∧
    translate s.mem s.pml4 0x100000 = some 0x100000 ∧ vmmIsMapped s 0x100000 = some false := by
  obtain ⟨s, G, hs, -, hmap, -⟩ := large_mapped
  have hback := Boot.init_backed (Boot.lives (oneRegion_fits _ _)) hmap
  obtain ⟨f, hf, hps⟩ := hmap.large_page (v := 0x100000) (by decide)
  refine ⟨s, .init hs, ?_, hback.vmmIsMapped_large hf hps⟩
  rw [hmap.walk _ (by decide), if_pos (by decide)]

/-- A page mapped at 2 GB spares the windows. There the functions agree with the walk when it is
present already, and at 1 MB, still in a large page, they do not. -/
theorem vmm_agrees_iff_small : ∃ s s',
    ((vmmCalls smallMachine).restrict (SparesWindows smallMachine.counted)).Reachable s ∧
    vmmAllocMap s 0x80000000 3 = some (s', 0) ∧
    ((vmmCalls smallMachine).restrict (SparesWindows smallMachine.counted)).Reachable s' ∧
    (AgreesWithWalk s' 0x80000000 3 ↔ SmallPageOnly s' 0x80000000 3) ∧
    (AgreesWithWalk s' 0x100000 3 ↔ SmallPageOnly s' 0x100000 3) := by
  have hfits : smallMachine.Fits := oneRegion_fits _ _
  have hb := Boot.lives hfits
  obtain ⟨s, s', hs, -, hlow, -, hmap⟩ := small_page hb 3
  have hr : ((vmmCalls smallMachine).restrict (SparesWindows smallMachine.counted)).Reachable s :=
    .init hs
  have hspared : SparesWindows smallMachine.counted s (.op (.allocMap 0x80000000 3)) := by
    rintro v ⟨w, hw⟩
    have hv : v = 0x80000000 := congrArg Prod.fst (Set.mem_singleton_iff.mp hw)
    subst hv
    exact ⟨hb.liveWalk (by decide), fun h hm => walkPath_two_gb (hlow h hm)⟩
  have hstep : (vmmCalls smallMachine).step s (.op (.allocMap 0x80000000 3)) s' :=
    congrArg (Option.map Prod.fst) hmap
  have hr' : ((vmmCalls smallMachine).restrict
      (SparesWindows smallMachine.counted)).Reachable s' := .step hr ⟨hspared, hstep⟩
  exact ⟨s, s', hr, hmap, hr',
    vmm_agrees_iff hfits hr' (Or.inl (by decide)) (hb.liveWalk (by decide)) 3,
    vmm_agrees_iff hfits hr' (Or.inl (by decide)) (hb.liveWalk (by decide)) 3⟩

/-- `vmm_is_mapped` denies the page that the identity map of `vmm_init` has at 1 MB. -/
theorem vmm_is_mapped_denies : ∃ s, (vmmCalls largeMachine).Reachable s ∧ Canonical 0x100000 ∧
    ¬ AgreesWithWalk s 0x100000 3 := by
  obtain ⟨s, hr, htr, hmapped⟩ := large_machine_run
  refine ⟨s, hr.of_restrict, Or.inl (by decide), fun hagree => ?_⟩
  obtain ⟨x, hx, hiff⟩ := hagree.isMapped
  obtain rfl : false = x := Option.some.inj (hmapped.symm.trans hx)
  exact nomatch hiff.mpr ⟨_, htr⟩

end SukiOS

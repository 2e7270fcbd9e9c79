import Mathlib.Data.List.Perm.Subperm
import SukiOS.VmmInit

/-! Runs of the calls to `vmm.c` and to the frame allocator after `vmm_init`. -/
namespace SukiOS
open ByteMemory MachineWord RadixTree Transition

inductive VmmOp where
  | mapPage (phys virt flags : ℕ)
  | allocMap (virt flags : ℕ)
  | mapMmio (physAddr size : ℕ)
  | allocPage

def vmmApply (s : Vmm) : VmmOp → Option Vmm
  | .mapPage phys virt flags => (vmmMapPage s phys virt flags).map Prod.fst
  | .allocMap virt flags => (vmmAllocMap s virt flags).map Prod.fst
  | .mapMmio physAddr size => (vmmMapMmio s physAddr size).map Prod.fst
  | .allocPage => some { s with pmm := (pmmAllocPage s.pmm).1 }

/-- The runs after `boot.asm`, `pmm_init` and `vmm_init`. -/
def paging (b : Boot) : System Vmm VmmOp where
  init s := ∃ r, vmmInit b.start = some (s, r)
  step s op s' := vmmApply s op = some s'

/-- The pages that an operation maps, each with its entry. -/
def pagesOf (s : Vmm) : VmmOp → Set (ℕ × ℕ)
  | .mapPage phys virt flags => {(virt &&& pageMask, pageEntry phys flags)}
  | .allocMap virt flags => {(virt &&& pageMask, pageEntry (pmmAllocPage s.pmm).2 flags)}
  | .mapMmio physAddr size => {x | ∃ k, k < mmioPageCount physAddr size ∧
      x = (mmioVirt s k, pageEntry (mmioPhys (mmioPhysStart physAddr) k) vmmKernRwCd)}
  | .allocPage => ∅

/-- No page is mapped over the window of a table or of a free frame, but to the frame itself. -/
def KeepsMap (live : List ℕ → Prop) (s : Vmm) (op : VmmOp) : Prop :=
  ∀ x ∈ pagesOf s op, KeepsWindows live s x.1 x.2

section Step
variable {live : List ℕ → Prop} {s s' : Vmm} {op : VmmOp}

theorem mem_pagesOf_mmio {physAddr size k : ℕ} (hk : k < mmioPageCount physAddr size) :
    (mmioVirt s k, pageEntry (mmioPhys (mmioPhysStart physAddr) k) vmmKernRwCd) ∈
      pagesOf s (.mapMmio physAddr size) := by
  simp only [pagesOf, Set.mem_ofPred_eq]
  exact ⟨k, hk, Eq.refl _⟩

/-- A property that survives taking a frame and mapping a page survives every operation. -/
theorem vmmApply_rule {P : Vmm → Prop} (htab : ∀ t, P t → Tables live t)
    (hnext : ∀ t n, n < 2^64 → P t → P { t with mmioNext := n })
    (halloc : ∀ t, P t → P { t with pmm := (pmmAllocPage t.pmm).1 })
    (hlive : ∀ x ∈ pagesOf s op, LiveWalk live x.1)
    (hpage : ∀ x ∈ pagesOf s op, ∀ u u' r, P u → PageMapped live u u' x.1 x.2 r → P u')
    (h64 : s.mmioNext < 2^64) (hs : P s) (h : vmmApply s op = some s') : P s' := by
  cases op with
  | mapPage phys virt flags =>
    obtain ⟨⟨t, r⟩, hr, rfl⟩ := Option.map_eq_some_iff.mp h
    have hx : (virt &&& pageMask, pageEntry phys flags) ∈ pagesOf s (.mapPage phys virt flags) := by
      simp only [pagesOf, Set.mem_singleton_iff]
    have hl := hlive (virt &&& pageMask, pageEntry phys flags) hx
    have hp := vmmMapPage_spec (htab s hs) hl hr
    exact hpage (virt &&& pageMask, pageEntry phys flags) hx s t r hs hp
  | allocMap virt flags =>
    obtain ⟨⟨t, r⟩, hr, rfl⟩ := Option.map_eq_some_iff.mp h
    have hx : (virt &&& pageMask, pageEntry (pmmAllocPage s.pmm).2 flags) ∈
        pagesOf s (.allocMap virt flags) := by
      simp only [pagesOf, Set.mem_singleton_iff]
    have hl := hlive (virt &&& pageMask, pageEntry (pmmAllocPage s.pmm).2 flags) hx
    have hp := vmmAllocMap_spec (htab s hs) hl hr
    exact hpage (virt &&& pageMask, pageEntry (pmmAllocPage s.pmm).2 flags) hx s t r hs hp
  | mapMmio physAddr size =>
    obtain ⟨⟨t, a⟩, hr, rfl⟩ := Option.map_eq_some_iff.mp h
    obtain ⟨⟨t', ok⟩, hm, hr⟩ := Option.bind_eq_some_iff.mp hr
    obtain ⟨rfl, -⟩ := Prod.mk.inj (Option.some.inj hr)
    -- the loop starts at the page 0, at the address `mmioNext`
    have hstart : s.mmioNext = (s.mmioNext + 0*vmmPageSize) % 2^64 := by omega
    refine mmioFrom_rule htab hnext (mmioPageCount physAddr size) 0 s t' ok hstart ?_ ?_ hs hm
    · intro k _ hk
      have hx := mem_pagesOf_mmio (s := s) (by omega : k < mmioPageCount physAddr size)
      have hl := hlive (mmioVirt s k, pageEntry (mmioPhys (mmioPhysStart physAddr) k) vmmKernRwCd)
        hx
      dsimp only [mmioVirt] at hl
      exact hl
    · intro k u u' x _ hk hu hp
      have hx := mem_pagesOf_mmio (s := s) (by omega : k < mmioPageCount physAddr size)
      have hp' : PageMapped live u u' (mmioVirt s k)
          (pageEntry (mmioPhys (mmioPhysStart physAddr) k) vmmKernRwCd) x := by
        rw [mmioVirt]
        exact hp
      exact hpage (mmioVirt s k, pageEntry (mmioPhys (mmioPhysStart physAddr) k) vmmKernRwCd) hx
        u u' x hu hp'
  | allocPage =>
    obtain rfl := Option.some.inj h
    exact halloc s hs

/-- The page tables, and the address of the next page of a device. -/
def PagingInv (live : List ℕ → Prop) (s : Vmm) : Prop := Tables live s ∧ s.mmioNext < 2^64

theorem Tables.allocPage (ht : Tables live s) :
    Grown live s { s with pmm := (pmmAllocPage s.pmm).1 } := by
  apply Grown.shrink ht
  intro h hf
  rcases pmmAllocPage_free s with ⟨g, -, -, hfree⟩ | ⟨-, hres⟩
  · exact ((hfree h).mp hf).1
  · rw [hres] at hf
    exact hf

/-- Each operation that keeps the windows keeps the invariant. -/
theorem PagingInv.step (hi : PagingInv live s) (hlive : ∀ x ∈ pagesOf s op, LiveWalk live x.1)
    (hk : KeepsMap live s op) (h : vmmApply s op = some s') : PagingInv live s' := by
  obtain ⟨ht, h64⟩ := hi
  -- the frames to reach only become fewer, so the condition holds on the way, too
  have hrule : PagingInv live s' ∧ ∀ f, s'.Managed live f → s.Managed live f := by
    refine vmmApply_rule (P := fun t => PagingInv live t ∧ ∀ f, t.Managed live f → s.Managed live f)
      (fun t h => h.1.1) ?_ ?_ hlive ?_ h64 ⟨⟨ht, h64⟩, fun _ hm => hm⟩ h
    · exact fun t n hn h => ⟨⟨h.1.1.withNext n, hn⟩, h.2⟩
    · intro t h
      have hg := h.1.1.allocPage
      exact ⟨⟨hg.tables, h.1.2⟩, fun f hf => h.2 f (hg.managed hf)⟩
    · intro x hx u u' r hu hp
      refine ⟨⟨hp.tables ((hk x hx).mono hu.2), ?_⟩, fun f hf => hu.2 f (hp.managed hf)⟩
      rw [hp.mmioNext]
      exact hu.1.2
  exact hrule.1

end Step

/-! ### The frames of the tables -/

/-- The entry `i` of the table in frame `f`, at the path `p`, points to the table in frame `g`. -/
def NonLeaf (s : Vmm) (p : List ℕ) (f i g : ℕ) : Prop :=
  s.table (fun _ => True) p = some f ∧ s.table (fun _ => True) (p ++ [i]) = some g

/-- The frames that entries point to are marked used, are not handed out, and belong to one entry
each. -/
structure TablesOwned (s : Vmm) : Prop where
  used : ∀ p f i g, NonLeaf s p f i g → bitmapTest s.pmm.bitmap g = true
  kept : ∀ p f i g, NonLeaf s p f i g → (pmmAllocPage s.pmm).2 ≠ 0 →
    (pmmAllocPage s.pmm).2 ≠ g*4096
  apart : ∀ p f i g p' f' i', NonLeaf s p f i g → NonLeaf s p' f' i' g → f = f' ∧ i = i'

section Owned
variable {b : Boot} {s s' : Vmm} {op : VmmOp} {r : Bool} {live : List ℕ → Prop}

theorem Tables.owned (ht : Tables (fun _ => True) s) : TablesOwned s where
  used := fun p f i g h => Bool.eq_true_of_not_eq_false (ht.used _ g h.2)
  kept := by
    intro p f i g h h0 heq
    rcases pmmAllocPage_free s with ⟨x, hx, haddr, -⟩ | ⟨-, hres⟩
    · rw [haddr] at heq
      obtain rfl : x = g := by omega
      exact ht.used _ x h.2 hx
    · rw [hres] at h0
      exact h0 rfl
  apart := by
    intro p f i g p' f' i' h h'
    have hpath := ht.distinct _ _ g h.2 h'.2
    obtain ⟨rfl, hi⟩ := List.append_inj' hpath rfl
    exact ⟨Option.some.inj (h.1.symm.trans h'.1), (List.cons.inj hi).1⟩

theorem Boot.init_inv (hb : b.Lives live) (h : vmmInit b.start = some (s, r)) :
    PagingInv live s := by
  obtain ⟨G, hi, -, hmap, -⟩ := b.init_mapped hb h
  refine ⟨hmap.tables, ?_⟩
  have hnext : (b.withMem b.userMem).mmioNext = vmmMmioBase := by
    simp only [Boot.withMem, Boot.start]
  rw [hmap.mmioNext, hnext]
  decide

/-- When no stray entry of the boot tables does harm, and no page is mapped over the window of a
table or of a free frame, the frames of the tables stay with the tables. -/
theorem page_tables_owned (hb : b.Fits) (hstray : ∀ i, i < 512 → i ≠ 510 → b.StrayHarmless i)
    (hr : ((paging b).restrict (KeepsMap (fun _ => True))).Reachable s) : TablesOwned s := by
  have hlives : b.Lives (fun _ => True) :=
    ⟨hb, fun _ _ => trivial, fun _ => trivial, fun i hi hne _ => hstray i hi hne⟩
  have hinv : PagingInv (fun _ => True) s := by
    refine hr.restrict_invariant (fun s h => ?_) (fun s op s' hi hk h => ?_)
    · obtain ⟨r, h⟩ := h
      exact b.init_inv hlives h
    · exact hi.step (fun _ _ _ _ _ => trivial) hk h
  exact hinv.1.owned

/-- All paths but those through harmful stray entries. -/
def Boot.counted (b : Boot) (p : List ℕ) : Prop :=
  ∀ i, i < 512 → i ≠ 510 → [511, i] <+: p → b.StrayHarmless i

theorem Boot.lives (hb : b.Fits) : b.Lives b.counted where
  fits := hb
  short := by
    intro p hp i _ _ hpre
    have hlen := hpre.length_le
    exact absurd hlen (by simp only [List.length_cons, List.length_nil]; omega)
  low := by
    intro p i _ _ hpre
    exact absurd (List.cons_prefix_cons.mp hpre).1 (by decide)
  stray := fun i hi hne h => h i hi hne List.prefix_rfl

/-- A stray entry is a present entry for a table. -/
theorem BootEntries.stray {m : Mem} (he : BootEntries b m) {i : ℕ} (hi : i < 512) (hne : i ≠ 510) :
    entry m 0x74 i &&& vmmPresent ≠ 0 ∧ entry m 0x74 i &&& vmmPs = 0 ∧
      frameOf (entry m 0x74 i) = 0x200 + i := by
  have hent : entry m 0x74 i = (0x200 + i)*4096 ||| 3 := by
    rw [he.pdpteB i hi, if_neg hne]
    exact (lor_eq_add (0x200 + i) 3 12 (by decide)).symm
  have hps : ¬ entry m 0x74 i &&& vmmPs ≠ 0 := by
    rw [land_ps, hent, testBit_frame_lor _ _ _ (by decide)]
    decide
  refine ⟨?_, not_not.mp hps, ?_⟩
  · rw [land_present, hent, testBit_frame_lor _ _ _ (by decide)]
    decide
  · rw [hent, frameOf_lor (by omega) (by decide)]

end Owned

/-! ### Two machines -/

/-- One region of memory, and nothing in it. -/
def oneRegion (addr len : ℕ) : Boot where
  entries := [{ addr := addr, len := len, type := multibootMemoryAvailable }]
  kernelEnd := 0x150000
  mem := fun _ => 0#8

theorem oneRegion_fits (addr len : ℕ) : (oneRegion addr len).Fits := by
  have hend : (oneRegion addr len).kernelEnd = 0x150000 := rfl
  rw [Boot.Fits, hend]
  decide

theorem entry_zero_mem (f i : ℕ) : entry (fun _ => 0#8) f i = 0 := by
  have hfill : (fun _ => 0#8) = fill (fun _ => 0#8) (f*4096 + 8*i) 0#8 8 := by
    funext x
    rw [fill_apply]
    exact (ite_self _).symm
  rw [entry, load64_eq, hfill]
  exact load_fill_zero _ _ _ _ _ le_rfl le_rfl

/-- Sixteen frames behind the kernel. -/
def smallMachine : Boot := oneRegion 0x150000 0x10000

/-- Memory up to 16 MB. -/
def largeMachine : Boot := oneRegion 0x100000 0xF00000

theorem small_stray (i : ℕ) (_ : i < 512) (_ : i ≠ 510) : smallMachine.StrayHarmless i := by
  refine ⟨fun h => ?_, fun j _ hp => ?_⟩
  · obtain ⟨-, -, e, he, -, -, hend⟩ := h
    obtain rfl := List.mem_singleton.mp he
    have hpage : MmapEntry.endPage ⟨0x150000, 0x10000, multibootMemoryAvailable⟩ = 0x160 := by
      decide
    rw [hpage] at hend
    omega
  · exact absurd (congrArg (· &&& vmmPresent) (entry_zero_mem (0x200 + i) j)) hp

def firstFrames : List ℕ := [0x150, 0x151, 0x152, 0x153]

/-- The frames `lo` to `hi` of the one region. -/
theorem oneRegion_usable {addr len a : ℕ} (h1 : a < pmmMaxPages) (h2 : 0x150 ≤ a)
    (h3 : MmapEntry.startPage ⟨addr, len, multibootMemoryAvailable⟩ ≤ a)
    (h4 : a < MmapEntry.endPage ⟨addr, len, multibootMemoryAvailable⟩) :
    a ∈ usableFrames (oneRegion addr len).entries (oneRegion addr len).kernelEnd := by
  have hend : kernelEndPage (oneRegion addr len).kernelEnd = 0x150 := by
    have h : (oneRegion addr len).kernelEnd = 0x150000 := rfl
    rw [h]
    decide
  refine ⟨h1, ?_, _, List.mem_singleton_self _, rfl, h3, h4⟩
  rw [hend]
  exact h2

/-- A list misses an element of a longer one. -/
theorem exists_not_mem_of_short {G l : List ℕ} (hl : l.Nodup) (h : G.length < l.length) :
    ∃ x ∈ l, x ∉ G := by
  by_contra hno
  have hsub : l ⊆ G := by
    intro x hx
    by_contra hxG
    exact hno ⟨x, hx, hxG⟩
  have hle := (hl.subperm hsub).length_le
  omega

/-- With the first frames behind the kernel `vmm_init` maps all four gigabytes. -/
theorem Boot.first_frames_mapped {b : Boot} {live : List ℕ → Prop} (hb : b.Lives live)
    (hA : ∀ a ∈ firstFrames, a ∈ usableFrames b.entries b.kernelEnd) :
    ∃ s G, vmmInit b.start = some (s, true) ∧ G.length ≤ 4 ∧
      Mapped live (b.withMem b.userMem) s G 0 4 := by
  have hlow : ∀ a ∈ firstFrames, a < 0x200 := by decide
  obtain ⟨s, hs⟩ := Boot.init_total hb (A := firstFrames) (by decide) (by decide)
    (fun a ha => ⟨hA a ha, hlow a ha⟩)
  obtain ⟨G, hi, hlen, hmap, hend⟩ := Boot.init_mapped hb hs
  have hhi : hi = 4 := by
    rcases hend with ⟨-, h⟩ | ⟨-, hshort, hfull⟩
    · exact h
    · -- one of the first frames was not taken, and is free
      obtain ⟨a, ha, haG⟩ := exists_not_mem_of_short (G := G) (l := firstFrames) (by decide) hshort
      exact absurd ((hmap.free a).mpr ⟨(bitmapTest_pmmInit _ _ a).mpr (hA a ha), haG⟩) (hfull a)
  exact ⟨s, G, hs, hlen, hhi ▸ hmap⟩

theorem small_usable {a : ℕ} (h1 : 0x150 ≤ a) (h2 : a < 0x160) :
    a ∈ usableFrames smallMachine.entries smallMachine.kernelEnd := by
  have hmax : pmmMaxPages = 0x100000 := by decide
  have hstart : MmapEntry.startPage ⟨0x150000, 0x10000, multibootMemoryAvailable⟩ = 0x150 := by
    decide
  have hend : MmapEntry.endPage ⟨0x150000, 0x10000, multibootMemoryAvailable⟩ = 0x160 := by decide
  apply oneRegion_usable <;> omega

theorem small_usable_lt {a : ℕ} (h : a ∈ usableFrames smallMachine.entries smallMachine.kernelEnd) :
    a < 0x160 := by
  obtain ⟨-, -, e, he, -, -, hend⟩ := h
  obtain rfl := List.mem_singleton.mp he
  have hpage : MmapEntry.endPage ⟨0x150000, 0x10000, multibootMemoryAvailable⟩ = 0x160 := by decide
  rwa [hpage] at hend

/-- A user page at 2 GB of the small machine is in a large page, and in the window of no table and
of no free frame; it takes a frame for itself and one for its page table. -/
theorem small_page {live : List ℕ → Prop} (hb : smallMachine.Lives live) (flags : ℕ) : ∃ s s',
    vmmInit smallMachine.start = some (s, true) ∧ Backed live s ∧
    (∀ h, s.Managed live h → h < 0x400) ∧ vmmIsMapped s 0x80000000 = some false ∧
    vmmAllocMap s 0x80000000 flags = some (s', 0) := by
  have hA : ∀ a ∈ firstFrames, a ∈ usableFrames smallMachine.entries smallMachine.kernelEnd := by
    intro a ha
    have hrange : ∀ a ∈ firstFrames, 0x150 ≤ a ∧ a < 0x160 := by decide
    exact small_usable (hrange a ha).1 (hrange a ha).2
  obtain ⟨s, G, hs, hlen, hmap⟩ := Boot.first_frames_mapped hb hA
  have hback := Boot.init_backed hb hmap
  have hold (f : ℕ) (hf : Free (smallMachine.withMem smallMachine.userMem) f) : f < 0x160 :=
    small_usable_lt ((bitmapTest_pmmInit _ _ f).mp hf)
  refine ⟨s, ?_⟩
  have hmanaged (h : ℕ) (hm : s.Managed live h) : h < 0x400 := by
    rcases hm with hf | ⟨p, hp⟩
    · have := hold h ((hmap.free h).mp hf).1
      omega
    · rcases Boot.init_table hb hmap hp with ⟨-, hlt⟩ | hf
      · exact hlt
      · have := hold h hf
        omega
  -- two of the frames behind the kernel are free
  obtain ⟨x, hx, hxG⟩ := exists_not_mem_of_short (G := G) (l := [0x150, 0x151, 0x152, 0x153, 0x154])
    (by decide) (Nat.lt_succ_of_le hlen)
  obtain ⟨y, hy, hyG⟩ := exists_not_mem_of_short (G := G) (l := [0x155, 0x156, 0x157, 0x158, 0x159])
    (by decide) (Nat.lt_succ_of_le hlen)
  have hxr : ∀ x ∈ [0x150, 0x151, 0x152, 0x153, 0x154], 0x150 ≤ x ∧ x < 0x155 := by decide
  have hyr : ∀ y ∈ [0x155, 0x156, 0x157, 0x158, 0x159], 0x155 ≤ y ∧ y < 0x160 := by decide
  obtain ⟨hx1, hx2⟩ := hxr x hx
  obtain ⟨hy1, hy2⟩ := hyr y hy
  have hfree (a : ℕ) (ha : a ∉ G) (h1 : 0x150 ≤ a) (h2 : a < 0x160) : Free s a :=
    (hmap.free a).mpr ⟨(bitmapTest_pmmInit _ _ a).mpr (small_usable h1 h2), ha⟩
  have hv : 0x80000000 &&& pageMask = 0x80000000 := by decide
  obtain ⟨f, h2, hps⟩ := hmap.large_page (v := 0x80000000) (by decide)
  have hlive : LiveWalk live (0x80000000 &&& pageMask) := hv.symm ▸ hb.liveWalk (by decide)
  obtain ⟨s', g, g', hs', -⟩ := hback.vmmAllocMap_large hlive (hv.symm ▸ h2) (hv.symm ▸ hps)
    (hfree x hxG hx1 (by omega)) (hfree y hyG (by omega) hy2) (by omega) flags
  exact ⟨s', hs, hback, hmanaged, hback.vmmIsMapped_large h2 hps, hs'⟩

/-- The page at 2 GB is the window of the frame 0x80000 only. -/
theorem walkPath_two_gb {h : ℕ} (hlt : h < 0x400) : walkPath (h*4096) ≠ walkPath 0x80000000 := by
  intro he
  simp only [walkPath, List.cons.injEq, and_true, vmmPml4Index_eq, vmmPdpteIndex_eq,
    vmmPdIndex_eq, vmmPtIndex_eq] at he
  omega

/-- A page is mapped at 2 GB. -/
theorem page_tables_owned_small : ∃ s s',
    ((paging smallMachine).restrict (KeepsMap (fun _ => True))).Reachable s ∧
    vmmAllocMap s 0x80000000 (vmmPresent ||| vmmUser) = some (s', 0) ∧ TablesOwned s' := by
  have hfits : smallMachine.Fits := oneRegion_fits _ _
  have hb : smallMachine.Lives (fun _ => True) :=
    ⟨hfits, fun _ _ => trivial, fun _ => trivial, fun i hi hne _ => small_stray i hi hne⟩
  obtain ⟨s, s', hs, -, hlow, -, hmap⟩ := small_page hb (vmmPresent ||| vmmUser)
  have hr : ((paging smallMachine).restrict (KeepsMap (fun _ => True))).Reachable s :=
    .init ⟨true, hs⟩
  have hkeeps : KeepsMap (fun _ => True) s (.allocMap 0x80000000 (vmmPresent ||| vmmUser)) := by
    intro x hx h hm hw
    obtain rfl := Set.mem_singleton_iff.mp hx
    exact absurd hw (walkPath_two_gb (hlow h hm))
  have hstep : (paging smallMachine).step s (.allocMap 0x80000000 (vmmPresent ||| vmmUser)) s' :=
    congrArg (Option.map Prod.fst) hmap
  exact ⟨s, s', hr, hmap, page_tables_owned hfits small_stray (.step hr ⟨hkeeps, hstep⟩)⟩

theorem large_usable {a : ℕ} (h1 : 0x150 ≤ a) (h2 : a < 0x1000) :
    a ∈ usableFrames largeMachine.entries largeMachine.kernelEnd := by
  have hmax : pmmMaxPages = 0x100000 := by decide
  have hstart : MmapEntry.startPage ⟨0x100000, 0xF00000, multibootMemoryAvailable⟩ = 0x100 := by
    decide
  have hend : MmapEntry.endPage ⟨0x100000, 0xF00000, multibootMemoryAvailable⟩ = 0x1000 := by decide
  apply oneRegion_usable
  · omega
  · exact h1
  · omega
  · omega

/-- On the large machine all four gigabytes are mapped, and all frames but the four that were taken
are still free. -/
theorem large_mapped : ∃ s G, vmmInit largeMachine.start = some (s, true) ∧ G.length ≤ 4 ∧
    Mapped largeMachine.counted (largeMachine.withMem largeMachine.userMem) s G 0 4 ∧
    ∀ a, a ∉ G → 0x150 ≤ a → a < 0x1000 → Free s a := by
  have hb := Boot.lives (b := largeMachine) (oneRegion_fits _ _)
  have hrange : ∀ a ∈ firstFrames, 0x150 ≤ a ∧ a < 0x1000 := by decide
  obtain ⟨s, G, hs, hlen, hmap⟩ := Boot.first_frames_mapped hb
    (fun a ha => large_usable (hrange a ha).1 (hrange a ha).2)
  exact ⟨s, G, hs, hlen, hmap, fun a ha h1 h2 =>
    (hmap.free a).mpr ⟨(bitmapTest_pmmInit _ _ a).mpr (large_usable h1 h2), ha⟩⟩

/-- After the boot of the large machine an entry of `PDPTE_B` points to a frame that is free. -/
theorem stray_table_free : ∃ s i, largeMachine.Fits ∧ (paging largeMachine).Reachable s ∧
    NonLeaf s [511] 0x74 i (0x200 + i) ∧ bitmapTest s.pmm.bitmap (0x200 + i) = false ∧
    ¬ TablesOwned s := by
  have hfits : largeMachine.Fits := oneRegion_fits _ _
  obtain ⟨s, G, hs, hlen, hmap, hunused⟩ := large_mapped
  -- `vmm_init` takes at most four frames, so one of five stays free
  obtain ⟨i, hil, hiG⟩ :=
    exists_not_mem_of_short (G := G) (l := [0x200, 0x201, 0x202, 0x203, 0x204])
    (by decide) (by simp only [List.length_cons, List.length_nil]; omega)
  have hrange : ∀ i ∈ [0x200, 0x201, 0x202, 0x203, 0x204], 0x200 ≤ i ∧ i < 0x205 := by decide
  obtain ⟨hlo, hhi⟩ := hrange i hil
  obtain ⟨k, rfl⟩ : ∃ k, i = 0x200 + k := ⟨i - 0x200, by omega⟩
  have hfree : bitmapTest s.pmm.bitmap (0x200 + k) = false :=
    hunused _ hiG (by omega) (by omega)
  have hout (f : ℕ) (hf : f < 0x150) : f ∉ G := by
    intro hg
    have hu := ((bitmapTest_pmmInit _ _ f).mp (hmap.fresh f hg)).2.1
    have hend : kernelEndPage largeMachine.kernelEnd = 0x150 := by
      have h : largeMachine.kernelEnd = 0x150000 := rfl
      rw [h]
      decide
    omega
  have he := Boot.userEntries largeMachine
  have hlast : entry s.mem 0x70 511 = 0x74003 :=
    (hmap.same 0x70 511 (by decide) (by decide) (hout _ (by decide))).trans he.last
  have hstray : entry s.mem 0x74 k = entry largeMachine.userMem 0x74 k :=
    hmap.same 0x74 k (by omega) (by decide) (hout _ (by decide))
  have hroot : s.root = 0x70 := by
    have hpml : s.pml4 = pml4Addr := hmap.pml4
    rw [Vmm.root, hpml]
    decide
  have h1 : s.table (fun _ => True) [511] = some 0x74 := by
    refine (table_step (p := []) (congrArg some hroot)).trans (child_eq_some.mpr ?_)
    rw [hlast]
    exact ⟨⟨by decide, by decide, trivial, by decide, by decide⟩, by decide⟩
  have h2 : s.table (fun _ => True) ([511] ++ [k]) = some (0x200 + k) := by
    obtain ⟨hp, hps, hframe⟩ := he.stray (i := k) (by omega) (by omega)
    refine (table_step h1).trans (child_eq_some.mpr ?_)
    rw [hstray]
    exact ⟨⟨by omega, by decide, trivial, hp, Or.inr hps⟩, hframe⟩
  refine ⟨s, k, hfits, .init ⟨true, hs⟩, ⟨h1, h2⟩, hfree, fun howned => ?_⟩
  exact nomatch hfree.symm.trans (howned.used _ _ _ _ ⟨h1, h2⟩)

end SukiOS

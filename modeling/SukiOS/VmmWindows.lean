import SukiOS.VmmRuns

/-! The pages the kernel maps for its heap, for devices and for user programs, and the identity map
through which it reaches page tables and free frames. -/
namespace SukiOS
open ByteMemory MachineWord RadixTree Transition

/-- Where `user.ld` links user programs. -/
def userBase : ℕ := 0x400000

/-- The calls that map pages: the heap takes its next page, a driver maps a device, and a user
program or its stack gets a page. -/
inductive KernelCall where
  | heapPage (virt : ℕ)
  | mapMmio (physAddr size : ℕ)
  | userPage (va perm : ℕ)

/-- The body of the loops in `elf64_load` and `proc_create_from_elf`. -/
def mapUserPage (s : Vmm) (va perm : ℕ) : Option Vmm := do
  let mapped ← vmmIsMapped s va
  if mapped then some s else (vmmAllocMap s va perm).map Prod.fst

def kernelApply (s : Vmm) : KernelCall → Option Vmm
  | .heapPage virt => (vmmAllocMap s virt vmmKernRw).map Prod.fst
  | .mapMmio physAddr size => (vmmMapMmio s physAddr size).map Prod.fst
  | .userPage va perm => mapUserPage s va perm

/-- The arguments the kernel passes. -/
def KernelCall.Valid : KernelCall → Prop
  | .heapPage virt => vmmHeapBase ≤ virt ∧ virt < vmmHeapBase + vmmHeapSize
  | .mapMmio _ _ => True
  | .userPage va perm => userBase ≤ va ∧ va < 2^64 ∧
      (perm = vmmPresent ||| vmmUser ∨ perm = vmmPresent ||| vmmUser ||| vmmWrite)

/-- The runs of the kernel after `boot.asm`, `pmm_init` and `vmm_init`. -/
def kernelMaps (b : Boot) : System Vmm KernelCall where
  init s := ∃ r, vmmInit b.start = some (s, r)
  step s c s' := c.Valid ∧ kernelApply s c = some s'

/-- The frame is free, or holds a page table. -/
def InUse (s : Vmm) (f : ℕ) : Prop := Free s f ∨ ∃ p, s.table (fun _ => True) p = some f

/-- Every free frame and every page table below 4 GB is at its own address, and clearing a free
frame clears that frame. -/
structure IdentityMapped (s : Vmm) : Prop where
  windows : ∀ f, InUse s f → f < 2^20 → Window s f
  clears : ∀ f, Free s f → clearPage s (f*4096) =
    some { s with mem := fill s.mem (f*4096) 0#8 4096 }

/-- The pages that a call maps, each with its entry. -/
def mappedPages (s : Vmm) : KernelCall → Set (ℕ × ℕ)
  | .heapPage virt => {x | (∃ g, Free s g) ∧ x ∈ pagesOf s (.allocMap virt vmmKernRw)}
  | .mapMmio physAddr size => pagesOf s (.mapMmio physAddr size)
  | .userPage va perm => {x | (∃ g, Free s g) ∧ vmmIsMapped s va = some false ∧
      x ∈ pagesOf s (.allocMap va perm)}

/-- No page goes over the own address of a free frame or of a page table, or of a frame that is
mapped by the call, unless it leads to that frame. The walks of the pages do not use a harmful
stray entry, and the frames that are mapped are at their own addresses. -/
def Undisturbed (b : Boot) (s : Vmm) (c : KernelCall) : Prop :=
  ∀ x ∈ mappedPages s c, LiveWalk b.counted x.1 ∧
    (∀ h, (InUse s h ∨ ∃ y ∈ mappedPages s c, frameOf y.2 = h) →
      walkPath (h*4096) = walkPath x.1 → frameOf x.2 = h) ∧
    (frameOf x.2 < 2^20 → Window s (frameOf x.2))

section Windows
variable {b : Boot} {live : List ℕ → Prop} {s s' t u u' : Vmm} {c : KernelCall} {f h v w : ℕ}
    {r : ℤ}

/-- The call as an operation on the page tables. -/
def KernelCall.op : KernelCall → VmmOp
  | .heapPage virt => .allocMap virt vmmKernRw
  | .mapMmio physAddr size => .mapMmio physAddr size
  | .userPage va perm => .allocMap va perm

theorem vmmAllocMap_full (hnone : ¬ ∃ g, Free s g) (flags : ℕ) :
    vmmAllocMap s v flags = some (s, -1) := by
  rcases pmmAllocPage_free s with ⟨g, hg, -⟩ | ⟨-, hres⟩
  · exact absurd ⟨g, hg⟩ hnone
  · unfold vmmAllocMap
    rw [hres]
    exact if_pos rfl

/-- A call changes nothing, or is the operation on its pages. -/
theorem kernelApply_cases (ha : kernelApply s c = some s') :
    s' = s ∨ vmmApply s c.op = some s' ∧ pagesOf s c.op = mappedPages s c := by
  cases c with
  | heapPage virt =>
    by_cases hfree : ∃ g, Free s g
    · refine Or.inr ⟨ha, ?_⟩
      ext x
      exact ⟨fun hx => ⟨hfree, hx⟩, And.right⟩
    · have ha : (vmmAllocMap s virt vmmKernRw).map Prod.fst = some s' := ha
      rw [vmmAllocMap_full hfree] at ha
      exact Or.inl (Option.some.inj ha).symm
  | mapMmio physAddr size => exact Or.inr ⟨ha, rfl⟩
  | userPage va perm =>
    obtain ⟨mapped, hm, ha⟩ := Option.bind_eq_some_iff.mp ha
    cases mapped with
    | true => exact Or.inl (Option.some.inj ha).symm
    | false =>
      have ha : (vmmAllocMap s va perm).map Prod.fst = some s' := ha
      by_cases hfree : ∃ g, Free s g
      · refine Or.inr ⟨ha, ?_⟩
        ext x
        exact ⟨fun hx => ⟨hfree, hm, hx⟩, fun hx => hx.2.2⟩
      · rw [vmmAllocMap_full hfree] at ha
        exact Or.inl (Option.some.inj ha).symm

/-- The kernel maps present pages. -/
theorem KernelCall.Valid.present (hv : c.Valid) {x : ℕ × ℕ} (hx : x ∈ pagesOf s c.op) :
    x.2 &&& vmmPresent ≠ 0 := by
  cases c with
  | heapPage virt =>
    rw [show x = _ from hx]
    exact pageEntry_present _ (by decide)
  | mapMmio physAddr size =>
    obtain ⟨k, -, rfl⟩ := hx
    exact pageEntry_present _ (by decide)
  | userPage va perm =>
    rw [show x = _ from hx]
    rcases hv.2.2 with rfl | rfl
    · exact pageEntry_present _ (by decide)
    · exact pageEntry_present _ (by decide)

/-- More paths reach more tables. -/
theorem Vmm.Managed.inUse (hm : s.Managed live f) : InUse s f := by
  refine hm.imp_right (fun ⟨p, hp⟩ => ⟨p, ?_⟩)
  refine follow_mono (fun q x i g _ hc => ?_) hp
  obtain ⟨⟨hi, hlen, -, hrest⟩, hg⟩ := child_eq_some.mp hc
  exact child_eq_some.mpr ⟨⟨hi, hlen, trivial, hrest⟩, hg⟩

theorem Grown.inUse (hg : Grown live u t) (hu : InUse t f) : InUse u f := by
  rcases hu with hf | ⟨p, hp⟩
  · exact Or.inl (hg.free f hf)
  · rcases hg.other _ p f hp with hp | hf
    · exact Or.inr ⟨p, hp⟩
    · exact Or.inl hf

theorem Window.grown (hb : b.Lives live) (hg : Grown live u t) (hf : f < 2^20) (hw : Window u f) :
    Window t f := by
  intro o ho
  have h0 : vmmPml4Index (f*4096 + o) = 0 := by
    rw [vmmPml4Index_eq]
    omega
  rw [hg.walk _ (hb.liveWalk (by omega)) h0]
  exact hw o ho

/-- A page that is mapped leaves the window of a frame, or leads to the frame. -/
theorem PageMapped.window (hb : b.Lives live) (hp : PageMapped live u u' v w r)
    (hpres : w &&& vmmPresent ≠ 0) (hf : f < 2^20) (hw : Window u f)
    (hkeep : walkPath (f*4096) = walkPath v → frameOf w = f) : Window u' f := by
  obtain ⟨t, hg, ⟨-, rfl⟩ | ⟨-, -, x, hs⟩⟩ := hp
  · exact hw.grown hb hg hf
  · intro o ho
    have hwt := hw.grown hb hg hf o ho
    have hl := hb.liveWalk (v := f*4096 + o) (by omega)
    have hpage : walkPath (f*4096 + o) = walkPath (f*4096) := by
      rw [← walkPath_page (f*4096 + o)]
      apply congrArg
      omega
    by_cases hv : walkPath (f*4096 + o) = ptPath v ++ [vmmPtIndex v]
    · rw [hs.walk_on hg.tables.reached hl hv (Or.inl (by omega)), if_neg hpres,
        hkeep (hpage.symm.trans hv)]
      apply congrArg
      omega
    · rw [hs.walk_off hg.tables.reached hl hv]
      exact hwt

theorem PageMapped.inUse (hb : b.Lives live) (hp : PageMapped live u u' v w r) (hu : InUse u' f) :
    InUse u f ∨ frameOf w = f := by
  obtain ⟨t, hg, ⟨-, rfl⟩ | ⟨-, -, x, hs⟩⟩ := hp
  · exact Or.inl (hg.inUse hu)
  · rcases hu with hf | ⟨p, hp⟩
    · exact Or.inl (hg.inUse (Or.inl ((hs.free f).mp hf)))
    · rcases hs.other hg.tables hb.short p f hp with hp | ⟨-, -, hfr⟩
      · exact Or.inl (hg.inUse (Or.inr ⟨p, hp⟩))
      · exact Or.inr hfr

/-- The page tables, and the windows of what is in use. -/
structure WindowsInv (b : Boot) (s : Vmm) : Prop where
  paging : PagingInv b.counted s
  windows : ∀ f, InUse s f → f < 2^20 → Window s f

theorem WindowsInv.step (hb : b.Lives b.counted) (hi : WindowsInv b s) (hc : Undisturbed b s c)
    (hs : (kernelMaps b).step s c s') : WindowsInv b s' := by
  obtain ⟨hv, ha⟩ := hs
  rcases kernelApply_cases ha with rfl | ⟨ha, hpages⟩
  · exact hi
  · have hc : ∀ x ∈ pagesOf s c.op, LiveWalk b.counted x.1 ∧
        (∀ h, (InUse s h ∨ ∃ y ∈ pagesOf s c.op, frameOf y.2 = h) →
          walkPath (h*4096) = walkPath x.1 → frameOf x.2 = h) ∧
        (frameOf x.2 < 2^20 → Window s (frameOf x.2)) := by
      rw [hpages]
      exact hc
    -- on the way, what is in use was so before the call or is mapped by it
    have hrule : PagingInv b.counted s' ∧
        (∀ h, InUse s' h → InUse s h ∨ ∃ y ∈ pagesOf s c.op, frameOf y.2 = h) ∧
        ∀ h, (InUse s h ∨ ∃ y ∈ pagesOf s c.op, frameOf y.2 = h) → h < 2^20 → Window s' h := by
      refine vmmApply_rule (P := fun u => PagingInv b.counted u ∧
        (∀ h, InUse u h → InUse s h ∨ ∃ y ∈ pagesOf s c.op, frameOf y.2 = h) ∧
        ∀ h, (InUse s h ∨ ∃ y ∈ pagesOf s c.op, frameOf y.2 = h) → h < 2^20 → Window u h)
        (fun t h => h.1.1) ?_ ?_ (fun x hx => (hc x hx).1) ?_ hi.paging.2 ⟨hi.paging, ?_, ?_⟩ ha
      · exact fun t n hn h => ⟨⟨h.1.1.withNext n, hn⟩, h.2⟩
      · intro t h
        have hg := h.1.1.allocPage
        exact ⟨⟨hg.tables, h.1.2⟩, fun f hf => h.2.1 f (hg.inUse hf),
          fun f hf hlt => (h.2.2 f hf hlt).grown hb hg hlt⟩
      · intro x hx u u' r hu hp
        obtain ⟨-, hkeep, -⟩ := hc x hx
        refine ⟨⟨hp.tables ?_, ?_⟩, ?_, ?_⟩
        · exact fun h hm hw _ => hkeep h (hu.2.1 h hm.inUse) hw
        · rw [hp.mmioNext]
          exact hu.1.2
        · intro h hh
          rcases hp.inUse hb hh with hh | hh
          · exact hu.2.1 h hh
          · exact Or.inr ⟨x, hx, hh⟩
        · exact fun h hh hlt => hp.window hb (hv.present hx) hlt (hu.2.2 h hh hlt) (hkeep h hh)
      · exact fun h hh => Or.inl hh
      · intro h hh hlt
        rcases hh with hh | ⟨y, hy, rfl⟩
        · exact hi.windows h hh hlt
        · exact (hc y hy).2.2 hlt
    exact ⟨hrule.1, fun f hf hlt => hrule.2.2 f (hrule.2.1 f hf) hlt⟩

theorem WindowsInv.identityMapped (hi : WindowsInv b s) : IdentityMapped s where
  windows := hi.windows
  clears := by
    intro f hf
    have ht := hi.paging.1
    have hlt : f < 2^20 := lt_max_of_free hf
    obtain ⟨s', hs'⟩ := ht.reached.clearPage_some hf (hi.windows f (Or.inl hf) hlt) rfl rfl
    rw [hs', ht.reached.clearPage_eq hf rfl rfl hs']

/-- With four usable frames `vmm_init` maps all four gigabytes. -/
theorem WindowsInv.init (hb : b.Fits) {A : List ℕ} (hnd : A.Nodup) (hlen : 4 ≤ A.length)
    (hA : ∀ a ∈ A, a ∈ usableFrames b.entries b.kernelEnd) {ok : Bool}
    (h : vmmInit b.start = some (s, ok)) : WindowsInv b s := by
  have hl := Boot.lives hb
  refine ⟨b.init_inv hl h, fun f _ hlt o ho => ?_⟩
  obtain ⟨G, hi, -, hmap, hend⟩ := b.init_mapped hl h
  rcases hend with ⟨-, rfl⟩ | ⟨-, hshort, hfull⟩
  · rw [hmap.walk _ (by omega), if_pos (by omega)]
  · -- some usable frame is not among the fewer than four that were taken
    obtain ⟨a, ha, haG⟩ := exists_not_mem_of_short hnd (by omega : G.length < A.length)
    have hfree := (bitmapTest_pmmInit b.entries b.kernelEnd a).mpr (hA a ha)
    exact absurd ((hmap.free a).mpr ⟨hfree, haG⟩) (hfull a)

/-- While no call of the kernel disturbs it, the identity map stays. -/
theorem identity_map_kept (hb : b.Fits) {A : List ℕ} (hnd : A.Nodup) (hlen : 4 ≤ A.length)
    (hA : ∀ a ∈ A, a ∈ usableFrames b.entries b.kernelEnd)
    (hr : ((kernelMaps b).restrict (Undisturbed b)).Reachable s) : IdentityMapped s := by
  have hinv : WindowsInv b s := by
    refine hr.restrict_invariant (fun s h => ?_) (fun s c s' hi hc hs => ?_)
    · obtain ⟨ok, h⟩ := h
      exact .init hb hnd hlen hA h
    · exact hi.step (Boot.lives hb) hc hs
  exact hinv.identityMapped

/-- A user page is mapped at 2 GB, in no window of a free frame or of a table. -/
theorem identity_map_kept_small : ∃ s s',
    ((kernelMaps smallMachine).restrict (Undisturbed smallMachine)).Reachable s ∧
    vmmAllocMap s 0x80000000 (vmmPresent ||| vmmUser) = some (s', 0) ∧
    (kernelMaps smallMachine).step s (.userPage 0x80000000 (vmmPresent ||| vmmUser)) s' ∧
    IdentityMapped s' := by
  have hfits : smallMachine.Fits := oneRegion_fits _ _
  have hb : smallMachine.Lives (fun _ => True) :=
    ⟨hfits, fun _ _ => trivial, fun _ => trivial, fun i hi hne _ => small_stray i hi hne⟩
  obtain ⟨s, s', hs, hback, hlow, hmapped, hmap⟩ := small_page hb (vmmPresent ||| vmmUser)
  have hr : ((kernelMaps smallMachine).restrict (Undisturbed smallMachine)).Reachable s :=
    .init ⟨true, hs⟩
  have hlive : LiveWalk smallMachine.counted 0x80000000 :=
    (Boot.lives hfits).liveWalk (by decide)
  have hstep : (kernelMaps smallMachine).step s
      (.userPage 0x80000000 (vmmPresent ||| vmmUser)) s' := by
    refine ⟨⟨by decide, by decide, Or.inl rfl⟩, ?_⟩
    change (vmmIsMapped s 0x80000000).bind (fun mapped => if mapped then some s
      else (vmmAllocMap s 0x80000000 (vmmPresent ||| vmmUser)).map Prod.fst) = some s'
    rw [hmapped, hmap]
    rfl
  have hkept : Undisturbed smallMachine s (.userPage 0x80000000 (vmmPresent ||| vmmUser)) := by
    rintro x ⟨⟨f, hf⟩, -, hx⟩
    obtain rfl := Set.mem_singleton_iff.mp hx
    -- the frame of the page is one of the free ones
    obtain ⟨g, hg, haddr, -⟩ := (pmmAllocPage_free s).resolve_right (fun h => h.1 f hf)
    have hframe : frameOf (pageEntry (pmmAllocPage s.pmm).2 (vmmPresent ||| vmmUser)) = g := by
      have hlt := hlow g (Or.inl hg)
      rw [haddr, frameOf_pageEntry]
      unfold frameOf
      omega
    refine ⟨hlive, fun h hh hw => absurd hw (walkPath_two_gb ?_), fun _ => ?_⟩
    · rcases hh with hm | ⟨y, ⟨-, -, hy⟩, rfl⟩
      · exact hlow h hm
      · obtain rfl := Set.mem_singleton_iff.mp hy
        exact hframe.symm ▸ hlow g (Or.inl hg)
    · exact hframe.symm ▸ hback.windows g (Or.inl hg)
  have husable : ∀ a ∈ firstFrames,
      a ∈ usableFrames smallMachine.entries smallMachine.kernelEnd := by
    intro a ha
    have hrange : ∀ a ∈ firstFrames, 0x150 ≤ a ∧ a < 0x160 := by decide
    exact small_usable (hrange a ha).1 (hrange a ha).2
  exact ⟨s, s', hr, hmap, hstep, identity_map_kept hfits (A := firstFrames) (by decide) (by decide)
    husable (.step hr ⟨hkept, hstep⟩)⟩

/-- The first page of a user program is mapped in the place of a free frame. -/
theorem identity_map_lost : ∃ s s', largeMachine.Fits ∧ (kernelMaps largeMachine).Reachable s ∧
    (kernelMaps largeMachine).step s (.userPage userBase (vmmPresent ||| vmmUser)) s' ∧
    Free s' 0x400 ∧ translate s'.mem s'.pml4 (0x400*4096) ≠ some (0x400*4096) ∧
    ¬ IdentityMapped s' := by
  have hfits : largeMachine.Fits := oneRegion_fits _ _
  have hb := Boot.lives hfits
  obtain ⟨s, G, hs, hlen, hmap, hfree⟩ := large_mapped
  have hbacked := Boot.init_backed hb hmap
  -- two frames behind the kernel are free, and the four that were taken lie before them
  obtain ⟨x, hx, hxG⟩ := exists_not_mem_of_short (G := G) (l := [0x150, 0x151, 0x152, 0x153, 0x154])
    (by decide) (Nat.lt_succ_of_le hlen)
  obtain ⟨y, hy, hyG⟩ := exists_not_mem_of_short (G := G) (l := [0x160, 0x161, 0x162, 0x163, 0x164])
    (by decide) (Nat.lt_succ_of_le hlen)
  have hxr : ∀ x ∈ [0x150, 0x151, 0x152, 0x153, 0x154], 0x150 ≤ x ∧ x < 0x160 := by decide
  have hyr : ∀ y ∈ [0x160, 0x161, 0x162, 0x163, 0x164], 0x160 ≤ y ∧ y < 0x170 := by decide
  obtain ⟨hx1, hx2⟩ := hxr x hx
  obtain ⟨hy1, hy2⟩ := hyr y hy
  have hfx := hfree x hxG hx1 (by omega)
  have hfy := hfree y hyG (by omega) (by omega)
  have h400 : 0x400 ∉ G := by
    intro h
    have hlt := hmap.first _ h x hfx
    omega
  -- the page lies in a 2 MB page of the identity map, so it counts as not mapped
  have hv : userBase &&& pageMask = 0x400*4096 := by decide
  have hl : LiveWalk largeMachine.counted (userBase &&& pageMask) := by
    rw [hv]
    exact hb.liveWalk (by decide)
  have h32 : userBase &&& pageMask < 2^32 := by
    rw [hv]
    decide
  obtain ⟨f, h2, hps⟩ := hmap.large_page h32
  have hmapped : vmmIsMapped s userBase = some false := hbacked.vmmIsMapped_large h2 hps
  obtain ⟨s', g, g', hs', haddr, hg, hg', hfree'⟩ :=
    hbacked.vmmAllocMap_large hl h2 hps hfx hfy (by omega) (vmmPresent ||| vmmUser)
  have hstep : (kernelMaps largeMachine).step s
    (.userPage userBase (vmmPresent ||| vmmUser)) s' := by
    refine ⟨⟨le_rfl, by decide, Or.inl rfl⟩, ?_⟩
    have happly : kernelApply s (.userPage userBase (vmmPresent ||| vmmUser)) =
        (vmmIsMapped s userBase).bind (fun mapped => if mapped then some s
          else (vmmAllocMap s userBase (vmmPresent ||| vmmUser)).map Prod.fst) := rfl
    rw [happly, hmapped, hs']
    rfl
  have hfree400 : Free s' 0x400 :=
    (hfree' 0x400).mpr ⟨hfree 0x400 h400 (by decide) (by decide), by omega, by omega⟩
  have hwalk : translate s'.mem s'.pml4 (0x400*4096) ≠ some (0x400*4096) := by
    obtain ⟨t, hgrow, ⟨hr, -⟩ | ⟨-, -, f1, hset⟩⟩ := vmmAllocMap_spec hmap.tables hl hs'
    · exact absurd hr (by decide)
    · have htr := hset.walk_on hgrow.tables.reached hl (walkPath_eq _)
        (by rw [hv]; exact Or.inl (by decide))
      have hframe : frameOf (g*4096) = g := by
        unfold frameOf
        omega
      rw [hv, if_neg (pageEntry_present _ (by decide)), haddr, frameOf_pageEntry, hframe] at htr
      rw [htr]
      intro heq
      have heq := Option.some.inj heq
      omega
  refine ⟨s, s', hfits, .init ⟨true, hs⟩, hstep, hfree400, hwalk, fun hid => hwalk ?_⟩
  exact hid.windows 0x400 (Or.inl hfree400) (by decide) 0 (by decide)

end Windows

end SukiOS

import SukiOS.HeapTiling

/-! What a `kmalloc` that returns `NULL` leaves behind. `expand_to` counts each page as soon as it
is mapped, so an expansion that fails on a later page keeps the pages before it. -/
namespace SukiOS
open ByteMemory Transition

/-- If the first page of an expansion for `size` bytes can be mapped, all its pages can. -/
def StrandsNothing (vmm : ℕ → Bool) (h : Heap) (size : ℕ) : Prop :=
  size ≠ 0 → size ≤ heapMaxAlloc → h.firstFit (blockTotal size) = some 0 →
    h.heapMappedSize < h.heapMaxSize → vmm h.limit = true →
    ∀ i, i*4096 < blockTotal size →
      h.heapMappedSize + i*4096 < h.heapMaxSize ∧ vmm (h.limit + i*4096) = true

/-- Every `expand_to` call of the operation maps all its pages or none. -/
def HeapOp.StrandsNothing (s : Client) : HeapOp → Prop
  | .kmalloc vmm size => SukiOS.StrandsNothing vmm s.heap size
  | .krealloc vmm ptr size => ptr = 0 ∨ s.payload ptr < size → SukiOS.StrandsNothing vmm s.heap size
  | .kcalloc vmm nmemb size => nmemb ≠ 0 → size ≠ 0 → size ≤ heapMaxAlloc / nmemb →
      SukiOS.StrandsNothing vmm s.heap (nmemb*size)
  | _ => True

/-! ### Expansions that fail -/

section Expand
variable {vmm : ℕ → Bool} {h h' : Heap} {bs : List Block} {fl : List ℕ} {curEnd needed size : ℕ}

/-- The first page of an expansion is mapped at once, and never given back. -/
theorem expandFrom_first (hlt : curEnd < needed) (hmax : curEnd < h.heapStart + h.heapMaxSize)
    (hv : vmm curEnd = true) : expandFrom vmm h curEnd needed =
      expandFrom vmm { h with heapMappedSize := h.heapMappedSize + vmmPageSize }
        (curEnd + vmmPageSize) needed := by
  rw [expandFrom, if_pos hlt, if_neg (Nat.not_le.mpr hmax), if_neg (by rw [hv]; decide)]

theorem expandFrom_none (hstop : h.heapStart + h.heapMaxSize ≤ curEnd ∨ vmm curEnd = false)
    (hlt : curEnd < needed) : expandFrom vmm h curEnd needed = (false, h) := by
  rw [expandFrom, if_pos hlt]
  by_cases hmax : h.heapStart + h.heapMaxSize ≤ curEnd
  · rw [if_pos hmax]
  · rw [if_neg hmax, if_pos (hstop.resolve_left hmax)]

/-- A `kmalloc` that cannot expand the heap returns `NULL`, with the pages mapped so far. -/
theorem kmalloc_stuck (hno : ¬ ExpandsOk vmm h size) :
    kmalloc vmm h size = some ((expandTo vmm h (h.limit + blockTotal size)).2, 0) := by
  unfold ExpandsOk at hno
  push Not at hno
  obtain ⟨h0, hmax, hff, hfail⟩ := hno
  have hfalse := Bool.eq_false_of_not_eq_true hfail
  have hgrow : growHeap vmm h (blockTotal size) = expandTo vmm h (h.limit + blockTotal size) :=
    if_pos hfalse
  unfold kmalloc
  rw [if_neg (by omega)]
  dsimp only
  rw [hff]
  dsimp only
  rw [if_pos rfl, hgrow, if_pos hfalse]

/-- Where nothing is stranded, a call that cannot expand the heap leaves it as it is. -/
theorem kmalloc_stuck_same (hno : ¬ ExpandsOk vmm h size) (hs : StrandsNothing vmm h size) :
    kmalloc vmm h size = some (h, 0) := by
  rw [kmalloc_stuck hno]
  unfold ExpandsOk at hno
  push Not at hno
  obtain ⟨h0, hmax, hff, hfail⟩ := hno
  have ht64 := (blockTotal_spec hmax).1
  suffices hnone : expandTo vmm h (h.limit + blockTotal size) = (false, h) by rw [hnone]
  apply expandFrom_none _ (show h.limit < h.limit + blockTotal size by omega)
  -- if the first page could be mapped, all of them could, and the call would expand the heap
  by_contra hgo
  push Not at hgo
  obtain ⟨hlt, hv⟩ := hgo
  apply hfail
  apply (expandFrom_ok vmm h h.limit _ rfl).mpr
  intro i hi
  have hlim : h.limit = h.heapStart + h.heapMappedSize := rfl
  have hroom : h.heapMappedSize < h.heapMaxSize := by omega
  exact hs h0 hmax hff hroom (Bool.eq_true_of_not_eq_false hv) i (by omega)

/-- A call that strands pages changes the mapped size. -/
theorem kmalloc_strands (hi : HeapInv h bs fl) (hs : ¬ StrandsNothing vmm h size) :
    ∃ h', kmalloc vmm h size = some (h', 0) ∧ h.heapMappedSize < h'.heapMappedSize := by
  unfold StrandsNothing at hs
  push Not at hs
  obtain ⟨h0, hmax, hff, hroom, hv, i, hlt, hbad⟩ := hs
  have hno : ¬ ExpandsOk vmm h size := by
    intro hok
    obtain ⟨h1, h2⟩ := (expandFrom_ok vmm h h.limit _ rfl).mp (hok h0 hmax hff) i (by omega)
    exact hbad h1 h2
  refine ⟨_, kmalloc_stuck hno, ?_⟩
  have hmapped := hi.mapped_align
  have hmaxal := hi.max_align
  have ht64 := (blockTotal_spec hmax).1
  have hlim : h.limit = h.heapStart + h.heapMappedSize := rfl
  have hfirst := expandFrom_first (h := h) (show h.limit < h.limit + blockTotal size by omega)
    (by omega) hv
  have hto : expandTo vmm h (h.limit + blockTotal size) =
      expandFrom vmm h h.limit (h.limit + blockTotal size) := rfl
  rw [hto, hfirst]
  obtain ⟨ok, k, hres, -⟩ := expandFrom_pages vmm
    { h with heapMappedSize := h.heapMappedSize + vmmPageSize } (h.limit + vmmPageSize)
    (h.limit + blockTotal size) (by simp only; omega) (by simp only [vmmPageSize]; omega) hmaxal
    (by simp only [vmmPageSize]; omega)
  rw [hres]
  simp only [vmmPageSize]
  omega

end Expand

/-! ### Runs that strand nothing -/

section Runs
variable {s s' : Client} {op : HeapOp} {bs : List Block} {fl : List ℕ}

/-- A step that cannot expand the heap and strands nothing leaves it as it is. -/
theorem step_stuck_same (hno : ¬ op.ExpandsOk s) (hs : op.StrandsNothing s)
    (h : Client.Step s op s') : s'.heap = s.heap := by
  cases h with
  | @kmalloc vmm size p h he =>
    have hk := kmalloc_stuck_same hno hs
    obtain ⟨rfl, rfl⟩ := Prod.mk.inj (Option.some.inj (hk.symm.trans he))
    exact grant_heap _ _ _ _
  | kfree hp => exact absurd trivial hno
  | @krealloc vmm ptr size p h hp he =>
    obtain ⟨hcall, hno⟩ := not_forall.mp hno
    have hk := kmalloc_stuck_same hno (hs hcall)
    have h0 : size ≠ 0 := fun hz => hno (fun hne => absurd hz hne)
    -- what `krealloc` checks before it calls `kmalloc` changes nothing
    have hsame : h = s.heap := by
      unfold SukiOS.krealloc at he
      by_cases hnull : ptr = 0
      · rw [if_pos hnull, hk] at he
        exact (Prod.mk.inj (Option.some.inj he)).1.symm
      rw [if_neg hnull, if_neg h0] at he
      dsimp only at he
      by_cases hmagic : blkMagic s.heap.mem (ptr-blockHeaderSize) ≠ magicValue
      · rw [if_pos hmagic] at he
        exact (Prod.mk.inj (Option.some.inj he)).1.symm
      have hpay : ¬ size ≤ blkSize s.heap.mem (ptr-blockHeaderSize) - blockMetaSize :=
        Nat.not_le.mpr (hcall.resolve_left hnull)
      rw [if_neg hmagic, if_neg hpay, hk] at he
      exact (Prod.mk.inj (Option.some.inj he)).1.symm
    split
    · exact hsame
    · rw [grant_heap, hsame]
  | @kcalloc vmm nmemb size p h he =>
    unfold HeapOp.ExpandsOk at hno
    push Not at hno
    obtain ⟨hn, hz, hbig, hno⟩ := hno
    have hk := kmalloc_stuck_same hno (hs hn hz hbig)
    unfold SukiOS.kcalloc at he
    rw [if_neg (by omega), if_neg (by omega), hk] at he
    obtain ⟨rfl, rfl⟩ := Prod.mk.inj (Option.some.inj he)
    exact grant_heap _ _ _ _
  | write hq h1 h2 => exact absurd trivial hno

theorem strandless_step (hi : ClientInv s bs fl) (ht : Tiles s.heap.heapStart bs s.heap.limit)
    (hn : NoAdjacentFree bs) (hs : op.StrandsNothing s) (h : Client.Step s op s') :
    ∃ bs' fl', ClientInv s' bs' fl' ∧ Tiles s'.heap.heapStart bs' s'.heap.limit ∧
      NoAdjacentFree bs' := by
  obtain ⟨bs', fl', hi', he⟩ := client_step hi h
  by_cases hok : op.ExpandsOk s
  · exact ⟨bs', fl', hi', he.tiles hok ht hn⟩
  · -- the heap is the same, so its blocks still tile it
    have hsame := step_stuck_same hok hs h
    rcases he.layout with ⟨rfl, -⟩ | ⟨total, best, hc⟩
    · rw [hsame]
      exact ⟨bs', fl', hi', ht, hn⟩
    · refine ⟨bs', fl', hi', ?_, hc.noAdjacentFree hn⟩
      rw [he.heapStart]
      exact hc.tiles ht

/-- The runs in which no operation strands a page. -/
def strandlessSystem : System Client HeapOp := heapSystem.restrict (fun s op => op.StrandsNothing s)

theorem strandlessSystem_reachable (hr : strandlessSystem.Reachable s) :
    ∃ bs fl, ClientInv s bs fl ∧ Tiles s.heap.heapStart bs s.heap.limit ∧ NoAdjacentFree bs := by
  apply hr.restrict_invariant (I := fun s =>
    ∃ bs fl, ClientInv s bs fl ∧ Tiles s.heap.heapStart bs s.heap.limit ∧ NoAdjacentFree bs)
  · rintro s ⟨vmm, m, rfl⟩
    obtain ⟨fl, hinv⟩ := heapInit_client vmm m
    obtain ⟨ht, hn⟩ := heapInit_tiled vmm m
    exact ⟨_, fl, hinv, ht, hn⟩
  · rintro s op s' ⟨bs, fl, hi, ht, hn⟩ hs h
    exact strandless_step hi ht hn hs h

end Runs

/-- In every run that strands nothing, a `kmalloc` that returns `NULL` leaves the heap as it was and
tiled by its blocks, exactly when it strands nothing itself. -/
theorem kmalloc_failure_clean {s : Client} (hr : strandlessSystem.Reachable s) {vmm : ℕ → Bool}
    {size : ℕ} {h' : Heap} (hk : kmalloc vmm s.heap size = some (h', 0)) :
    (h' = s.heap ∧ ∃ bs fl, HeapWellFormed h' bs fl) ↔ StrandsNothing vmm s.heap size := by
  obtain ⟨bs, fl, hi, ht, hn⟩ := strandlessSystem_reachable hr
  constructor
  · rintro ⟨rfl, -⟩
    -- a call that strands a page leaves a larger mapped size
    by_contra hs
    obtain ⟨h1, hk1, hlt⟩ := kmalloc_strands hi.heap hs
    obtain ⟨rfl, -⟩ := Prod.mk.inj (Option.some.inj (hk1.symm.trans hk))
    exact Nat.lt_irrefl _ hlt
  · intro hs
    suffices hsame : h' = s.heap by
      rw [hsame]
      exact ⟨rfl, bs, fl, hi.heap.wellFormed ht hn⟩
    by_cases hok : ExpandsOk vmm s.heap size
    · obtain ⟨h1, p1, bs', fl', hk1, -, hef⟩ := kmalloc_spec hi.heap vmm size
      obtain ⟨rfl, rfl⟩ := Prod.mk.inj (Option.some.inj (hk1.symm.trans hk))
      rcases hef.layout with ⟨-, -, hfail⟩ | ⟨best, hbest, -⟩
      · exact (hfail hok).2
      · exact absurd hbest (by omega)
    · have hk1 := kmalloc_stuck_same hok hs
      exact (Prod.mk.inj (Option.some.inj (hk1.symm.trans hk))).1.symm

/-! ### The second page cannot be mapped -/

/-- Only the first two pages of the window can be mapped. -/
def twoPages (a : ℕ) : Bool := decide (a < vmmHeapBase + 8192)

def twoPageHeap : Client := ⟨heapInit twoPages (fun _ => 0#8) vmmHeapBase vmmHeapSize, [], []⟩

theorem twoPageHeap_init : heapSystem.init twoPageHeap := ⟨twoPages, fun _ => 0#8, rfl⟩

theorem twoPageHeap_spec : twoPageHeap.heap.heapMaxSize = vmmHeapSize ∧
    twoPageHeap.heap.limit = vmmHeapBase + 4096 ∧
    twoPageHeap.heap.heapMappedSize = 4096 ∧ twoPageHeap.heap.firstFit (blockTotal 5000) = some 0 ∧
    ∃ bs fl, HeapInv twoPageHeap.heap bs fl := by
  obtain ⟨hst, hmx, hmap, fl, hinv⟩ := heapInit_kernel twoPages (fun _ => 0#8)
  have hbs : initBlocks twoPages vmmHeapBase = [⟨vmmHeapBase, vmmPageSize, false⟩] := rfl
  have hfirst : twoPages vmmHeapBase = true := by decide
  rw [hbs] at hinv
  rw [hfirst, if_pos rfl] at hmap
  refine ⟨hmx, ?_, hmap, ?_, _, fl, hinv⟩
  · unfold Heap.limit twoPageHeap
    rw [hst, hmap]
    rfl
  · rcases hinv.firstFit_cases (blockTotal 5000) with ⟨hff, -⟩ | ⟨L, R, best, bsize, hL, -, hle, -⟩
    · exact hff
    · have hmem : (⟨best, bsize, false⟩ :
        Block) ∈ [(⟨vmmHeapBase, vmmPageSize, false⟩ : Block)] := by
        rw [hL]
        exact List.mem_append_right _ List.mem_cons_self
      have hsize : bsize = 4096 := congrArg Block.size (List.mem_singleton.mp hmem)
      rw [hsize] at hle
      exact absurd hle (by decide)

/-- With no page to map, the call for 5000 bytes leaves the heap as it is. -/
theorem kmalloc_failure_clean_no_page :
    kmalloc (fun _ => false) twoPageHeap.heap 5000 = some (twoPageHeap.heap, 0) ∧
    ((twoPageHeap.heap = twoPageHeap.heap ∧ ∃ bs fl, HeapWellFormed twoPageHeap.heap bs fl) ↔
      StrandsNothing (fun _ => false) twoPageHeap.heap 5000) := by
  obtain ⟨-, -, -, hff, -⟩ := twoPageHeap_spec
  have hs : StrandsNothing (fun _ => false) twoPageHeap.heap 5000 :=
    fun _ _ _ _ hv => nomatch hv
  have hno : ¬ ExpandsOk (fun _ => false) twoPageHeap.heap 5000 := by
    intro hok
    have htrue := hok (by decide) (by decide) hff
    have hnone : expandTo (fun _ => false) twoPageHeap.heap
        (twoPageHeap.heap.limit + blockTotal 5000) = (false, twoPageHeap.heap) :=
      expandFrom_none (Or.inr rfl) (show twoPageHeap.heap.limit < _ + blockTotal 5000 from
        Nat.lt_add_of_pos_right (by decide))
    rw [hnone] at htrue
    exact nomatch htrue
  have hk := kmalloc_stuck_same hno hs
  exact ⟨hk, kmalloc_failure_clean (.init twoPageHeap_init) hk⟩

/-- The expansion for 5000 bytes needs two pages and gets one. -/
theorem kmalloc_strands_page :
    ¬ ∀ s : Client, heapSystem.Reachable s → ∀ vmm size h', kmalloc vmm s.heap size = some (h', 0) →
      h' = s.heap ∧ ∃ bs fl, HeapWellFormed h' bs fl := by
  intro hall
  obtain ⟨hmx, hlim, hmap, hff, bs, fl, hinv⟩ := twoPageHeap_spec
  have hs : ¬ StrandsNothing twoPages twoPageHeap.heap 5000 := by
    intro hs
    have hroom : twoPageHeap.heap.heapMappedSize < twoPageHeap.heap.heapMaxSize := by
      rw [hmap, hmx]
      decide
    have hpage := (hs (by decide) (by decide) hff hroom (by rw [hlim]; decide) 1 (by decide)).2
    rw [hlim] at hpage
    exact absurd hpage (by decide)
  obtain ⟨h1, hk, hlt⟩ := kmalloc_strands hinv hs
  have hsame := (hall twoPageHeap (.init twoPageHeap_init) twoPages 5000 h1 hk).1
  rw [hsame] at hlt
  exact Nat.lt_irrefl _ hlt

end SukiOS

import Mathlib.Algebra.BigOperators.Group.List.Basic
import SukiOS.HeapTiling

/-! The statistics of the heap. `kmalloc` counts what was asked for, in whole units, and takes a
block that may be larger; the counter is exact as long as it takes no more than it counts. -/
namespace SukiOS
open ByteMemory LinkedList Transition

/-- The sum of the sizes of the free blocks. -/
def freeSize (bs : List Block) : ℕ := ((bs.filter (fun b => !b.alloc)).map Block.size).sum

/-- What `heap_get_stats` reports is what the headers and the free list say. -/
structure StatsExact (h : Heap) (bs : List Block) (fl : List ℕ) : Prop where
  used : (heapGetStats h).2.1 = usedSize bs
  free : (heapGetStats h).2.2 = (fl.map (blkSize h.mem)).sum

def HeapStatsExact (h : Heap) : Prop := ∃ bs fl, HeapWellFormed h bs fl ∧ StatsExact h bs fl

/-- The block that serves the request has its size, or is large enough to be split. -/
def HeapOp.Snug (s : Client) (op : HeapOp) : Prop :=
  op.request s = 0 ∨ heapMaxAlloc < op.request s ∨
    fitSize s.heap (blockTotal (op.request s)) = blockTotal (op.request s) ∨
    blockTotal (op.request s) + blockMinSize ≤ fitSize s.heap (blockTotal (op.request s))

/-! ### Sums over a tiling -/

theorem usedSize_add_freeSize (bs : List Block) :
    usedSize bs + freeSize bs = (bs.map Block.size).sum := by
  induction bs with
  | nil => rfl
  | cons b bs ih =>
    obtain ⟨addr, size, alloc⟩ := b
    rw [List.map_cons, List.sum_cons, ← ih]
    unfold usedSize freeSize
    cases alloc with
    | false =>
      rw [List.filter_cons_of_neg (by simp), List.filter_cons_of_pos (by simp), List.map_cons,
        List.sum_cons]
      exact Nat.add_left_comm _ _ _
    | true =>
      rw [List.filter_cons_of_pos (by simp), List.filter_cons_of_neg (by simp), List.map_cons,
        List.sum_cons]
      exact Nat.add_assoc _ _ _

theorem tiles_sum {bs : List Block} {a e : ℕ} (h : Tiles a bs e) :
    a + (bs.map Block.size).sum = e := by
  induction bs generalizing a with
  | nil => exact h
  | cons b bs ih =>
    obtain ⟨rfl, ht⟩ := h
    have hrest := ih ht
    rw [List.map_cons, List.sum_cons, ← Nat.add_assoc]
    exact hrest

section Heap
variable {h : Heap} {bs : List Block} {fl : List ℕ}

/-- The free list holds each free block once. -/
theorem HeapInv.sum_free (hi : HeapInv h bs fl) :
    (fl.map (blkSize h.mem)).sum = freeSize bs := by
  have hperm : fl.Perm ((bs.filter (fun b => !b.alloc)).map Block.addr) := by
    rw [List.perm_ext_iff_of_nodup hi.list.nodup]
    · intro a
      rw [hi.free_iff, List.mem_map]
      simp only [List.mem_filter, Bool.not_eq_true']
      constructor
      · rintro ⟨b, hb, hba, hbf⟩
        exact ⟨b, ⟨hb, hbf⟩, hba⟩
      · rintro ⟨b, ⟨hb, hbf⟩, hba⟩
        exact ⟨b, hb, hba, hbf⟩
    · apply List.Nodup.map_on
      · intro b hb c hc hbc
        exact hi.eq_of_addr (List.mem_filter.mp hb).1 (List.mem_filter.mp hc).1 hbc
      · apply List.Nodup.filter
        -- blocks follow each other, so none comes twice
        refine hi.sorted.imp_of_mem (fun {b c} hb hc hle => ?_)
        rintro rfl
        have hmin := (hi.inside b hb).min
        unfold Block.fin at hle
        omega
  rw [(hperm.map _).sum_eq, List.map_map, freeSize]
  congr 1
  apply List.map_congr_left
  intro b hb
  exact hi.blkSize_eq (List.mem_filter.mp hb).1

theorem used_add_free (ht : Tiles h.heapStart bs h.limit) :
    usedSize bs + freeSize bs = h.heapMappedSize := by
  have hsum := tiles_sum ht
  rw [usedSize_add_freeSize]
  unfold Heap.limit at hsum
  omega

theorem HeapInv.mapped_lt (hi : HeapInv h bs fl) : h.heapMappedSize < 2^63 :=
  hi.mapped_le.trans_lt hi.max_lt

/-- The statistics are exact when the counter is. -/
theorem HeapInv.statsExact_iff (hi : HeapInv h bs fl) (ht : Tiles h.heapStart bs h.limit)
    (hn : NoAdjacentFree bs) : HeapStatsExact h ↔ h.heapAllocatedBytes = usedSize bs := by
  have hwf := hi.wellFormed ht hn
  have hsum := used_add_free ht
  have hlt := hi.mapped_lt
  constructor
  · rintro ⟨bs', fl', hwf', hst⟩
    obtain rfl : bs' = bs := Option.some.inj (hwf'.tiled.symm.trans hwf.tiled)
    exact hst.used
  · intro he
    refine ⟨bs, fl, hwf, he, ?_⟩
    rw [hi.sum_free]
    change (h.heapMappedSize + (2^64 - h.heapAllocatedBytes)) % 2^64 = freeSize bs
    omega

end Heap

/-! ### The counter along a run -/

/-- The counter is exact over some layout. -/
def Counted (s : Client) (bs : List Block) (fl : List ℕ) : Prop :=
  ClientInv s bs fl ∧ Tiles s.heap.heapStart bs s.heap.limit ∧ NoAdjacentFree bs ∧
    s.heap.heapAllocatedBytes = usedSize bs

section Steps
variable {s s' : Client} {bs bs' : List Block} {fl fl' : List ℕ} {op : HeapOp}

/-- One step leaves the counter exact when the block that it takes is snug, and only then. -/
theorem StepCount.exact_iff (hc : StepCount s op bs s' bs') (hok : op.ExpandsOk s)
    (he : s.heap.heapAllocatedBytes = usedSize bs) (hlt : usedSize bs' < 2^63)
    (hfit : op.request s ≠ 0 → op.request s ≤ heapMaxAlloc →
      blockTotal (op.request s) ≤ fitSize s.heap (blockTotal (op.request s))) :
    s'.heap.heapAllocatedBytes = usedSize bs' ↔ op.Snug s := by
  unfold HeapOp.Snug
  rcases hc with ⟨hcount, hused, hnone⟩ | ⟨h0, hmax, hcount, hused⟩
  · rw [hcount, hused]
    refine ⟨fun _ => ?_, fun _ => he⟩
    rcases hnone hok with h | h
    · exact Or.inl h
    · exact Or.inr (Or.inl h)
  · have hle := hfit h0 hmax
    have hmin : blockMinSize = 64 := rfl
    rw [hcount, he]
    constructor
    · intro heq
      refine Or.inr (Or.inr ?_)
      by_contra hnot
      rw [not_or] at hnot
      rw [if_neg hnot.2] at hused
      omega
    · intro hs
      rcases hs with h | h | h | h
      · exact absurd h h0
      · omega
      · rw [if_neg (by omega), h] at hused
        omega
      · rw [if_pos h] at hused
        omega

/-- The search and the expansion find enough. -/
theorem HeapInv.le_fitSize {h : Heap} (hi : HeapInv h bs fl) (total : ℕ) :
    total ≤ fitSize h total := by
  unfold fitSize
  rcases hi.firstFit_cases total with ⟨hff, -⟩ | ⟨L, R, best, bsize, rfl, hb0, hle, hff⟩
  · rw [hff]
    change total ≤ newBlockSize total
    unfold newBlockSize
    omega
  · rw [hff]
    dsimp only
    rw [if_neg hb0, hi.blkSize_eq (b := ⟨best, bsize, false⟩) (by simp)]
    exact hle

theorem expanding_step_exact (h : Counted s bs fl) (hs : expandingSystem.step s op s') :
    ∃ bs' fl', ClientInv s' bs' fl' ∧ Tiles s'.heap.heapStart bs' s'.heap.limit ∧
      NoAdjacentFree bs' ∧ (s'.heap.heapAllocatedBytes = usedSize bs' ↔ op.Snug s) := by
  obtain ⟨hi, ht, hn, he⟩ := h
  obtain ⟨hok, hs⟩ := hs
  obtain ⟨bs', fl', hi', heff, hcount⟩ := client_step_count hi hs
  obtain ⟨ht', hn'⟩ := heff.tiles hok ht hn
  refine ⟨bs', fl', hi', ht', hn', hcount.exact_iff hok he ?_ (fun _ _ => hi.heap.le_fitSize _)⟩
  have hsum := used_add_free ht'
  have hlt := hi'.heap.mapped_lt
  omega

end Steps

/-- In the runs whose blocks are all snug the statistics are exact, and the next step keeps them so
exactly when its block is snug too. -/
theorem heap_stats_exact {s : Client}
    (hr : (expandingSystem.restrict (fun s op => op.Snug s)).Reachable s) :
    HeapStatsExact s.heap ∧
      ∀ op s', expandingSystem.step s op s' → (HeapStatsExact s'.heap ↔ op.Snug s) := by
  have hinv : ∃ bs fl, Counted s bs fl := by
    apply System.Reachable.restrict_invariant (I := fun s => ∃ bs fl, Counted s bs fl) _ _ hr
    · intro s h0
      obtain ⟨bs, fl, hi, ht, hn, rfl⟩ := expandingSystem_init h0
      refine ⟨_, fl, hi, ht, hn, ?_⟩
      obtain ⟨vmm, m, hv, rfl⟩ := h0
      unfold heapInit
      rw [hv]
      rfl
    · rintro s op s' ⟨bs, fl, h⟩ hsnug hs
      obtain ⟨bs', fl', hi', ht', hn', hiff⟩ := expanding_step_exact h hs
      exact ⟨bs', fl', hi', ht', hn', hiff.mpr hsnug⟩
  obtain ⟨bs, fl, h⟩ := hinv
  refine ⟨(h.1.heap.statsExact_iff h.2.1 h.2.2.1).mpr h.2.2.2, fun op s' hs => ?_⟩
  obtain ⟨bs', fl', hi', ht', hn', hiff⟩ := expanding_step_exact h hs
  exact (hi'.heap.statsExact_iff ht' hn').trans hiff

/-! ### The first allocation -/

/-- The heap after `heap_init`, and its one free page. -/
def freshHeap : Client := ⟨heapInit (fun _ => true) (fun _ => 0#8) vmmHeapBase vmmHeapSize, [], []⟩

theorem freshHeap_init : expandingSystem.init freshHeap := ⟨_, _, rfl, rfl⟩

theorem freshHeap_fit {total : ℕ} (h : total ≤ 4096) :
    fitSize freshHeap.heap total = 4096 ∧ freshHeap.heap.firstFit total ≠ some 0 := by
  obtain ⟨bs, fl, hi, -, -, rfl⟩ := expandingSystem_init freshHeap_init
  rcases hi.heap.firstFit_cases total with ⟨-, hnone⟩ | ⟨L, R, best, bsize, hbs, hb0, -, hff⟩
  · exact absurd (hnone _ List.mem_cons_self rfl) (not_lt.mpr h)
  · have hmem : (⟨best, bsize, false⟩ : Block) ∈ [(⟨vmmHeapBase, vmmPageSize, false⟩ : Block)] := by
      rw [hbs]
      exact List.mem_append_right _ List.mem_cons_self
    have hsize : bsize = 4096 := congrArg Block.size (List.mem_singleton.mp hmem)
    unfold fitSize
    rw [hff]
    dsimp only
    rw [if_neg hb0, hi.heap.blkSize_eq hmem]
    exact ⟨hsize, fun he => hb0 (Option.some.inj he)⟩

theorem freshHeap_step (size : ℕ) (h : blockTotal size ≤ 4096) :
    ∃ s', expandingSystem.step freshHeap (.kmalloc (fun _ => true) size) s' := by
  obtain ⟨bs, fl, hi, -⟩ := expandingSystem_init freshHeap_init
  obtain ⟨h', p, -, -, hk, -⟩ := kmalloc_count hi.heap (fun _ => true) size
  exact ⟨_, fun _ _ hff => absurd hff (freshHeap_fit h).2, .kmalloc hk⟩

/-- 160 of 4096 bytes: the block is split. -/
theorem heap_stats_exact_split :
    ∃ s, expandingSystem.step freshHeap (.kmalloc (fun _ => true) 100) s ∧
      HeapStatsExact s.heap := by
  obtain ⟨s, hs⟩ := freshHeap_step 100 (by decide)
  have hsnug : (HeapOp.kmalloc (fun _ => true) 100).Snug freshHeap := by
    refine Or.inr (Or.inr (Or.inr ?_))
    change blockTotal 100 + blockMinSize ≤ fitSize freshHeap.heap (blockTotal 100)
    rw [(freshHeap_fit (show blockTotal 100 ≤ 4096 by decide)).1]
    decide
  exact ⟨s, hs, (heap_stats_exact (.step (.init freshHeap_init) ⟨hsnug, hs⟩)).1⟩

/-- 4048 of 4096 bytes: the rest is too small for a block and goes with it uncounted. -/
theorem heap_stats_whole_block : ∃ s, expandingSystem.Reachable s ∧ ¬ HeapStatsExact s.heap := by
  obtain ⟨s, hs⟩ := freshHeap_step 4000 (by decide)
  refine ⟨s, .step (.init freshHeap_init) hs, fun hst => ?_⟩
  obtain ⟨bs, fl, hi, ht, hn, rfl⟩ := expandingSystem_init freshHeap_init
  obtain ⟨bs', fl', hi', ht', hn', hiff⟩ := expanding_step_exact ⟨hi, ht, hn, rfl⟩ hs
  have hsnug := hiff.mp ((hi'.heap.statsExact_iff ht' hn').mp hst)
  have hfit := (freshHeap_fit (show blockTotal 4000 ≤ 4096 by decide)).1
  unfold HeapOp.Snug HeapOp.request at hsnug
  dsimp only at hsnug
  rw [hfit] at hsnug
  revert hsnug
  decide

end SukiOS

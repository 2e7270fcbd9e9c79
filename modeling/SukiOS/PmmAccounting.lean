import Mathlib.Data.Nat.ModEq
import Mathlib.Order.Interval.Finset.Nat
import SukiOS.Lib.Cover
import SukiOS.PmmOwnership

/-! The counter of free frames against the bitmap. `pmm_init` counts a frame once for each entry
that covers it; the calls that follow count what they change. -/
namespace SukiOS
open FiniteCover Transition

/-! ### Counting free frames -/

/-- The frames whose bit is clear. -/
def freeFrames (bm : ℕ → ByteMemory.Byte) : Finset ℕ :=
  (Finset.range pmmMaxPages).filter (fun p => bitmapTest bm p = false)

def pmmGetFreePages (s : Pmm) : ℕ := s.totalPages

theorem mem_freeFrames {bm : ℕ → ByteMemory.Byte} {p : ℕ} :
    p ∈ freeFrames bm ↔ bitmapTest bm p = false := by
  rw [freeFrames, Finset.mem_filter, Finset.mem_range]
  exact ⟨fun h => h.2, fun h => ⟨lt_max_of_free h, h⟩⟩

theorem card_freeFrames_le (bm : ℕ → ByteMemory.Byte) : (freeFrames bm).card ≤ pmmMaxPages :=
  (Finset.card_filter_le _ _).trans_eq (Finset.card_range _)

theorem inc64_modEq (x : ℕ) : inc64 x ≡ x + 1 [MOD 2^64] := Nat.mod_modEq _ _

theorem dec64_modEq (x : ℕ) : dec64 x + 1 ≡ x [MOD 2^64] := by
  have h : dec64 x + 1 ≡ x + (2^64-1) + 1 [MOD 2^64] := (Nat.mod_modEq _ _).add_right 1
  have hround : x + (2^64-1) + 1 = x + 2^64 := by omega
  rw [hround] at h
  exact h.trans (Nat.add_modEq_right)

/-- The counter is `d` more than the number of free frames. -/
structure Excess (d : ℕ) (s : Pmm) : Prop where
  count : s.totalPages ≡ (freeFrames s.bitmap).card + d [MOD 2^64]
  lt : s.totalPages < 2^64

section Steps
variable {s : Pmm} {d p : ℕ}

theorem freeFrames_markUsed (h : bitmapTest s.bitmap p = false) :
    (freeFrames (markUsed s p).bitmap).card + 1 = (freeFrames s.bitmap).card := by
  have herase : freeFrames (markUsed s p).bitmap = (freeFrames s.bitmap).erase p := by
    ext q
    rw [Finset.mem_erase, mem_freeFrames, mem_freeFrames,
      bitmapTest_markUsed _ _ _ (lt_max_of_free h),
      Bool.or_eq_false_iff, decide_eq_false_iff_not]
    exact And.comm
  rw [herase]
  exact Finset.card_erase_add_one (mem_freeFrames.mpr h)

theorem Excess.markUsed (h : Excess d s) (hp : bitmapTest s.bitmap p = false) :
    Excess d (markUsed s p) where
  count := by
    have hcard := freeFrames_markUsed hp
    have hdec : (SukiOS.markUsed s p).totalPages + 1 ≡ s.totalPages [MOD 2^64] :=
      dec64_modEq s.totalPages
    apply Nat.ModEq.add_right_cancel' 1
    calc (SukiOS.markUsed s p).totalPages + 1
        ≡ s.totalPages [MOD 2^64] := hdec
      _ ≡ (freeFrames s.bitmap).card + d [MOD 2^64] := h.count
      _ = (freeFrames (SukiOS.markUsed s p).bitmap).card + d + 1 := by omega
  lt := Nat.mod_lt _ (by decide)

theorem Excess.reserveBelow (h : Excess d s) (p e : ℕ) : Excess d (reserveBelow s p e) := by
  induction s, p using reserveBelow.induct e with
  | case1 s p hp hused ih =>
    rw [SukiOS.reserveBelow, if_pos hp, if_pos hused]
    exact ih h
  | case2 s p hp hfree ih =>
    rw [SukiOS.reserveBelow, if_pos hp, if_neg hfree]
    exact ih (h.markUsed (Bool.eq_false_iff.mpr hfree))
  | case3 s p hp =>
    rw [SukiOS.reserveBelow, if_neg hp]
    exact h

theorem Excess.alloc (h : Excess d s) : Excess d (pmmAllocPage s).1 := by
  unfold pmmAllocPage
  rcases allocFrom_cases s 0 with ⟨f, -, hf, -, hres⟩ | ⟨-, hres⟩
  · rw [hres]
    exact h.markUsed hf
  · rw [hres]
    exact h

/-- A free changes the bitmap and the counter together, or neither. -/
theorem Excess.free (h : Excess d s) (a : ℕ) : Excess d (pmmFreePage s a) := by
  unfold pmmFreePage
  dsimp only
  split
  · rename_i hset
    obtain ⟨hlt, hused⟩ := hset
    have hinsert : freeFrames (bitmapClear s.bitmap (a/pageSize)) =
        insert (a/pageSize) (freeFrames s.bitmap) := by
      ext q
      rw [Finset.mem_insert, mem_freeFrames, mem_freeFrames, bitmapTest_bitmapClear _ _ _ hlt,
        Bool.and_eq_false_iff, Bool.not_eq_false', decide_eq_true_eq]
      exact Or.comm
    have hnot : a/pageSize ∉ freeFrames s.bitmap := by
      rw [mem_freeFrames, hused]
      exact Bool.noConfusion
    refine ⟨?_, Nat.mod_lt _ (by decide)⟩
    dsimp only
    rw [hinsert, Finset.card_insert_of_notMem hnot]
    calc inc64 s.totalPages
        ≡ s.totalPages + 1 [MOD 2^64] := inc64_modEq _
      _ ≡ (freeFrames s.bitmap).card + d + 1 [MOD 2^64] := h.count.add_right 1
      _ = (freeFrames s.bitmap).card + 1 + d := by omega
  · exact h

/-- The counter is exact if and only if there is no excess. -/
theorem Excess.exact_iff (h : Excess d s) (hd : d < 2^64) :
    pmmGetFreePages s = (freeFrames s.bitmap).card ↔ d = 0 := by
  have hcard : (freeFrames s.bitmap).card < 2^64 :=
    (card_freeFrames_le s.bitmap).trans_lt (by decide)
  constructor
  · intro heq
    have hmod : (freeFrames s.bitmap).card + 0 ≡ (freeFrames s.bitmap).card + d [MOD 2^64] := by
      have hcount := h.count
      unfold pmmGetFreePages at heq
      rw [heq] at hcount
      rw [Nat.add_zero]
      exact hcount
    have hzero : 0 ≡ d [MOD 2^64] := Nat.ModEq.add_left_cancel' (freeFrames s.bitmap).card hmod
    exact (Nat.ModEq.eq_of_lt_of_lt hzero (by decide) hd).symm
  · rintro rfl
    have hcount := h.count
    rw [Nat.add_zero] at hcount
    exact Nat.ModEq.eq_of_lt_of_lt hcount h.lt hcard

end Steps

/-! ### What `pmm_init` counts -/

/-- The frames that the entry makes free. -/
def MmapEntry.frames (e : MmapEntry) : Finset ℕ :=
  if e.type = multibootMemoryAvailable then Finset.Ico e.startPage (min e.endPage pmmMaxPages)
  else ∅

theorem MmapEntry.mem_frames {e : MmapEntry} {q : ℕ} :
    q ∈ e.frames ↔ e.Covers q ∧ q < pmmMaxPages := by
  unfold MmapEntry.frames MmapEntry.Covers
  split
  · rename_i hty
    rw [Finset.mem_Ico, lt_min_iff]
    simp only [hty, true_and, and_assoc]
  · rename_i hty
    simp only [Finset.notMem_empty, hty, false_and]

theorem MmapEntry.card_frames_le (e : MmapEntry) : e.frames.card ≤ pmmMaxPages := by
  refine (Finset.card_le_card (t := Finset.range pmmMaxPages) (fun q hq => ?_)).trans_eq
    (Finset.card_range _)
  exact Finset.mem_range.mpr (mem_frames.mp hq).2

theorem clearRange_total (s : Pmm) (p e : ℕ) :
    (clearRange s p e).totalPages ≡ s.totalPages + (min e pmmMaxPages - p) [MOD 2^64] := by
  induction s, p using clearRange.induct e with
  | case1 s p hp ih =>
    rw [clearRange, if_pos hp]
    refine ih.trans ?_
    have hone := (inc64_modEq s.totalPages).add_right (min e pmmMaxPages - (p+1))
    have hsum : s.totalPages + 1 + (min e pmmMaxPages - (p+1)) =
        s.totalPages + (min e pmmMaxPages - p) := by omega
    rw [hsum] at hone
    exact hone
  | case2 s p hp =>
    rw [clearRange, if_neg hp]
    have hzero : min e pmmMaxPages - p = 0 := by omega
    rw [hzero]
    exact Nat.ModEq.refl _

theorem clearRange_lt {s : Pmm} (hs : s.totalPages < 2^64) (p e : ℕ) :
    (clearRange s p e).totalPages < 2^64 := by
  induction s, p using clearRange.induct e with
  | case1 s p hp ih =>
    rw [clearRange, if_pos hp]
    exact ih (Nat.mod_lt _ (by decide))
  | case2 s p hp =>
    rw [clearRange, if_neg hp]
    exact hs

/-- One entry adds its frames to the counter, whether or not they were free before. -/
theorem addEntry_total (s : Pmm) (e : MmapEntry) :
    (addEntry s e).totalPages ≡ s.totalPages + e.frames.card [MOD 2^64] := by
  unfold addEntry MmapEntry.frames
  by_cases hty : e.type = multibootMemoryAvailable
  · rw [if_neg (not_not.mpr hty), if_pos hty, Nat.card_Ico]
    exact clearRange_total s _ _
  · rw [if_pos hty, if_neg hty]
    exact Nat.ModEq.refl _

theorem addEntry_lt {s : Pmm} (hs : s.totalPages < 2^64) (e : MmapEntry) :
    (addEntry s e).totalPages < 2^64 := by
  unfold addEntry
  split
  · exact hs
  · exact clearRange_lt hs _ _

theorem foldl_addEntry_total (entries : List MmapEntry) : ∀ s : Pmm, s.totalPages < 2^64 →
    (entries.foldl addEntry s).totalPages ≡
      s.totalPages + total (entries.map MmapEntry.frames) [MOD 2^64] ∧
    (entries.foldl addEntry s).totalPages < 2^64 := by
  induction entries with
  | nil => exact fun s hs => ⟨Nat.ModEq.refl _, hs⟩
  | cons e es ih =>
    intro s hs
    obtain ⟨htotal, hlt⟩ := ih (addEntry s e) (addEntry_lt hs e)
    refine ⟨?_, hlt⟩
    rw [List.map_cons, total_cons, ← Nat.add_assoc]
    exact htotal.trans ((addEntry_total s e).add_right _)

/-- The frames that are counted more than once, with how often they are counted too much. -/
def mapExcess (entries : List MmapEntry) : ℕ :=
  total (entries.map MmapEntry.frames) - (cover (entries.map MmapEntry.frames)).card

theorem pmmInit_excess (entries : List MmapEntry) (kernelEnd : ℕ) :
    Excess (mapExcess entries) (pmmInit entries kernelEnd) := by
  apply Excess.reserveBelow
  obtain ⟨htotal, hlt⟩ := foldl_addEntry_total entries
    { bitmap := fun _ => 0xFF#8, totalPages := 0, usedPages := 0 } (by decide)
  refine ⟨?_, hlt⟩
  have hfree : freeFrames (entries.foldl addEntry
      { bitmap := fun _ => 0xFF#8, totalPages := 0, usedPages := 0 }).bitmap =
      cover (entries.map MmapEntry.frames) := by
    ext q
    rw [mem_freeFrames, mem_cover]
    by_cases hq : q < pmmMaxPages
    · rw [bitmapTest_foldl_addEntry _ _ _ hq]
      simp only [bitmapTest_full, Bool.true_eq_false, false_or, List.mem_map,
        exists_exists_and_eq_and,
        MmapEntry.mem_frames, hq, and_true]
    · rw [bitmapTest_of_ge _ _ (by omega)]
      simp only [Bool.true_eq_false, List.mem_map, exists_exists_and_eq_and, MmapEntry.mem_frames,
        hq, and_false, exists_false]
  have hle := card_cover_le (entries.map MmapEntry.frames)
  have hsum : (cover (entries.map MmapEntry.frames)).card + mapExcess entries =
      total (entries.map MmapEntry.frames) := by
    unfold mapExcess
    omega
  rw [hfree, hsum]
  exact htotal.trans (by rw [Nat.zero_add])

/-- There is no excess exactly when no frame lies in two entries. -/
theorem mapExcess_eq_zero (entries : List MmapEntry) : mapExcess entries = 0 ↔
    entries.Pairwise (fun e e' => ∀ q < pmmMaxPages, ¬ (e.Covers q ∧ e'.Covers q)) := by
  have hle := card_cover_le (entries.map MmapEntry.frames)
  have hzero : mapExcess entries = 0 ↔ (cover (entries.map MmapEntry.frames)).card =
      total (entries.map MmapEntry.frames) := by
    unfold mapExcess
    omega
  rw [hzero, card_cover_eq_iff, List.pairwise_map]
  apply List.Pairwise.iff
  intro e e'
  rw [Finset.disjoint_left]
  simp only [MmapEntry.mem_frames]
  constructor
  · intro h q hq hboth
    exact h ⟨hboth.1, hq⟩ ⟨hboth.2, hq⟩
  · intro h q hq hq'
    exact h q hq.2 ⟨hq.1, hq'.1⟩

theorem mapExcess_lt {entries : List MmapEntry} (h : entries.length < 2^32) :
    mapExcess entries < 2^64 := by
  have htotal : total (entries.map MmapEntry.frames) ≤ entries.length * pmmMaxPages := by
    rw [← @List.length_map _ _ entries MmapEntry.frames]
    apply total_le
    intro t ht
    obtain ⟨e, -, rfl⟩ := List.mem_map.mp ht
    exact e.card_frames_le
  have hbound : entries.length * pmmMaxPages < 2^64 := by
    simp only [pmmMaxPages]
    omega
  unfold mapExcess
  omega

/-! ### The accounting over any history -/

/-- The bytes of the entry and those of the frame meet. -/
def MmapEntry.Meets (e : MmapEntry) (q : ℕ) : Prop :=
  e.addr < (q+1)*pageSize ∧ q*pageSize < e.addr + e.len ∧ 0 < e.len

/-- The counter is the number of free frames, the allocator fails exactly at 0, and no free frame
meets an entry of another type. -/
structure FrameAccounting (entries : List MmapEntry) (s : Pmm) : Prop where
  exact : pmmGetFreePages s = (freeFrames s.bitmap).card
  fails : (pmmAllocPage s).2 = 0 ↔ pmmGetFreePages s = 0
  available : ∀ q, bitmapTest s.bitmap q = false →
    ∀ e ∈ entries, e.type ≠ multibootMemoryAvailable → ¬ e.Meets q

/-- No frame lies in two available entries, and no frame that the allocator gets meets an entry of
another type. -/
structure MapApart (entries : List MmapEntry) (kernelEnd : ℕ) : Prop where
  once : entries.Pairwise (fun e e' => ∀ q < pmmMaxPages, ¬ (e.Covers q ∧ e'.Covers q))
  available : ∀ q ∈ usableFrames entries kernelEnd,
    ∀ e ∈ entries, e.type ≠ multibootMemoryAvailable → ¬ e.Meets q

section Runs
variable {entries : List MmapEntry} {kernelEnd : ℕ} {c : PmmClient}

theorem reachable_excess (hr : (pmmSystem entries kernelEnd).Reachable c) :
    Excess (mapExcess entries) c.pmm := by
  apply hr.invariant (I := fun c => Excess (mapExcess entries) c.pmm)
  · rintro c rfl
    exact pmmInit_excess entries kernelEnd
  · intro c i c' h hs
    cases hs with
    | alloc => exact h.alloc
    | free a _ => exact h.free a

/-- A frame that is free now was free after `pmm_init`. -/
theorem reachable_usable (hk : 0 < kernelEndPage kernelEnd)
    (hr : (pmmSystem entries kernelEnd).Reachable c) {q : ℕ}
    (hq : bitmapTest c.pmm.bitmap q = false) : q ∈ usableFrames entries kernelEnd := by
  obtain ⟨P, hav, hP⟩ := reachable_implements hk hr
  exact hav ▸ ((hP.free_iff q).mp hq).1

theorem pmmAllocPage_zero_iff (hk : 0 < kernelEndPage kernelEnd)
    (hr : (pmmSystem entries kernelEnd).Reachable c) :
    (pmmAllocPage c.pmm).2 = 0 ↔ (freeFrames c.pmm.bitmap).card = 0 := by
  rw [Finset.card_eq_zero, Finset.eq_empty_iff_forall_notMem]
  rcases pmmAllocPage_cases c.pmm with ⟨f, hf, -, haddr, -⟩ | ⟨hall, hres⟩
  · -- frame 0, whose address is the failure, belongs to the kernel
    have hpos : 0 < f := hk.trans_le (reachable_usable hk hr hf).2.1
    rw [haddr]
    constructor
    · exact fun h => absurd h (Nat.mul_ne_zero (by omega) (by decide))
    · exact fun h => absurd (mem_freeFrames.mpr hf) (h f)
  · rw [hres]
    refine ⟨fun _ q hq => ?_, fun _ => rfl⟩
    rw [mem_freeFrames, hall q] at hq
    exact Bool.noConfusion hq

/-- The accounting is exact over every history if and only if the entries are apart. -/
theorem frame_accounting_iff (entries : List MmapEntry) (kernelEnd : ℕ)
    (hcount : entries.length < 2^32) (hk : 0 < kernelEndPage kernelEnd) :
    (∀ c, (pmmSystem entries kernelEnd).Reachable c → FrameAccounting entries c.pmm) ↔
      MapApart entries kernelEnd := by
  have hd := mapExcess_lt hcount
  constructor
  · intro h
    have h0 := h ⟨pmmInit entries kernelEnd, ∅⟩ (.init rfl)
    refine ⟨?_, fun q hq => ?_⟩
    · rw [← mapExcess_eq_zero]
      exact ((pmmInit_excess entries kernelEnd).exact_iff hd).mp h0.exact
    · exact h0.available q ((bitmapTest_pmmInit entries kernelEnd q).mpr hq)
  · intro h c hr
    have hexact : pmmGetFreePages c.pmm = (freeFrames c.pmm.bitmap).card :=
      ((reachable_excess hr).exact_iff hd).mpr ((mapExcess_eq_zero entries).mpr h.once)
    refine ⟨hexact, ?_, fun q hq => h.available q (reachable_usable hk hr hq)⟩
    rw [hexact]
    exact pmmAllocPage_zero_iff hk hr

end Runs

/-- The low memory, what the firmware keeps below 1 MB, and the memory above it. -/
def pcMap : List MmapEntry :=
  [⟨0, 0x9FC00, 1⟩, ⟨0x9FC00, 0x60400, 2⟩, ⟨0x100000, 0xF00000, 1⟩]

theorem pcMap_apart : MapApart pcMap 0x140000 := by
  unfold pcMap
  refine ⟨?_, ?_⟩
  · simp only [List.pairwise_cons, List.mem_cons, List.not_mem_nil, or_false, forall_eq_or_imp,
      forall_eq, MmapEntry.Covers, MmapEntry.startPage, MmapEntry.endPage, pageSize]
    refine ⟨⟨?_, ?_⟩, ?_, ?_, List.Pairwise.nil⟩
    · rintro q - ⟨-, h, -⟩
      exact absurd h (by decide)
    · rintro q - ⟨⟨-, -, hlo⟩, -, hhi, -⟩
      norm_num at hlo hhi
      omega
    · rintro q - ⟨⟨h, -⟩, -⟩
      exact absurd h (by decide)
    · exact fun _ h => h.elim
  · rintro q ⟨-, hkern, -⟩ e he hty ⟨-, hlo, -⟩
    have hq : 0x140 ≤ q := hkern
    simp only [List.mem_cons, List.not_mem_nil, or_false] at he
    rcases he with rfl | rfl | rfl
    · exact hty rfl
    · simp only [pageSize] at hlo
      omega
    · exact hty rfl

theorem frame_accounting_pc : MapApart pcMap 0x140000 ∧
    ∀ c, (pmmSystem pcMap 0x140000).Reachable c → FrameAccounting pcMap c.pmm :=
  ⟨pcMap_apart, (frame_accounting_iff pcMap 0x140000 (by decide) (by decide)).mpr pcMap_apart⟩

/-- A frame that the map lists twice is counted twice. -/
theorem frame_accounting_listed_twice : ¬ ∀ c,
    (pmmSystem [⟨0x200000, 0x1000, 1⟩, ⟨0x200000, 0x1000, 1⟩] 0x140000).Reachable c →
    FrameAccounting [⟨0x200000, 0x1000, 1⟩, ⟨0x200000, 0x1000, 1⟩] c.pmm := by
  intro h
  have hexact := (h _ (.init rfl)).exact
  have hzero := ((pmmInit_excess _ _).exact_iff (mapExcess_lt (by decide))).mp hexact
  rw [mapExcess_eq_zero, List.pairwise_cons] at hzero
  have hcov : MmapEntry.Covers ⟨0x200000, 0x1000, 1⟩ 0x200 := ⟨rfl, by decide, by decide⟩
  exact hzero.1 _ List.mem_cons_self 0x200 (by decide) ⟨hcov, hcov⟩

end SukiOS

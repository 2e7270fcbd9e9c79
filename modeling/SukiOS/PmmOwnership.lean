import SukiOS.Lib.Pool
import SukiOS.Lib.Transition
import SukiOS.Pmm

/-! The frame allocator refines a pool of usable frames over any call history. -/
namespace SukiOS
open ResourcePool Transition

/-! ### What `pmm_init` leaves free -/

theorem bitmapTest_clearRange (s : Pmm) (p e q : ℕ) :
    bitmapTest (clearRange s p e).bitmap q =
      (bitmapTest s.bitmap q && !decide (p ≤ q ∧ q < e ∧ q < pmmMaxPages)) := by
  induction s, p using clearRange.induct e with
  | case1 s p hp ih =>
    rw [clearRange, if_pos hp, ih, bitmapTest_bitmapClear _ _ _ hp.2, Bool.and_assoc]
    congr 1
    rw [← Bool.not_or, ← Bool.decide_or]
    congr 2
    apply propext
    omega
  | case2 s p hp =>
    have hnone : decide (p ≤ q ∧ q < e ∧ q < pmmMaxPages) = false :=
      decide_eq_false (by omega)
    rw [clearRange, if_neg hp, hnone, Bool.not_false, Bool.and_true]

theorem bitmapTest_markUsed (s : Pmm) (p q : ℕ) (hp : p < pmmMaxPages) :
    bitmapTest (markUsed s p).bitmap q = (bitmapTest s.bitmap q || decide (q = p)) :=
  bitmapTest_bitmapSet _ _ _ hp

theorem bitmapTest_reserveBelow (s : Pmm) (p e q : ℕ) :
    bitmapTest (reserveBelow s p e).bitmap q =
      (bitmapTest s.bitmap q || decide (p ≤ q ∧ q < e)) := by
  induction s, p using reserveBelow.induct e with
  | case1 s p hp hused ih =>
    rw [reserveBelow, if_pos hp, if_pos hused, ih]
    by_cases hq : q = p
    · subst hq
      rw [hused, Bool.true_or, Bool.true_or]
    · congr 2
      apply propext
      omega
  | case2 s p hp hfree ih =>
    rw [reserveBelow, if_pos hp, if_neg hfree, ih, bitmapTest_markUsed _ _ _ hp.2, Bool.or_assoc,
      ← Bool.decide_or]
    congr 2
    apply propext
    omega
  | case3 s p hp =>
    rw [reserveBelow, if_neg hp]
    by_cases hq : q < pmmMaxPages
    · rw [decide_eq_false (by omega), Bool.or_false]
    · rw [bitmapTest_of_ge _ _ (by omega), Bool.true_or]

def MmapEntry.Covers (e : MmapEntry) (q : ℕ) : Prop :=
  e.type = multibootMemoryAvailable ∧ e.startPage ≤ q ∧ q < e.endPage

theorem bitmapTest_addEntry (s : Pmm) (e : MmapEntry) (q : ℕ) (hq : q < pmmMaxPages) :
    bitmapTest (addEntry s e).bitmap q = false ↔ bitmapTest s.bitmap q = false ∨ e.Covers q := by
  rw [addEntry]
  split
  · rename_i hty
    simp only [MmapEntry.Covers, hty, false_and, or_false]
  · rename_i hty
    rw [bitmapTest_clearRange, Bool.and_eq_false_iff, Bool.not_eq_false', decide_eq_true_eq]
    simp only [MmapEntry.Covers, not_not.mp hty, true_and, hq, and_true]

theorem bitmapTest_foldl_addEntry (entries : List MmapEntry) (s : Pmm) (q : ℕ)
    (hq : q < pmmMaxPages) :
    bitmapTest (entries.foldl addEntry s).bitmap q = false ↔
      bitmapTest s.bitmap q = false ∨ ∃ e ∈ entries, e.Covers q := by
  induction entries generalizing s with
  | nil => simp
  | cons e es ih =>
    rw [List.foldl_cons, ih, bitmapTest_addEntry s e q hq, or_assoc]
    simp only [List.mem_cons, exists_eq_or_imp]

/-- The frames `pmm_init` hands to the allocator. -/
def usableFrames (entries : List MmapEntry) (kernelEnd : ℕ) : Set ℕ :=
  {q | q < pmmMaxPages ∧ kernelEndPage kernelEnd ≤ q ∧ ∃ e ∈ entries, e.Covers q}

/-- Step 1 of `pmm_init` marks every frame as used. -/
theorem bitmapTest_full (q : ℕ) : bitmapTest (fun _ => 0xFF#8) q = true := by
  by_cases hq : q < pmmMaxPages
  · rw [bitmapTest_eq _ _ hq]
    have hlt : q%8 < 8 := Nat.mod_lt _ (by decide)
    have hff : ∀ i < 8, (0xFF#8).getLsbD i = true := by decide
    exact hff _ hlt
  · exact bitmapTest_of_ge _ _ (by omega)

theorem bitmapTest_pmmInit (entries : List MmapEntry) (kernelEnd q : ℕ) :
    bitmapTest (pmmInit entries kernelEnd).bitmap q = false ↔
      q ∈ usableFrames entries kernelEnd := by
  by_cases hq : q < pmmMaxPages
  · simp only [pmmInit, bitmapTest_reserveBelow, Bool.or_eq_false_iff, decide_eq_false_iff_not,
      bitmapTest_foldl_addEntry _ _ _ hq, bitmapTest_full, Bool.true_eq_false, false_or,
        usableFrames,
      Set.mem_ofPred_eq, hq, true_and, Nat.zero_le, not_lt]
    exact And.comm
  · rw [bitmapTest_of_ge _ _ (by omega)]
    simp only [Bool.true_eq_false, usableFrames, Set.mem_ofPred_eq, hq, false_and]

/-! ### The scan of `pmm_alloc_page` -/

/-- The allocator returns the lowest free frame, or 0 when every frame is used. -/
theorem allocFrom_cases (s : Pmm) (i : ℕ) :
    (∃ f, i ≤ f ∧ bitmapTest s.bitmap f = false ∧
      (∀ g, i ≤ g → g < f → bitmapTest s.bitmap g = true) ∧
      allocFrom s i = (markUsed s f, f*pageSize)) ∨
    ((∀ g, i ≤ g → bitmapTest s.bitmap g = true) ∧ allocFrom s i = (s, 0)) := by
  induction i using allocFrom.induct (s := s) with
  | case1 i hi hused ih =>
    have heq : allocFrom s i = allocFrom s (i+1) := by rw [allocFrom, if_pos hi, if_pos hused]
    rw [heq]
    rcases ih with ⟨f, hif, hf, hbefore, hres⟩ | ⟨hall, hres⟩
    · refine Or.inl ⟨f, by omega, hf, ?_, hres⟩
      intro g hg hgf
      rcases Nat.eq_or_lt_of_le hg with rfl | hlt
      · exact hused
      · exact hbefore g hlt hgf
    · refine Or.inr ⟨?_, hres⟩
      intro g hg
      rcases Nat.eq_or_lt_of_le hg with rfl | hlt
      · exact hused
      · exact hall g hlt
  | case2 i hi hfree =>
    refine Or.inl ⟨i, le_rfl, by simpa using hfree, fun g h1 h2 => by omega, ?_⟩
    rw [allocFrom, if_pos hi, if_neg hfree]
  | case3 i hi =>
    refine Or.inr ⟨fun g hg => bitmapTest_of_ge _ _ (by omega), ?_⟩
    rw [allocFrom, if_neg hi]

theorem pmmAllocPage_cases (s : Pmm) :
    (∃ f, bitmapTest s.bitmap f = false ∧ (∀ g < f, bitmapTest s.bitmap g = true) ∧
      (pmmAllocPage s).2 = f*pageSize ∧
      ∀ g, bitmapTest (pmmAllocPage s).1.bitmap g = (bitmapTest s.bitmap g || decide (g = f))) ∨
    ((∀ g, bitmapTest s.bitmap g = true) ∧ pmmAllocPage s = (s, 0)) := by
  rcases allocFrom_cases s 0 with ⟨f, _, hf, hbefore, hres⟩ | ⟨hall, hres⟩
  · refine Or.inl ⟨f, hf, fun g hg => hbefore g (Nat.zero_le g) hg, ?_, ?_⟩
    · rw [pmmAllocPage, hres]
    · intro g
      rw [pmmAllocPage, hres]
      exact bitmapTest_markUsed _ _ _ (lt_max_of_free hf)
  · exact Or.inr ⟨fun g => hall g (Nat.zero_le g), hres⟩

theorem bitmapTest_pmmFreePage (s : Pmm) (f g : ℕ) (hf : f < pmmMaxPages) :
    bitmapTest (pmmFreePage s (f*pageSize)).bitmap g =
      (bitmapTest s.bitmap g && !decide (g = f)) := by
  have hdiv : f*pageSize/pageSize = f := Nat.mul_div_cancel f (by decide)
  simp only [pmmFreePage, hdiv]
  split
  · exact bitmapTest_bitmapClear _ _ _ hf
  · rename_i hused
    by_cases hg : g = f
    · subst hg
      have hfree : bitmapTest s.bitmap g = false := by
        simpa only [hf, true_and, Bool.not_eq_true] using hused
      rw [hfree, Bool.false_and]
    · rw [decide_eq_false hg, Bool.not_false, Bool.and_true]

/-! ### Clients of the allocator -/

/-- The allocator and the addresses that are out with its clients. -/
structure PmmClient where
  pmm : Pmm
  out : Set ℕ

inductive PmmCall
  | alloc
  | free (a : ℕ)

inductive PmmClient.Step : PmmClient → PmmCall → PmmClient → Prop
  | alloc (c : PmmClient) : Step c .alloc
      ⟨(pmmAllocPage c.pmm).1, {a | a ∈ c.out ∨ (a = (pmmAllocPage c.pmm).2 ∧ a ≠ 0)}⟩
  | free (c : PmmClient) (a : ℕ) (h : a ∈ c.out) : Step c (.free a)
      ⟨pmmFreePage c.pmm a, {b | b ∈ c.out ∧ b ≠ a}⟩

def pmmSystem (entries : List MmapEntry) (kernelEnd : ℕ) : System PmmClient PmmCall where
  init c := c = ⟨pmmInit entries kernelEnd, ∅⟩
  step := PmmClient.Step

/-- The client state implements the pool `P` of frames. -/
structure PmmClient.Implements (c : PmmClient) (P : Pool ℕ) : Prop where
  free_iff : ∀ f, bitmapTest c.pmm.bitmap f = false ↔ f ∈ P.free
  out_iff : ∀ a, a ∈ c.out ↔ ∃ f ∈ P.out, a = f*pageSize

theorem frame_address_inj {f g : ℕ} (h : f*pageSize = g*pageSize) : f = g :=
  Nat.eq_of_mul_eq_mul_right (by decide) h

theorem implements_step {c c' : PmmClient} {P : Pool ℕ} (i : PmmCall)
    (hzero : 0 ∉ P.avail) (hmax : ∀ f ∈ P.avail, f < pmmMaxPages)
    (hP : c.Implements P) (hs : c.Step i c') :
    ∃ P' : Pool ℕ, P'.avail = P.avail ∧ c'.Implements P' := by
  cases hs with
  | alloc =>
    rcases pmmAllocPage_cases c.pmm with ⟨f, hf, _, haddr, htest⟩ | ⟨_, hres⟩
    -- the pool hands out the same frame; frame 0 is never in it, so the result is not 0
    · have hmem : f ∈ P.free := (hP.free_iff f).mp hf
      refine ⟨P.take f hmem, rfl, ⟨?_, ?_⟩⟩
      · intro g
        rw [htest, Bool.or_eq_false_iff, hP.free_iff, Pool.mem_free_take, decide_eq_false_iff_not]
      · intro a
        have hne : f ≠ 0 := fun h => hzero (h ▸ hmem.1)
        have hpos : f*pageSize ≠ 0 := Nat.mul_ne_zero hne (by decide)
        simp only [haddr, Set.mem_ofPred_eq, hP.out_iff, Pool.take, Set.mem_insert_iff]
        constructor
        · rintro (⟨g, hg, rfl⟩ | ⟨rfl, _⟩)
          · exact ⟨g, Or.inr hg, rfl⟩
          · exact ⟨f, Or.inl rfl, rfl⟩
        · rintro ⟨g, rfl | hg, rfl⟩
          · exact Or.inr ⟨rfl, hpos⟩
          · exact Or.inl ⟨g, hg, rfl⟩
    · refine ⟨P, rfl, ⟨?_, ?_⟩⟩
      · intro g
        rw [hres]
        exact hP.free_iff g
      · intro a
        simp only [hres, Set.mem_ofPred_eq, hP.out_iff]
        constructor
        · rintro (h | ⟨rfl, h⟩)
          · exact h
          · exact False.elim (h rfl)
        · exact Or.inl
  | free a ha =>
    obtain ⟨f, hf, rfl⟩ := (hP.out_iff a).mp ha
    have hlt : f < pmmMaxPages := hmax f (P.out_avail f hf)
    refine ⟨P.give f, rfl, ⟨?_, ?_⟩⟩
    · intro g
      rw [bitmapTest_pmmFreePage _ _ _ hlt, Pool.mem_free_give P f hf, ← hP.free_iff]
      by_cases hg : g = f <;> simp [hg]
    · intro a
      simp only [Set.mem_ofPred_eq, hP.out_iff, Pool.give]
      constructor
      · rintro ⟨⟨g, hg, rfl⟩, hne⟩
        exact ⟨g, ⟨hg, fun h => hne (by rw [h])⟩, rfl⟩
      · rintro ⟨g, ⟨hg, hne⟩, rfl⟩
        exact ⟨⟨g, hg, rfl⟩, fun h => hne (frame_address_inj h)⟩

/-- Every history of calls implements a pool over the frames `pmm_init` made usable. -/
theorem reachable_implements {entries : List MmapEntry} {kernelEnd : ℕ}
    (hk : 0 < kernelEndPage kernelEnd) {c : PmmClient}
    (hr : (pmmSystem entries kernelEnd).Reachable c) :
    ∃ P : Pool ℕ, P.avail = usableFrames entries kernelEnd ∧ c.Implements P := by
  have hzero : 0 ∉ usableFrames entries kernelEnd := fun h => by have := h.2.1; omega
  apply hr.invariant
    (I := fun c => ∃ P : Pool ℕ, P.avail = usableFrames entries kernelEnd ∧ c.Implements P)
  · rintro c rfl
    refine ⟨Pool.fresh (usableFrames entries kernelEnd), rfl, ⟨?_, ?_⟩⟩
    · intro f
      rw [bitmapTest_pmmInit, Pool.mem_free_fresh]
    · intro a
      simp [Pool.fresh]
  · rintro c i c' ⟨P, hav, hP⟩ hs
    obtain ⟨P', hav', hP'⟩ := implements_step i (hav ▸ hzero)
      (fun f hf => (hav ▸ hf : f ∈ usableFrames entries kernelEnd).1) hP hs
    exact ⟨P', hav'.trans hav, hP'⟩

/-! ### Usable frames as addresses -/

/-- What a caller of `pmm_alloc_page` may rely on about an address. -/
def UsablePage (entries : List MmapEntry) (kernelEnd a : ℕ) : Prop :=
  a % pageSize = 0 ∧ a < 2^32 ∧ (kernelEnd+pageSize-1)/pageSize*pageSize ≤ a ∧
    ∃ e ∈ entries, e.type = multibootMemoryAvailable ∧ e.addr ≤ a ∧ a+pageSize ≤ e.addr+e.len

theorem covers_iff (e : MmapEntry) (f : ℕ) (he : e.addr+e.len+4095 < 2^64) :
    e.Covers f ↔ e.type = multibootMemoryAvailable ∧ e.addr ≤ f*pageSize ∧
      f*pageSize+pageSize ≤ e.addr+e.len := by
  have hstart : (e.addr+4096-1) % 2^64 = e.addr+4095 := Nat.mod_eq_of_lt (by omega)
  have hend : (e.addr+e.len) % 2^64 = e.addr+e.len := Nat.mod_eq_of_lt (by omega)
  simp only [MmapEntry.Covers, MmapEntry.startPage, MmapEntry.endPage, pageSize, hstart, hend]
  refine and_congr_right (fun _ => ?_)
  omega

theorem kernelEndPage_eq {kernelEnd : ℕ} (hk : 0 < kernelEndPage kernelEnd)
    (hlt : kernelEnd < 2^64) : kernelEndPage kernelEnd = (kernelEnd+pageSize-1)/pageSize := by
  -- a sum that wraps is below one page, so the page number would be 0
  have hwrap : kernelEnd+4096-1 < 2^64 := by
    by_contra h
    simp only [kernelEndPage, pageSize] at hk
    omega
  simp only [kernelEndPage, pageSize]
  rw [Nat.mod_eq_of_lt hwrap]

theorem usablePage_iff {entries : List MmapEntry} {kernelEnd : ℕ}
    (hes : ∀ e ∈ entries, e.addr+e.len+4095 < 2^64) (hk : 0 < kernelEndPage kernelEnd)
    (hlt : kernelEnd < 2^64) (a : ℕ) :
    UsablePage entries kernelEnd a ↔ ∃ f ∈ usableFrames entries kernelEnd, a = f*pageSize := by
  have hkend := kernelEndPage_eq hk hlt
  constructor
  · rintro ⟨halign, h32, hkern, e, he, hty, hlo, hhi⟩
    have ha : a = a/pageSize*pageSize := by
      simp only [pageSize] at halign ⊢
      omega
    refine ⟨a/pageSize, ⟨?_, ?_, e, he, ?_⟩, ha⟩
    · simp only [pmmMaxPages, pageSize]
      omega
    · rw [hkend]
      simp only [pageSize] at hkern ⊢
      omega
    · rw [covers_iff e _ (hes e he), ← ha]
      exact ⟨hty, hlo, hhi⟩
  · rintro ⟨f, ⟨hmax, hkern, e, he, hcov⟩, rfl⟩
    rw [hkend] at hkern
    simp only [pmmMaxPages] at hmax
    refine ⟨Nat.mul_mod_left f pageSize, ?_, Nat.mul_le_mul_right _ hkern, e, he,
      (covers_iff e f (hes e he)).mp hcov⟩
    simp only [pageSize]
    omega

/-- `pmm_alloc_page` only hands out usable frames that nobody holds, and fails only
when there is none. -/
theorem pmm_alloc_exclusive (entries : List MmapEntry) (kernelEnd : ℕ)
    (hes : ∀ e ∈ entries, e.addr+e.len+4095 < 2^64) (hk : 0 < kernelEndPage kernelEnd)
    (hlt : kernelEnd < 2^64) (c : PmmClient)
    (hr : (pmmSystem entries kernelEnd).Reachable c) :
    ((pmmAllocPage c.pmm).2 ≠ 0 →
      UsablePage entries kernelEnd (pmmAllocPage c.pmm).2 ∧ (pmmAllocPage c.pmm).2 ∉ c.out) ∧
    ((pmmAllocPage c.pmm).2 = 0 → ¬ ∃ a, UsablePage entries kernelEnd a ∧ a ∉ c.out) := by
  obtain ⟨P, hav, hP⟩ := reachable_implements hk hr
  rcases pmmAllocPage_cases c.pmm with ⟨f, hf, _, haddr, _⟩ | ⟨hall, hres⟩
  · have hmem : f ∈ P.free := (hP.free_iff f).mp hf
    have hus : f ∈ usableFrames entries kernelEnd := hav ▸ hmem.1
    rw [haddr]
    constructor
    · intro _
      refine ⟨(usablePage_iff hes hk hlt _).mpr ⟨f, hus, rfl⟩, ?_⟩
      rw [hP.out_iff]
      rintro ⟨g, hg, heq⟩
      exact hmem.2 (frame_address_inj heq ▸ hg)
    · intro h0
      have hpos : 0 < f := hk.trans_le hus.2.1
      exact absurd h0 (Nat.mul_ne_zero (by omega) (by decide))
  · rw [hres]
    refine ⟨fun h => absurd rfl h, fun _ => ?_⟩
    rintro ⟨a, hus, hout⟩
    obtain ⟨f, hf, rfl⟩ := (usablePage_iff hes hk hlt a).mp hus
    have hfree : f ∈ P.free := by
      refine ⟨hav ▸ hf, fun ho => hout ?_⟩
      rw [hP.out_iff]
      exact ⟨f, ho, rfl⟩
    rw [← hP.free_iff, hall f] at hfree
    exact Bool.noConfusion hfree

theorem PmmClient.exists_alloc (c : PmmClient) (h0 : (pmmAllocPage c.pmm).2 ≠ 0) :
    ∃ c', PmmClient.Step c .alloc c' ∧ ∀ x, x ∈ c'.out ↔ x ∈ c.out ∨ x = (pmmAllocPage c.pmm).2 :=
  ⟨_, .alloc c, fun _ => or_congr_right ⟨And.left, fun h => ⟨h, h ▸ h0⟩⟩⟩

theorem PmmClient.exists_free (c : PmmClient) {a : ℕ} (ha : a ∈ c.out) :
    ∃ c', PmmClient.Step c (.free a) c' ∧ ∀ x, x ∈ c'.out ↔ x ∈ c.out ∧ x ≠ a :=
  ⟨_, .free c a ha, fun _ => Iff.rfl⟩

/-- One 15 MB region above the kernel: two frames are handed out, the first one is given back, and
the next call hands out a frame other than the second. -/
theorem pmm_alloc_exclusive_after_free :
    let entries : List MmapEntry := [⟨0x100000, 0xF00000, 1⟩]
    ∃ (a b : ℕ) (c : PmmClient), a ≠ 0 ∧ b ≠ 0 ∧ a ≠ b ∧
      (pmmSystem entries 0x140000).Run ⟨pmmInit entries 0x140000, ∅⟩ [.alloc, .alloc, .free a] c ∧
      (∀ x, x ∈ c.out ↔ x = b) ∧ (pmmAllocPage c.pmm).2 ≠ 0 ∧
      UsablePage entries 0x140000 (pmmAllocPage c.pmm).2 ∧ (pmmAllocPage c.pmm).2 ≠ b := by
  intro entries
  have hexcl (c : PmmClient) (hr : (pmmSystem entries 0x140000).Reachable c) :=
    pmm_alloc_exclusive entries 0x140000 (by decide) (by decide) (by decide) c hr
  -- with at most one frame out, one of two others can be had
  have hsome (c : PmmClient) (x : ℕ) (hr : (pmmSystem entries 0x140000).Reachable c)
      (hout : ∀ y, y ∈ c.out → y = x) : (pmmAllocPage c.pmm).2 ≠ 0 := by
    have hpages : UsablePage entries 0x140000 0x200000 ∧ UsablePage entries 0x140000 0x300000 := by
      unfold UsablePage
      decide
    intro h0
    apply (hexcl c hr).2 h0
    by_cases hx : x = 0x200000
    · exact ⟨0x300000, hpages.2, fun h => absurd ((hout _ h).trans hx) (by decide)⟩
    · exact ⟨0x200000, hpages.1, fun h => hx (hout _ h).symm⟩
  have h0 : (pmmSystem entries 0x140000).Reachable ⟨pmmInit entries 0x140000, ∅⟩ := .init rfl
  have ha := hsome _ 0 h0 (fun y hy => hy.elim)
  obtain ⟨c1, hs1, hout1⟩ := PmmClient.exists_alloc _ ha
  have h1 : (pmmSystem entries 0x140000).Reachable c1 := .step h0 hs1
  have hb := hsome c1 _ h1 (fun y hy => ((hout1 y).mp hy).resolve_left False.elim)
  have hab := fun he => ((hexcl c1 h1).1 hb).2 ((hout1 _).mpr (Or.inr he))
  obtain ⟨c2, hs2, hout2⟩ := PmmClient.exists_alloc c1 hb
  have h2 : (pmmSystem entries 0x140000).Reachable c2 := .step h1 hs2
  obtain ⟨c3, hs3, hout3⟩ := PmmClient.exists_free c2
    ((hout2 _).mpr (Or.inl ((hout1 _).mpr (Or.inr rfl))))
  have h3 : (pmmSystem entries 0x140000).Reachable c3 := .step h2 hs3
  have hout (x : ℕ) : x ∈ c3.out ↔ x = (pmmAllocPage c1.pmm).2 := by
    rw [hout3, hout2, hout1]
    refine ⟨fun ⟨h, hne⟩ => h.resolve_left (fun h => hne (h.resolve_left False.elim)), fun h => ?_⟩
    exact ⟨Or.inr h, fun he => hab (h.symm.trans he)⟩
  have hnext := hsome c3 _ h3 (fun y hy => (hout y).mp hy)
  obtain ⟨husable, hnew⟩ := (hexcl c3 h3).1 hnext
  exact ⟨_, _, c3, ha, hb, fun he => hab he.symm, .cons hs1 (.cons hs2 (.cons hs3 (.nil c3))), hout,
    hnext, husable, fun he => hnew ((hout _).mpr he)⟩

end SukiOS

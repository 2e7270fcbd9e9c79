import Mathlib.Data.List.Perm.Subperm
import SukiOS.HeapFreeList

/-! What `kmalloc` does to the layout: it replaces one free block, found on the list or
made from new pages, by an allocated block and the free rest. -/
namespace SukiOS
open ByteMemory LinkedList MachineWord

/-! ### Blocks of a well-formed heap -/

section Geometry
variable {h : Heap} {bs : List Block} {fl : List ℕ} {b c : Block}

theorem HeapInv.apart (hi : HeapInv h bs fl) (hb : b ∈ bs) (hc : c ∈ bs) :
    b = c ∨ b.fin ≤ c.addr ∨ c.fin ≤ b.addr := by
  have hle : bs.Pairwise (fun b c => b = c ∨ b.fin ≤ c.addr ∨ c.fin ≤ b.addr) :=
    hi.sorted.imp (fun hxy => Or.inr (Or.inl hxy))
  have hge : bs.Pairwise (flip fun b c => b = c ∨ b.fin ≤ c.addr ∨ c.fin ≤ b.addr) :=
    hi.sorted.imp (fun hxy => Or.inr (Or.inr hxy))
  exact List.Pairwise.forall_of_forall_of_flip
    (R := fun b c => b = c ∨ b.fin ≤ c.addr ∨ c.fin ≤ b.addr) (fun x _ => Or.inl rfl) hle hge hb hc

theorem HeapInv.size_lt (hi : HeapInv h bs fl) (hb : b ∈ bs) : b.size < 2^63 := by
  have hin := hi.inside b hb
  have h1 := hin.lo
  have h2 : b.addr + b.size ≤ _ := hin.hi
  have h3 := hi.mapped_le
  have h4 := hi.max_lt
  omega

theorem HeapInv.blkSize_eq (hi : HeapInv h bs fl) (hb : b ∈ bs) : blkSize h.mem b.addr = b.size :=
  blkSize_of_tag (hi.words b hb).tag (hi.size_lt hb)

theorem HeapInv.blkIsAlloc_eq (hi : HeapInv h bs fl) (hb : b ∈ bs) :
    blkIsAlloc h.mem b.addr = b.alloc :=
  blkIsAlloc_of_tag (hi.words b hb).tag (hi.size_lt hb)

/-- A block is determined by its address. -/
theorem HeapInv.eq_of_addr (hi : HeapInv h bs fl) (hb : b ∈ bs) (hc : c ∈ bs)
    (he : b.addr = c.addr) : b = c := by
  have hb64 := (hi.inside b hb).min
  have hc64 := (hi.inside c hc).min
  rcases hi.apart hb hc with h1 | h1 | h1
  · exact h1
  · unfold Block.fin at h1
    omega
  · unfold Block.fin at h1
    omega

theorem HeapInv.free_mem (hi : HeapInv h bs fl) (hb : b ∈ bs) : b.addr ∈ fl ↔ b.alloc = false := by
  rw [hi.free_iff]
  constructor
  · rintro ⟨c, hc, hca, hcf⟩
    rwa [← hi.eq_of_addr hc hb hca]
  · exact fun hf => ⟨b, hb, rfl, hf⟩

/-- Inside a block only its own link words are list links. -/
theorem HeapInv.not_linkBytes (hi : HeapInv h bs fl) (hb : b ∈ bs) {x : ℕ} (h1 : b.addr ≤ x)
    (h2 : x < b.fin) (h3 : x < b.addr+8 ∨ b.addr+24 ≤ x) : x ∉ linkBytes fl := by
  rintro ⟨a, ha, h4, h5⟩
  obtain ⟨c, hc, rfl, -⟩ := (hi.free_iff a).mp ha
  have hc64 := (hi.inside c hc).min
  have hcfin : c.fin = c.addr + c.size := rfl
  rcases hi.apart hb hc with rfl | hbc | hbc
  · omega
  · omega
  · omega

/-- The words of a block survive writes to the list links and outside the block. -/
theorem HeapInv.words_of_sameOff (hi : HeapInv h bs fl) (hb : b ∈ bs) {S : Set ℕ} {m : Mem}
    (hoff : SameOff {x | x ∈ linkBytes fl ∨ x ∈ S} h.mem m)
    (hS : ∀ x ∈ S, x < b.addr ∨ b.fin ≤ x) : BlockWords m b := by
  have hfin : b.fin = b.addr + b.size := rfl
  have h64 := (hi.inside b hb).min
  refine (hi.words b hb).congr h64 ?_
  intro x hx
  apply hoff
  rintro (hxL | hxS)
  · exact hi.not_linkBytes hb (by omega) (by omega) (by omega) hxL
  · have := hS x hxS
    omega

/-- A list node is `b` itself or lies outside `b`. -/
theorem HeapInv.node_apart (hi : HeapInv h bs fl) (hb : b ∈ bs) {a : ℕ} (ha : a ∈ fl) :
    a = b.addr ∨ a+64 ≤ b.addr ∨ b.fin ≤ a := by
  obtain ⟨c, hc, rfl, -⟩ := (hi.free_iff a).mp ha
  have hc64 := (hi.inside c hc).min
  have hcfin : c.fin = c.addr + c.size := rfl
  rcases hi.apart hb hc with rfl | hbc | hbc
  · exact Or.inl rfl
  · exact Or.inr (Or.inr hbc)
  · exact Or.inr (Or.inl (by omega))

theorem FreeList.congr {m m' : Mem} {hd : ℕ} (hf : FreeList m hd fl)
    (he : ∀ a ∈ fl, ∀ x, a+8 ≤ x → x < a+24 → m' x = m x) : FreeList m' hd fl := by
  refine ⟨hf.linked.congr ?_, hf.back.congr ?_, hf.nodup, hf.sep, hf.lt⟩
  · exact fun a ha => load64_congr _ _ _ (fun x h1 h2 => he a ha x (by omega) (by omega))
  · exact fun a ha => load64_congr _ _ _ (fun x h1 h2 => he a ha x (by omega) (by omega))

/-- Writes outside every header and footer keep the layout. -/
theorem HeapInv.of_mem (hi : HeapInv h bs fl) {m : Mem}
    (he : ∀ b ∈ bs, ∀ x ∈ b.meta, m x = h.mem x) : HeapInv { h with mem := m } bs fl := by
  refine { hi with words := ?_, list := ?_ }
  · intro b hb
    refine (hi.words b hb).congr (hi.inside b hb).min (fun x hx => he b hb x ?_)
    simp only [Block.meta, Set.mem_ofPred_eq]
    omega
  · apply hi.list.congr
    intro a ha x h1 h2
    obtain ⟨c, hc, rfl, -⟩ := (hi.free_iff a).mp ha
    exact he c hc x (Or.inl ⟨by omega, by omega⟩)

end Geometry

/-! ### Replacing one free block -/

theorem Block.Inside.trans {b c : Block} {lo hi : ℕ} (hc : c.Inside b.addr b.fin)
    (hb : b.Inside lo hi) : c.Inside lo hi :=
  ⟨hc.min, hc.addr16, hc.size16, hb.lo.trans hc.lo, hc.hi.trans hb.hi⟩

theorem pairwise_replace {L R cut : List Block} {B : Block}
    (hs : (L ++ B :: R).Pairwise (fun a b => a.fin ≤ b.addr))
    (hc : cut.Pairwise (fun a b => a.fin ≤ b.addr)) (hin : ∀ c ∈ cut, c.Inside B.addr B.fin) :
    (L ++ cut ++ R).Pairwise (fun a b => a.fin ≤ b.addr) := by
  obtain ⟨hL, hBR, hLB⟩ := List.pairwise_append.mp hs
  obtain ⟨hB, hR⟩ := List.pairwise_cons.mp hBR
  refine List.pairwise_append.mpr ⟨List.pairwise_append.mpr ⟨hL, hc, ?_⟩, hR, ?_⟩
  · exact fun a ha c hcm => (hLB a ha B List.mem_cons_self).trans (hin c hcm).lo
  · intro a ha r hr
    rcases List.mem_append.mp ha with ha | ha
    · exact hLB a ha r (List.mem_cons_of_mem _ hr)
    · exact (hin a ha).hi.trans (hB r hr)

theorem HeapInv.replace {h : Heap} {L R cut : List Block} {B : Block} {fl fl' : List ℕ} {m : Mem}
    {hd : ℕ} (hi : HeapInv h (L ++ B :: R) fl)
    (hsort : cut.Pairwise (fun a b => a.fin ≤ b.addr)) (hin : ∀ c ∈ cut, c.Inside B.addr B.fin)
    (hw : ∀ c ∈ cut, BlockWords m c)
    (hoff : SameOff {x | x ∈ linkBytes fl ∨ x ∈ B.span} h.mem m)
    (hlist : FreeList m hd fl')
    (hfree : ∀ a, a ∈ fl' ↔ (a ∈ fl ∧ a ≠ B.addr) ∨ ∃ c ∈ cut, c.addr = a ∧ c.alloc = false) :
    HeapInv { h with mem := m, freeListHead := hd } (L ++ cut ++ R) fl' := by
  have hBmem : B ∈ L ++ B :: R := by simp
  have hB64 := (hi.inside B hBmem).min
  -- the other blocks lie outside the one that is replaced, so their words and nodes stay
  have hother : ∀ b ∈ L ++ R, b ∈ L ++ B :: R ∧ (b.fin ≤ B.addr ∨ B.fin ≤ b.addr) := by
    obtain ⟨-, hBR, hLB⟩ := List.pairwise_append.mp hi.sorted
    intro b hb
    rcases List.mem_append.mp hb with hb | hb
    · exact ⟨by simp [hb], Or.inl (hLB b hb B List.mem_cons_self)⟩
    · exact ⟨by simp [hb], Or.inr ((List.pairwise_cons.mp hBR).1 b hb)⟩
  have hsplit : ∀ b, b ∈ L ++ cut ++ R ↔ b ∈ L ++ R ∨ b ∈ cut := by
    intro b
    simp only [List.mem_append]
    tauto
  refine { hi with sorted := pairwise_replace hi.sorted hsort hin, inside := ?_, words := ?_,
                   list := hlist, free_iff := ?_ }
  · intro b hb
    rcases (hsplit b).mp hb with hb | hb
    · exact hi.inside b (hother b hb).1
    · exact (hin b hb).trans (hi.inside B hBmem)
  · intro b hb
    rcases (hsplit b).mp hb with hb | hb
    · obtain ⟨hbm, hap⟩ := hother b hb
      refine hi.words_of_sameOff hbm hoff (fun x hx => ?_)
      have h1 := hx.1
      have h2 := hx.2
      omega
    · exact hw b hb
  · intro a
    rw [hfree a]
    constructor
    · rintro (⟨ha, hne⟩ | ⟨c, hc, hca⟩)
      · obtain ⟨c, hc, rfl, hcf⟩ := (hi.free_iff a).mp ha
        refine ⟨c, (hsplit c).mpr (Or.inl ?_), rfl, hcf⟩
        rcases mem_middle_iff.mp hc with rfl | hc
        · exact absurd rfl hne
        · exact hc
      · exact ⟨c, (hsplit c).mpr (Or.inr hc), hca⟩
    · rintro ⟨b, hb, rfl, hbf⟩
      rcases (hsplit b).mp hb with hb | hb
      · obtain ⟨hbm, hap⟩ := hother b hb
        have hb64 := (hi.inside b hbm).min
        refine Or.inl ⟨(hi.free_mem hbm).mpr hbf, ?_⟩
        unfold Block.fin at hap
        omega
      · exact Or.inr ⟨b, hb, rfl, hbf⟩

/-! ### Splitting and whole-block allocation -/

/-- The blocks `kmalloc` leaves in the place of the free block it takes. -/
def cut (best bsize total : ℕ) : List Block :=
  if total + blockMinSize ≤ bsize then
    [⟨best, total, true⟩, ⟨best+total, bsize-total, false⟩]
  else [⟨best, bsize, true⟩]

section Take
variable {h : Heap} {L R : List Block} {fl : List ℕ} {best bsize total lo hi : ℕ}

theorem cut_inside (hB : (Block.mk best bsize false).Inside lo hi) (ht64 : 64 ≤ total)
    (ht16 : total % 16 = 0) :
    ∀ c ∈ cut best bsize total, c.Inside best (best+bsize) := by
  have h64 : 64 ≤ bsize := hB.min
  have ha16 : best % 16 = 0 := hB.addr16
  have hs16 : bsize % 16 = 0 := hB.size16
  intro c hc
  unfold cut at hc
  split at hc
  · rename_i hs
    simp only [blockMinSize, blockMetaSize, blockHeaderSize, blockFooterSize] at hs
    simp only [List.mem_cons, List.not_mem_nil, or_false] at hc
    rcases hc with rfl | rfl
    · refine ⟨ht64, ha16, ht16, le_rfl, ?_⟩
      simp only [Block.fin]
      omega
    · refine ⟨?_, ?_, ?_, ?_, ?_⟩ <;> simp only [Block.fin] <;> omega
  · rw [List.mem_singleton.mp hc]
    exact ⟨h64, ha16, hs16, le_rfl, le_rfl⟩

theorem formatBytes_subset {a sz : ℕ} {b : Bool} (h64 : 64 ≤ sz) :
    ∀ x ∈ formatBytes a sz, x ∈ (Block.mk a sz b).span := by
  intro x hx
  simp only [formatBytes, Set.mem_ofPred_eq] at hx
  simp only [Block.span, Block.fin, Set.mem_ofPred_eq]
  omega

theorem takeBlock_whole (hi : HeapInv h (L ++ ⟨best, bsize, false⟩ :: R) fl)
    (hs : ¬ total + blockMinSize ≤ bsize) :
    ∃ m hd fl', takeBlock h best total = { h with mem := m, freeListHead := hd } ∧
      HeapInv { h with mem := m, freeListHead := hd } (L ++ [⟨best, bsize, true⟩] ++ R) fl' ∧
      SameOff {x | x ∈ linkBytes fl ∨ x ∈ (Block.mk best bsize false).span} h.mem m := by
  have hB : (Block.mk best bsize false) ∈ L ++ ⟨best, bsize, false⟩ :: R := by simp
  have hin := hi.inside _ hB
  have h64 : 64 ≤ bsize := hin.min
  have hlt : bsize < 2^63 := hi.size_lt hB
  have hsize : blkSize h.mem best = bsize := hi.blkSize_eq hB
  obtain ⟨l, r, rfl⟩ := List.append_of_mem ((hi.free_mem hB).mpr rfl)
  obtain ⟨m1, hd, hrem, hlist, hoff1⟩ := listRemove_spec hi.list
  obtain ⟨hw, hoff2⟩ := formatBlock_spec m1 best bsize true h64 hlt
  have hne : ∀ a ∈ l ++ r, a ≠ best := ne_middle hi.list.nodup
  have hoff := hoff1.union (hoff2.mono (formatBytes_subset (b := false) h64))
  refine ⟨formatBlock m1 best bsize true, hd, l ++ r, ?_, ?_, hoff⟩
  · simp only [takeBlock, hsize, if_neg hs, hrem]
  · apply hi.replace
    · simp
    · intro c hc
      rw [List.mem_singleton.mp hc]
      exact ⟨h64, hin.addr16, hin.size16, le_rfl, le_rfl⟩
    · intro c hc
      rw [List.mem_singleton.mp hc]
      exact hw
    · exact hoff
    · -- the nodes that are left in the list are other blocks, which the format does not touch
      apply hlist.congr
      intro a ha x hx1 hx2
      apply hoff2
      simp only [formatBytes, Set.mem_ofPred_eq]
      rcases hi.node_apart hB (mem_middle_iff.mpr (Or.inr ha)) with he | he
      · exact absurd he (hne a ha)
      · simp only [Block.fin] at he
        omega
    · intro a
      rw [mem_middle_iff]
      constructor
      · exact fun ha => Or.inl ⟨Or.inr ha, hne a ha⟩
      · rintro (⟨he | ha, hne⟩ | ⟨c, hc, -, hcf⟩)
        · exact absurd he hne
        · exact ha
        · rw [List.mem_singleton.mp hc] at hcf
          cases hcf

/-- The words of the rest survive that the rest takes the place of the block in the free list. -/
theorem HeapInv.rest_words (hi : HeapInv h (L ++ ⟨best, bsize, false⟩ :: R) fl) (ht64 : 64 ≤ total)
    (hs : total + 64 ≤ bsize) {m0 m1 : Mem}
    (hw : BlockWords m0 ⟨best+total, bsize-total, false⟩)
    (hmagic : load64 m1 (best+total+24) = magicValue)
    (hoff : SameOff {x | x ∈ linkBytes fl ∨ x ∈ nodeBytes (best+total)} m0 m1) :
    BlockWords m1 ⟨best+total, bsize-total, false⟩ := by
  have hB : (Block.mk best bsize false) ∈ L ++ ⟨best, bsize, false⟩ :: R := by simp
  have hkeep (a : ℕ) (h1 : best+total ≤ a) (h2 : a+8 ≤ best+bsize)
      (h3 : a+8 ≤ best+total+8 ∨ best+total+32 ≤ a) : load64 m1 a = load64 m0 a := by
    apply load64_of_sameOff hoff
    rintro x hx1 hx2 (hx | hx)
    · refine hi.not_linkBytes hB (x := x) ?_ ?_ ?_ hx
      · change best ≤ x
        omega
      · change x < best+bsize
        omega
      · change x < best+8 ∨ best+24 ≤ x
        omega
    · have h4 := hx.1
      have h5 := hx.2
      omega
  have hfin : (Block.mk (best+total) (bsize-total) false).fin = best+bsize := by
    simp only [Block.fin]
    omega
  refine ⟨?_, hmagic, ?_, ?_⟩
  · rw [hkeep _ le_rfl (by omega) (Or.inl le_rfl)]
    exact hw.tag
  · rw [hkeep _ (by rw [hfin]; omega) (by rw [hfin]; omega) (by rw [hfin]; omega)]
    exact hw.footMagic
  · rw [hkeep _ (by rw [hfin]; omega) (by rw [hfin]; omega) (by rw [hfin]; omega)]
    exact hw.footSize

/-- The three writes of a split stay in the block and the links of the free list. -/
theorem split_sameOff (ht64 : 64 ≤ total) (hs : total + 64 ≤ bsize) {m m0 m1 m2 : Mem}
    (h0 : SameOff (formatBytes (best+total) (bsize-total)) m m0)
    (h1 : SameOff {x | x ∈ linkBytes fl ∨ x ∈ nodeBytes (best+total)} m0 m1)
    (h2 : SameOff (formatBytes best total) m1 m2) :
    SameOff {x | x ∈ linkBytes fl ∨ x ∈ (Block.mk best bsize false).span} m m2 := by
  have hspan (S : Set ℕ) (m m' : Mem) (hoff : SameOff S m m')
      (hS : ∀ x ∈ S, best ≤ x ∧ x < best+bsize) :
      SameOff {x | x ∈ linkBytes fl ∨ x ∈ (Block.mk best bsize false).span} m m' :=
    hoff.mono (fun x hx => Or.inr (hS x hx))
  refine (hspan _ _ _ h0 ?_).trans (SameOff.trans (h1.mono ?_) (hspan _ _ _ h2 ?_))
  · intro x hx
    simp only [formatBytes, Set.mem_ofPred_eq] at hx
    omega
  · rintro x (hx | hx)
    · exact Or.inl hx
    · have h3 := hx.1
      have h4 := hx.2
      exact Or.inr ⟨by simp only; omega, by simp only [Block.fin]; omega⟩
  · intro x hx
    simp only [formatBytes, Set.mem_ofPred_eq] at hx
    omega

theorem takeBlock_split (hi : HeapInv h (L ++ ⟨best, bsize, false⟩ :: R) fl)
    (ht64 : 64 ≤ total) (ht16 : total % 16 = 0) (hs : total + blockMinSize ≤ bsize) :
    ∃ m hd fl', takeBlock h best total = { h with mem := m, freeListHead := hd } ∧
      HeapInv { h with mem := m, freeListHead := hd }
        (L ++ [⟨best, total, true⟩, ⟨best+total, bsize-total, false⟩] ++ R) fl' ∧
      SameOff {x | x ∈ linkBytes fl ∨ x ∈ (Block.mk best bsize false).span} h.mem m := by
  have hB : (Block.mk best bsize false) ∈ L ++ ⟨best, bsize, false⟩ :: R := by simp
  have hin := hi.inside _ hB
  have h64 : 64 ≤ bsize := hin.min
  have hlt : bsize < 2^63 := hi.size_lt hB
  have hsize : blkSize h.mem best = bsize := hi.blkSize_eq hB
  have hend : best + bsize ≤ h.heapStart + h.heapMappedSize := hin.hi
  have hnw := hi.no_wrap
  have hmap := hi.mapped_le
  have hs64 : total + 64 ≤ bsize := hs
  let rest := best + total
  obtain ⟨hw0, hoff0⟩ := formatBlock_spec h.mem rest (bsize-total) false (by omega) (by omega)
  let h0 : Heap := { h with mem := formatBlock h.mem rest (bsize-total) false }
  -- formatting the rest touches no node of the free list: they are outside the block or at its start
  have hnode : ∀ a ∈ fl, a = best ∨ a+64 ≤ best ∨ best+bsize ≤ a := fun a ha =>
    hi.node_apart hB ha
  have hlist0 : FreeList h0.mem h0.freeListHead fl := by
    apply hi.list.congr
    intro a ha x hx1 hx2
    apply hoff0
    have := hnode a ha
    simp only [formatBytes, Set.mem_ofPred_eq, rest]
    omega
  obtain ⟨l, r, rfl⟩ := List.append_of_mem ((hi.free_mem hB).mpr rfl)
  have hrest : rest ∉ l ++ best :: r := by
    intro hm
    have := hnode rest hm
    simp only [rest] at this
    omega
  have hsep : ∀ z ∈ l ++ best :: r, Sep z rest := by
    intro z hz
    have := hnode z hz
    simp only [Sep, rest]
    omega
  obtain ⟨m1, hd, hrep, hlist1, hmagic, hoff1⟩ :=
    replaceFree_spec hlist0 hrest (by simp only [rest]; omega) (by simp only [rest]; omega) hsep
  obtain ⟨hw2, hoff2⟩ := formatBlock_spec m1 best total true ht64 (by omega)
  have hne : ∀ a ∈ l ++ r, a ≠ best := ne_middle hi.list.nodup
  have hrestW : BlockWords m1 ⟨rest, bsize-total, false⟩ := hi.rest_words ht64 hs64 hw0 hmagic hoff1
  have hoff := split_sameOff ht64 hs64 hoff0 hoff1 hoff2
  refine ⟨formatBlock m1 best total true, hd, l ++ rest :: r, ?_, ?_, hoff⟩
  · simp only [takeBlock, hsize, if_pos hs]
    rw [hrep]
  · apply hi.replace
    · simp [Block.fin]
    · intro c hc
      have hcut := cut_inside hin ht64 ht16 c
      rw [cut, if_pos hs] at hcut
      exact hcut hc
    · intro c hc
      simp only [List.mem_cons, List.not_mem_nil, or_false] at hc
      rcases hc with rfl | rfl
      · exact hw2
      · refine hrestW.congr (by simp only; omega) (fun x hx => hoff2 x ?_)
        simp only [Block.fin, rest] at hx
        simp only [formatBytes, Set.mem_ofPred_eq]
        omega
    · exact hoff
    · apply hlist1.congr
      intro a ha x hx1 hx2
      apply hoff2
      simp only [formatBytes, Set.mem_ofPred_eq]
      rcases mem_middle_iff.mp ha with he | ha
      · simp only [rest] at he
        omega
      · have h1 := hne a ha
        have h2 := hnode a (mem_middle_iff.mpr (Or.inr ha))
        omega
    · intro a
      rw [mem_middle_iff, mem_middle_iff]
      constructor
      · rintro (rfl | ha)
        · exact Or.inr ⟨⟨rest, bsize-total, false⟩, by simp [rest], rfl, rfl⟩
        · exact Or.inl ⟨Or.inr ha, hne a ha⟩
      · rintro (⟨he | ha, hab⟩ | ⟨c, hc, rfl, hcf⟩)
        · exact absurd he hab
        · exact Or.inr ha
        · simp only [List.mem_cons, List.not_mem_nil, or_false] at hc
          rcases hc with rfl | rfl
          · cases hcf
          · exact Or.inl rfl

theorem takeBlock_spec (hi : HeapInv h (L ++ ⟨best, bsize, false⟩ :: R) fl)
    (ht64 : 64 ≤ total) (ht16 : total % 16 = 0) :
    ∃ m hd fl', takeBlock h best total = { h with mem := m, freeListHead := hd } ∧
      HeapInv { h with mem := m, freeListHead := hd } (L ++ cut best bsize total ++ R) fl' ∧
      SameOff {x | x ∈ linkBytes fl ∨ x ∈ (Block.mk best bsize false).span} h.mem m := by
  unfold cut
  split
  · exact takeBlock_split hi ht64 ht16 ‹_›
  · exact takeBlock_whole hi ‹_›

end Take

/-! ### The search -/

theorem length_mul_le {lo hi : ℕ} (bs : List Block)
    (hs : bs.Pairwise (fun a b => a.fin ≤ b.addr)) (hin : ∀ b ∈ bs, b.Inside lo hi)
    (hle : lo ≤ hi) : lo + 64*bs.length ≤ hi := by
  induction bs generalizing lo with
  | nil => simpa using hle
  | cons b bs ih =>
    obtain ⟨hb, hs⟩ := List.pairwise_cons.mp hs
    have hbin := hin b List.mem_cons_self
    have hblo := hbin.lo
    have hbmin := hbin.min
    have hbfin : b.fin = b.addr + b.size := rfl
    have ih := ih hs (fun c hc =>
      have hc' := hin c (List.mem_cons_of_mem _ hc)
      ⟨hc'.min, hc'.addr16, hc'.size16, hb c hc, hc'.hi⟩) hbin.hi
    rw [List.length_cons]
    omega

theorem HeapInv.length_le {h : Heap} {bs : List Block} {fl : List ℕ} (hi : HeapInv h bs fl) :
    fl.length ≤ h.heapMappedSize := by
  have hsub : fl ⊆ bs.map Block.addr := by
    intro a ha
    obtain ⟨b, hb, hba, -⟩ := (hi.free_iff a).mp ha
    exact List.mem_map.mpr ⟨b, hb, hba⟩
  have h1 : fl.length ≤ (bs.map Block.addr).length := (hi.list.nodup.subperm hsub).length_le
  have h2 := length_mul_le bs hi.sorted hi.inside (by omega)
  rw [List.length_map] at h1
  omega

theorem firstFit_of_linked {m : Mem} (total : ℕ) {fuel hd : ℕ} {fl : List ℕ}
    (hl : Linked (blkNextFree m) 0 hd fl) (hfuel : fl.length < fuel) :
    (firstFit m total fuel hd = some 0 ∧ ∀ a ∈ fl, blkSize m a < total) ∨
      ∃ a ∈ fl, a ≠ 0 ∧ total ≤ blkSize m a ∧ firstFit m total fuel hd = some a := by
  induction fl generalizing hd fuel with
  | nil =>
    obtain ⟨fuel, rfl⟩ := Nat.exists_eq_succ_of_ne_zero (by omega : fuel ≠ 0)
    rw [show hd = 0 from hl]
    exact Or.inl ⟨rfl, fun a ha => absurd ha List.not_mem_nil⟩
  | cons a fl ih =>
    obtain ⟨fuel, rfl⟩ := Nat.exists_eq_succ_of_ne_zero (by omega : fuel ≠ 0)
    obtain ⟨rfl, hne, ht⟩ := hl
    simp only [firstFit, if_neg hne]
    by_cases hfit : total ≤ blkSize m hd
    · rw [if_pos hfit]
      exact Or.inr ⟨hd, List.mem_cons_self, hne, hfit, rfl⟩
    · rw [if_neg hfit]
      rw [List.length_cons] at hfuel
      rcases ih ht (by omega : fl.length < fuel) with ⟨he, hsmall⟩ | ⟨b, hb, hb0, hbfit, he⟩
      · refine Or.inl ⟨he, ?_⟩
        intro b hb
        rcases List.mem_cons.mp hb with rfl | hb
        · omega
        · exact hsmall b hb
      · exact Or.inr ⟨b, List.mem_cons_of_mem _ hb, hb0, hbfit, he⟩

/-- The search ends, with the null pointer exactly when no free block fits. -/
theorem HeapInv.firstFit_cases {h : Heap} {bs : List Block} {fl : List ℕ} (hi : HeapInv h bs fl)
    (total : ℕ) :
    (h.firstFit total = some 0 ∧ ∀ b ∈ bs, b.alloc = false → b.size < total) ∨
      ∃ L R best bsize, bs = L ++ ⟨best, bsize, false⟩ :: R ∧ best ≠ 0 ∧ total ≤ bsize ∧
        h.firstFit total = some best := by
  rcases firstFit_of_linked total hi.list.linked (Nat.lt_succ_of_le hi.length_le) with
    ⟨he, hsmall⟩ | ⟨a, ha, ha0, hfit, he⟩
  · refine Or.inl ⟨he, ?_⟩
    intro b hb hbf
    rw [← hi.blkSize_eq hb]
    exact hsmall b.addr ((hi.free_mem hb).mpr hbf)
  · obtain ⟨⟨addr, size, alloc⟩, hb, rfl, hbf⟩ := (hi.free_iff a).mp ha
    obtain ⟨L, R, hLR⟩ := List.append_of_mem hb
    cases hbf
    rw [hi.blkSize_eq hb] at hfit
    exact Or.inr ⟨L, R, addr, size, hLR, ha0, hfit, he⟩

/-! ### New pages -/

/-- Pages are added one by one, and no page more than is needed. -/
theorem expandFrom_pages (vmm : ℕ → Bool) (h : Heap) (curEnd needed : ℕ)
    (hc : curEnd = h.heapStart + h.heapMappedSize) (ha : h.heapMappedSize % 4096 = 0)
    (hm : h.heapMaxSize % 4096 = 0) (hle : h.heapMappedSize ≤ h.heapMaxSize) :
    ∃ ok k, expandFrom vmm h curEnd needed =
        (ok, { h with heapMappedSize := h.heapMappedSize + k*4096 }) ∧
      h.heapMappedSize + k*4096 ≤ h.heapMaxSize ∧ (ok = true → needed ≤ curEnd + k*4096) ∧
      (k = 0 ∨ curEnd + k*4096 < needed + 4096) := by
  induction h, curEnd using expandFrom.induct vmm needed with
  | case1 h curEnd hlt hmax =>
    refine ⟨false, 0, ?_, by omega, fun he => absurd he Bool.false_ne_true, Or.inl rfl⟩
    rw [expandFrom, if_pos hlt, if_pos hmax, zero_mul, Nat.add_zero]
  | case2 h curEnd hlt hmax hv =>
    refine ⟨false, 0, ?_, by omega, fun he => absurd he Bool.false_ne_true, Or.inl rfl⟩
    rw [expandFrom, if_pos hlt, if_neg hmax, if_pos hv, zero_mul, Nat.add_zero]
  | case3 h curEnd hlt hmax hv ih =>
    have hpage : vmmPageSize = 4096 := rfl
    have hnext : h.heapMappedSize + vmmPageSize ≤ h.heapMaxSize := by omega
    obtain ⟨ok, k, hres, hk, hok, hmin⟩ := ih (by simp only; omega) (by simp only; omega) hm hnext
    have hadd : h.heapMappedSize + vmmPageSize + k*4096 = h.heapMappedSize + (k+1)*4096 := by omega
    refine ⟨ok, k+1, ?_, ?_, ?_, Or.inr (by omega)⟩
    · rw [expandFrom, if_pos hlt, if_neg hmax, if_neg hv, hres]
      simp only [hadd]
    · rw [← hadd]
      exact hk
    · intro he
      have := hok he
      omega
  | case4 h curEnd hlt =>
    refine ⟨true, 0, ?_, by omega, fun _ => by omega, Or.inl rfl⟩
    rw [expandFrom, if_neg hlt, zero_mul, Nat.add_zero]

/-- An expansion succeeds when all its pages can be mapped. -/
theorem expandFrom_ok (vmm : ℕ → Bool) (h : Heap) (curEnd needed : ℕ)
    (hc : curEnd = h.heapStart + h.heapMappedSize) :
    (expandFrom vmm h curEnd needed).1 = true ↔ ∀ i, curEnd + i*4096 < needed →
      h.heapMappedSize + i*4096 < h.heapMaxSize ∧ vmm (curEnd + i*4096) = true := by
  induction h, curEnd using expandFrom.induct vmm needed with
  | case1 h curEnd hlt hmax =>
    rw [expandFrom, if_pos hlt, if_pos hmax]
    refine ⟨fun he => absurd he Bool.false_ne_true, fun hall => ?_⟩
    have h0 := (hall 0 (by omega)).1
    omega
  | case2 h curEnd hlt hmax hv =>
    rw [expandFrom, if_pos hlt, if_neg hmax, if_pos hv]
    refine ⟨fun he => absurd he Bool.false_ne_true, fun hall => ?_⟩
    have h0 := (hall 0 (by omega)).2
    rw [Nat.zero_mul, Nat.add_zero, hv] at h0
    cases h0
  | case3 h curEnd hlt hmax hv ih =>
    have hpage : vmmPageSize = 4096 := rfl
    rw [expandFrom, if_pos hlt, if_neg hmax, if_neg hv, ih (by simp only; omega)]
    -- page `i` of the rest is page `i + 1`
    constructor
    · intro hall i hi
      cases i with
      | zero =>
        rw [Nat.zero_mul, Nat.add_zero, Nat.add_zero]
        exact ⟨by omega, Bool.eq_true_of_not_eq_false hv⟩
      | succ i =>
        obtain ⟨h1, h2⟩ := hall i (by omega)
        have haddr : curEnd + vmmPageSize + i*4096 = curEnd + (i+1)*4096 := by omega
        rw [haddr] at h2
        dsimp only at h1
        exact ⟨by omega, h2⟩
    · intro hall i hi
      obtain ⟨h1, h2⟩ := hall (i+1) (by omega)
      have haddr : curEnd + (i+1)*4096 = curEnd + vmmPageSize + i*4096 := by omega
      rw [haddr] at h2
      exact ⟨by simp only; omega, h2⟩
  | case4 h curEnd hlt =>
    rw [expandFrom, if_neg hlt]
    exact ⟨fun _ i hi => by omega, fun _ => rfl⟩

section Grow
variable {h : Heap} {bs : List Block} {fl : List ℕ}

theorem HeapInv.mapMore (hi : HeapInv h bs fl) (k : ℕ)
    (hk : h.heapMappedSize + k*4096 ≤ h.heapMaxSize) :
    HeapInv { h with heapMappedSize := h.heapMappedSize + k*4096 } bs fl := by
  have hm := hi.mapped_align
  refine { hi with mapped_align := ?_, mapped_le := hk, inside := ?_ }
  · change (h.heapMappedSize + k*4096) % 4096 = 0
    omega
  · intro b hb
    have hin := hi.inside b hb
    refine ⟨hin.min, hin.addr16, hin.size16, hin.lo, hin.hi.trans ?_⟩
    change _ ≤ h.heapStart + (h.heapMappedSize + k*4096)
    omega

/-- Append a free block over the last `k` mapped pages. -/
theorem HeapInv.appendFree (hi : HeapInv h bs fl) {k : ℕ} (hk : 0 < k)
    (hle : h.heapMappedSize + k*4096 ≤ h.heapMaxSize) :
    let a := h.heapStart + h.heapMappedSize
    ∃ m, listInsertHead { h with heapMappedSize := h.heapMappedSize + k*4096,
                                 mem := formatBlock h.mem a (k*4096) false } a =
        { h with heapMappedSize := h.heapMappedSize + k*4096, mem := m, freeListHead := a } ∧
      HeapInv { h with heapMappedSize := h.heapMappedSize + k*4096, mem := m, freeListHead := a }
        (bs ++ [⟨a, k*4096, false⟩]) (a :: fl) ∧
      SameOff {x | x ∈ linkBytes fl ∨ a ≤ x} h.mem m := by
  intro a
  have hpos := hi.start_pos
  have hsa := hi.start_align
  have hma := hi.mapped_align
  have hnw := hi.no_wrap
  have hml := hi.max_lt
  have ha : a = h.heapStart + h.heapMappedSize := rfl
  obtain ⟨hw0, hoff0⟩ := formatBlock_spec h.mem a (k*4096) false (by omega) (by omega)
  have hnode : ∀ b ∈ bs, 64 ≤ b.size ∧ b.addr + b.size ≤ a := fun b hb =>
    ⟨(hi.inside b hb).min, (hi.inside b hb).hi⟩
  have hnodeL : ∀ x ∈ fl, x+64 ≤ a := by
    intro x hx
    obtain ⟨b, hb, rfl, -⟩ := (hi.free_iff x).mp hx
    have := hnode b hb
    omega
  -- the new block starts where the mapped part ended, behind every node
  have hlist0 : FreeList (formatBlock h.mem a (k*4096) false) h.freeListHead fl := by
    apply hi.list.congr
    intro x hx y h1 h2
    apply hoff0
    have := hnodeL x hx
    simp only [formatBytes, Set.mem_ofPred_eq]
    omega
  obtain ⟨m, hins, hlist, hoff⟩ := listInsertHead_spec
    (h := { h with heapMappedSize := h.heapMappedSize + k*4096,
                   mem := formatBlock h.mem a (k*4096) false }) (x := a) hlist0
    (fun hm => by have := hnodeL a hm; omega) (by omega) (by omega)
    (fun y hy => by have := hnodeL y hy; unfold Sep; omega)
  have hlink (x : ℕ) (hx : x < a+8 ∨ a+24 ≤ x) (hxl : x ∉ linkBytes fl) :
      x ∉ linkBytes (a :: fl) := by
    rw [mem_linkBytes_cons]
    rintro (h | h)
    · omega
    · exact hxl h
  have hbelow : ∀ x ∈ linkBytes fl, x < a := by
    rintro x ⟨y, hy, -, h2⟩
    have := hnodeL y hy
    omega
  have hframe : SameOff {x | x ∈ linkBytes fl ∨ a ≤ x} h.mem m := by
    refine SameOff.trans (hoff0.mono (fun x hx => Or.inr ?_)) (hoff.mono ?_)
    · simp only [formatBytes, Set.mem_ofPred_eq] at hx
      omega
    · intro x hx
      rcases mem_linkBytes_cons.mp hx with h | h
      · exact Or.inr (by omega)
      · exact Or.inl h
  refine ⟨m, hins, ?_, hframe⟩
  refine { hi.mapMore k hle with sorted := ?_, inside := ?_, words := ?_, list := hlist,
                                 free_iff := ?_ }
  · refine List.pairwise_append.mpr ⟨hi.sorted, List.pairwise_singleton _ _, ?_⟩
    intro b hb c hc
    rw [List.mem_singleton.mp hc]
    exact (hi.inside b hb).hi
  · intro b hb
    rcases List.mem_append.mp hb with hb | hb
    · exact (hi.mapMore k hle).inside b hb
    · rw [List.mem_singleton.mp hb]
      refine ⟨?_, ?_, ?_, ?_, ?_⟩ <;> simp only [Block.fin, a] <;> omega
  · intro b hb
    rcases List.mem_append.mp hb with hb | hb
    · have hfin : b.fin = b.addr + b.size := rfl
      have hbn := hnode b hb
      refine (hi.words b hb).congr hbn.1 (fun x hx => ?_)
      have hxl : x ∉ linkBytes fl := hi.not_linkBytes hb (by omega) (by omega) (by omega)
      refine (hoff x (hlink x (by omega) hxl)).trans (hoff0 x ?_)
      simp only [formatBytes, Set.mem_ofPred_eq]
      omega
    · rw [List.mem_singleton.mp hb]
      refine hw0.congr (by simp only; omega) (fun x hx => hoff x ?_)
      simp only [Block.fin] at hx
      refine hlink x (by omega) (fun h => ?_)
      have := hbelow x h
      omega
  · intro x
    rw [List.mem_cons]
    constructor
    · rintro (hx | hx)
      · exact ⟨⟨a, k*4096, false⟩, by simp, hx.symm, rfl⟩
      · obtain ⟨b, hb, hbx⟩ := (hi.free_iff x).mp hx
        exact ⟨b, List.mem_append_left _ hb, hbx⟩
    · rintro ⟨b, hb, rfl, hbf⟩
      rcases List.mem_append.mp hb with hb | hb
      · exact Or.inr ((hi.free_mem hb).mpr hbf)
      · rw [List.mem_singleton.mp hb]
        exact Or.inl rfl

/-- The size of the block that new pages make for `total` bytes. -/
def newBlockSize (total : ℕ) : ℕ := (total + 4095) / 4096 * 4096

/-- The block that expansion appends has just the pages that are needed. -/
theorem growHeap_pages (hi : HeapInv h bs fl) (vmm : ℕ → Bool) (total : ℕ) (ht : 0 < total) :
    let a := h.heapStart + h.heapMappedSize
    ∃ k, h.heapMappedSize + k*4096 ≤ h.heapMaxSize ∧
      (((expandTo vmm h (a+total)).1 = false ∧
          growHeap vmm h total = (false, { h with heapMappedSize := h.heapMappedSize + k*4096 })) ∨
        (∃ m, k*4096 = newBlockSize total ∧ (expandTo vmm h (a+total)).1 = true ∧
          growHeap vmm h total = (true,
            { h with heapMappedSize := h.heapMappedSize + k*4096, mem := m, freeListHead := a }) ∧
          HeapInv
            { h with heapMappedSize := h.heapMappedSize + k*4096, mem := m, freeListHead := a }
            (bs ++ [⟨a, k*4096, false⟩]) (a :: fl) ∧
          SameOff {x | x ∈ linkBytes fl ∨ a ≤ x} h.mem m)) := by
  intro a
  obtain ⟨ok, k, hres, hk, hok, hmin⟩ := expandFrom_pages vmm h a (a+total) rfl hi.mapped_align
    hi.max_align hi.mapped_le
  refine ⟨k, hk, ?_⟩
  have hgrow : growHeap vmm h total =
      if (expandTo vmm h (a+total)).1 = false then expandTo vmm h (a+total)
      else
        let r := expandTo vmm h (a+total)
        let expandSz := r.2.heapStart + r.2.heapMappedSize - a
        (true, listInsertHead { r.2 with mem := formatBlock r.2.mem a expandSz false } a) := rfl
  change expandTo vmm h (a+total) = _ at hres
  rw [hgrow, hres]
  cases ok with
  | false => exact Or.inl ⟨rfl, rfl⟩
  | true =>
    have hneed := hok rfl
    obtain ⟨m, hins, hinv, hoff⟩ := hi.appendFree (k := k) (by omega) hk
    refine Or.inr ⟨m, by unfold newBlockSize; omega, rfl, ?_, hinv, hoff⟩
    have hsz : h.heapStart + (h.heapMappedSize + k*4096) - a = k*4096 := by
      simp only [a]
      omega
    simp only [Bool.true_eq_false, if_false, hsz]
    rw [hins]

end Grow

/-! ### `kmalloc` -/

theorem blockTotal_spec {size : ℕ} (h : size ≤ heapMaxAlloc) :
    64 ≤ blockTotal size ∧ blockTotal size % 16 = 0 ∧ size + 48 ≤ blockTotal size ∧
      blockTotal size ≤ size + 64 := by
  have hround : (size + 63) &&& (2^64 - 2^4) = (size+63) / 2^4 * 2^4 := by
    apply land_align_down _ _ (by decide)
    unfold heapMaxAlloc at h
    omega
  have htotal : blockTotal size =
      if (size + 63) &&& (2^64 - 2^4) < 64 then 64 else (size + 63) &&& (2^64 - 2^4) := rfl
  rw [htotal, hround]
  split <;> omega

/-- The end of the mapped region. -/
def Heap.limit (h : Heap) : ℕ := h.heapStart + h.heapMappedSize

/-- `Carve bs lim total bs' best lim'`: a block of at least `total` bytes at `best` is taken
from the layout `bs` of a region that ends at `lim`, or, when no free block fits, from new
pages behind it. -/
inductive Carve (bs : List Block) (lim total : ℕ) : List Block → ℕ → ℕ → Prop
  | fit {L R : List Block} {best bsize : ℕ} (hbs : bs = L ++ ⟨best, bsize, false⟩ :: R)
      (hle : total ≤ bsize) : Carve bs lim total (L ++ cut best bsize total ++ R) best lim
  | grow {bsize : ℕ} (hnone : ∀ b ∈ bs, b.alloc = false → b.size < total) (hle : total ≤ bsize) :
      Carve bs lim total (bs ++ cut lim bsize total) lim (lim+bsize)

/-- If `kmalloc` has to expand the heap, `expand_to` succeeds. -/
def ExpandsOk (vmm : ℕ → Bool) (h : Heap) (size : ℕ) : Prop :=
  size ≠ 0 → size ≤ heapMaxAlloc → h.firstFit (blockTotal size) = some 0 →
    (expandTo vmm h (h.limit + blockTotal size)).1 = true

section Kmalloc
variable {h : Heap} {bs : List Block} {fl : List ℕ}

theorem HeapInv.count (hi : HeapInv h bs fl) (n : ℕ) :
    HeapInv { h with heapAllocatedBytes := n } bs fl :=
  { hi with }

/-- What a call of `kmalloc` that returns `p` does to the layout. -/
structure KmallocEffect (vmm : ℕ → Bool) (h : Heap) (bs : List Block) (size : ℕ) (h' : Heap)
    (p : ℕ) (bs' : List Block) : Prop where
  heapStart : h'.heapStart = h.heapStart
  heapMaxSize : h'.heapMaxSize = h.heapMaxSize
  layout : (p = 0 ∧ bs' = bs ∧
      (ExpandsOk vmm h size → (size = 0 ∨ heapMaxAlloc < size) ∧ h' = h)) ∨
    ∃ best, p = best+32 ∧ size ≤ heapMaxAlloc ∧
      Carve bs h.limit (blockTotal size) bs' best h'.limit

/-- The size of the block that the search or the expansion finds for `total` bytes. -/
def fitSize (h : Heap) (total : ℕ) : ℕ :=
  match h.firstFit total with
  | none => 0
  | some best => if best = 0 then newBlockSize total else blkSize h.mem best

/-- The sum of the sizes of the allocated blocks. -/
def usedSize (bs : List Block) : ℕ := ((bs.filter (fun b => b.alloc)).map Block.size).sum

/-- What `kmalloc` counts, beside what it takes. A block too small to split is taken whole. -/
def KmallocCount (h : Heap) (bs : List Block) (size : ℕ) (h' : Heap) (p : ℕ)
    (bs' : List Block) : Prop :=
  (p = 0 ∧ h'.heapAllocatedBytes = h.heapAllocatedBytes) ∨
  (p ≠ 0 ∧ size ≠ 0 ∧ size ≤ heapMaxAlloc ∧
    h'.heapAllocatedBytes = (h.heapAllocatedBytes + blockTotal size) % 2^64 ∧
    usedSize bs' = usedSize bs + if blockTotal size + blockMinSize ≤ fitSize h (blockTotal size)
      then blockTotal size else fitSize h (blockTotal size))

theorem usedSize_append (L R : List Block) : usedSize (L ++ R) = usedSize L + usedSize R := by
  unfold usedSize
  rw [List.filter_append, List.map_append, List.sum_append]

theorem usedSize_cut (best bsize total : ℕ) : usedSize (cut best bsize total) =
    if total + blockMinSize ≤ bsize then total else bsize := by
  unfold cut
  split <;> rfl

/-- The allocated blocks keep all their bytes. -/
def AllocatedKept (bs : List Block) (m m' : Mem) : Prop :=
  ∀ b ∈ bs, b.alloc = true → ∀ x ∈ b.span, m' x = m x

/-- The links of the free list and the free blocks are no bytes of an allocated block. -/
theorem HeapInv.kept_of_sameOff (hi : HeapInv h bs fl) {S : Set ℕ} {m : Mem}
    (hoff : SameOff S h.mem m)
    (hS : ∀ x ∈ S, x ∈ linkBytes fl ∨ (∃ c ∈ bs, c.alloc = false ∧ x ∈ c.span) ∨ h.limit ≤ x) :
    AllocatedKept bs h.mem m := by
  intro b hb ha x hx
  apply hoff
  intro hxS
  have hbx : b.addr ≤ x ∧ x < b.fin := hx
  rcases hS x hxS with ⟨a, ha', h1, h2⟩ | ⟨c, hc, hcf, hcx⟩ | hlim
  · -- a link lies in the header of a free block
    obtain ⟨c, hc, rfl, hcf⟩ := (hi.free_iff a).mp ha'
    have hcmin := (hi.inside c hc).min
    have hfin : c.fin = c.addr + c.size := rfl
    rcases hi.apart hb hc with rfl | hbc | hbc
    · exact nomatch ha.symm.trans hcf
    · omega
    · omega
  · have hcx : c.addr ≤ x ∧ x < c.fin := hcx
    rcases hi.apart hb hc with rfl | hbc | hbc
    · exact nomatch ha.symm.trans hcf
    · omega
    · omega
  · have hend : b.fin ≤ h.limit := (hi.inside b hb).hi
    omega

/-- What `kmalloc` returns, does to the layout, counts, and leaves alone. -/
theorem kmalloc_full (hi : HeapInv h bs fl) (vmm : ℕ → Bool) (size : ℕ) :
    ∃ h' p bs' fl', kmalloc vmm h size = some (h', p) ∧ HeapInv h' bs' fl' ∧
      KmallocEffect vmm h bs size h' p bs' ∧ KmallocCount h bs size h' p bs' ∧
      AllocatedKept bs h.mem h'.mem := by
  by_cases hz : size = 0 ∨ heapMaxAlloc < size
  · exact ⟨h, 0, bs, fl, by rw [kmalloc, if_pos hz], hi, ⟨rfl, rfl,
      Or.inl ⟨rfl, rfl, fun _ => ⟨hz, rfl⟩⟩⟩, Or.inl ⟨rfl, rfl⟩, fun _ _ _ _ _ => rfl⟩
  have hsize : size ≤ heapMaxAlloc := by omega
  obtain ⟨ht64, ht16, -, -⟩ := blockTotal_spec hsize
  rcases hi.firstFit_cases (blockTotal size) with
    ⟨hff, hnone⟩ | ⟨L, R, best, bsize, rfl, hb0, hle, hff⟩
  · obtain ⟨k, hk, ⟨hfail, hgrow⟩ | ⟨m, hpages, hok, hgrow, hgi, hgoff⟩⟩ := growHeap_pages hi vmm
      (blockTotal size) (by omega)
    · refine ⟨{ h with heapMappedSize := h.heapMappedSize + k*4096 }, 0, bs, fl, ?_,
        hi.mapMore k hk, ⟨rfl, rfl, Or.inl ⟨rfl, rfl, ?_⟩⟩, Or.inl ⟨rfl, rfl⟩, fun _ _ _ _ _ => rfl⟩
      · simp only [kmalloc, if_neg hz, hff, if_true, hgrow]
      · intro he
        have := he (by omega) hsize hff
        rw [Heap.limit, hfail] at this
        cases this
    · have hkt : blockTotal size ≤ k*4096 := by
        unfold newBlockSize at hpages
        omega
      have hfit : fitSize h (blockTotal size) = k*4096 := by
        unfold fitSize
        rw [hff]
        exact hpages.symm
      obtain ⟨m', hd', fl', htake, hti, htoff⟩ := takeBlock_spec (R := []) hgi ht64 ht16
      have hkept : AllocatedKept bs h.mem m' := by
        have hgrown := hi.kept_of_sameOff hgoff (fun x hx => hx.imp_right Or.inr)
        have htaken := hgi.kept_of_sameOff htoff
          (fun x hx => hx.imp_right (fun hx => Or.inl ⟨_, by simp, rfl, hx⟩))
        intro b hb ha x hx
        exact (htaken b (List.mem_append_left _ hb) ha x hx).trans (hgrown b hb ha x hx)
      refine ⟨_, h.limit + 32, _, fl', ?_,
        hti.count ((h.heapAllocatedBytes + blockTotal size) % 2^64), ?_, ?_, hkept⟩
      · simp only [kmalloc, if_neg hz, hff, if_true, hgrow, Bool.true_eq_false, if_false, htake]
        rfl
      · rw [List.append_nil]
        refine ⟨rfl, rfl, Or.inr ⟨h.limit, rfl, hsize, ?_⟩⟩
        have hlim : h.limit + k*4096 = h.heapStart + (h.heapMappedSize + k*4096) := by
          simp only [Heap.limit]
          omega
        have hcarve : Carve bs h.limit (blockTotal size) _ h.limit (h.limit + k*4096) :=
          Carve.grow hnone hkt
        rw [hlim] at hcarve
        exact hcarve
      · refine Or.inr ⟨by omega, by omega, hsize, rfl, ?_⟩
        rw [List.append_nil, usedSize_append, usedSize_cut, hfit]
  · obtain ⟨m', hd', fl', htake, hti, htoff⟩ := takeBlock_spec hi ht64 ht16
    have hfit : fitSize h (blockTotal size) = bsize := by
      unfold fitSize
      rw [hff]
      dsimp only
      rw [if_neg hb0]
      exact hi.blkSize_eq (b := ⟨best, bsize, false⟩) (by simp)
    refine ⟨_, best+32, _, fl', ?_, hti.count ((h.heapAllocatedBytes + blockTotal size) % 2^64), ?_,
      ?_, hi.kept_of_sameOff htoff (fun x hx =>
        hx.imp_right (fun hx => Or.inl ⟨_, by simp, rfl, hx⟩))⟩
    · simp only [kmalloc, if_neg hz, hff, if_neg hb0, Bool.true_eq_false, if_false, htake]
      rfl
    · exact ⟨rfl, rfl, Or.inr ⟨best, rfl, hsize, Carve.fit rfl hle⟩⟩
    · refine Or.inr ⟨by omega, by omega, hsize, rfl, ?_⟩
      have hfree : usedSize (⟨best, bsize, false⟩ :: R) = usedSize R := rfl
      rw [usedSize_append, usedSize_append, usedSize_append, usedSize_cut, hfit, hfree]
      omega

theorem kmalloc_count (hi : HeapInv h bs fl) (vmm : ℕ → Bool) (size : ℕ) :
    ∃ h' p bs' fl', kmalloc vmm h size = some (h', p) ∧ HeapInv h' bs' fl' ∧
      KmallocEffect vmm h bs size h' p bs' ∧ KmallocCount h bs size h' p bs' := by
  obtain ⟨h', p, bs', fl', hk, hh, he, hcount, -⟩ := kmalloc_full hi vmm size
  exact ⟨h', p, bs', fl', hk, hh, he, hcount⟩

theorem kmalloc_spec (hi : HeapInv h bs fl) (vmm : ℕ → Bool) (size : ℕ) :
    ∃ h' p bs' fl', kmalloc vmm h size = some (h', p) ∧ HeapInv h' bs' fl' ∧
      KmallocEffect vmm h bs size h' p bs' := by
  obtain ⟨h', p, bs', fl', hk, hh, he, -⟩ := kmalloc_count hi vmm size
  exact ⟨h', p, bs', fl', hk, hh, he⟩

end Kmalloc

end SukiOS

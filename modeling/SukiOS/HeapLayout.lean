import SukiOS.Heap
import SukiOS.Lib.LinkedList

/-! The layout of a heap: its blocks in address order, the words that describe them,
and the free list threaded through the unallocated ones. -/
namespace SukiOS
open ByteMemory LinkedList MachineWord

structure Block where
  addr : ℕ
  size : ℕ
  alloc : Bool
deriving DecidableEq, Repr

def Block.fin (b : Block) : ℕ := b.addr + b.size

/-- The header word of a block. -/
def Block.tag (b : Block) : ℕ := b.size + if b.alloc then 2^63 else 0

/-- The header and footer words of `b`, the free-list links apart. -/
structure BlockWords (m : Mem) (b : Block) : Prop where
  tag : load64 m b.addr = b.tag
  magic : load64 m (b.addr+24) = magicValue
  footMagic : load64 m (b.fin-8) = magicValue
  footSize : load64 m (b.fin-16) = b.size

structure Block.Inside (b : Block) (lo hi : ℕ) : Prop where
  min : 64 ≤ b.size
  addr16 : b.addr % 16 = 0
  size16 : b.size % 16 = 0
  lo : lo ≤ b.addr
  hi : b.fin ≤ hi

/-- The header and footer bytes of a block. -/
def Block.meta (b : Block) : Set ℕ :=
  {x | (b.addr ≤ x ∧ x < b.addr+32) ∨ (b.fin-16 ≤ x ∧ x < b.fin)}

/-- All bytes of a block. -/
def Block.span (b : Block) : Set ℕ := {x | b.addr ≤ x ∧ x < b.fin}

/-- The free-list link bytes of the nodes `xs`. -/
def linkBytes (xs : List ℕ) : Set ℕ := {x | ∃ a ∈ xs, a+8 ≤ x ∧ x < a+24}

/-- Two list nodes are the same or their headers do not overlap. -/
def Sep (a b : ℕ) : Prop := a = b ∨ a+32 ≤ b ∨ b+32 ≤ a

/-- The doubly linked free list from `head` visits exactly `fl`. -/
structure FreeList (m : Mem) (head : ℕ) (fl : List ℕ) : Prop where
  linked : Linked (blkNextFree m) 0 head fl
  back : BackLinked (blkPrevFree m) 0 fl
  nodup : fl.Nodup
  sep : ∀ a ∈ fl, ∀ b ∈ fl, Sep a b
  lt : ∀ a ∈ fl, a < 2^64

structure HeapInv (h : Heap) (bs : List Block) (fl : List ℕ) : Prop where
  start_pos : 0 < h.heapStart
  start_align : h.heapStart % 4096 = 0
  mapped_align : h.heapMappedSize % 4096 = 0
  max_align : h.heapMaxSize % 4096 = 0
  mapped_le : h.heapMappedSize ≤ h.heapMaxSize
  no_wrap : h.heapStart + h.heapMaxSize ≤ 2^64 - 2^29
  max_lt : h.heapMaxSize < 2^63
  sorted : bs.Pairwise (fun a b => a.fin ≤ b.addr)
  inside : ∀ b ∈ bs, b.Inside h.heapStart (h.heapStart + h.heapMappedSize)
  words : ∀ b ∈ bs, BlockWords h.mem b
  list : FreeList h.mem h.freeListHead fl
  free_iff : ∀ a, a ∈ fl ↔ ∃ b ∈ bs, b.addr = a ∧ b.alloc = false

/-! ### Words of one block -/

theorem tag_lt {b : Block} (h : b.size < 2^63) : b.tag < 2^64 := by
  unfold Block.tag
  split <;> omega

theorem land_blockSizeMask_tag {b : Block} (h : b.size < 2^63) :
    b.tag &&& blockSizeMask = b.size := by
  rw [blockSizeMask, Nat.and_two_pow_sub_one_eq_mod, Block.tag]
  split <;> omega

theorem blkSize_of_tag {m : Mem} {b : Block} (hw : load64 m b.addr = b.tag)
    (h : b.size < 2^63) : blkSize m b.addr = b.size := by
  rw [blkSize, hw, land_blockSizeMask_tag h]

theorem blkIsAlloc_of_tag {m : Mem} {b : Block} (hw : load64 m b.addr = b.tag)
    (h : b.size < 2^63) : blkIsAlloc m b.addr = b.alloc := by
  rw [blkIsAlloc, hw, blockAllocated, Bool.eq_iff_iff, bne_iff_ne, land_two_pow_ne_zero, Block.tag]
  cases b.alloc <;> simp <;> omega

theorem sizeWord_eq_tag (a sz : ℕ) (alloc : Bool) (h : sz < 2^63) :
    (sz &&& blockSizeMask) ||| (if alloc then blockAllocated else 0) =
    (Block.mk a sz alloc).tag := by
  rw [blockSizeMask, Nat.and_two_pow_sub_one_eq_mod, Nat.mod_eq_of_lt h, Block.tag]
  cases alloc with
  | false => simp
  | true =>
    have ho := lor_eq_add 1 sz 63 h
    simp only [if_true, blockAllocated]
    rw [Nat.or_comm, ← one_mul (2^63), ho]
    omega

theorem BlockWords.congr {m m' : Mem} {b : Block} (hw : BlockWords m b) (h64 : 64 ≤ b.size)
    (he : ∀ x, (b.addr ≤ x ∧ x < b.addr+8) ∨ (b.addr+24 ≤ x ∧ x < b.addr+32) ∨
      (b.fin-16 ≤ x ∧ x < b.fin) → m' x = m x) : BlockWords m' b := by
  have hfin : b.fin = b.addr + b.size := rfl
  refine ⟨?_, ?_, ?_, ?_⟩
  · rw [load64_congr m m' _ (fun x h1 h2 => he x (by omega))]
    exact hw.tag
  · rw [load64_congr m m' _ (fun x h1 h2 => he x (by omega))]
    exact hw.magic
  · rw [load64_congr m m' _ (fun x h1 h2 => he x (by omega))]
    exact hw.footMagic
  · rw [load64_congr m m' _ (fun x h1 h2 => he x (by omega))]
    exact hw.footSize

/-- The bytes that formatting a block writes. -/
def formatBytes (a sz : ℕ) : Set ℕ :=
  {x | (a ≤ x ∧ x < a+8) ∨ (a+24 ≤ x ∧ x < a+32) ∨ (a+sz-16 ≤ x ∧ x < a+sz)}

theorem formatBlock_spec (m : Mem) (a sz : ℕ) (alloc : Bool) (h64 : 64 ≤ sz) (h : sz < 2^63) :
    BlockWords (formatBlock m a sz alloc) ⟨a, sz, alloc⟩ ∧
      SameOff (formatBytes a sz) m (formatBlock m a sz alloc) := by
  have htag := sizeWord_eq_tag a sz alloc h
  have htlt : (Block.mk a sz alloc).tag < 2^64 := tag_lt (b := ⟨a, sz, alloc⟩) h
  let m1 := blkSetSize m a sz alloc
  let m2 := blkSetMagic m1 a
  have h1 : load64 m1 a = (Block.mk a sz alloc).tag := by
    simp only [m1, blkSetSize]
    rw [load64_store64 _ _ _ (by rw [htag]; exact htlt), htag]
  have h2 : load64 m2 a = (Block.mk a sz alloc).tag := by
    simp only [m2, blkSetMagic]
    rw [load64_store64_of_disjoint _ _ _ _ (by omega), h1]
  have hsz : blkSize m2 a = sz := blkSize_of_tag (b := ⟨a, sz, alloc⟩) h2 h
  have hform : formatBlock m a sz alloc =
      store64 (store64 m2 (a+sz-8) magicValue) (a+sz-16) sz := by
    change setFooter m2 a = _
    simp only [setFooter, hsz]
  rw [hform]
  refine ⟨⟨?_, ?_, ?_, ?_⟩, ?_⟩
  · simp only
    rw [load64_store64_of_disjoint _ _ _ _ (by omega),
      load64_store64_of_disjoint _ _ _ _ (by omega), h2]
  · simp only
    rw [load64_store64_of_disjoint _ _ _ _ (by omega),
      load64_store64_of_disjoint _ _ _ _ (by omega)]
    exact load64_store64 _ _ _ (by decide)
  · simp only [Block.fin]
    rw [load64_store64_of_disjoint _ _ _ _ (by omega)]
    exact load64_store64 _ _ _ (by decide)
  · simp only [Block.fin]
    exact load64_store64 _ _ _ (by omega)
  · intro x hx
    simp only [formatBytes, Set.mem_ofPred_eq] at hx
    have hout (m' : Mem) (b v : ℕ) (hb : x < b ∨ b+8 ≤ x) : store64 m' b v x = m' x :=
      store64_sameOff m' b v x (fun hm => by have h1 := hm.1; have h2 := hm.2; omega)
    simp only [m2, m1, blkSetMagic, blkSetSize]
    rw [hout _ _ _ (by omega), hout _ _ _ (by omega), hout _ _ _ (by omega),
      hout _ _ _ (by omega)]

/-! ### Link words -/

section Links
variable {m : Mem} {a y v : ℕ}

theorem mem_linkBytes_cons {xs : List ℕ} :
    y ∈ linkBytes (a::xs) ↔ (a+8 ≤ y ∧ y < a+24) ∨ y ∈ linkBytes xs := by
  constructor
  · rintro ⟨b, hb, h⟩
    rcases List.mem_cons.mp hb with rfl | hb
    · exact Or.inl h
    · exact Or.inr ⟨b, hb, h⟩
  · rintro (h | ⟨b, hb, h⟩)
    · exact ⟨a, List.mem_cons_self, h⟩
    · exact ⟨b, List.mem_cons_of_mem a hb, h⟩

/-- A word written at offset `o` of one header, read at offset `o` of another. -/
theorem load64_store64_field {o : ℕ} (hs : Sep y a) (hv : v < 2^64) :
    load64 (store64 m (a+o) v) (y+o) = if y = a then v else load64 m (y+o) := by
  unfold Sep at hs
  by_cases h : y = a
  · rw [if_pos h, h, load64_store64 _ _ _ hv]
  · rw [if_neg h]
    exact load64_store64_of_disjoint _ _ _ _ (by omega)

/-- A word written at offset `p` of one header, read at another offset `o` of the same or another.
-/
theorem load64_store64_other {o p : ℕ} (hs : Sep y a) (ho : o+8 ≤ 32) (hp : p+8 ≤ 32)
    (hne : o+8 ≤ p ∨ p+8 ≤ o) : load64 (store64 m (a+p) v) (y+o) = load64 m (y+o) := by
  unfold Sep at hs
  exact load64_store64_of_disjoint _ _ _ _ (by omega)

theorem blkNextFree_setNextFree (hs : Sep y a) (hv : v < 2^64) :
    blkNextFree (blkSetNextFree m a v) y = if y = a then v else blkNextFree m y :=
  load64_store64_field hs hv

theorem blkNextFree_setPrevFree (hs : Sep y a) :
    blkNextFree (blkSetPrevFree m a v) y = blkNextFree m y :=
  load64_store64_other hs (by decide) (by decide) (by decide)

theorem blkPrevFree_setPrevFree (hs : Sep y a) (hv : v < 2^64) :
    blkPrevFree (blkSetPrevFree m a v) y = if y = a then v else blkPrevFree m y :=
  load64_store64_field hs hv

theorem blkPrevFree_setNextFree (hs : Sep y a) :
    blkPrevFree (blkSetNextFree m a v) y = blkPrevFree m y :=
  load64_store64_other hs (by decide) (by decide) (by decide)

theorem setNextFree_sameOff (xs : List ℕ) (ha : a ∈ xs) :
    SameOff (linkBytes xs) m (blkSetNextFree m a v) :=
  (store64_sameOff m (a+16) v).mono (fun x hx => ⟨a, ha, by have := hx.1; omega, by
    have := hx.2; omega⟩)

theorem setPrevFree_sameOff (xs : List ℕ) (ha : a ∈ xs) :
    SameOff (linkBytes xs) m (blkSetPrevFree m a v) :=
  (store64_sameOff m (a+8) v).mono (fun x hx => ⟨a, ha, by have := hx.1; omega, by
    have := hx.2; omega⟩)

end Links

end SukiOS

import SukiOS.HeapAlloc
import SukiOS.Lib.Transition

/-! Runs of the heap: kernel code that allocates, frees and writes into the payloads it
holds, with any pattern of success and failure of `vmm_alloc_map`. -/
namespace SukiOS
open ByteMemory Transition

/-- The heap and its users: `live` holds the pointers in use with the requested sizes,
`returned` every pointer ever handed out. -/
structure Client where
  heap : Heap
  live : List (ℕ × ℕ)
  returned : List ℕ

inductive HeapOp
  | kmalloc (vmm : ℕ → Bool) (size : ℕ)
  | kfree (ptr : ℕ)
  | krealloc (vmm : ℕ → Bool) (ptr size : ℕ)
  | kcalloc (vmm : ℕ → Bool) (nmemb size : ℕ)
  | write (addr : ℕ) (b : Byte)

namespace Client

def Holds (s : Client) (ptr : ℕ) : Prop := ptr = 0 ∨ ptr ∈ s.live.map Prod.fst

/-- Record the result of an allocation. -/
def grant (s : Client) (h : Heap) (p n : ℕ) : Client :=
  if p = 0 then { s with heap := h }
  else { heap := h, live := (p, n) :: s.live, returned := p :: s.returned }

def release (s : Client) (ptr : ℕ) : Client :=
  { s with live := s.live.filter (fun q => q.1 ≠ ptr) }

/-- The payload size of the block behind a pointer. -/
def payload (s : Client) (ptr : ℕ) : ℕ := blkSize s.heap.mem (ptr-blockHeaderSize) - blockMetaSize

inductive Step (s : Client) : HeapOp → Client → Prop
  | kmalloc {vmm : ℕ → Bool} {size p : ℕ} {h : Heap}
      (he : SukiOS.kmalloc vmm s.heap size = some (h, p)) :
      Step s (.kmalloc vmm size) (s.grant h p size)
  | kfree {ptr : ℕ} (hp : s.Holds ptr) :
      Step s (.kfree ptr) ({ s with heap := SukiOS.kfree s.heap ptr }.release ptr)
  /-- A failed `krealloc` leaves the old pointer in use. -/
  | krealloc {vmm : ℕ → Bool} {ptr size p : ℕ} {h : Heap} (hp : s.Holds ptr)
      (he : SukiOS.krealloc vmm s.heap ptr size = some (h, p)) :
      Step s (.krealloc vmm ptr size)
        (if p = 0 ∧ size ≠ 0 then { s with heap := h } else (s.release ptr).grant h p size)
  | kcalloc {vmm : ℕ → Bool} {nmemb size p : ℕ} {h : Heap}
      (he : SukiOS.kcalloc vmm s.heap nmemb size = some (h, p)) :
      Step s (.kcalloc vmm nmemb size) (s.grant h p (nmemb*size))
  | write {a : ℕ} {b : Byte} {q : ℕ × ℕ} (hq : q ∈ s.live) (h1 : q.1 ≤ a)
      (h2 : a < q.1 + s.payload q.1) :
      Step s (.write a b) { s with heap := { s.heap with mem := Function.update s.heap.mem a b } }

end Client

/-- Every `expand_to` call of the operation succeeds. -/
def HeapOp.ExpandsOk (s : Client) : HeapOp → Prop
  | .kmalloc vmm size => SukiOS.ExpandsOk vmm s.heap size
  | .krealloc vmm ptr size => ptr = 0 ∨ s.payload ptr < size → SukiOS.ExpandsOk vmm s.heap size
  | .kcalloc vmm nmemb size => nmemb ≠ 0 → size ≠ 0 → size ≤ heapMaxAlloc / nmemb →
      SukiOS.ExpandsOk vmm s.heap (nmemb*size)
  | _ => True

/-- The heap as `init_kernel` sets it up, and every run of its users. -/
def heapSystem : System Client HeapOp where
  init s := ∃ vmm m, s = ⟨heapInit vmm m vmmHeapBase vmmHeapSize, [], []⟩
  step s op s' := Client.Step s op s'

/-- The invariant of the runs over the blocks `bs` and the free list `fl`. -/
structure ClientInv (s : Client) (bs : List Block) (fl : List ℕ) : Prop where
  heap : HeapInv s.heap bs fl
  returned_iff : ∀ p, p ∈ s.returned ↔ ∃ b ∈ bs, b.addr+32 = p ∧ b.alloc = true
  fits : ∀ q ∈ s.live, ∃ b ∈ bs, b.addr+32 = q.1 ∧ b.alloc = true ∧ q.2+48 ≤ b.size
  nodup : (s.live.map Prod.fst).Nodup

/-! ### The operations on allocated blocks -/

section Allocated
variable {h : Heap} {bs : List Block} {fl : List ℕ} {b : Block}

/-- `set_footer` stores the size without the flag that `check_footer` compares with, so
the integrity check rejects every allocated block and `kfree` returns early. -/
theorem kfree_of_alloc (hi : HeapInv h bs fl) (hb : b ∈ bs) (ha : b.alloc = true) :
    kfree h (b.addr+32) = h := by
  have hw := hi.words b hb
  have hin := hi.inside b hb
  have hlo := hin.lo
  have hmin := hin.min
  have hhi : b.addr + b.size ≤ _ := hin.hi
  have hcheck : checkFooter h.mem b.addr = false := by
    have hne : b.size ≠ b.tag := by
      rw [Block.tag, ha, if_pos rfl]
      omega
    have hfoot : load64 h.mem (b.addr + b.size - 16) = b.size := hw.footSize
    rw [checkFooter, hi.blkSize_eq hb, hfoot, hw.tag, beq_eq_false_iff_ne.mpr hne, Bool.and_false]
  simp only [kfree, blockHeaderSize, Nat.add_sub_cancel]
  rw [if_neg (by omega), if_neg (by omega), if_pos (Or.inr hcheck)]

theorem kfree_null (h : Heap) : kfree h 0 = h := if_pos rfl

/-- Writes inside the payload of an allocated block keep the layout. -/
theorem HeapInv.write_payload (hi : HeapInv h bs fl) (hb : b ∈ bs) {m : Mem}
    (hoff : SameOff {x | b.addr+32 ≤ x ∧ x < b.fin-16} h.mem m) :
    HeapInv { h with mem := m } bs fl := by
  apply hi.of_mem
  intro c hc x hx
  apply hoff
  rintro ⟨h1, h2⟩
  have hbmin := (hi.inside b hb).min
  have hcmin := (hi.inside c hc).min
  have hbfin : b.fin = b.addr + b.size := rfl
  have hcfin : c.fin = c.addr + c.size := rfl
  simp only [Block.meta, Set.mem_ofPred_eq] at hx
  rcases hi.apart hb hc with rfl | hbc | hbc
  · omega
  · omega
  · omega

end Allocated

/-! ### The block that `kmalloc` hands out -/

section Carve
variable {bs bs' : List Block} {lim total best lim' : ℕ}

theorem mem_cut_alloc {bsize : ℕ} {b : Block} (hle : total ≤ bsize) (hb : b ∈ cut best bsize total)
    (ha : b.alloc = true) : b.addr = best ∧ total ≤ b.size := by
  unfold cut at hb
  split at hb
  · simp only [List.mem_cons, List.not_mem_nil, or_false] at hb
    rcases hb with rfl | rfl
    · exact ⟨rfl, le_rfl⟩
    · cases ha
  · rw [List.mem_singleton.mp hb]
    exact ⟨rfl, hle⟩

theorem exists_mem_cut (best bsize total : ℕ) :
    ∃ b ∈ cut best bsize total, b.addr = best ∧ b.alloc = true := by
  unfold cut
  split
  · exact ⟨_, List.mem_cons_self, rfl, rfl⟩
  · exact ⟨_, List.mem_cons_self, rfl, rfl⟩

/-- The allocated blocks after `kmalloc` are those before it and the one handed out. -/
theorem Carve.alloc_iff (hc : Carve bs lim total bs' best lim') (b : Block) (ha : b.alloc = true) :
    (b ∈ bs → b ∈ bs') ∧ (b ∈ bs' → b ∈ bs ∨ (b.addr = best ∧ total ≤ b.size)) := by
  cases hc with
  | @fit L R _ bsize hbs hle =>
    subst hbs
    simp only [List.mem_append, List.mem_cons]
    constructor
    · rintro (hb | rfl | hb)
      · exact Or.inl (Or.inl hb)
      · cases ha
      · exact Or.inr hb
    · rintro ((hb | hb) | hb)
      · exact Or.inl (Or.inl hb)
      · exact Or.inr (mem_cut_alloc hle hb ha)
      · exact Or.inl (Or.inr (Or.inr hb))
  | @grow bsize hnone hle =>
    simp only [List.mem_append]
    constructor
    · exact Or.inl
    · rintro (hb | hb)
      · exact Or.inl hb
      · exact Or.inr (mem_cut_alloc hle hb ha)

theorem Carve.exists_taken (hc : Carve bs lim total bs' best lim') :
    ∃ b ∈ bs', b.addr = best ∧ b.alloc = true ∧ total ≤ b.size := by
  cases hc with
  | @fit L R _ bsize hbs hle =>
    obtain ⟨b, hb, hba, hbt⟩ := exists_mem_cut best bsize total
    exact ⟨b, by simp [hb], hba, hbt, (mem_cut_alloc hle hb hbt).2⟩
  | @grow bsize hnone hle =>
    obtain ⟨b, hb, hba, hbt⟩ := exists_mem_cut lim bsize total
    exact ⟨b, by simp [hb], hba, hbt, (mem_cut_alloc hle hb hbt).2⟩

theorem Carve.best_cases (hc : Carve bs lim total bs' best lim') :
    (∃ bsize, ⟨best, bsize, false⟩ ∈ bs) ∨
      (best = lim ∧ ∀ b ∈ bs, b.alloc = false → b.size < total) := by
  cases hc with
  | @fit L R _ bsize hbs hle => exact Or.inl ⟨bsize, by simp [hbs]⟩
  | @grow bsize hnone hle => exact Or.inr ⟨rfl, hnone⟩

/-- The pointer handed out is none of those handed out before. -/
theorem Carve.fresh {h : Heap} {fl : List ℕ} (hi : HeapInv h bs fl)
    (hc : Carve bs h.limit total bs' best lim') {b : Block} (hb : b ∈ bs) (ha : b.alloc = true) :
    b.addr ≠ best := by
  intro he
  rcases hc.best_cases with ⟨bsize, hbest⟩ | ⟨hlim, -⟩
  · rw [hi.eq_of_addr hb hbest he] at ha
    cases ha
  · have hin := hi.inside b hb
    have hmin := hin.min
    have hhi : b.addr + b.size ≤ h.heapStart + h.heapMappedSize := hin.hi
    unfold Heap.limit at hlim
    omega

end Carve

/-! ### The invariant along a run -/

section Steps
variable {s : Client} {bs bs' : List Block} {fl fl' : List ℕ}

/-- Replace the heap by one with the same blocks. -/
theorem ClientInv.withHeap (hi : ClientInv s bs fl) {h : Heap} (hh : HeapInv h bs fl') :
    ClientInv { s with heap := h } bs fl' :=
  { hi with heap := hh }

theorem ClientInv.release (hi : ClientInv s bs fl) (ptr : ℕ) : ClientInv (s.release ptr) bs fl := by
  refine { hi with fits := ?_, nodup := ?_ }
  · exact fun q hq => hi.fits q (List.mem_filter.mp hq).1
  · exact hi.nodup.sublist (List.filter_sublist.map Prod.fst)

/-- The block behind a live pointer. -/
theorem ClientInv.live_block (hi : ClientInv s bs fl) {ptr : ℕ} (hp : ptr ∈ s.live.map Prod.fst) :
    ∃ b ∈ bs, b.addr+32 = ptr ∧ b.alloc = true := by
  obtain ⟨q, hq, rfl⟩ := List.mem_map.mp hp
  obtain ⟨b, hb, hba, hbt, -⟩ := hi.fits q hq
  exact ⟨b, hb, hba, hbt⟩

theorem ClientInv.grant (hi : ClientInv s bs fl) {vmm : ℕ → Bool} {size p : ℕ} {h : Heap}
    (hh : HeapInv h bs' fl') (he : KmallocEffect vmm s.heap bs size h p bs') :
    ClientInv (s.grant h p size) bs' fl' := by
  rcases he.layout with ⟨rfl, rfl, -⟩ | ⟨best, rfl, hsize, hc⟩
  · rw [Client.grant, if_pos rfl]
    exact hi.withHeap hh
  · rw [Client.grant, if_neg (by omega)]
    have hts := (blockTotal_spec hsize).2.2.1
    have hnew := hc.exists_taken
    refine ⟨hh, ?_, ?_, ?_⟩
    · intro p
      rw [List.mem_cons, hi.returned_iff]
      constructor
      · rintro (rfl | ⟨b, hb, hbp, hbt⟩)
        · obtain ⟨b, hb, hba, hbt, -⟩ := hnew
          exact ⟨b, hb, by omega, hbt⟩
        · exact ⟨b, (hc.alloc_iff b hbt).1 hb, hbp, hbt⟩
      · rintro ⟨b, hb, hbp, hbt⟩
        rcases (hc.alloc_iff b hbt).2 hb with hb | ⟨hb, -⟩
        · exact Or.inr ⟨b, hb, hbp, hbt⟩
        · exact Or.inl (by omega)
    · intro q hq
      rcases List.mem_cons.mp hq with rfl | hq
      · obtain ⟨b, hb, hba, hbt, hbs⟩ := hnew
        exact ⟨b, hb, by simp only; omega, hbt, by simp only; omega⟩
      · obtain ⟨b, hb, hbp, hbt, hbs⟩ := hi.fits q hq
        exact ⟨b, (hc.alloc_iff b hbt).1 hb, hbp, hbt, hbs⟩
    · rw [List.map_cons]
      refine List.nodup_cons.mpr ⟨?_, hi.nodup⟩
      intro hm
      obtain ⟨b, hb, hbp, hbt⟩ := hi.live_block hm
      have hne := hc.fresh hi.heap hb hbt
      simp only at hbp
      omega

theorem ClientInv.kfree (hi : ClientInv s bs fl) {ptr : ℕ} (hp : s.Holds ptr) :
    kfree s.heap ptr = s.heap := by
  rcases hp with rfl | hp
  · exact kfree_null _
  · obtain ⟨b, hb, rfl, hbt⟩ := hi.live_block hp
    exact kfree_of_alloc hi.heap hb hbt

/-- `krealloc` on an allocated block, by what `kmalloc` returns. -/
theorem krealloc_of_alloc {hp : Heap} (hi : HeapInv hp bs fl) {b : Block} (hb : b ∈ bs)
    {vmm : ℕ → Bool} {size p : ℕ} {h : Heap} (hk : kmalloc vmm hp size = some (h, p)) :
    krealloc vmm hp (b.addr+32) size =
      if size = 0 then some (SukiOS.kfree hp (b.addr+32), 0)
      else if size ≤ b.size - 48 then some (hp, b.addr+32)
      else if p = 0 then some (h, 0)
      else some (SukiOS.kfree { h with mem := copy h.mem p (b.addr+32) (b.size-48) }
        (b.addr+32), p) := by
  have hmag : blkMagic hp.mem b.addr = magicValue := (hi.words b hb).magic
  have hnull : ¬ b.addr + 32 = 0 := by omega
  simp only [SukiOS.krealloc, blockHeaderSize, blockMetaSize, blockFooterSize,
    Nat.add_sub_cancel, hmag, ne_eq, not_true_eq_false, if_false, hi.blkSize_eq hb, hk]
  exact (if_neg hnull).trans rfl

theorem ClientInv.payload_eq (hi : ClientInv s bs fl) {b : Block} (hb : b ∈ bs) :
    s.payload (b.addr+32) = b.size - 48 := by
  simp only [Client.payload, blockHeaderSize, blockMetaSize, blockFooterSize, Nat.add_sub_cancel,
    hi.heap.blkSize_eq hb]

/-- The outcomes of `krealloc` on a pointer in use: the pointer itself, or what `kmalloc`
returns, with the payload copied. -/
theorem ClientInv.krealloc_count (hi : ClientInv s bs fl) (vmm : ℕ → Bool) {ptr : ℕ} (size : ℕ)
    (hp : s.Holds ptr) :
    ∃ h p bs' fl', krealloc vmm s.heap ptr size = some (h, p) ∧ HeapInv h bs' fl' ∧
      ((h = s.heap ∧ bs' = bs ∧ size = 0 ∧ p = 0 ∧ ptr ≠ 0) ∨
        (h = s.heap ∧ bs' = bs ∧ p = ptr ∧ ptr ≠ 0 ∧ size ≤ s.payload ptr ∧
          ∃ b ∈ bs, b.addr+32 = ptr ∧ size+48 ≤ b.size) ∨
        ((ptr = 0 ∨ s.payload ptr < size) ∧ KmallocEffect vmm s.heap bs size h p bs' ∧
          KmallocCount s.heap bs size h p bs')) := by
  rcases hp with rfl | hp
  · obtain ⟨h, p, bs', fl', hk, hh, he, hcount⟩ := kmalloc_count hi.heap vmm size
    exact ⟨h, p, bs', fl', by rw [SukiOS.krealloc, if_pos rfl, hk], hh,
      Or.inr (Or.inr ⟨Or.inl rfl, he, hcount⟩)⟩
  obtain ⟨b, hb, rfl, hbt⟩ := hi.live_block hp
  have hmin := (hi.heap.inside b hb).min
  obtain ⟨h, p, bs', fl', hk, hh, he, hcount⟩ := kmalloc_count hi.heap vmm size
  have hpayload := hi.payload_eq hb
  rw [krealloc_of_alloc hi.heap hb hk, kfree_of_alloc hi.heap hb hbt]
  by_cases hz : size = 0
  · rw [if_pos hz]
    exact ⟨s.heap, 0, bs, fl, rfl, hi.heap, Or.inl ⟨rfl, rfl, hz, rfl, by omega⟩⟩
  rw [if_neg hz]
  by_cases hfit : size ≤ b.size - 48
  · rw [if_pos hfit]
    exact ⟨s.heap, b.addr+32, bs, fl, rfl, hi.heap,
      Or.inr (Or.inl ⟨rfl, rfl, rfl, by omega, by omega, b, hb, rfl, by omega⟩)⟩
  rw [if_neg hfit]
  have hpay : s.payload (b.addr+32) < size := by omega
  -- a block that is too small moves: `kmalloc`, copy, and a `kfree` that frees nothing
  rcases he.layout with ⟨rfl, -, -⟩ | ⟨best, rfl, hsize, hc⟩
  · exact ⟨h, 0, bs', fl', rfl, hh, Or.inr (Or.inr ⟨Or.inr hpay, he, hcount⟩)⟩
  · have hts := (blockTotal_spec hsize).2.2.1
    obtain ⟨c, hc', rfl, hct, hcs⟩ := hc.exists_taken
    have hcopy : HeapInv { h with mem := copy h.mem (c.addr+32) (b.addr+32) (b.size-48) } bs'
      fl' := by
      apply hh.write_payload hc'
      refine (copy_sameOff _ _ _ _).mono (fun x hx => ?_)
      have h1 := hx.1
      have h2 := hx.2
      have hfin : c.fin = c.addr + c.size := rfl
      exact ⟨by omega, by omega⟩
    have hb' := (hc.alloc_iff b hbt).1 hb
    refine ⟨{ h with mem := copy h.mem (c.addr+32) (b.addr+32) (b.size-48) }, c.addr+32, bs', fl',
      ?_, hcopy, Or.inr (Or.inr ⟨Or.inr hpay, ⟨he.heapStart, he.heapMaxSize,
        Or.inr ⟨c.addr, rfl, hsize, hc⟩⟩, hcount⟩)⟩
    simp only [Nat.add_eq_zero_iff, OfNat.ofNat_ne_zero, and_false, if_false]
    rw [kfree_of_alloc hcopy hb' hbt]

theorem ClientInv.kcalloc_count (hi : ClientInv s bs fl) (vmm : ℕ → Bool) (nmemb size : ℕ) :
    ∃ h p bs' fl', kcalloc vmm s.heap nmemb size = some (h, p) ∧ HeapInv h bs' fl' ∧
      ((p = 0 ∧ h = s.heap ∧ bs' = bs ∧
          ¬ (nmemb ≠ 0 ∧ size ≠ 0 ∧ size ≤ heapMaxAlloc / nmemb)) ∨
        (nmemb ≠ 0 ∧ size ≠ 0 ∧ size ≤ heapMaxAlloc / nmemb ∧
          KmallocEffect vmm s.heap bs (nmemb*size) h p bs' ∧
          KmallocCount s.heap bs (nmemb*size) h p bs')) := by
  by_cases hz : nmemb = 0 ∨ size = 0
  · exact ⟨s.heap, 0, bs, fl, by rw [SukiOS.kcalloc, if_pos hz], hi.heap,
      Or.inl ⟨rfl, rfl, rfl, fun h => hz.elim h.1 h.2.1⟩⟩
  by_cases hbig : heapMaxAlloc / nmemb < size
  · exact ⟨s.heap, 0, bs, fl, by rw [SukiOS.kcalloc, if_neg hz, if_pos hbig], hi.heap,
      Or.inl ⟨rfl, rfl, rfl, fun h => absurd h.2.2 (by omega)⟩⟩
  obtain ⟨h, p, bs', fl', hk, hh, he, hcount⟩ := kmalloc_count hi.heap vmm (nmemb*size)
  rw [SukiOS.kcalloc, if_neg hz, if_neg hbig, hk]
  rcases he.layout with ⟨rfl, -, -⟩ | ⟨best, rfl, hsize, hc⟩
  · exact ⟨h, 0, bs', fl', rfl, hh, Or.inr ⟨by omega, by omega, by omega, he, hcount⟩⟩
  · have hts := (blockTotal_spec hsize).2.2.1
    obtain ⟨c, hc', rfl, hct, hcs⟩ := hc.exists_taken
    have hfill : HeapInv { h with mem := fill h.mem (c.addr+32) 0#8 (nmemb*size) } bs' fl' := by
      apply hh.write_payload hc'
      refine (fill_sameOff _ _ _ _).mono (fun x hx => ?_)
      have h1 := hx.1
      have h2 := hx.2
      have hfin : c.fin = c.addr + c.size := rfl
      exact ⟨by omega, by omega⟩
    refine ⟨{ h with mem := fill h.mem (c.addr+32) 0#8 (nmemb*size) }, c.addr+32, bs', fl', ?_,
      hfill,
      Or.inr ⟨by omega, by omega, by omega, ⟨he.heapStart, he.heapMaxSize,
        Or.inr ⟨c.addr, rfl, hsize, hc⟩⟩, hcount⟩⟩
    simp only [Nat.add_eq_zero_iff, OfNat.ofNat_ne_zero, and_false, if_false]

/-- A live pointer that `krealloc` keeps. -/
theorem ClientInv.regrant (hi : ClientInv s bs fl) {ptr size : ℕ} (h0 : ptr ≠ 0) {b : Block}
    (hb : b ∈ bs) (hbp : b.addr+32 = ptr) (hbt : b.alloc = true) (hbs : size+48 ≤ b.size) :
    ClientInv ((s.release ptr).grant s.heap ptr size) bs fl := by
  have hr := hi.release ptr
  rw [Client.grant, if_neg h0]
  refine ⟨hi.heap, ?_, ?_, ?_⟩
  · intro p
    rw [List.mem_cons]
    constructor
    · rintro (rfl | hp)
      · exact ⟨b, hb, hbp, hbt⟩
      · exact (hi.returned_iff p).mp hp
    · exact fun hp => Or.inr ((hi.returned_iff p).mpr hp)
  · intro q hq
    rcases List.mem_cons.mp hq with rfl | hq
    · exact ⟨b, hb, hbp, hbt, hbs⟩
    · exact hr.fits q hq
  · rw [List.map_cons]
    refine List.nodup_cons.mpr ⟨?_, hr.nodup⟩
    intro hm
    obtain ⟨q, hq, hqp⟩ := List.mem_map.mp hm
    have hne := (List.mem_filter.mp hq).2
    simp only [ne_eq, decide_eq_true_eq] at hne
    exact hne hqp

/-- What one step of a run does to the layout: nothing, or it carves one block. -/
structure StepEffect (s : Client) (op : HeapOp) (bs : List Block) (s' : Client)
    (bs' : List Block) : Prop where
  heapStart : s'.heap.heapStart = s.heap.heapStart
  heapMaxSize : s'.heap.heapMaxSize = s.heap.heapMaxSize
  layout : (bs' = bs ∧ (op.ExpandsOk s → s'.heap.limit = s.heap.limit)) ∨
    ∃ total best, Carve bs s.heap.limit total bs' best s'.heap.limit

theorem StepEffect.of_heap {op : HeapOp} {s' : Client} (h0 : s'.heap.heapStart = s.heap.heapStart)
    (h1 : s'.heap.heapMaxSize = s.heap.heapMaxSize)
    (h2 : s'.heap.heapMappedSize = s.heap.heapMappedSize) : StepEffect s op bs s' bs :=
  ⟨h0, h1, Or.inl ⟨rfl, fun _ => by rw [Heap.limit, Heap.limit, h0, h2]⟩⟩

theorem StepEffect.of_kmalloc {op : HeapOp} {s' : Client} {vmm : ℕ → Bool} {size p : ℕ}
    (he : KmallocEffect vmm s.heap bs size s'.heap p bs')
    (hok : op.ExpandsOk s → SukiOS.ExpandsOk vmm s.heap size) : StepEffect s op bs s' bs' := by
  refine ⟨he.heapStart, he.heapMaxSize, ?_⟩
  rcases he.layout with ⟨-, hbs, h⟩ | ⟨best, -, -, hc⟩
  · exact Or.inl ⟨hbs, fun ho => by rw [(h (hok ho)).2]⟩
  · exact Or.inr ⟨_, best, hc⟩

/-- The size that an operation asks `kmalloc` for; 0 when it does not call it. -/
def HeapOp.request (s : Client) : HeapOp → ℕ
  | .kmalloc _ size => size
  | .krealloc _ ptr size => if ptr = 0 ∨ s.payload ptr < size then size else 0
  | .kcalloc _ nmemb size =>
    if nmemb ≠ 0 ∧ size ≠ 0 ∧ size ≤ heapMaxAlloc / nmemb then nmemb*size else 0
  | _ => 0

/-- What one step counts: nothing, or the request. -/
def StepCount (s : Client) (op : HeapOp) (bs : List Block) (s' : Client) (bs' : List Block) :
    Prop :=
  (s'.heap.heapAllocatedBytes = s.heap.heapAllocatedBytes ∧ usedSize bs' = usedSize bs ∧
    (op.ExpandsOk s → op.request s = 0 ∨ heapMaxAlloc < op.request s)) ∨
  (op.request s ≠ 0 ∧ op.request s ≤ heapMaxAlloc ∧
    s'.heap.heapAllocatedBytes =
      (s.heap.heapAllocatedBytes + blockTotal (op.request s)) % 2^64 ∧
    usedSize bs' = usedSize bs +
      if blockTotal (op.request s) + blockMinSize ≤ fitSize s.heap (blockTotal (op.request s))
      then blockTotal (op.request s) else fitSize s.heap (blockTotal (op.request s)))

theorem StepCount.of_heap {op : HeapOp} {s' : Client}
    (h : s'.heap.heapAllocatedBytes = s.heap.heapAllocatedBytes) (hn : op.request s = 0) :
    StepCount s op bs s' bs := Or.inl ⟨h, rfl, fun _ => Or.inl hn⟩

theorem StepCount.of_kmalloc {op : HeapOp} {s' : Client} {vmm : ℕ → Bool} {size p : ℕ}
    (he : KmallocEffect vmm s.heap bs size s'.heap p bs')
    (hc : KmallocCount s.heap bs size s'.heap p bs')
    (hok : op.ExpandsOk s → SukiOS.ExpandsOk vmm s.heap size) (hn : op.request s = size) :
    StepCount s op bs s' bs' := by
  subst hn
  rcases hc with ⟨hp, hcount⟩ | ⟨-, h0, hmax, hcount, hused⟩
  · rcases he.layout with ⟨-, rfl, hfail⟩ | ⟨best, hbest, -, -⟩
    · exact Or.inl ⟨hcount, rfl, fun ho => (hfail (hok ho)).1⟩
    · exact absurd hbest (by omega)
  · exact Or.inr ⟨h0, hmax, hcount, hused⟩

theorem grant_heap (s : Client) (h : Heap) (p n : ℕ) : (s.grant h p n).heap = h := by
  unfold Client.grant
  split <;> rfl

theorem grant_null (s : Client) (n : ℕ) : s.grant s.heap 0 n = s := if_pos rfl

/-- One step of a run keeps the invariant, and what it does to the layout and the counter. -/
theorem client_step_count (hi : ClientInv s bs fl) {op : HeapOp} {s' : Client}
    (hs : Client.Step s op s') :
    ∃ bs' fl', ClientInv s' bs' fl' ∧ StepEffect s op bs s' bs' ∧ StepCount s op bs s' bs' := by
  cases hs with
  | @kmalloc vmm size p h he =>
    obtain ⟨h1, p1, bs', fl', hk, hh, hef, hcount⟩ := kmalloc_count hi.heap vmm size
    obtain ⟨rfl, rfl⟩ : h1 = h ∧ p1 = p := by simpa using hk.symm.trans he
    have hheap := grant_heap s h1 p1 size
    rw [← hheap] at hef hcount
    exact ⟨bs', fl', hi.grant hh (hheap ▸ hef), StepEffect.of_kmalloc hef id,
      StepCount.of_kmalloc hef hcount id rfl⟩
  | @kfree ptr hp =>
    rw [hi.kfree hp]
    exact ⟨bs, fl, hi.release ptr, StepEffect.of_heap rfl rfl rfl, StepCount.of_heap rfl rfl⟩
  | @krealloc vmm ptr size p h hp he =>
    obtain ⟨h1, p1, bs', fl', hk, hh, hcase⟩ := hi.krealloc_count vmm size hp
    obtain ⟨rfl, rfl⟩ : h1 = h ∧ p1 = p := by simpa using hk.symm.trans he
    -- size 0, a block that is large enough already, or a new block
    rcases hcase with ⟨rfl, rfl, rfl, rfl, h0⟩ | ⟨rfl, rfl, rfl, h0, hle, b, hb, hbp, hbs⟩ |
      ⟨hcall, hef, hcount⟩
    · rw [if_neg (by simp)]
      have hnone : (HeapOp.krealloc vmm ptr 0).request s = 0 := ite_self 0
      refine ⟨bs', fl, ?_, StepEffect.of_heap ?_ ?_ ?_, StepCount.of_heap ?_ hnone⟩
      · exact (grant_null (s.release ptr) 0).symm ▸ hi.release ptr
      all_goals rw [grant_heap]
    · rw [if_neg (fun h => h0 h.1)]
      have hbt : b.alloc = true := by
        rcases hp with rfl | hp
        · exact absurd rfl h0
        · obtain ⟨c, hc, hcp, hct⟩ := hi.live_block hp
          rwa [hi.heap.eq_of_addr hb hc (by omega)]
      have hnone : (HeapOp.krealloc vmm p1 size).request s = 0 := if_neg (by omega)
      refine ⟨bs', fl, hi.regrant h0 hb hbp hbt hbs, StepEffect.of_heap ?_ ?_ ?_,
        StepCount.of_heap ?_ hnone⟩
      all_goals rw [grant_heap]
    · have hreq : (HeapOp.krealloc vmm ptr size).request s = size := if_pos hcall
      have heff (s' : Client) (hs' : s'.heap = h1) :
          StepEffect s (.krealloc vmm ptr size) bs s' bs' ∧
            StepCount s (.krealloc vmm ptr size) bs s' bs' :=
        ⟨StepEffect.of_kmalloc (hs' ▸ hef) (fun ho => ho hcall),
          StepCount.of_kmalloc (hs' ▸ hef) (hs' ▸ hcount) (fun ho => ho hcall) hreq⟩
      split
      · rename_i hnull
        rcases hef.layout with ⟨-, rfl, -⟩ | ⟨best, hbp, -⟩
        · exact ⟨bs', fl', hi.withHeap hh, heff _ rfl⟩
        · exact absurd hnull.1 (by omega)
      · exact ⟨bs', fl', (hi.release ptr).grant hh hef, heff _ (grant_heap _ _ _ _)⟩
  | @kcalloc vmm nmemb size p h he =>
    obtain ⟨h1, p1, bs', fl', hk, hh, hcase⟩ := hi.kcalloc_count vmm nmemb size
    obtain ⟨rfl, rfl⟩ : h1 = h ∧ p1 = p := by simpa using hk.symm.trans he
    rcases hcase with ⟨rfl, rfl, rfl, hnot⟩ | ⟨hn, hz, hbig, hef, hcount⟩
    · rw [grant_null]
      exact ⟨bs', fl, hi, StepEffect.of_heap rfl rfl rfl, StepCount.of_heap rfl (if_neg hnot)⟩
    · have hheap := grant_heap s h1 p1 (nmemb*size)
      have hreq : (HeapOp.kcalloc vmm nmemb size).request s = nmemb*size := if_pos ⟨hn, hz, hbig⟩
      rw [← hheap] at hef hcount
      exact ⟨bs', fl', hi.grant hh (hheap ▸ hef),
        StepEffect.of_kmalloc hef (fun ho => ho hn hz hbig),
        StepCount.of_kmalloc hef hcount (fun ho => ho hn hz hbig) hreq⟩
  | @write a v q hq h1 h2 =>
    obtain ⟨b, hb, hbq, hbt, hbs⟩ := hi.fits q hq
    have hmin := (hi.heap.inside b hb).min
    have hpay : s.payload q.1 = b.size - 48 := by
      simp only [Client.payload, ← hbq, blockHeaderSize, blockMetaSize, blockFooterSize,
        Nat.add_sub_cancel, hi.heap.blkSize_eq hb]
    refine ⟨bs, fl, hi.withHeap (hi.heap.write_payload hb ?_), StepEffect.of_heap rfl rfl rfl,
      StepCount.of_heap rfl rfl⟩
    intro x hx
    apply Function.update_of_ne
    rintro rfl
    have hfin : b.fin = b.addr + b.size := rfl
    exact hx ⟨by omega, by omega⟩

/-- One step of a run keeps the invariant. -/
theorem client_step (hi : ClientInv s bs fl) {op : HeapOp} {s' : Client}
    (hs : Client.Step s op s') :
    ∃ bs' fl', ClientInv s' bs' fl' ∧ StepEffect s op bs s' bs' := by
  obtain ⟨bs', fl', hi', he, -⟩ := client_step_count hi hs
  exact ⟨bs', fl', hi', he⟩

end Steps

/-! ### The initial heap -/

/-- The blocks `heap_init` leaves: one page, or none when its mapping fails. -/
def initBlocks (vmm : ℕ → Bool) (start : ℕ) : List Block :=
  if vmm start then [⟨start, vmmPageSize, false⟩] else []

theorem heapInit_spec (vmm : ℕ → Bool) (m : Mem) {start size : ℕ} (h0 : 0 < start)
    (hs : start % 4096 = 0) (hz : size % 4096 = 0) (hpos : 0 < size) (hlt : size < 2^63)
    (hw : start + size ≤ 2^64 - 2^29) :
    (heapInit vmm m start size).heapStart = start ∧ (heapInit vmm m start size).heapMaxSize = size ∧
      (heapInit vmm m start size).heapMappedSize = (if vmm start then vmmPageSize else 0) ∧
      ∃ fl, HeapInv (heapInit vmm m start size) (initBlocks vmm start) fl := by
  have hempty : HeapInv ⟨m, start, size, 0, 0, 0⟩ [] [] :=
    { start_pos := h0
      start_align := hs
      mapped_align := Nat.zero_mod _
      max_align := hz
      mapped_le := Nat.zero_le _
      no_wrap := hw
      max_lt := hlt
      sorted := List.Pairwise.nil
      inside := by simp
      words := by simp
      list := ⟨rfl, trivial, List.nodup_nil, by simp, by simp⟩
      free_iff := by simp }
  unfold heapInit initBlocks
  cases hv : vmm start with
  | false => exact ⟨rfl, rfl, rfl, [], hempty⟩
  | true =>
    obtain ⟨m', hins, hinv, -⟩ := hempty.appendFree (k := 1) one_pos (by simp only; omega)
    simp only [Bool.true_eq_false, if_false, if_true]
    simp only [zero_add, one_mul, Nat.add_zero, List.nil_append] at hins hinv
    rw [show vmmPageSize = 4096 from rfl, hins]
    exact ⟨rfl, rfl, rfl, _, hinv⟩

theorem heapInit_kernel (vmm : ℕ → Bool) (m : Mem) :
    let h := heapInit vmm m vmmHeapBase vmmHeapSize
    h.heapStart = vmmHeapBase ∧ h.heapMaxSize = vmmHeapSize ∧
      h.heapMappedSize = (if vmm vmmHeapBase then vmmPageSize else 0) ∧
      ∃ fl, HeapInv h (initBlocks vmm vmmHeapBase) fl :=
  heapInit_spec vmm m (by decide) (by decide) (by decide) (by decide) (by decide) (by decide)

/-- The blocks of a new heap are free, and nothing is in use. -/
theorem heapInit_client (vmm : ℕ → Bool) (m : Mem) :
    ∃ fl, ClientInv ⟨heapInit vmm m vmmHeapBase vmmHeapSize, [], []⟩
      (initBlocks vmm vmmHeapBase) fl := by
  obtain ⟨-, -, -, fl, hinv⟩ := heapInit_kernel vmm m
  refine ⟨fl, hinv, ?_, by simp, by simp⟩
  intro p
  simp only [List.not_mem_nil, false_iff, initBlocks]
  rintro ⟨b, hb, -, hbt⟩
  split at hb
  · rw [List.mem_singleton.mp hb] at hbt
    cases hbt
  · cases hb

/-- Along every run some layout describes the heap, in the window of the kernel. -/
theorem client_reachable {s : Client} (hr : heapSystem.Reachable s) :
    (s.heap.heapStart = vmmHeapBase ∧ s.heap.heapMaxSize = vmmHeapSize) ∧
      ∃ bs fl, ClientInv s bs fl := by
  apply hr.invariant
    (I := fun s => (s.heap.heapStart = vmmHeapBase ∧ s.heap.heapMaxSize = vmmHeapSize) ∧
      ∃ bs fl, ClientInv s bs fl)
  · rintro s ⟨vmm, m, rfl⟩
    obtain ⟨hst, hmx, -⟩ := heapInit_kernel vmm m
    obtain ⟨fl, hinv⟩ := heapInit_client vmm m
    exact ⟨⟨hst, hmx⟩, _, fl, hinv⟩
  · rintro s op s' ⟨⟨hst, hmx⟩, bs, fl, hi⟩ hs
    obtain ⟨bs', fl', hi', he⟩ := client_step hi hs
    exact ⟨⟨he.heapStart.trans hst, he.heapMaxSize.trans hmx⟩, bs', fl', hi'⟩

/-- Every call returns: the search of `kmalloc` ends on every reachable heap. -/
theorem client_calls_return {s : Client} (hr : heapSystem.Reachable s) (vmm : ℕ → Bool) :
    (∀ size, (kmalloc vmm s.heap size).isSome) ∧
      (∀ ptr size, s.Holds ptr → (krealloc vmm s.heap ptr size).isSome) ∧
      ∀ nmemb size, (kcalloc vmm s.heap nmemb size).isSome := by
  obtain ⟨-, bs, fl, hi⟩ := client_reachable hr
  refine ⟨fun size => ?_, fun ptr size hp => ?_, fun nmemb size => ?_⟩
  · obtain ⟨h, p, -, -, hk, -⟩ := kmalloc_spec hi.heap vmm size
    rw [hk]
    rfl
  · obtain ⟨h, p, -, -, hk, -⟩ := hi.krealloc_count vmm size hp
    rw [hk]
    rfl
  · obtain ⟨h, p, -, -, hk, -⟩ := hi.kcalloc_count vmm nmemb size
    rw [hk]
    rfl

/-! ### Live allocations are apart -/

/-- The headers the allocator knows: the free list and every pointer handed out. -/
def Client.IsBlock (s : Client) (hdr : ℕ) : Prop :=
  (∃ fl, FreeList s.heap.mem s.heap.freeListHead fl ∧ hdr ∈ fl) ∨ hdr+blockHeaderSize ∈ s.returned

/-- The intervals `[a, a+n)` and `[b, b+k)` share no byte. -/
def ApartBytes (a n b k : ℕ) : Prop := a+n ≤ b ∨ b+k ≤ a

structure LiveSeparate (s : Client) : Prop where
  mapped_le : s.heap.heapMappedSize ≤ s.heap.heapMaxSize
  aligned : ∀ q ∈ s.live, q.1 % 16 = 0
  mapped : ∀ q ∈ s.live, s.heap.heapStart ≤ q.1 ∧
    q.1 + q.2 ≤ s.heap.heapStart + s.heap.heapMappedSize
  disjoint : s.live.Pairwise (fun q r => ApartBytes q.1 q.2 r.1 r.2)
  header : ∀ q ∈ s.live, ∀ hdr, s.IsBlock hdr → ApartBytes q.1 q.2 hdr 32
  footer : ∀ q ∈ s.live, ∀ hdr, s.IsBlock hdr →
    ApartBytes q.1 q.2 (hdr + blkSize s.heap.mem hdr - 16) 16

section Separate
variable {s : Client} {bs : List Block} {fl : List ℕ}

theorem ClientInv.isBlock (hi : ClientInv s bs fl) {hdr : ℕ} (hb : s.IsBlock hdr) :
    ∃ b ∈ bs, b.addr = hdr := by
  rcases hb with ⟨fl', hl, hm⟩ | hm
  · rw [hl.linked.unique hi.heap.list.linked] at hm
    obtain ⟨b, hb, hba, -⟩ := (hi.heap.free_iff hdr).mp hm
    exact ⟨b, hb, hba⟩
  · obtain ⟨b, hb, hba, -⟩ := (hi.returned_iff _).mp hm
    exact ⟨b, hb, by simpa [blockHeaderSize] using hba⟩

/-- The bytes of a live allocation and the header or the footer of a block are apart. -/
theorem ClientInv.apart_part (hi : ClientInv s bs fl) {q : ℕ × ℕ} {c : Block} {x k : ℕ}
    (hq : q ∈ s.live) (hc : c ∈ bs) (hlo : c.addr ≤ x) (hhi : x+k ≤ c.addr+c.size)
    (hout : x+k ≤ c.addr+32 ∨ c.addr+c.size-16 ≤ x) : ApartBytes q.1 q.2 x k := by
  obtain ⟨b, hb, hbq, -, hbs⟩ := hi.fits q hq
  have hbf : b.fin = b.addr + b.size := rfl
  have hcf : c.fin = c.addr + c.size := rfl
  unfold ApartBytes
  rcases hi.heap.apart hb hc with rfl | h | h
  · -- the payload of a block lies between its header and its footer
    omega
  · exact Or.inl (by omega)
  · exact Or.inr (by omega)

theorem ClientInv.separate (hi : ClientInv s bs fl) : LiveSeparate s := by
  have hin (b : Block) (hb : b ∈ bs) : 64 ≤ b.size ∧ b.fin = b.addr + b.size :=
    ⟨(hi.heap.inside b hb).min, rfl⟩
  refine ⟨hi.heap.mapped_le, ?_, ?_, ?_, ?_, ?_⟩
  · intro q hq
    obtain ⟨b, hb, hbq, -⟩ := hi.fits q hq
    have := (hi.heap.inside b hb).addr16
    omega
  · intro q hq
    obtain ⟨b, hb, hbq, -, hbs⟩ := hi.fits q hq
    have h1 := (hi.heap.inside b hb).lo
    have h2 := (hi.heap.inside b hb).hi
    have h3 := hin b hb
    exact ⟨by omega, by omega⟩
  · -- two live pointers lie in two blocks, and blocks do not overlap
    have hne : s.live.Pairwise (fun q r => q.1 ≠ r.1) := List.pairwise_map.mp hi.nodup
    refine hne.imp_of_mem ?_
    intro q r hq hr hqr
    obtain ⟨b, hb, hbq, -, hbs⟩ := hi.fits q hq
    obtain ⟨c, hc, hcr, -, hcs⟩ := hi.fits r hr
    have h1 := hin b hb
    have h2 := hin c hc
    unfold ApartBytes
    rcases hi.heap.apart hb hc with rfl | h | h
    · exact absurd (hbq.symm.trans hcr) hqr
    · omega
    · omega
  · intro q hq hdr hblk
    obtain ⟨c, hc, rfl⟩ := hi.isBlock hblk
    have hmin := (hin c hc).1
    exact hi.apart_part hq hc le_rfl (by omega) (Or.inl le_rfl)
  · intro q hq hdr hblk
    obtain ⟨c, hc, rfl⟩ := hi.isBlock hblk
    have hmin := (hin c hc).1
    rw [hi.heap.blkSize_eq hc]
    exact hi.apart_part hq hc (by omega) (by omega) (Or.inr le_rfl)

end Separate

/-- `kmalloc` hands out a block when the heap has room for it and its pages can be mapped. -/
theorem ClientInv.kmalloc_grants {s : Client} {bs : List Block} {fl : List ℕ}
    (hi : ClientInv s bs fl) {n : ℕ} (h0 : 0 < n) (hn : n ≤ heapMaxAlloc)
    (hroom : s.heap.heapMappedSize + newBlockSize (blockTotal n) ≤ s.heap.heapMaxSize) :
    (HeapOp.kmalloc (fun _ => true) n).ExpandsOk s ∧ ∃ h best bs' fl',
      kmalloc (fun _ => true) s.heap n = some (h, best+32) ∧
      Client.Step s (.kmalloc (fun _ => true) n)
        ⟨h, (best+32, n) :: s.live, (best+32) :: s.returned⟩ ∧
      ClientInv ⟨h, (best+32, n) :: s.live, (best+32) :: s.returned⟩ bs' fl' ∧
      Carve bs s.heap.limit (blockTotal n) bs' best h.limit := by
  have hexp : (HeapOp.kmalloc (fun _ => true) n).ExpandsOk s := by
    intro _ _ _
    apply (expandFrom_ok _ s.heap s.heap.limit _ rfl).mpr
    intro i hlt
    have hsize : blockTotal n ≤ newBlockSize (blockTotal n) := by
      unfold newBlockSize
      omega
    exact ⟨by omega, rfl⟩
  obtain ⟨h, p, bs', fl', hk, hinv, he⟩ := kmalloc_spec hi.heap (fun _ => true) n
  rcases he.layout with ⟨-, -, hfail⟩ | ⟨best, rfl, -, hc⟩
  · have hno := (hfail hexp).1
    omega
  · have hgrant : s.grant h (best+32) n = ⟨h, (best+32, n) :: s.live, (best+32) :: s.returned⟩ :=
      if_neg (by omega)
    exact ⟨hexp, h, best, bs', fl', hk, hgrant ▸ .kmalloc hk, hgrant ▸ hi.grant hinv he, hc⟩

/-- The first allocation of a run whose pages can all be mapped takes the front of its page. -/
theorem exists_first_step (m : Mem) {n : ℕ} (h0 : 0 < n) (hn : n ≤ 4000) :
    (HeapOp.kmalloc (fun _ => true) n).ExpandsOk
        ⟨heapInit (fun _ => true) m vmmHeapBase vmmHeapSize, [], []⟩ ∧
      ∃ h fl, kmalloc (fun _ => true) (heapInit (fun _ => true) m vmmHeapBase vmmHeapSize) n =
          some (h, vmmHeapBase+32) ∧
        Client.Step ⟨heapInit (fun _ => true) m vmmHeapBase vmmHeapSize, [], []⟩
          (.kmalloc (fun _ => true) n) ⟨h, [(vmmHeapBase+32, n)], [vmmHeapBase+32]⟩ ∧
        ClientInv ⟨h, [(vmmHeapBase+32, n)], [vmmHeapBase+32]⟩
          (cut vmmHeapBase vmmPageSize (blockTotal n)) fl ∧
        h.limit = vmmHeapBase + vmmPageSize := by
  obtain ⟨hst, hmx, hmap, -⟩ := heapInit_kernel (fun _ => true) m
  obtain ⟨fl, hi⟩ := heapInit_client (fun _ => true) m
  have hbs : initBlocks (fun _ => true) vmmHeapBase = [⟨vmmHeapBase, vmmPageSize, false⟩] := rfl
  rw [hbs] at hi
  have hmax : n ≤ heapMaxAlloc := by
    unfold heapMaxAlloc
    omega
  have htot := (blockTotal_spec hmax).2.2.2
  have hfits : blockTotal n ≤ vmmPageSize := by
    unfold vmmPageSize
    omega
  have hroom : newBlockSize (blockTotal n) ≤ 2 * vmmPageSize := by
    unfold newBlockSize vmmPageSize at *
    omega
  obtain ⟨hexp, h, best, bs', fl', hk, hs, hi', hc⟩ := hi.kmalloc_grants h0 hmax (by
    rw [hmap, hmx, if_pos rfl]
    exact (Nat.add_le_add_left hroom _).trans (by decide))
  have hlim : (heapInit (fun _ => true) m vmmHeapBase vmmHeapSize).limit =
      vmmHeapBase + vmmPageSize := by
    rw [Heap.limit, hst, hmap, if_pos rfl]
  -- the only block is the free page, so the allocation is cut from it
  have hcut : best = vmmHeapBase ∧ bs' = cut vmmHeapBase vmmPageSize (blockTotal n) ∧
      h.limit = vmmHeapBase + vmmPageSize := by
    generalize hl : h.limit = l at hc
    cases hc with
    | @fit L R _ bsize hone hle =>
      obtain ⟨rfl, hb, rfl⟩ : L = [] ∧ (⟨best, bsize, false⟩ : Block) =
          ⟨vmmHeapBase, vmmPageSize, false⟩ ∧ R = [] := by
        cases L with
        | nil => exact ⟨rfl, (List.cons.inj hone).1.symm, (List.cons.inj hone).2.symm⟩
        | cons b L => exact absurd (List.cons.inj hone).2.symm (by simp)
      obtain ⟨rfl, rfl, -⟩ := Block.mk.inj hb
      exact ⟨rfl, List.append_nil _, hlim⟩
    | grow hnone hle => exact absurd (hnone _ List.mem_cons_self rfl) (Nat.not_lt.mpr hfits)
  obtain ⟨rfl, rfl, hend⟩ := hcut
  exact ⟨hexp, h, fl', hk, hs, hi', hend⟩

theorem exists_first_run (m : Mem) {n : ℕ} (h0 : 0 < n) (hn : n ≤ 4000) :
    ∃ h, kmalloc (fun _ => true) (heapInit (fun _ => true) m vmmHeapBase vmmHeapSize) n =
        some (h, vmmHeapBase+32) ∧
      heapSystem.Reachable ⟨h, [(vmmHeapBase+32, n)], [vmmHeapBase+32]⟩ := by
  obtain ⟨-, h, fl, hk, hs, -⟩ := exists_first_step m h0 hn
  exact ⟨h, hk, .step (.init ⟨_, m, rfl⟩) hs⟩

/-- A page, 100 bytes from its front, and 8000 bytes from two new pages behind it. -/
theorem exists_second_run (m : Mem) : ∃ s s',
    (HeapOp.kmalloc (fun _ => true) 100).ExpandsOk
      ⟨heapInit (fun _ => true) m vmmHeapBase vmmHeapSize, [], []⟩ ∧
    Client.Step ⟨heapInit (fun _ => true) m vmmHeapBase vmmHeapSize, [], []⟩
      (.kmalloc (fun _ => true) 100) s ∧
    (HeapOp.kmalloc (fun _ => true) 8000).ExpandsOk s ∧
    Client.Step s (.kmalloc (fun _ => true) 8000) s' ∧
    s'.live = [(vmmHeapBase+vmmPageSize+32, 8000), (vmmHeapBase+32, 100)] ∧
    blkSize s'.heap.mem vmmHeapBase = 160 ∧ vmmPageSize < s'.heap.heapMappedSize := by
  obtain ⟨hexp, h, fl, -, hs, hi, hend⟩ :=
    exists_first_step m (n := 100) (by decide) (by decide)
  obtain ⟨hst, hmx⟩ := (client_reachable (.step (.init ⟨_, m, rfl⟩) hs)).1
  dsimp only at hst hmx
  have hmap : h.heapMappedSize = vmmPageSize := by
    rw [Heap.limit, hst] at hend
    exact Nat.add_left_cancel hend
  obtain ⟨hexp', h', best, bs', fl', -, hs', hi', hc⟩ :=
    hi.kmalloc_grants (n := 8000) (by decide) (by decide) (by rw [hmap, hmx]; decide)
  refine ⟨_, _, hexp, hs, hexp', hs', ?_⟩
  obtain ⟨hst', -⟩ := (client_reachable (.step (.step (.init ⟨_, m, rfl⟩) hs) hs')).1
  dsimp only at hst' hi' ⊢
  have hlayout : best = vmmHeapBase + vmmPageSize ∧ ⟨vmmHeapBase, 160, true⟩ ∈ bs' ∧
      h.limit + 8048 ≤ h'.limit := by
    generalize hl : h'.limit = l at hc
    cases hc with
    | @fit L R _ bsize hbs hle =>
      -- what is left of the first page is too small
      have hmem : (⟨best, bsize, false⟩ : Block) ∈ cut vmmHeapBase vmmPageSize (blockTotal 100) :=
        hbs ▸ List.mem_append_right _ List.mem_cons_self
      have hsmall : ∀ b ∈ cut vmmHeapBase vmmPageSize (blockTotal 100), b.size < 8048 := by decide
      exact absurd (hsmall _ hmem) (Nat.not_lt.mpr hle)
    | @grow bsize hnone hle =>
      exact ⟨hend, List.mem_append_left _ (by decide), Nat.add_le_add_left hle _⟩
  obtain ⟨rfl, hmem, hgrow⟩ := hlayout
  refine ⟨rfl, hi'.heap.blkSize_eq hmem, ?_⟩
  rw [hend, Heap.limit, hst'] at hgrow
  unfold vmmPageSize at *
  omega

/-- In every run the live allocations are aligned, mapped, and apart from each other and
from the metadata of every block. -/
theorem kmalloc_live_separate {s : Client} (hr : heapSystem.Reachable s) : LiveSeparate s := by
  obtain ⟨-, bs, fl, hi⟩ := client_reachable hr
  exact hi.separate

theorem kmalloc_live_separate_second_run :
    ∃ s : Client, s.live = [(vmmHeapBase+vmmPageSize+32, 8000), (vmmHeapBase+32, 100)] ∧
      LiveSeparate s := by
  obtain ⟨s, s', -, hs, -, hs', hlive, -⟩ := exists_second_run (fun _ => 0#8)
  exact ⟨s', hlive, kmalloc_live_separate (.step (.step (.init ⟨_, _, rfl⟩) hs) hs')⟩

/-! ### Freeing -/

/-- The first and the last address of the block that freeing the block at `hdr` has to leave:
the block itself with the free ones before and behind it. -/
def mergedStart (h : Heap) (hdr : ℕ) : ℕ :=
  let prev := blkPrevPhys h hdr
  if prev ≠ 0 ∧ blkIsAlloc h.mem prev = false then prev else hdr

def mergedEnd (h : Heap) (hdr : ℕ) : ℕ :=
  let next := blkNextPhys h.mem hdr
  if next < h.limit ∧ blkIsAlloc h.mem next = false then blkNextPhys h.mem next else next

/-- Freeing `p`, a request of `n` bytes, gives the memory back. -/
structure FreeGivesBack (h : Heap) (p n : ℕ) : Prop where
  unmarked : blkIsAlloc (kfree h p).mem (p-blockHeaderSize) = false
  merged : let hdr := p - blockHeaderSize
    blkIsAlloc (kfree h p).mem (mergedStart h hdr) = false ∧
      blkSize (kfree h p).mem (mergedStart h hdr) = mergedEnd h hdr - mergedStart h hdr
  listed : ∃ fl, FreeList (kfree h p).mem (kfree h p).freeListHead fl ∧
    fl.count (mergedStart h (p-blockHeaderSize)) = 1
  reuse : ∀ vmm, ∃ h' q, kmalloc vmm (kfree h p) n = some (h', q) ∧ q ≠ 0 ∧
    h'.heapMappedSize = (kfree h p).heapMappedSize

/-- No `kfree` of a live pointer gives anything back: it leaves the heap as it is, with the
block marked allocated and off the free list. -/
theorem kfree_never_gives_back {s : Client} (hr : heapSystem.Reachable s) {p n : ℕ}
    (hp : (p, n) ∈ s.live) :
    kfree s.heap p = s.heap ∧ blkIsAlloc s.heap.mem (p-blockHeaderSize) = true ∧
      (∀ fl, FreeList s.heap.mem s.heap.freeListHead fl → p - blockHeaderSize ∉ fl) ∧
      ¬ FreeGivesBack s.heap p n := by
  obtain ⟨-, bs, fl, hi⟩ := client_reachable hr
  obtain ⟨b, hb, rfl, hbt, -⟩ := hi.fits (p, n) hp
  have hsame := kfree_of_alloc hi.heap hb hbt
  have halloc : blkIsAlloc s.heap.mem (b.addr+32-blockHeaderSize) = true := by
    rw [blockHeaderSize, Nat.add_sub_cancel, hi.heap.blkIsAlloc_eq hb, hbt]
  refine ⟨hsame, halloc, ?_, ?_⟩
  · intro fl' hl hm
    rw [hl.linked.unique hi.heap.list.linked, blockHeaderSize, Nat.add_sub_cancel,
      hi.heap.free_mem hb, hbt] at hm
    cases hm
  · intro hg
    have := hg.unmarked
    rw [hsame, halloc] at this
    cases this

theorem kfree_never_gives_back_first_run :
    ∃ h, kfree h (vmmHeapBase+32) = h ∧ ¬ FreeGivesBack h (vmmHeapBase+32) 128 := by
  obtain ⟨h, -, hr⟩ := exists_first_run (fun _ => 0#8) (n := 128) (by decide) (by decide)
  have hn := kfree_never_gives_back hr (p := vmmHeapBase+32) (n := 128) List.mem_cons_self
  exact ⟨h, hn.1, hn.2.2.2⟩

/-- `kmalloc(128); kfree(p)` right after `heap_init`, as in the self-test of `init_kernel`. -/
theorem kfree_gives_back_fails :
    ¬ ∀ s : Client, heapSystem.Reachable s → ∀ q ∈ s.live, FreeGivesBack s.heap q.1 q.2 := by
  intro hall
  obtain ⟨h, -, hr⟩ := exists_first_run (fun _ => 0#8) (n := 128) (by decide) (by decide)
  obtain ⟨-, bs, fl, hi⟩ := client_reachable hr
  obtain ⟨b, hb, hbp, hbt⟩ := hi.live_block List.mem_cons_self
  have hg := (hall _ hr (vmmHeapBase+32, 128) List.mem_cons_self).unmarked
  simp only at hg hbp
  rw [← hbp, kfree_of_alloc hi.heap hb hbt, blockHeaderSize, Nat.add_sub_cancel,
    hi.heap.blkIsAlloc_eq hb, hbt] at hg
  cases hg

end SukiOS

import Mathlib.Data.List.Chain
import SukiOS.HeapRuns

/-! The representation of a heap whose expansions all succeed: its blocks tile the mapped
region, the free list holds exactly the unallocated ones, and no two of them touch. -/
namespace SukiOS
open ByteMemory LinkedList Transition

/-- The blocks met by walking the headers by size up to the end of the mapped region; `none`
when the walk misses the end. -/
def walkFrom (h : Heap) : ℕ → ℕ → Option (List Block)
  | 0, _ => none
  | fuel+1, cur =>
    if cur = h.limit then some []
    else if h.limit < cur then none
    else (walkFrom h fuel (blkNextPhys h.mem cur)).map
      (⟨cur, blkSize h.mem cur, blkIsAlloc h.mem cur⟩ :: ·)

def walk (h : Heap) : Option (List Block) := walkFrom h (h.heapMappedSize+1) h.heapStart

/-- The blocks follow each other without a gap from `a` to `e`. -/
def Tiles : ℕ → List Block → ℕ → Prop
  | a, [], e => a = e
  | a, b::bs, e => b.addr = a ∧ Tiles b.fin bs e

def NoAdjacentFree (bs : List Block) : Prop :=
  bs.IsChain (fun b c => b.alloc = true ∨ c.alloc = true)

/-- The four views of the heap agree. -/
structure HeapWellFormed (h : Heap) (bs : List Block) (fl : List ℕ) : Prop where
  tiled : walk h = some bs
  sizes : ∀ b ∈ bs, b.size % 16 = 0 ∧ 64 ≤ b.size
  words : ∀ b ∈ bs, blkMagic h.mem b.addr = magicValue ∧
    load64 h.mem (b.addr+b.size-8) = magicValue ∧ load64 h.mem (b.addr+b.size-16) = b.size
  linked : Linked (blkNextFree h.mem) 0 h.freeListHead fl
  back : BackLinked (blkPrevFree h.mem) 0 fl
  nodup : fl.Nodup
  free_iff : ∀ a, a ∈ fl ↔ ∃ b ∈ bs, b.addr = a ∧ b.alloc = false
  separated : NoAdjacentFree bs
  checked : heapCheck h = some (0, "")

/-! ### Tilings -/

theorem tiles_append {a e : ℕ} {L R : List Block} :
    Tiles a (L ++ R) e ↔ ∃ c, Tiles a L c ∧ Tiles c R e := by
  induction L generalizing a with
  | nil => simp [Tiles]
  | cons b L ih => simp [Tiles, ih, and_assoc]

theorem tiles_cut {best bsize total : ℕ} (hle : total ≤ bsize) :
    Tiles best (cut best bsize total) (best+bsize) := by
  unfold cut
  split
  · simp only [Tiles, Block.fin, true_and]
    omega
  · exact ⟨rfl, rfl⟩

theorem Carve.tiles {bs bs' : List Block} {a lim total best lim' : ℕ}
    (hc : Carve bs lim total bs' best lim') (ht : Tiles a bs lim) : Tiles a bs' lim' := by
  cases hc with
  | @fit L R _ bsize hbs hle =>
    subst hbs
    obtain ⟨c, hL, rfl, hR⟩ := tiles_append.mp ht
    rw [List.append_assoc]
    exact tiles_append.mpr ⟨best, hL, tiles_append.mpr ⟨best+bsize, tiles_cut hle, hR⟩⟩
  | @grow bsize hnone hle => exact tiles_append.mpr ⟨lim, ht, tiles_cut hle⟩

/-- The walk finds a tiling whose header words are right. -/
theorem walkFrom_of_tiles {h : Heap} {bs : List Block} {a fuel : ℕ} (ht : Tiles a bs h.limit)
    (hfuel : bs.length < fuel) (hpos : ∀ b ∈ bs, 0 < b.size)
    (hle : ∀ b ∈ bs, b.fin ≤ h.limit)
    (hsize : ∀ b ∈ bs, blkSize h.mem b.addr = b.size)
    (halloc : ∀ b ∈ bs, blkIsAlloc h.mem b.addr = b.alloc) : walkFrom h fuel a = some bs := by
  induction bs generalizing a fuel with
  | nil =>
    obtain ⟨fuel, rfl⟩ := Nat.exists_eq_succ_of_ne_zero (by omega : fuel ≠ 0)
    exact if_pos ht
  | cons b bs ih =>
    obtain ⟨fuel, rfl⟩ := Nat.exists_eq_succ_of_ne_zero (by omega : fuel ≠ 0)
    obtain ⟨rfl, ht⟩ := ht
    have hb := hle b List.mem_cons_self
    have hp := hpos b List.mem_cons_self
    have hfin : b.fin = b.addr + b.size := rfl
    rw [List.length_cons] at hfuel
    have hnext : blkNextPhys h.mem b.addr = b.fin := by
      rw [blkNextPhys, hsize b List.mem_cons_self, hfin]
    rw [walkFrom, if_neg (by omega), if_neg (by omega), hnext, hsize b List.mem_cons_self,
      halloc b List.mem_cons_self,
      ih ht (by omega) (fun c hc => hpos c (List.mem_cons_of_mem _ hc))
        (fun c hc => hle c (List.mem_cons_of_mem _ hc))
        (fun c hc => hsize c (List.mem_cons_of_mem _ hc))
        (fun c hc => halloc c (List.mem_cons_of_mem _ hc))]
    rfl

/-! ### Adjacent free blocks

`kmalloc` puts the allocated part first, so the rest of a split block keeps an allocated
block before it, also when the block was made from new pages behind a free one. -/

theorem isChain_alloc_cut {L : List Block} (hL : NoAdjacentFree L) (best bsize total : ℕ) :
    NoAdjacentFree (L ++ cut best bsize total) := by
  have hjoin (b : Block) (r : List Block) (hb : b.alloc = true) (hr : NoAdjacentFree (b::r)) :
      NoAdjacentFree (L ++ b::r) := by
    refine List.isChain_append.mpr ⟨hL, hr, ?_⟩
    intro x _ y hy
    rw [List.head?_cons, Option.mem_some_iff] at hy
    exact Or.inr (hy ▸ hb)
  unfold cut
  split
  · exact hjoin _ _ rfl (List.isChain_cons_cons.mpr ⟨Or.inl rfl, List.isChain_singleton _⟩)
  · exact hjoin _ _ rfl (List.isChain_singleton _)

theorem Carve.noAdjacentFree {bs bs' : List Block} {lim total best lim' : ℕ}
    (hc : Carve bs lim total bs' best lim') (hs : NoAdjacentFree bs) : NoAdjacentFree bs' := by
  cases hc with
  | @fit L R _ bsize hbs hle =>
    subst hbs
    obtain ⟨hL, hBR, hLB⟩ := List.isChain_append.mp hs
    have hR : NoAdjacentFree R := (List.isChain_cons.mp hBR).2
    have hnext : ∀ y ∈ R.head?, y.alloc = true := by
      intro y hy
      rcases (List.isChain_cons.mp hBR).1 y hy with h | h
      · cases h
      · exact h
    refine List.isChain_append.mpr ⟨isChain_alloc_cut hL best bsize total, hR, ?_⟩
    exact fun x _ y hy => Or.inr (hnext y hy)
  | @grow bsize hnone hle => exact isChain_alloc_cut hs lim bsize total

/-! ### `heap_check` -/

theorem heapCheckFrom_of_list {h : Heap} {fl : List ℕ} {prev cur fuel : ℕ}
    (hl : Linked (blkNextFree h.mem) 0 cur fl) (hb : BackLinked (blkPrevFree h.mem) prev fl)
    (hfuel : fl.length < fuel)
    (hnode : ∀ a ∈ fl, h.heapStart ≤ a ∧ a < h.limit ∧ blkMagic h.mem a = magicValue ∧
      checkFooter h.mem a = true ∧ blkIsAlloc h.mem a = false) :
    heapCheckFrom h fuel prev cur = some (0, "") := by
  induction fl generalizing prev cur fuel with
  | nil =>
    obtain ⟨fuel, rfl⟩ := Nat.exists_eq_succ_of_ne_zero (by omega : fuel ≠ 0)
    exact if_pos hl
  | cons a fl ih =>
    obtain ⟨fuel, rfl⟩ := Nat.exists_eq_succ_of_ne_zero (by omega : fuel ≠ 0)
    obtain ⟨rfl, hne, ht⟩ := hl
    obtain ⟨hp, hb⟩ := hb
    obtain ⟨hlo, hhi, hmag, hfoot, hal⟩ := hnode cur List.mem_cons_self
    rw [List.length_cons] at hfuel
    unfold Heap.limit at hhi
    have hrest : heapCheckFrom h fuel cur (blkNextFree h.mem cur) = some (0, "") :=
      ih ht hb (by omega) (fun b hb => hnode b (List.mem_cons_of_mem _ hb))
    rw [heapCheckFrom, if_neg hne, if_neg (by omega), if_neg (by simp [hmag, hfoot]),
      if_neg (by simp [hal]), if_neg (fun h => h hp), hrest]

theorem HeapInv.heapCheck_eq {h : Heap} {bs : List Block} {fl : List ℕ} (hi : HeapInv h bs fl) :
    heapCheck h = some (0, "") := by
  refine heapCheckFrom_of_list hi.list.linked hi.list.back (Nat.lt_succ_of_le hi.length_le) ?_
  intro a ha
  obtain ⟨b, hb, rfl, hbf⟩ := (hi.free_iff a).mp ha
  have hin := hi.inside b hb
  have hmin := hin.min
  have hhi : b.addr + b.size ≤ h.limit := hin.hi
  have hw := hi.words b hb
  refine ⟨hin.lo, by omega, hw.magic, ?_, by rw [hi.blkIsAlloc_eq hb, hbf]⟩
  have htag : b.tag = b.size := by simp [Block.tag, hbf]
  have hm : load64 h.mem (b.addr+b.size-8) = magicValue := hw.footMagic
  have hsz : load64 h.mem (b.addr+b.size-16) = b.size := hw.footSize
  rw [checkFooter, hi.blkSize_eq hb, hm, hsz, hw.tag, htag, beq_self_eq_true, beq_self_eq_true,
    Bool.and_true]

/-- The walk by size finds the tiling. -/
theorem HeapInv.wellFormed {h : Heap} {bs : List Block} {fl : List ℕ} (hi : HeapInv h bs fl)
    (ht : Tiles h.heapStart bs h.limit) (hn : NoAdjacentFree bs) : HeapWellFormed h bs fl := by
  have hlen := length_mul_le bs hi.sorted hi.inside (by omega)
  refine ⟨?_, ?_, ?_, hi.list.linked, hi.list.back, hi.list.nodup, hi.free_iff, hn, hi.heapCheck_eq⟩
  · refine walkFrom_of_tiles ht (by omega) ?_ ?_ (fun b hb => hi.blkSize_eq hb)
      (fun b hb => hi.blkIsAlloc_eq hb)
    · intro b hb
      have := (hi.inside b hb).min
      omega
    · exact fun b hb => (hi.inside b hb).hi
  · exact fun b hb => ⟨(hi.inside b hb).size16, (hi.inside b hb).min⟩
  · exact fun b hb => ⟨(hi.words b hb).magic, (hi.words b hb).footMagic, (hi.words b hb).footSize⟩

/-! ### Runs -/

/-- A new heap is one free page, or empty. -/
theorem heapInit_tiled (vmm : ℕ → Bool) (m : Mem) :
    Tiles (heapInit vmm m vmmHeapBase vmmHeapSize).heapStart (initBlocks vmm vmmHeapBase)
        (heapInit vmm m vmmHeapBase vmmHeapSize).limit ∧
      NoAdjacentFree (initBlocks vmm vmmHeapBase) := by
  obtain ⟨hst, -, hmap, -⟩ := heapInit_kernel vmm m
  rw [Heap.limit, hst, hmap]
  unfold initBlocks
  split
  · exact ⟨⟨rfl, rfl⟩, List.isChain_singleton _⟩
  · exact ⟨rfl, List.isChain_nil⟩

/-- The runs from a successful `heap_init` in which every `expand_to` call succeeds. -/
def expandingSystem : System Client HeapOp where
  init s := ∃ vmm m, vmm vmmHeapBase = true ∧
    s = ⟨heapInit vmm m vmmHeapBase vmmHeapSize, [], []⟩
  step s op s' := op.ExpandsOk s ∧ Client.Step s op s'

theorem expandingSystem_init {s : Client} (h0 : expandingSystem.init s) :
    ∃ bs fl, ClientInv s bs fl ∧ Tiles s.heap.heapStart bs s.heap.limit ∧ NoAdjacentFree bs ∧
      bs = [⟨vmmHeapBase, vmmPageSize, false⟩] := by
  obtain ⟨vmm, m, hv, rfl⟩ := h0
  obtain ⟨fl, hinv⟩ := heapInit_client vmm m
  obtain ⟨ht, hn⟩ := heapInit_tiled vmm m
  exact ⟨_, fl, hinv, ht, hn, if_pos hv⟩

theorem StepEffect.tiles {s s' : Client} {op : HeapOp} {bs bs' : List Block}
    (he : StepEffect s op bs s' bs') (hok : op.ExpandsOk s)
    (ht : Tiles s.heap.heapStart bs s.heap.limit) (hn : NoAdjacentFree bs) :
    Tiles s'.heap.heapStart bs' s'.heap.limit ∧ NoAdjacentFree bs' := by
  rw [he.heapStart]
  rcases he.layout with ⟨rfl, hlim⟩ | ⟨total, best, hc⟩
  · rw [hlim hok]
    exact ⟨ht, hn⟩
  · exact ⟨hc.tiles ht, hc.noAdjacentFree hn⟩

theorem expandingSystem_reachable {s : Client} (hr : expandingSystem.Reachable s) :
    ∃ bs fl, ClientInv s bs fl ∧ Tiles s.heap.heapStart bs s.heap.limit ∧ NoAdjacentFree bs := by
  apply hr.invariant (I := fun s =>
    ∃ bs fl, ClientInv s bs fl ∧ Tiles s.heap.heapStart bs s.heap.limit ∧ NoAdjacentFree bs)
  · intro s h0
    obtain ⟨bs, fl, hi, ht, hn, -⟩ := expandingSystem_init h0
    exact ⟨bs, fl, hi, ht, hn⟩
  · rintro s op s' ⟨bs, fl, hi, ht, hn⟩ ⟨hok, hs⟩
    obtain ⟨bs', fl', hi', he⟩ := client_step hi hs
    exact ⟨bs', fl', hi', he.tiles hok ht hn⟩

/-- In every run without a failed expansion the headers, the footers, the free list and the
physical order describe the same tiling of the mapped region. -/
theorem heap_well_formed {s : Client} (hr : expandingSystem.Reachable s) :
    ∃ bs fl, HeapWellFormed s.heap bs fl := by
  obtain ⟨bs, fl, hi, ht, hn⟩ := expandingSystem_reachable hr
  exact ⟨bs, fl, hi.heap.wellFormed ht hn⟩

/-- The first page is split for 100 bytes, and two more are mapped for 8000. -/
theorem heap_well_formed_second_run :
    ∃ s : Client, s.live = [(vmmHeapBase+vmmPageSize+32, 8000), (vmmHeapBase+32, 100)] ∧
      blkSize s.heap.mem vmmHeapBase = 160 ∧ vmmPageSize < s.heap.heapMappedSize ∧
      ∃ bs fl, HeapWellFormed s.heap bs fl := by
  obtain ⟨s, s', hok, hs, hok', hs', hlive, hsplit, hgrown⟩ := exists_second_run (fun _ => 0#8)
  have hinit : expandingSystem.init
      ⟨heapInit (fun _ => true) (fun _ => 0#8) vmmHeapBase vmmHeapSize, [], []⟩ := ⟨_, _, rfl, rfl⟩
  exact ⟨s', hlive, hsplit, hgrown,
    heap_well_formed (.step (.step (.init hinit) ⟨hok, hs⟩) ⟨hok', hs'⟩)⟩

end SukiOS

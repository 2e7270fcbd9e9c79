import SukiOS.Lib.Memory
import SukiOS.Lib.Word

/-! The kernel heap of `heap.c`: boundary-tag blocks in one growing region, with the
free blocks on a doubly linked list.

A block is a 32-byte header (size word, `prev_free`, `next_free`, magic), the payload,
and a 16-byte footer (size, magic). Addresses are naturals: the region ends below
`2^64 - 2^29`, so no address the allocator computes wraps. The bytes of a page that is
not mapped yet stand for what `vmm_alloc_map` will leave in it. -/
namespace SukiOS
open ByteMemory

def magicValue : ℕ := 0xBEEFCAFE20161220
def blockHeaderSize : ℕ := 32
def blockFooterSize : ℕ := 16
def blockMetaSize : ℕ := blockHeaderSize + blockFooterSize
def blockMinSize : ℕ := blockMetaSize + 16
def blockAlign : ℕ := 16
def blockAllocated : ℕ := 2^63
/-- `~(BLOCK_ALLOCATED)` -/
def blockSizeMask : ℕ := 2^63 - 1
def heapMaxAlloc : ℕ := 256*1024*1024
def vmmPageSize : ℕ := 4096
def vmmHeapBase : ℕ := 0xFFFFFFFFA0000000
def vmmHeapSize : ℕ := 512*1024*1024

structure Heap where
  mem : Mem
  heapStart : ℕ
  heapMaxSize : ℕ
  heapMappedSize : ℕ
  heapAllocatedBytes : ℕ
  freeListHead : ℕ

/-! ### Header and footer words -/

def blkSize (m : Mem) (hdr : ℕ) : ℕ := load64 m hdr &&& blockSizeMask

def blkSetSize (m : Mem) (hdr sz : ℕ) (alloc : Bool) : Mem :=
  store64 m hdr ((sz &&& blockSizeMask) ||| (if alloc then blockAllocated else 0))

def blkIsAlloc (m : Mem) (hdr : ℕ) : Bool := (load64 m hdr &&& blockAllocated) != 0

def blkPrevFree (m : Mem) (hdr : ℕ) : ℕ := load64 m (hdr+8)
def blkSetPrevFree (m : Mem) (hdr p : ℕ) : Mem := store64 m (hdr+8) p
def blkNextFree (m : Mem) (hdr : ℕ) : ℕ := load64 m (hdr+16)
def blkSetNextFree (m : Mem) (hdr n : ℕ) : Mem := store64 m (hdr+16) n

def blkMagic (m : Mem) (hdr : ℕ) : ℕ := load64 m (hdr+24)
def blkSetMagic (m : Mem) (hdr : ℕ) : Mem := store64 m (hdr+24) magicValue

/-- `NULL` is 0. -/
def blkPrevPhys (h : Heap) (hdr : ℕ) : ℕ :=
  if hdr = h.heapStart then 0
  else
    let prevSz := load64 h.mem (hdr-16)
    if prevSz = 0 ∨ h.heapMaxSize < prevSz then 0 else hdr - prevSz

def blkNextPhys (m : Mem) (hdr : ℕ) : ℕ := hdr + blkSize m hdr

def setFooter (m : Mem) (hdr : ℕ) : Mem :=
  let sz := blkSize m hdr
  store64 (store64 m (hdr+sz-8) magicValue) (hdr+sz-16) sz

/-- The size comparison is with the whole header word, flag included. -/
def checkFooter (m : Mem) (hdr : ℕ) : Bool :=
  let sz := blkSize m hdr
  load64 m (hdr+sz-8) == magicValue && load64 m (hdr+sz-16) == load64 m hdr

/-- The sequence `blk_set_size; blk_set_magic; set_footer` by which every operation
formats a block. -/
def formatBlock (m : Mem) (hdr sz : ℕ) (alloc : Bool) : Mem :=
  setFooter (blkSetMagic (blkSetSize m hdr sz alloc) hdr) hdr

/-! ### Free list -/

def listRemove (h : Heap) (hdr : ℕ) : Heap :=
  let prev := blkPrevFree h.mem hdr
  let next := blkNextFree h.mem hdr
  let h1 := if prev ≠ 0 then { h with mem := blkSetNextFree h.mem prev next }
    else { h with freeListHead := next }
  let m2 := if next ≠ 0 then blkSetPrevFree h1.mem next prev else h1.mem
  { h1 with mem := blkSetNextFree (blkSetPrevFree m2 hdr 0) hdr 0 }

def listInsertHead (h : Heap) (hdr : ℕ) : Heap :=
  let old := h.freeListHead
  let m1 := blkSetNextFree (blkSetPrevFree h.mem hdr 0) hdr old
  let m2 := if old ≠ 0 then blkSetPrevFree m1 old hdr else m1
  { h with mem := m2, freeListHead := hdr }

/-! ### Merging with the physical neighbours -/

def mergeNext (h : Heap) (hdr : ℕ) : Heap × ℕ :=
  let sz := blkSize h.mem hdr
  let next := hdr + sz
  if h.heapStart + h.heapMappedSize ≤ next then (h, hdr)
  else if blkIsAlloc h.mem next then (h, hdr)
  else
    let h1 := listRemove h next
    let newSz := sz + blkSize h1.mem next
    ({ h1 with mem := formatBlock h1.mem hdr newSz false }, hdr)

def mergePrev (h : Heap) (hdr : ℕ) : Heap × ℕ :=
  let prev := blkPrevPhys h hdr
  if prev = 0 then (h, hdr)
  else if blkIsAlloc h.mem prev then (h, hdr)
  else
    let h1 := listRemove h prev
    let newSz := blkSize h1.mem prev + blkSize h1.mem hdr
    ({ h1 with mem := formatBlock h1.mem prev newSz false }, prev)

/-! ### Expansion

`vmm va` says whether `vmm_alloc_map(va, VMM_KERN_RW)` succeeds. Pages mapped before a
failure stay mapped. -/

def expandFrom (vmm : ℕ → Bool) (h : Heap) (curEnd needed : ℕ) : Bool × Heap :=
  if curEnd < needed then
    if h.heapStart + h.heapMaxSize ≤ curEnd then (false, h)
    else if vmm curEnd = false then (false, h)
    else expandFrom vmm { h with heapMappedSize := h.heapMappedSize + vmmPageSize }
      (curEnd + vmmPageSize) needed
  else (true, h)
termination_by needed - curEnd
decreasing_by simp only [vmmPageSize]; omega

def expandTo (vmm : ℕ → Bool) (h : Heap) (needed : ℕ) : Bool × Heap :=
  expandFrom vmm h (h.heapStart + h.heapMappedSize) needed

def heapInit (vmm : ℕ → Bool) (m : Mem) (start size : ℕ) : Heap :=
  let h : Heap := ⟨m, start, size, 0, 0, 0⟩
  if vmm start = false then h
  else
    listInsertHead { h with heapMappedSize := vmmPageSize,
                            mem := formatBlock m start vmmPageSize false } start

/-! ### Allocation -/

/-- The block size for a request: metadata added, rounded up to 16, at least 64. -/
def blockTotal (size : ℕ) : ℕ :=
  let total := (size + blockMetaSize + blockAlign - 1) &&& (2^64 - blockAlign)
  if total < blockMinSize then blockMinSize else total

/-- The first-fit search; `some 0` when the list holds no fitting block, `none` when the
walk makes more steps than the region has bytes (a cyclic list). -/
def firstFit (m : Mem) (total : ℕ) : ℕ → ℕ → Option ℕ
  | 0, _ => none
  | fuel+1, best =>
    if best = 0 then some 0
    else if total ≤ blkSize m best then some best
    else firstFit m total fuel (blkNextFree m best)

def Heap.firstFit (h : Heap) (total : ℕ) : Option ℕ :=
  SukiOS.firstFit h.mem total (h.heapMappedSize+1) h.freeListHead

/-- The expansion path of `kmalloc`: the new pages become one free block. -/
def growHeap (vmm : ℕ → Bool) (h : Heap) (total : ℕ) : Bool × Heap :=
  let curEnd := h.heapStart + h.heapMappedSize
  let r := expandTo vmm h (curEnd + total)
  if r.1 = false then r
  else
    let expandSz := r.2.heapStart + r.2.heapMappedSize - curEnd
    (true, listInsertHead { r.2 with mem := formatBlock r.2.mem curEnd expandSz false } curEnd)

/-- Put `rest` in the place of `best` on the free list. -/
def replaceFree (h : Heap) (best rest : ℕ) : Heap :=
  let prev := blkPrevFree h.mem best
  let next := blkNextFree h.mem best
  let h1 := if prev ≠ 0 then { h with mem := blkSetNextFree h.mem prev rest }
    else { h with freeListHead := rest }
  let m2 := if next ≠ 0 then blkSetPrevFree h1.mem next rest else h1.mem
  { h1 with mem := blkSetMagic (blkSetNextFree (blkSetPrevFree m2 rest prev) rest next) rest }

/-- Take `total` bytes from the free block `best`: split it, or allocate it whole. -/
def takeBlock (h : Heap) (best total : ℕ) : Heap :=
  let bsize := blkSize h.mem best
  if total + blockMinSize ≤ bsize then
    let rest := best + total
    let h1 := replaceFree { h with mem := formatBlock h.mem rest (bsize-total) false } best rest
    { h1 with mem := formatBlock h1.mem best total true }
  else
    let h1 := listRemove h best
    { h1 with mem := formatBlock h1.mem best bsize true }

/-- A heap operation returns the new state and a pointer; `none` when it does not return. -/
def kmalloc (vmm : ℕ → Bool) (h : Heap) (size : ℕ) : Option (Heap × ℕ) :=
  if size = 0 ∨ heapMaxAlloc < size then some (h, 0)
  else
    let total := blockTotal size
    match h.firstFit total with
    | none => none
    | some best =>
      let r := if best = 0 then growHeap vmm h total else (true, h)
      if r.1 = false then some (r.2, 0)
      else
        let best := if best = 0 then r.2.freeListHead else best
        let h2 := takeBlock r.2 best total
        some ({ h2 with heapAllocatedBytes := (h2.heapAllocatedBytes + total) % 2^64 },
          best + blockHeaderSize)

/-! ### Freeing, resizing, zeroed allocation -/

def kfree (h : Heap) (ptr : ℕ) : Heap :=
  if ptr = 0 then h
  else
    let hdr := ptr - blockHeaderSize
    if hdr < h.heapStart ∨ h.heapStart + h.heapMappedSize ≤ hdr then h
    else if blkMagic h.mem hdr ≠ magicValue ∨ checkFooter h.mem hdr = false then h
    else if blkIsAlloc h.mem hdr = false then h
    else
      let sz := blkSize h.mem hdr
      let h1 := { h with heapAllocatedBytes := (h.heapAllocatedBytes + (2^64 - sz)) % 2^64,
                         mem := formatBlock h.mem hdr sz false }
      let (h2, hdr2) := mergePrev h1 hdr
      let (h3, hdr3) := mergeNext h2 hdr2
      listInsertHead h3 hdr3

def krealloc (vmm : ℕ → Bool) (h : Heap) (ptr size : ℕ) : Option (Heap × ℕ) :=
  if ptr = 0 then kmalloc vmm h size
  else if size = 0 then some (kfree h ptr, 0)
  else
    let hdr := ptr - blockHeaderSize
    if blkMagic h.mem hdr ≠ magicValue then some (h, 0)
    else
      let oldUser := blkSize h.mem hdr - blockMetaSize
      if size ≤ oldUser then some (h, ptr)
      else
        match kmalloc vmm h size with
        | none => none
        | some (h1, new) =>
          if new = 0 then some (h1, 0)
          else some (kfree { h1 with mem := copy h1.mem new ptr oldUser } ptr, new)

def kcalloc (vmm : ℕ → Bool) (h : Heap) (nmemb size : ℕ) : Option (Heap × ℕ) :=
  if nmemb = 0 ∨ size = 0 then some (h, 0)
  else if heapMaxAlloc / nmemb < size then some (h, 0)
  else
    match kmalloc vmm h (nmemb*size) with
    | none => none
    | some (h1, p) =>
      if p = 0 then some (h1, 0) else some ({ h1 with mem := fill h1.mem p 0#8 (nmemb*size) }, p)

/-! ### Statistics and checking -/

/-- The `total`, `used` and `free` results. -/
def heapGetStats (h : Heap) : ℕ × ℕ × ℕ :=
  (h.heapMappedSize, h.heapAllocatedBytes,
    (h.heapMappedSize + (2^64 - h.heapAllocatedBytes)) % 2^64)

/-- The loop of `heap_check`, with the messages of its exits. -/
def heapCheckFrom (h : Heap) : ℕ → ℕ → ℕ → Option (ℤ × String)
  | 0, _, _ => none
  | fuel+1, prev, cur =>
    if cur = 0 then some (0, "")
    else if cur < h.heapStart ∨ h.heapStart + h.heapMappedSize ≤ cur then
      some (-1, "HEAP CHECK FAIL: address out of range\n")
    else if blkMagic h.mem cur ≠ magicValue ∨ checkFooter h.mem cur = false then
      some (-1, "HEAP CHECK FAIL: bad magic/footer\n")
    else if blkIsAlloc h.mem cur then
      some (-1, "HEAP CHECK FAIL: allocated block in free list\n")
    else if blkPrevFree h.mem cur ≠ prev then
      some (-1, "HEAP CHECK FAIL: prev pointer mismatch\n")
    else heapCheckFrom h fuel cur (blkNextFree h.mem cur)

def heapCheck (h : Heap) : Option (ℤ × String) :=
  heapCheckFrom h (h.heapMappedSize+1) 0 h.freeListHead

end SukiOS

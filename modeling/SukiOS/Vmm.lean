import SukiOS.Heap
import SukiOS.Pmm

/-! Four-level page tables: the tables `boot.asm` builds, the hardware page walk, and the functions
of `vmm.c`.

Physical memory is byte-addressed. The kernel reaches a table, and a page it clears, through the
virtual address that equals the physical one, so every access of `vmm.c` goes through the walk; an
access that faults makes the result `none`. The TLB is left out: `vmm.c` invalidates what it
changes. -/
namespace SukiOS
open ByteMemory

def vmmPresent : ℕ := 1
def vmmWrite : ℕ := 2
def vmmUser : ℕ := 4
def vmmPwt : ℕ := 8
def vmmPcd : ℕ := 16
/-- The bit of a 2 MB or 1 GB page. -/
def vmmPs : ℕ := 128
def vmmXd : ℕ := 2^63

def vmmKernRw : ℕ := vmmPresent ||| vmmWrite
def vmmKernRwCd : ℕ := vmmPresent ||| vmmWrite ||| vmmPcd ||| vmmPwt

def vmmMmioBase : ℕ := 0xFFFFFFFFC0000000

/-- The address bits of an entry, and of the entry of a 2 MB or 1 GB page. -/
def addrMask : ℕ := 0x000FFFFFFFFFF000
def largeMask : ℕ := 0x000FFFFFFFE00000
def hugeMask : ℕ := 0x000FFFFFC0000000

/-- `~(VMM_PAGE_SIZE - 1)` -/
def pageMask : ℕ := 2^64 - 4096

def vmmPml4Index (v : ℕ) : ℕ := (v >>> 39) &&& 0x1FF
def vmmPdpteIndex (v : ℕ) : ℕ := (v >>> 30) &&& 0x1FF
def vmmPdIndex (v : ℕ) : ℕ := (v >>> 21) &&& 0x1FF
def vmmPtIndex (v : ℕ) : ℕ := (v >>> 12) &&& 0x1FF

/-! ### The hardware walk -/

/-- Bits 63 to 47 of `v` are equal. -/
def Canonical (v : ℕ) : Prop := v < 2^47 ∨ 2^64 - 2^47 ≤ v ∧ v < 2^64

instance (v : ℕ) : Decidable (Canonical v) := inferInstanceAs (Decidable (_ ∨ _))

/-- The physical address of `v`, or `none` when the access faults. -/
def translate (m : Mem) (cr3 v : ℕ) : Option ℕ :=
  if ¬ Canonical v then none
  else
    let e4 := load64 m (cr3 + 8*vmmPml4Index v)
    if e4 &&& vmmPresent = 0 then none
    else
      let e3 := load64 m ((e4 &&& addrMask) + 8*vmmPdpteIndex v)
      if e3 &&& vmmPresent = 0 then none
      else if e3 &&& vmmPs ≠ 0 then some ((e3 &&& hugeMask) + v % 2^30)
      else
        let e2 := load64 m ((e3 &&& addrMask) + 8*vmmPdIndex v)
        if e2 &&& vmmPresent = 0 then none
        else if e2 &&& vmmPs ≠ 0 then some ((e2 &&& largeMask) + v % 2^21)
        else
          let e1 := load64 m ((e2 &&& addrMask) + 8*vmmPtIndex v)
          if e1 &&& vmmPresent = 0 then none
          else some ((e1 &&& addrMask) + v % 2^12)

/-! ### The state of `vmm.c` -/

/-- `pml4` is CR3, `s_pml4_phys` and `s_pml4_virt`; `mmioNext` is `s_mmio_next`. -/
structure Vmm where
  mem : Mem
  pmm : Pmm
  pml4 : ℕ
  mmioNext : ℕ

namespace Vmm

def read (s : Vmm) (v : ℕ) : Option ℕ := (translate s.mem s.pml4 v).map (load64 s.mem)

def write (s : Vmm) (v w : ℕ) : Option Vmm :=
  (translate s.mem s.pml4 v).map (fun a => { s with mem := store64 s.mem a w })

end Vmm

/-- The loop of `clear_page`. -/
def clearFrom (s : Vmm) (p : ℕ) : ℕ → Option Vmm
  | 0 => some s
  | n+1 => (translate s.mem s.pml4 p).bind (fun a =>
      clearFrom { s with mem := Function.update s.mem a 0#8 } (p+1) n)

def clearPage (s : Vmm) (phys : ℕ) : Option Vmm := clearFrom s phys vmmPageSize

/-! ### Finding a table -/

/-- What `get_pdpte`, `get_pd` and `get_pt` share: the table behind the entry `idx` of `table`,
allocated when there is none. The result 0 is `NULL`. -/
def nextTable (s : Vmm) (table idx : ℕ) (alloc : Bool) : Option (Vmm × ℕ) := do
  let entry ← s.read (table + 8*idx)
  if entry &&& vmmPresent = 0 then
    if alloc = false then some (s, 0)
    else
      let r := pmmAllocPage s.pmm
      if r.2 = 0 then some ({ s with pmm := r.1 }, 0)
      else do
        -- the frame is cleared through the identity map before an entry leads to it
        let s1 ← clearPage { s with pmm := r.1 } r.2
        let s2 ← s1.write (table + 8*idx) (r.2 ||| vmmPresent ||| vmmWrite)
        let entry' ← s2.read (table + 8*idx)
        some (s2, entry' &&& addrMask)
  else some (s, entry &&& addrMask)

/-- `get_pd` and `get_pt` find no table behind a large page. -/
def nextTableNotLarge (s : Vmm) (table idx : ℕ) (alloc : Bool) : Option (Vmm × ℕ) := do
  let entry ← s.read (table + 8*idx)
  if entry &&& vmmPs ≠ 0 then some (s, 0) else nextTable s table idx alloc

def getPdpte (s : Vmm) (vaddr : ℕ) (alloc : Bool) : Option (Vmm × ℕ) :=
  nextTable s s.pml4 (vmmPml4Index vaddr) alloc

def getPd (s : Vmm) (vaddr : ℕ) (alloc : Bool) : Option (Vmm × ℕ) := do
  let r ← getPdpte s vaddr alloc
  if r.2 = 0 then some (r.1, 0) else nextTableNotLarge r.1 r.2 (vmmPdpteIndex vaddr) alloc

def getPt (s : Vmm) (vaddr : ℕ) (alloc : Bool) : Option (Vmm × ℕ) := do
  let r ← getPd s vaddr alloc
  if r.2 = 0 then some (r.1, 0) else nextTableNotLarge r.1 r.2 (vmmPdIndex vaddr) alloc

/-! ### Mapping a page -/

/-- The loop of `vmm_map_page` that fills the table `pt` for the large page of `pde`, from the
entry `i` on. -/
def splitFrom (s : Vmm) (pt pde i : ℕ) : ℕ → Option Vmm
  | 0 => some s
  | n+1 => (s.write (pt + 8*i)
      (((pde &&& largeMask) + i*vmmPageSize) ||| (pde &&& 0xFFF) ||| vmmPresent)).bind (fun s' =>
        splitFrom s' pt pde (i+1) n)

/-- The second step of `vmm_map_page`: set the entry in the page table. -/
def setPage (s : Vmm) (phys virt flags : ℕ) : Option (Vmm × ℤ) := do
  let r ← getPt s virt true
  if r.2 = 0 then some (r.1, -1)
  else do
    let s' ← r.1.write (r.2 + 8*vmmPtIndex virt)
      ((phys &&& addrMask) ||| ((flags &&& 0xFFF) &&& (2^64 - 1 - vmmXd)))
    some (s', 0)

def vmmMapPage (s : Vmm) (phys virt flags : ℕ) : Option (Vmm × ℤ) := do
  let phys := phys &&& pageMask
  let virt := virt &&& pageMask
  let r ← getPd s virt true
  if r.2 = 0 then some (r.1, -1)
  else do
    let pde ← r.1.read (r.2 + 8*vmmPdIndex virt)
    -- a 2 MB page is split: a new page table maps the same 512 frames
    if pde &&& vmmPs ≠ 0 then
      let q := pmmAllocPage r.1.pmm
      if q.2 = 0 then some ({ r.1 with pmm := q.1 }, -1)
      else do
        let s1 ← clearPage { r.1 with pmm := q.1 } q.2
        let s2 ← splitFrom s1 q.2 pde 0 512
        let s3 ← s2.write (r.2 + 8*vmmPdIndex virt)
          (q.2 ||| vmmPresent ||| vmmWrite ||| (pde &&& vmmUser))
        setPage s3 phys virt flags
    else setPage r.1 phys virt flags

/-! ### Pages that are mapped already

None of these functions adds a table. There is no page table behind a 2 MB page, so for its
addresses they do nothing. -/

def vmmUnmapPage (s : Vmm) (virt : ℕ) : Option Vmm := do
  let virt := virt &&& pageMask
  let r ← getPt s virt false
  if r.2 = 0 then some r.1 else r.1.write (r.2 + 8*vmmPtIndex virt) 0

/-- The result 0 stands for no address. -/
def vmmGetPhys (s : Vmm) (virt : ℕ) : Option ℕ := do
  let r ← getPt s virt false
  if r.2 = 0 then some 0
  else do
    let entry ← r.1.read (r.2 + 8*vmmPtIndex virt)
    some (if entry &&& vmmPresent = 0 then 0 else (entry &&& addrMask) ||| (virt &&& 0xFFF))

def vmmChangeFlags (s : Vmm) (virt flags : ℕ) : Option Vmm := do
  let virt := virt &&& pageMask
  let r ← getPt s virt false
  if r.2 = 0 then some r.1
  else do
    let oldEntry ← r.1.read (r.2 + 8*vmmPtIndex virt)
    r.1.write (r.2 + 8*vmmPtIndex virt)
      (((oldEntry &&& addrMask) ||| (flags &&& 0xFFF)) &&& (2^64 - 1 - vmmXd))

def vmmIsMapped (s : Vmm) (virt : ℕ) : Option Bool := do
  -- there is no page table behind a 2 MB page, so its addresses count as not mapped
  let r ← getPt s virt false
  if r.2 = 0 then some false
  else do
    let e ← r.1.read (r.2 + 8*vmmPtIndex virt)
    some (decide (e &&& vmmPresent ≠ 0))

def vmmAllocMap (s : Vmm) (virt flags : ℕ) : Option (Vmm × ℤ) := do
  let virt := virt &&& pageMask
  let r := pmmAllocPage s.pmm
  if r.2 = 0 then some ({ s with pmm := r.1 }, -1)
  else do
    let s1 ← clearPage { s with pmm := r.1 } r.2
    vmmMapPage s1 r.2 virt flags

/-- The loop of `vmm_map_mmio` from page `i` on; `false` when a page could not be mapped. -/
def mmioFrom (s : Vmm) (physStart i : ℕ) : ℕ → Option (Vmm × Bool)
  | 0 => some (s, true)
  | n+1 => (vmmMapPage s ((physStart + i*vmmPageSize) % 2^64) s.mmioNext vmmKernRwCd).bind (fun r =>
      if r.2 ≠ 0 then some (r.1, false)
      else mmioFrom { r.1 with mmioNext := (r.1.mmioNext + vmmPageSize) % 2^64 } physStart (i+1) n)

def mmioPhysStart (physAddr : ℕ) : ℕ := physAddr &&& pageMask

def mmioPageCount (physAddr size : ℕ) : ℕ :=
  -- all in 64 bits, so the count of a region that wraps around is that of the wrapped end
  let physEnd := ((physAddr + size + vmmPageSize - 1) % 2^64) &&& pageMask
  (physEnd + (2^64 - mmioPhysStart physAddr)) % 2^64 / vmmPageSize

/-- The second component is the address, or 0. -/
def vmmMapMmio (s : Vmm) (physAddr size : ℕ) : Option (Vmm × ℕ) := do
  let virtBase := s.mmioNext
  let r ← mmioFrom s (mmioPhysStart physAddr) 0 (mmioPageCount physAddr size)
  some (r.1, if r.2 then (virtBase + (physAddr &&& 0xFFF)) % 2^64 else 0)

/-! ### The tables of `boot.asm` -/

def pml4Addr : ℕ := 0x70000
def pdpteAAddr : ℕ := 0x71000
def pdAAddr : ℕ := 0x72000
def ptAAddr : ℕ := 0x73000
def pdpteBAddr : ℕ := 0x74000
def pdBAddr : ℕ := 0x75000
def ptBAddr : ℕ := 0x76000
def kernelLma : ℕ := 0x110000

/-- `mov dword [a], v` -/
def store32 (m : Mem) (a v : ℕ) : Mem := store m a 4 v

/-- The loops `.fill_pt_a` and `.fill_pt_b`: `ecx` entries from `edi` on, each one page further. -/
def fillPt (m : Mem) (edi eax : ℕ) : ℕ → Mem
  | 0 => m
  | ecx+1 => fillPt (store32 m edi eax) (edi+8) (eax+0x1000) ecx

/-- Steps 1 to 3 of `_start`, on any contents of memory. -/
def bootTables (m : Mem) : Mem :=
  let m1 := fill m pml4Addr 0#8 (7*4096)
  let m2 := store32 m1 pml4Addr (pdpteAAddr ||| 3)
  let m3 := store32 m2 pdpteAAddr (pdAAddr ||| 3)
  let m4 := store32 m3 pdAAddr (ptAAddr ||| 3)
  -- 1024 entries: the second half goes over the table that follows, `pdpteBAddr`
  let m5 := fillPt m4 ptAAddr 3 1024
  let m6 := store32 m5 (pml4Addr + 511*8) (pdpteBAddr ||| 3)
  let m7 := store32 m6 (pdpteBAddr + 510*8) (pdBAddr ||| 3)
  let m8 := store32 m7 pdBAddr (ptBAddr ||| 3)
  fillPt m8 ptBAddr (kernelLma ||| 3) 512

/-! ### `vmm_init` -/

/-- The inner loop: the large pages of gigabyte `gb`, from the entry `i` on. -/
def identityFrom (s : Vmm) (pd gb i : ℕ) : ℕ → Option Vmm
  | 0 => some s
  | n+1 => (s.write (pd + 8*i) ((gb*0x40000000 + i*0x200000) ||| vmmPresent ||| vmmWrite |||
      vmmUser ||| vmmPs)).bind (fun s' => identityFrom s' pd gb (i+1) n)

/-- The outer loop from gigabyte `gb` on; `false` when no frame was left for a directory. -/
def identityMap (s : Vmm) (gb : ℕ) : ℕ → Option (Vmm × Bool)
  | 0 => some (s, true)
  | n+1 =>
    let r := pmmAllocPage s.pmm
    if r.2 = 0 then some ({ s with pmm := r.1 }, false)
    else do
      let s1 ← identityFrom { s with pmm := r.1 } r.2 gb 0 512
      let s2 ← s1.write (pdpteAAddr + 8*gb) (r.2 ||| vmmPresent ||| vmmWrite ||| vmmUser)
      identityMap s2 (gb+1) n

def vmmInit (s : Vmm) : Option (Vmm × Bool) := do
  let e ← s.read s.pml4
  let s' ← s.write s.pml4 (e ||| vmmUser)
  identityMap s' 0 4

end SukiOS

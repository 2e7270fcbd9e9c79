import SukiOS.Lib.Memory
import SukiOS.Lib.Traced

/-! The ELF loader `elf64_load`.

What the loader reads at `file_data` and what it stores is left in a trace, and so is the sum of its
bounds check. Offsets from `file_data` are numbers without a bound: the pointer arithmetic wraps
around exactly when an offset is not below `file_size`, since the buffer does not. The machine
around the loader is a parameter: memory, and the two functions of `vmm.c` that it calls. -/
namespace SukiOS
open ByteMemory Traced

/-- The machine the loader runs on. `peek s off` is the byte at `file_data + off`; `none` stands for
an access that faults. -/
structure Kernel (σ : Type) where
  peek : σ → ℕ → Option Byte
  store : σ → ℕ → Byte → Option σ
  vmmIsMapped : σ → ℕ → Option Bool
  vmmAllocMap : σ → ℕ → ℕ → Option (σ × ℤ)

inductive LoadEvent
  /-- `len` bytes are read at `file_data + off`. -/
  | read (off len : ℕ)
  /-- The end of the program headers: the number, and what the code computes. -/
  | sum (exact computed : ℕ)
  /-- A byte is stored; `mine` tells whether the call mapped the page. -/
  | store (addr : ℕ) (mine : Bool)
deriving DecidableEq

inductive LoadEnd
  | error (text : String)
  | fault

/-- The machine, and the pages the call has mapped. -/
structure Loader (σ : Type) where
  kernel : σ
  mine : List ℕ

abbrev LoadM (σ : Type) := Run (Loader σ) LoadEvent LoadEnd

/-- `elf_load_result_t` of a success. -/
structure ElfLoadResult where
  entryPoint : ℕ
  size : ℕ
  baseVaddr : ℕ
  maxVaddr : ℕ
deriving DecidableEq

/-! ### Accesses -/

/-- The `k`-byte little-endian word, when all of its bytes can be read. -/
def peekWord (peek : ℕ → Option Byte) (off : ℕ) : ℕ → Option ℕ
  | 0 => some 0
  | k+1 => (peek off).bind (fun b => (peekWord peek (off+1) k).map (fun r => b.toNat + 256*r))

section Accesses
variable {σ : Type} (K : Kernel σ)

/-- Read a field of the file. -/
def readField (off len : ℕ) : LoadM σ ℕ := do
  Run.emit (.read off len)
  Run.attempt .fault (fun s => (peekWord (K.peek s.kernel) off len).map (fun v => (v, s)))

def storeByte (addr : ℕ) (b : Byte) : LoadM σ Unit := fun s =>
  (do
    Run.emit (.store addr (s.mine.contains (addr / 4096 * 4096)))
    Run.attempt .fault (fun s => (K.store s.kernel addr b).map
      (fun k => ((), { s with kernel := k }))) : LoadM σ Unit) s

def isMapped (va : ℕ) : LoadM σ Bool :=
  Run.attempt .fault (fun s => (K.vmmIsMapped s.kernel va).map (fun b => (b, s)))

/-- The page counts as the call's when `vmm_alloc_map` succeeds. -/
def allocMap (va perm : ℕ) : LoadM σ ℤ :=
  Run.attempt .fault (fun s => (K.vmmAllocMap s.kernel va perm).map
    (fun r => (r.2, ⟨r.1, if r.2 = 0 then va :: s.mine else s.mine⟩)))

/-- One comparison of the header checks. -/
def expect (off len want : ℕ) (text : String) : LoadM σ Unit := do
  let v ← readField K off len
  if v ≠ want then Run.stop (.error text) else pure ()

end Accesses

/-! ### The fields -/

def sizeofEhdr : ℕ := 64
def sizeofPhdr : ℕ := 56

def eMachine : ℕ := 18
def eEntry : ℕ := 24
def ePhoff : ℕ := 32
def ePhentsize : ℕ := 54
def ePhnum : ℕ := 56

def pType : ℕ := 0
def pFlags : ℕ := 4
def pOffset : ℕ := 8
def pVaddr : ℕ := 16
def pFilesz : ℕ := 32
def pMemsz : ℕ := 40

def ptLoad : ℕ := 1
def pfW : ℕ := 2

def uint64Max : ℕ := 2^64 - 1

/-- `ehdr->e_phoff + ehdr->e_phentsize * ehdr->e_phnum`: the product is an `int`, which is extended
with its sign to 64 bits. -/
def headersEnd (phoff phentsize phnum : ℕ) : ℕ :=
  let product := phentsize * phnum
  (phoff + (if product < 2^31 then product else product + (2^64 - 2^32))) % 2^64

/-! ### The loader -/

section Load
variable {σ : Type} (K : Kernel σ)

def checkHeader : LoadM σ Unit := do
  expect K 0 1 0x7F "Invalid ELF magic"
  expect K 1 1 0x45 "Invalid ELF magic"
  expect K 2 1 0x4C "Invalid ELF magic"
  expect K 3 1 0x46 "Invalid ELF magic"
  expect K 4 1 2 "Not a 64-bit ELF"
  expect K eMachine 2 62 "Not an x86_64 ELF"

/-- The check of the program header table; the result is `e_phoff`. -/
def checkTable (fileSize : ℕ) : LoadM σ ℕ := do
  let phoff ← readField K ePhoff 8
  let phentsize ← readField K ePhentsize 2
  let phnum ← readField K ePhnum 2
  Run.emit (.sum (phoff + phentsize * phnum) (headersEnd phoff phentsize phnum))
  if fileSize < headersEnd phoff phentsize phnum then
    Run.stop (.error "Program headers beyond file size")
  else pure phoff

/-- Step 3 from the header `i` on: the lowest address and the highest end. -/
def spanFrom (phoff i base maxAddr : ℕ) : ℕ → LoadM σ (ℕ × ℕ)
  | 0 => pure (base, maxAddr)
  | n+1 => do
    let phnum ← readField K ePhnum 2
    if i < phnum then
      let type ← readField K (phoff + sizeofPhdr*i + pType) 4
      if type = ptLoad then
        let vaddr ← readField K (phoff + sizeofPhdr*i + pVaddr) 8
        let memsz ← readField K (phoff + sizeofPhdr*i + pMemsz) 8
        spanFrom phoff (i+1) (if vaddr < base then vaddr else base)
          (if maxAddr < (vaddr + memsz) % 2^64 then (vaddr + memsz) % 2^64 else maxAddr) n
      else spanFrom phoff (i+1) base maxAddr n
    else pure (base, maxAddr)

/-- The flags of the segment count for a page that does not start below it. -/
def pageFlags (hdr vaddr va : ℕ) : LoadM σ ℕ :=
  if vaddr ≤ va then readField K (hdr + pFlags) 4 else pure 0

/-- Step 4 for the page `va`. -/
def mapPage (hdr va : ℕ) : LoadM σ Unit := do
  let mapped ← isMapped K va
  if mapped then pure ()
  else
    let vaddr ← readField K (hdr + pVaddr) 8
    let flags ← pageFlags K hdr vaddr va
    let r ← allocMap K va (if flags &&& pfW ≠ 0 then 7 else 5)
    if r ≠ 0 then Run.stop (.error "Failed to map page") else pure ()

def mapFrom (hdr va : ℕ) : ℕ → LoadM σ Unit
  | 0 => pure ()
  | n+1 => do
    mapPage K hdr va
    mapFrom hdr (va + 4096) n

/-- The inner loop of step 5. -/
def copyChunk (dst src j : ℕ) : ℕ → LoadM σ Unit
  | 0 => pure ()
  | n+1 => do
    let b ← readField K (src + j) 1
    storeByte K ((dst + j) % 2^64) (BitVec.ofNat 8 b)
    copyChunk dst src (j+1) n

/-- The length of the next chunk: it ends with the page of the destination. -/
def chunkSize (vaCopy offset left : ℕ) : ℕ :=
  let chunk := if 4096 < left then 4096 else left
  let pageOffset := (vaCopy + offset) % 2^64 % 4096
  if 4096 < chunk + pageOffset then 4096 - pageOffset else chunk

/-- The loop of step 5; every chunk has a byte, so `left` turns are enough. -/
def copyFrom (vaCopy src offset left : ℕ) : ℕ → LoadM σ Unit
  | 0 => pure ()
  | n+1 =>
    if left = 0 then pure ()
    else do
      copyChunk K ((vaCopy + offset) % 2^64) (src + offset) 0 (chunkSize vaCopy offset left)
      copyFrom vaCopy src (offset + chunkSize vaCopy offset left)
        (left - chunkSize vaCopy offset left) n

def zeroFrom (bss k : ℕ) : ℕ → LoadM σ Unit
  | 0 => pure ()
  | n+1 => do
    storeByte K ((bss + k) % 2^64) 0
    zeroFrom bss (k+1) n

def segStart (vaddr : ℕ) : ℕ := vaddr / 4096 * 4096
def segEnd (vaddr memsz : ℕ) : ℕ := (vaddr + memsz + 4095) % 2^64 / 4096 * 4096

/-- The body of the second loop over the headers, for a segment to load. -/
def loadSegment (hdr : ℕ) : LoadM σ Unit := do
  let vaddr ← readField K (hdr + pVaddr) 8
  let memsz ← readField K (hdr + pMemsz) 8
  mapFrom K hdr (segStart vaddr) ((segEnd vaddr memsz - segStart vaddr) / 4096)
  -- the fields are read again: the new mappings may have changed what the kernel sees
  let vaCopy ← readField K (hdr + pVaddr) 8
  let filesz ← readField K (hdr + pFilesz) 8
  let offset ← readField K (hdr + pOffset) 8
  copyFrom K vaCopy offset 0 filesz filesz
  let memsz ← readField K (hdr + pMemsz) 8
  let filesz ← readField K (hdr + pFilesz) 8
  if filesz < memsz then
    let vaddr ← readField K (hdr + pVaddr) 8
    zeroFrom K ((vaddr + filesz) % 2^64) 0 (memsz - filesz)
  else pure ()

def loadFrom (phoff i : ℕ) : ℕ → LoadM σ Unit
  | 0 => pure ()
  | n+1 => do
    let phnum ← readField K ePhnum 2
    if i < phnum then
      let type ← readField K (phoff + sizeofPhdr*i + pType) 4
      if type = ptLoad then
        loadSegment K (phoff + sizeofPhdr*i)
        loadFrom phoff (i+1) n
      else loadFrom phoff (i+1) n
    else pure ()

/-- `e_phnum` has 16 bits, so 65536 turns are enough. -/
def maxHeaders : ℕ := 2^16

def elf64Load (fileSize : ℕ) : LoadM σ ElfLoadResult := do
  if fileSize < sizeofEhdr then Run.stop (.error "Invalid ELF magic")
  else
    checkHeader K
    let phoff ← checkTable K fileSize
    let span ← spanFrom K phoff 0 uint64Max 0 maxHeaders
    if span.1 = uint64Max then Run.stop (.error "No PT_LOAD segments found")
    else
      loadFrom K phoff 0 maxHeaders
      let entry ← readField K eEntry 8
      pure ⟨entry, (span.2 + (2^64 - span.1)) % 2^64, span.1, span.2⟩

end Load

end SukiOS

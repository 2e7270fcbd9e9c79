import SukiOS.Lib.Memory

/-! Physical page frames: the bitmap allocator of `pmm.c`. Bit 0 means free. -/
namespace SukiOS
open ByteMemory

def pageSize : ℕ := 4096

/-- 4 GB of frames. -/
def pmmMaxPages : ℕ := 4*1024*1024*1024/4096

def multibootMemoryAvailable : ℕ := 1

structure MmapEntry where
  addr : ℕ
  len : ℕ
  type : ℕ
deriving DecidableEq, Repr

structure Pmm where
  bitmap : ℕ → Byte
  totalPages : ℕ
  usedPages : ℕ

/-- `x++` and `x--` on a `uint64_t`. -/
def inc64 (x : ℕ) : ℕ := (x+1) % 2^64
def dec64 (x : ℕ) : ℕ := (x+(2^64-1)) % 2^64

def bitmapSet (bm : ℕ → Byte) (page : ℕ) : ℕ → Byte :=
  if page < pmmMaxPages then
    Function.update bm (page/8) (bm (page/8) ||| 1#8 <<< (page%8))
  else bm

def bitmapClear (bm : ℕ → Byte) (page : ℕ) : ℕ → Byte :=
  if page < pmmMaxPages then
    Function.update bm (page/8) (bm (page/8) &&& ~~~(1#8 <<< (page%8)))
  else bm

def bitmapTest (bm : ℕ → Byte) (page : ℕ) : Bool :=
  if pmmMaxPages ≤ page then true else (bm (page/8) >>> (page%8) &&& 1#8) != 0#8

/-- The inner loop of step 2 of `pmm_init`: frames `p .. endPage-1` become free. -/
def clearRange (s : Pmm) (p endPage : ℕ) : Pmm :=
  if p < endPage ∧ p < pmmMaxPages then
    clearRange { s with bitmap := bitmapClear s.bitmap p, totalPages := inc64 s.totalPages }
      (p+1) endPage
  else s
termination_by pmmMaxPages - p

def MmapEntry.startPage (e : MmapEntry) : ℕ := (e.addr + pageSize - 1) % 2^64 / pageSize
def MmapEntry.endPage (e : MmapEntry) : ℕ := (e.addr + e.len) % 2^64 / pageSize

/-- One turn of the outer loop of step 2. -/
def addEntry (s : Pmm) (e : MmapEntry) : Pmm :=
  if e.type ≠ multibootMemoryAvailable then s else clearRange s e.startPage e.endPage

def kernelEndPage (kernelEnd : ℕ) : ℕ := (kernelEnd + pageSize - 1) % 2^64 / pageSize

/-- The body shared by step 3 of `pmm_init` and `pmm_alloc_page`:
`bitmap_set(p); used_pages++; total_pages--`. -/
def markUsed (s : Pmm) (p : ℕ) : Pmm where
  bitmap := bitmapSet s.bitmap p
  totalPages := dec64 s.totalPages
  usedPages := inc64 s.usedPages

/-- Step 3 of `pmm_init`: the frames below the kernel end become used. -/
def reserveBelow (s : Pmm) (p endPage : ℕ) : Pmm :=
  if p < endPage ∧ p < pmmMaxPages then
    if bitmapTest s.bitmap p then reserveBelow s (p+1) endPage
    else reserveBelow (markUsed s p) (p+1) endPage
  else s
termination_by pmmMaxPages - p

def pmmInit (entries : List MmapEntry) (kernelEnd : ℕ) : Pmm :=
  let s : Pmm := { bitmap := fun _ => 0xFF#8, totalPages := 0, usedPages := 0 }
  reserveBelow (entries.foldl addEntry s) 0 (kernelEndPage kernelEnd)

/-- The scan of `pmm_alloc_page` from frame `i` on; address 0 means no free frame. -/
def allocFrom (s : Pmm) (i : ℕ) : Pmm × ℕ :=
  if i < pmmMaxPages then
    if bitmapTest s.bitmap i then allocFrom s (i+1) else (markUsed s i, i*pageSize)
  else (s, 0)
termination_by pmmMaxPages - i

def pmmAllocPage (s : Pmm) : Pmm × ℕ := allocFrom s 0

def pmmFreePage (s : Pmm) (physAddr : ℕ) : Pmm :=
  let page := physAddr / pageSize
  if page < pmmMaxPages ∧ bitmapTest s.bitmap page then
    { bitmap := bitmapClear s.bitmap page, usedPages := dec64 s.usedPages,
      totalPages := inc64 s.totalPages }
  else s

/-! ### One bit of the bitmap -/

theorem shiftRight_land_one_ne_zero (b : Byte) (k : ℕ) :
    (b >>> k &&& 1#8) ≠ 0#8 ↔ b.getLsbD k = true := by
  constructor
  · intro h
    by_contra hb
    apply h
    apply BitVec.eq_of_getLsbD_eq
    intro i hi
    cases i with
    | zero => simpa using hb
    | succ i => simp
  · intro h h0
    have hbit := congrArg (fun w : Byte => w.getLsbD 0) h0
    simp [h] at hbit

theorem bitmapTest_eq (bm : ℕ → Byte) (p : ℕ) (hp : p < pmmMaxPages) :
    bitmapTest bm p = (bm (p/8)).getLsbD (p%8) := by
  rw [bitmapTest, if_neg (by omega), Bool.eq_iff_iff, bne_iff_ne]
  exact shiftRight_land_one_ne_zero _ _

theorem bitmapTest_of_ge (bm : ℕ → Byte) (p : ℕ) (hp : pmmMaxPages ≤ p) :
    bitmapTest bm p = true := if_pos hp

theorem lt_max_of_free {bm : ℕ → Byte} {p : ℕ} (h : bitmapTest bm p = false) :
    p < pmmMaxPages := by
  by_contra hge
  rw [bitmapTest_of_ge bm p (by omega)] at h
  exact Bool.noConfusion h

theorem getLsbD_one_shiftLeft (i j : ℕ) (hi : i < 8) :
    (1#8 <<< j).getLsbD i = decide (i = j) := by
  rw [BitVec.getLsbD_shiftLeft, BitVec.getLsbD_one]
  by_cases h : i = j
  · subst h
    simp [hi]
  · simp only [h, decide_false]
    simp
    omega

@[simp] theorem bitmapTest_bitmapSet (bm : ℕ → Byte) (p q : ℕ) (hp : p < pmmMaxPages) :
    bitmapTest (bitmapSet bm p) q = (bitmapTest bm q || decide (q = p)) := by
  by_cases hq : q < pmmMaxPages
  · rw [bitmapTest_eq _ _ hq, bitmapTest_eq _ _ hq, bitmapSet, if_pos hp]
    by_cases hbyte : q/8 = p/8
    · have hbit : decide (q%8 = p%8) = decide (q = p) := decide_eq_decide.mpr (by omega)
      rw [hbyte, Function.update_self, BitVec.getLsbD_or,
        getLsbD_one_shiftLeft _ _ (Nat.mod_lt _ (by decide)), hbit]
    · have hne : decide (q = p) = false := decide_eq_false (fun h => hbyte (by rw [h]))
      rw [Function.update_of_ne hbyte, hne, Bool.or_false]
  · rw [bitmapTest_of_ge _ _ (by omega), bitmapTest_of_ge _ _ (by omega), Bool.true_or]

@[simp] theorem bitmapTest_bitmapClear (bm : ℕ → Byte) (p q : ℕ) (hp : p < pmmMaxPages) :
    bitmapTest (bitmapClear bm p) q = (bitmapTest bm q && !decide (q = p)) := by
  by_cases hq : q < pmmMaxPages
  · rw [bitmapTest_eq _ _ hq, bitmapTest_eq _ _ hq, bitmapClear, if_pos hp]
    by_cases hbyte : q/8 = p/8
    · have hbit : decide (q%8 = p%8) = decide (q = p) := decide_eq_decide.mpr (by omega)
      have hlt : q%8 < 8 := Nat.mod_lt _ (by decide)
      rw [hbyte, Function.update_self, BitVec.getLsbD_and, BitVec.getLsbD_not,
        getLsbD_one_shiftLeft _ _ hlt, hbit, decide_eq_true hlt, Bool.true_and]
    · have hne : decide (q = p) = false := decide_eq_false (fun h => hbyte (by rw [h]))
      rw [Function.update_of_ne hbyte, hne, Bool.not_false, Bool.and_true]
  · have hne : decide (q = p) = false := decide_eq_false (by omega)
    rw [bitmapTest_of_ge _ _ (by omega), bitmapTest_of_ge _ _ (by omega), hne]
    rfl

end SukiOS

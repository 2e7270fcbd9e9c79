import Mathlib.Algebra.Group.Nat.Defs
import SukiOS.Pmm

/-! The memory map of the firmware on its way to `pmm_init`: the walk over the Multiboot2 tags in
`init_pmm` of `main.c`, and the entries that the array `entries` in `pmm.c` is read at. -/
namespace SukiOS
open ByteMemory

/-! ### The source -/

def multiboot2TagEnd : ℕ := 0

def multiboot2TagMmap : ℕ := 6

/-- `sizeof(struct multiboot2_tag_mmap)`, without the entries. -/
def sizeofTagMmap : ℕ := 16

/-- `sizeof(struct multiboot2_mmap_entry)` -/
def sizeofMmapEntry : ℕ := 24

def tagType (mem : Mem) (tag : ℕ) : ℕ := load mem tag 4

def tagSize (mem : Mem) (tag : ℕ) : ℕ := load mem (tag + 4) 4

def tagEntrySize (mem : Mem) (tag : ℕ) : ℕ := load mem (tag + 8) 4

/-- The step of the loop, `(tag->size + 7) & ~7`; the sum has 32 bits. -/
def nextTag (mem : Mem) (tag : ℕ) : ℕ := tag + (tagSize mem tag + 7) % 2^32 / 8 * 8

/-- The loop of `init_pmm`: the first tag of the memory map, if there is one before the END tag. -/
def findMmapTag (mem : Mem) : ℕ → ℕ → Option (Option ℕ)
  | 0, _ => none
  | n+1, tag =>
    if tagType mem tag = multiboot2TagEnd then some none
    else if tagType mem tag = multiboot2TagMmap then some (some tag)
    else findMmapTag mem n (nextTag mem tag)

/-- The difference has 64 bits, for `sizeof` has. A division by 0 does not come back. -/
def mmapCount (mem : Mem) (tag : ℕ) : Option ℕ :=
  if tagEntrySize mem tag = 0 then none
  else some ((tagSize mem tag + 2^64 - sizeofTagMmap) % 2^64 / tagEntrySize mem tag % 2^32)

/-- `struct multiboot2_mmap_entry` at `a` -/
def mmapEntryAt (mem : Mem) (a : ℕ) : MmapEntry where
  addr := load mem a 8
  len := load mem (a + 8) 8
  type := load mem (a + 16) 4

/-- `entries[0]` to `entries[count - 1]`, as `pmm_init` reads them. -/
def entriesArray (mem : Mem) (entries count : ℕ) : List MmapEntry :=
  (List.range count).map (fun i => mmapEntryAt mem (entries + sizeofMmapEntry * i))

/-- The entries that `init_pmm` has `pmm_init` process, if there is a map. -/
def initPmmEntries (mem : Mem) (mbi fuel : ℕ) : Option (Option (List MmapEntry)) := do
  match ← findMmapTag mem fuel (mbi + 8) with
  | some tag =>
    let count ← mmapCount mem tag
    some (some (entriesArray mem (tag + sizeofTagMmap) count))
  | none => some none

/-- `init_pmm`: the manager, and the warning that is printed. Without a map the manager stays as it
is. -/
def initPmm (mem : Mem) (mbi kernelEnd fuel : ℕ) (s : Pmm) : Option (Pmm × List String) := do
  match ← initPmmEntries mem mbi fuel with
  | some entries => some (pmmInit entries kernelEnd, [])
  | none => some (s, ["  WARNING: No memory map tag found!\n"])

/-! ### The information block -/

/-- The tags from `tag` on, each of at least 8 bytes and the next at a multiple of 8 behind it, up
to the END tag; all of them lie before `stop`. -/
inductive TagList (mem : Mem) (stop : ℕ) : ℕ → List ℕ → Prop
  | last {tag : ℕ} (hfit : tag + 8 ≤ stop) (htype : tagType mem tag = multiboot2TagEnd) :
      TagList mem stop tag [tag]
  | cons {tag : ℕ} {L : List ℕ} (htype : tagType mem tag ≠ multiboot2TagEnd)
      (hsize : 8 ≤ tagSize mem tag)
      (hrest : TagList mem stop (tag + (tagSize mem tag + 7) / 8 * 8) L) :
      TagList mem stop tag (tag::L)

/-- The block at `mbi` starts with its total size, and the tags follow. -/
def InfoBlock (mem : Mem) (mbi : ℕ) (L : List ℕ) : Prop :=
  TagList mem (mbi + load mem mbi 4) (mbi + 8) L

/-- The number of entries that the tag has room for. -/
def storedCount (mem : Mem) (tag : ℕ) : ℕ := (tagSize mem tag - 16) / tagEntrySize mem tag

/-- The entries of the map, `entry_size` bytes apart. -/
def storedEntries (mem : Mem) (tag : ℕ) : List MmapEntry :=
  (List.range (storedCount mem tag)).map
    (fun i => mmapEntryAt mem (tag + 16 + tagEntrySize mem tag * i))

/-- The entries are 24 bytes apart, or there are fewer than two, or each 20 bytes at a multiple of
24 happen to be those of the entry. -/
def StrideAgrees (mem : Mem) (tag : ℕ) : Prop :=
  tagEntrySize mem tag = 24 ∨ storedCount mem tag < 2 ∨
  ∀ i, 1 ≤ i → i < storedCount mem tag → ∀ k, k < 20 →
    mem (tag + 16 + 24*i + k) = mem (tag + 16 + tagEntrySize mem tag * i + k)

variable {mem : Mem} {mbi stop tag t n : ℕ} {L : List ℕ}

/-- There is room for the END tag behind every tag. -/
theorem TagList.fits (h : TagList mem stop tag L) : tag + 8 ≤ stop := by
  induction h with
  | last hfit => exact hfit
  | cons _ _ _ ih => omega

/-- In a block of less than 4 GB the size of a tag is rounded without loss. -/
theorem TagList.nextTag_eq (h : TagList mem stop (tag + (tagSize mem tag + 7) / 8 * 8) L)
    (hstop : stop < tag + 2^32) : nextTag mem tag = tag + (tagSize mem tag + 7) / 8 * 8 := by
  have hfits := h.fits
  have hsize : tagSize mem tag + 7 < 2^32 := by omega
  unfold nextTag
  rw [Nat.mod_eq_of_lt hsize]

/-- The walk finds the first tag of the map among the tags of the block. -/
theorem TagList.findMmapTag_eq (h : TagList mem stop tag L) (hn : L.length ≤ n)
    (hstop : stop < tag + 2^32) : findMmapTag mem n tag =
      some (L.find? (fun x => tagType mem x = multiboot2TagMmap)) := by
  induction h generalizing n with
  | @last tag _ htype =>
    obtain ⟨n, rfl⟩ : ∃ k, n = k + 1 := ⟨n - 1, by rw [List.length_singleton] at hn; omega⟩
    have hother : ¬ tagType mem tag = multiboot2TagMmap := by
      rw [htype]
      decide
    unfold findMmapTag
    rw [if_pos htype, List.find?_cons_of_neg (by simpa using hother), List.find?_nil]
  | @cons tag L htype hsize hrest ih =>
    rw [List.length_cons] at hn
    obtain ⟨n, rfl⟩ : ∃ k, n = k + 1 := ⟨n - 1, by omega⟩
    unfold findMmapTag
    rw [if_neg htype]
    by_cases hmap : tagType mem tag = multiboot2TagMmap
    · rw [if_pos hmap, List.find?_cons_of_pos (by simpa using hmap)]
    · rw [if_neg hmap, List.find?_cons_of_neg (by simpa using hmap), hrest.nextTag_eq hstop]
      exact ih (by omega) (by omega)

/-! ### The entries -/

theorem mmapEntryAt_eq_iff (mem : Mem) (a b : ℕ) :
    mmapEntryAt mem a = mmapEntryAt mem b ↔ ∀ k, k < 20 → mem (a + k) = mem (b + k) := by
  have hfields : mmapEntryAt mem a = mmapEntryAt mem b ↔ load mem a 8 = load mem b 8 ∧
      load mem (a + 8) 8 = load mem (b + 8) 8 ∧ load mem (a + 16) 4 = load mem (b + 16) 4 := by
    unfold mmapEntryAt
    rw [MmapEntry.mk.injEq]
  rw [hfields, load_eq_iff, load_eq_iff, load_eq_iff]
  constructor
  · intro h k hk
    by_cases h8 : k < 8
    · exact h.1 k h8
    · by_cases h16 : k < 16
      · have hlen := h.2.1 (k - 8) (by omega)
        rw [Nat.add_assoc, Nat.add_assoc, Nat.add_sub_cancel' (by omega : 8 ≤ k)] at hlen
        exact hlen
      · have htype := h.2.2 (k - 16) (by omega)
        rw [Nat.add_assoc, Nat.add_assoc, Nat.add_sub_cancel' (by omega : 16 ≤ k)] at htype
        exact htype
  · intro h
    have hshift (c j : ℕ) (hj : c + j < 20) : mem (a + c + j) = mem (b + c + j) := by
      rw [Nat.add_assoc, Nat.add_assoc]
      exact h (c + j) hj
    exact ⟨fun j hj => h j (by omega), fun j hj => hshift 8 j (by omega),
      fun j hj => hshift 16 j (by omega)⟩

theorem mmapCount_eq (hsize : 16 ≤ tagSize mem t) (he : 24 ≤ tagEntrySize mem t) :
    mmapCount mem t = some (storedCount mem t) := by
  have hlt : tagSize mem t < 2^32 := load_lt mem (t + 4) 4
  have hne : ¬ tagEntrySize mem t = 0 := by omega
  have hdiff : (tagSize mem t + 2^64 - sizeofTagMmap) % 2^64 = tagSize mem t - 16 := by
    unfold sizeofTagMmap
    omega
  have hcount : (tagSize mem t - 16) / tagEntrySize mem t < 2^32 :=
    calc (tagSize mem t - 16) / tagEntrySize mem t ≤ tagSize mem t - 16 := Nat.div_le_self _ _
      _ < 2^32 := by omega
  unfold mmapCount storedCount
  rw [if_neg hne, hdiff, Nat.mod_eq_of_lt hcount]

/-- The array is the stored map when the strides agree, and then only. -/
theorem entriesArray_eq_iff (mem : Mem) (t : ℕ) :
    entriesArray mem (t + sizeofTagMmap) (storedCount mem t) = storedEntries mem t ↔
      StrideAgrees mem t := by
  have hentries : entriesArray mem (t + sizeofTagMmap) (storedCount mem t) = storedEntries mem t ↔
      ∀ i, i < storedCount mem t → ∀ k, k < 20 →
        mem (t + 16 + 24*i + k) = mem (t + 16 + tagEntrySize mem t * i + k) := by
    unfold entriesArray storedEntries
    rw [List.map_inj_left]
    simp only [List.mem_range, mmapEntryAt_eq_iff]
    exact Iff.rfl
  rw [hentries]
  constructor
  · exact fun h => Or.inr (Or.inr (fun i _ hi => h i hi))
  · rintro (h24 | hfew | hsame) i hi k hk
    · rw [h24]
    · obtain rfl : i = 0 := by omega
      rw [Nat.mul_zero, Nat.mul_zero]
    · by_cases hfirst : i = 0
      · rw [hfirst, Nat.mul_zero, Nat.mul_zero]
      · exact hsame i (by omega) hi k hk

/-- For a well-formed information block with a map, `init_pmm` ends, and `pmm_init` processes as
many entries as the map has; they are those of the map exactly when the strides agree. -/
theorem memory_map_read_iff (mem : Mem) (mbi fuel t : ℕ) (L : List ℕ) (hblock : InfoBlock mem mbi L)
    (hfuel : L.length ≤ fuel)
    (ht : L.find? (fun x => tagType mem x = multiboot2TagMmap) = some t)
    (hsize : 16 ≤ tagSize mem t) (he : 24 ≤ tagEntrySize mem t) :
    ∃ entries, initPmmEntries mem mbi fuel = some (some entries) ∧
      (∀ kernelEnd s, initPmm mem mbi kernelEnd fuel s = some (pmmInit entries kernelEnd, [])) ∧
      entries.length = storedCount mem t ∧
      (entries = storedEntries mem t ↔ StrideAgrees mem t) := by
  have htotal : load mem mbi 4 < 2^32 := load_lt mem mbi 4
  have hfind : findMmapTag mem fuel (mbi + 8) = some (some t) := by
    rw [hblock.findMmapTag_eq hfuel (by omega), ht]
  have hentries : initPmmEntries mem mbi fuel =
      some (some (entriesArray mem (t + sizeofTagMmap) (storedCount mem t))) := by
    unfold initPmmEntries
    rw [hfind]
    change (mmapCount mem t >>= fun count => _) = _
    rw [mmapCount_eq hsize he]
    rfl
  have hlength : (entriesArray mem (t + sizeofTagMmap) (storedCount mem t)).length =
      storedCount mem t := by
    unfold entriesArray
    rw [List.length_map, List.length_range]
  have hinit (kernelEnd : ℕ) (s : Pmm) : initPmm mem mbi kernelEnd fuel s =
      some (pmmInit (entriesArray mem (t + sizeofTagMmap) (storedCount mem t)) kernelEnd, []) := by
    unfold initPmm
    rw [hentries]
    rfl
  exact ⟨_, hentries, hinit, hlength, entriesArray_eq_iff mem t⟩

/-- A block with a map of two entries of 32 bytes: 640 KB from 0 on, and 1 MB from 1 MB on. -/
def wideMap : Mem := fun a =>
  BitVec.ofNat 8 ([96, 6 + 80 * 2^32, 32, 0, 0xA0000, 1, 0, 0x100000, 0x100000, 1, 0,
    8 * 2^32].getD (a/8) 0 / 256^(a % 8))

theorem wideMap_block : InfoBlock wideMap 0 [8, 88] :=
  @TagList.cons _ _ 8 _ (by decide) (by decide)
    (@TagList.last _ _ 88 (by decide) (by decide))

theorem memory_map_read_iff_wide :
    ∃ entries, initPmmEntries wideMap 0 2 = some (some entries) ∧
      (entries = storedEntries wideMap 8 ↔ StrideAgrees wideMap 8) :=
  have h := memory_map_read_iff wideMap 0 2 8 [8, 88] wideMap_block (by decide) (by decide)
    (by decide) (by decide)
  h.elim (fun entries he => ⟨entries, he.1, he.2.2.2⟩)

/-- The second entry is read 24 bytes behind the first, across the gap between the two. -/
theorem wideMap_misread :
    InfoBlock wideMap 0 [8, 88] ∧ tagEntrySize wideMap 8 = 32 ∧
    storedEntries wideMap 8 = [⟨0, 0xA0000, 1⟩, ⟨0x100000, 0x100000, 1⟩] ∧
    initPmmEntries wideMap 0 2 = some (some [⟨0, 0xA0000, 1⟩, ⟨0, 0x100000, 0x100000⟩]) :=
  ⟨wideMap_block, by decide, by decide, by decide⟩

end SukiOS

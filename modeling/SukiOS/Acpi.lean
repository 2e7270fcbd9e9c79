import SukiOS.Lib.Memory
import SukiOS.Lib.Records

/-! The ACPI tables: `acpi_find_table` and the walks over the entries of the MADT, with every field
that they read from a table. -/
namespace SukiOS.Acpi
open ByteMemory Records

/-! ### Reads -/

/-- `size` bytes at `offset` of the table at the address `table`. -/
structure FieldRead where
  table : ℕ
  offset : ℕ
  size : ℕ
deriving DecidableEq, Repr

/-- The field `length` of `struct acpi_sdt_header`. -/
def tableLength (mem : Mem) (table : ℕ) : ℕ := load mem (table + 4) 4

def FieldRead.Inside (mem : Mem) (r : FieldRead) : Prop :=
  r.offset + r.size ≤ tableLength mem r.table

instance (mem : Mem) (r : FieldRead) : Decidable (r.Inside mem) :=
  inferInstanceAs (Decidable (_ ≤ _))

def AllInside (mem : Mem) (reads : List FieldRead) : Prop := ∀ r ∈ reads, r.Inside mem

instance (mem : Mem) (reads : List FieldRead) : Decidable (AllInside mem reads) :=
  inferInstanceAs (Decidable (∀ r ∈ reads, r.Inside mem))

/-- The size of `struct acpi_sdt_header`. -/
def sdtHeaderSize : ℕ := 36

def lengthRead (table : ℕ) : FieldRead := ⟨table, 4, 4⟩

/-! ### `acpi_find_table` -/

/-- `verify_checksum` -/
def verifyChecksum (mem : Mem) (ptr len : ℕ) : Bool :=
  ((List.range len).map (fun i => (mem (ptr + i)).toNat)).sum % 256 = 0

def checksumReads (ptr len : ℕ) : List FieldRead := (List.range len).map (fun i => ⟨ptr, i, 1⟩)

/-- The comparison of the signature from character `j` on, which ends at the first difference. -/
def compareSignature (mem : Mem) (sdt : ℕ) : ℕ → List Byte → Bool × List FieldRead
  | _, [] => (true, [])
  | j, c::cs =>
    if mem (sdt + j) = c then
      let r := compareSignature mem sdt (j+1) cs
      (r.1, ⟨sdt, j, 1⟩ :: r.2)
    else (false, [⟨sdt, j, 1⟩])

/-- The table that entry `i` points to. -/
def tableEntry (mem : Mem) (table width i : ℕ) : ℕ :=
  load mem (table + sdtHeaderSize + width * i) width

/-- The loop from entry `i` on, with the entries that are left. -/
def searchEntries (mem : Mem) (table width : ℕ) (sig : List Byte) : ℕ → ℕ →
    Option ℕ × List FieldRead
  | 0, _ => (none, [])
  | n+1, i =>
    let sdt := tableEntry mem table width i
    let c := compareSignature mem sdt 0 sig
    let here := ⟨table, sdtHeaderSize + width * i, width⟩ :: c.2
    if c.1 then (some sdt, here)
    else
      let r := searchEntries mem table width sig n (i+1)
      (r.1, here ++ r.2)

/-- `(length - sizeof(struct acpi_sdt_header)) / width`, in 64 bits and then as an `int`. -/
def entryCount (mem : Mem) (table width : ℕ) : ℤ :=
  let n : ℕ := (tableLength mem table + (2^64 - sdtHeaderSize)) % 2^64 / width % 2^32
  if n < 2^31 then (n : ℤ) else (n : ℤ) - 2^32

/-- One of the two branches: the XSDT has entries of 8 bytes, the RSDT of 4. -/
def searchTable (mem : Mem) (table width : ℕ) (sig : List Byte) : Option ℕ × List FieldRead :=
  let len := tableLength mem table
  let check := lengthRead table :: checksumReads table len
  if verifyChecksum mem table len then
    let r := searchEntries mem table width sig (entryCount mem table width).toNat 0
    (r.1, check ++ lengthRead table :: r.2)
  else (none, check)

/-- The table that is searched, and the size of its entries. -/
def rootTable (mem : Mem) (rsdp : ℕ) : Option (ℕ × ℕ) :=
  if 2 ≤ load mem (rsdp + 15) 1 ∧ load mem (rsdp + 24) 8 ≠ 0 then some (load mem (rsdp + 24) 8, 8)
  else if load mem (rsdp + 16) 4 ≠ 0 then some (load mem (rsdp + 16) 4, 4)
  else none

def acpiFindTable (mem : Mem) (rsdp : ℕ) (sig : List Byte) : Option ℕ × List FieldRead :=
  match rootTable mem rsdp with
  | some (table, width) => searchTable mem table width sig
  | none => (none, [])

/-! ### The MADT -/

/-- The sizes of `struct acpi_madt` and of `struct acpi_madt_entry`. -/
def madtSize : ℕ := 44
def madtEntrySize : ℕ := 2

def entryType (mem : Mem) (hdr off : ℕ) : ℕ := load mem (hdr + off) 1
def entryLength (mem : Mem) (hdr off : ℕ) : ℕ := load mem (hdr + off + 1) 1

/-- The loop of both walks, over the offsets of the entries; `body` is what is done with an entry.
`none` stands for a walk that is not over after `fuel` rounds. -/
def walkEntries {σ : Type} (mem : Mem) (hdr : ℕ) (body : ℕ → σ → σ × List FieldRead) :
    ℕ → ℕ → σ → Option (σ × List FieldRead)
  | 0, _, _ => none
  | fuel+1, off, s =>
    if off + madtEntrySize ≤ tableLength mem hdr then
      if entryLength mem hdr off < madtEntrySize then some (s, [⟨hdr, off+1, 1⟩])
      else
        let b := body off s
        (walkEntries mem hdr body fuel (off + entryLength mem hdr off) b.1).map
          (fun r => (r.1, ⟨hdr, off+1, 1⟩ :: b.2 ++ r.2))
    else some (s, [])

/-- `struct acpi_madt_info` -/
structure MadtInfo where
  lapicAddr : ℕ
  flags : ℕ
  ioapicFound : Bool
  ioapicId : ℕ
  ioapicAddr : ℕ
  ioapicGsiBase : ℕ
deriving DecidableEq, Repr

def madtBody (mem : Mem) (hdr off : ℕ) (info : MadtInfo) : MadtInfo × List FieldRead :=
  if entryType mem hdr off = 1 then
    ({ info with
        ioapicFound := true
        ioapicId := load mem (hdr + off + 2) 1
        ioapicAddr := load mem (hdr + off + 4) 4
        ioapicGsiBase := load mem (hdr + off + 8) 4 },
      [⟨hdr, off, 1⟩, ⟨hdr, off+2, 1⟩, ⟨hdr, off+4, 4⟩, ⟨hdr, off+8, 4⟩])
  else if entryType mem hdr off = 5 then
    ({ info with lapicAddr := load mem (hdr + off + 4) 8 % 2^32 }, [⟨hdr, off, 1⟩, ⟨hdr, off+4, 8⟩])
  else (info, [⟨hdr, off, 1⟩])

def acpiParseMadt (mem : Mem) (hdr fuel : ℕ) : Option (MadtInfo × List FieldRead) :=
  let info : MadtInfo := {
    lapicAddr := load mem (hdr + 36) 4
    flags := load mem (hdr + 40) 4
    ioapicFound := false
    ioapicId := 0
    ioapicAddr := 0
    ioapicGsiBase := 0 }
  (walkEntries mem hdr (madtBody mem hdr) fuel madtSize info).map
    (fun r => (r.1, ⟨hdr, 36, 4⟩ :: ⟨hdr, 40, 4⟩ :: lengthRead hdr :: r.2))

/-- The fields of `struct acpi_madt_int_override` after its head. -/
structure IntOverride where
  bus : ℕ
  irq : ℕ
  gsi : ℕ
  flags : ℕ
deriving DecidableEq, Repr

def acpiMaxIsaOverrides : ℕ := 16

def intOverrideAt (mem : Mem) (hdr off : ℕ) : IntOverride where
  bus := load mem (hdr + off + 2) 1
  irq := load mem (hdr + off + 3) 1
  gsi := load mem (hdr + off + 4) 4
  flags := load mem (hdr + off + 8) 2

/-- The state is `isa_overrides` up to `isa_override_count`. -/
def isaBody (mem : Mem) (hdr off : ℕ) (overrides : List IntOverride) :
    List IntOverride × List FieldRead :=
  if entryType mem hdr off = 2 ∧ overrides.length < acpiMaxIsaOverrides then
    (overrides ++ [intOverrideAt mem hdr off], [⟨hdr, off, 1⟩, ⟨hdr, off, 10⟩])
  else (overrides, [⟨hdr, off, 1⟩])

def acpiParseIsaOverrides (mem : Mem) (hdr fuel : ℕ) : Option (List IntOverride × List FieldRead) :=
  (walkEntries mem hdr (isaBody mem hdr) fuel madtSize []).map
    (fun r => (r.1, lengthRead hdr :: r.2))

/-- The result is the GSI and the flags. -/
def acpiGetIsaOverride (overrides : List IntOverride) (isaIrq : ℕ) : ℕ × ℕ :=
  match overrides.find? (fun ov => ov.irq == isaIrq) with
  | some ov => (ov.gsi, ov.flags)
  | none => (isaIrq, 0)

/-! ### The entries of a MADT -/

/-- The offsets of the entries, by their lengths. -/
def madtEntries (mem : Mem) (hdr : ℕ) : List ℕ :=
  records madtEntrySize (entryLength mem hdr) (tableLength mem hdr)
    (tableLength mem hdr + 1) madtSize

section Walk
variable {σ : Type} {mem : Mem} {hdr fuel off : ℕ} {body : ℕ → σ → σ × List FieldRead}

/-- The fields that are read of the entries, in the states that the walk passes through. -/
def BodyInside (mem : Mem) (body : ℕ → σ → σ × List FieldRead) : σ → List ℕ → Prop
  | _, [] => True
  | s, off::offs => AllInside mem (body off s).2 ∧ BodyInside mem body (body off s).1 offs

theorem allInside_cons {r : FieldRead} {reads : List FieldRead} :
    AllInside mem (r::reads) ↔ r.Inside mem ∧ AllInside mem reads := List.forall_mem_cons

theorem allInside_append {reads reads' : List FieldRead} :
    AllInside mem (reads ++ reads') ↔ AllInside mem reads ∧ AllInside mem reads' :=
  List.forall_mem_append

theorem allInside_nil : AllInside mem [] := fun _ h => absurd h List.not_mem_nil

/-- A round moves on by at least two bytes, so the walk ends; it folds its body over the entries,
and its reads are inside when those of the body are. -/
theorem walkEntries_spec (fuel : ℕ) : ∀ (off : ℕ) (s : σ), tableLength mem hdr < off + fuel →
    0 < fuel →
    ∃ r, walkEntries mem hdr body fuel off s = some r ∧
      r.1 = (records madtEntrySize (entryLength mem hdr) (tableLength mem hdr) fuel off).foldl
        (fun s off => (body off s).1) s ∧
      (AllInside mem r.2 ↔ BodyInside mem body s
        (records madtEntrySize (entryLength mem hdr) (tableLength mem hdr) fuel off)) := by
  induction fuel with
  | zero => exact fun _ _ _ h => absurd h (Nat.lt_irrefl 0)
  | succ fuel ih =>
    intro off s hfuel _
    unfold walkEntries records
    by_cases hend : off + madtEntrySize ≤ tableLength mem hdr
    · have hhead : FieldRead.Inside mem ⟨hdr, off+1, 1⟩ := by
        unfold FieldRead.Inside
        unfold madtEntrySize at hend
        exact hend
      rw [if_pos hend]
      by_cases hlen : entryLength mem hdr off < madtEntrySize
      · rw [if_pos hlen, if_neg (fun h => absurd h.2 (by omega))]
        refine ⟨_, rfl, rfl, ?_⟩
        exact ⟨fun _ => trivial, fun _ => allInside_cons.mpr ⟨hhead, allInside_nil⟩⟩
      · rw [if_neg hlen, if_pos ⟨hend, by omega⟩]
        unfold madtEntrySize at hend hlen
        obtain ⟨r, hr, hstate, hreads⟩ := ih (off + entryLength mem hdr off) (body off s).1
          (by omega) (by omega)
        dsimp only
        rw [hr]
        refine ⟨_, rfl, hstate, ?_⟩
        dsimp only
        rw [List.cons_append, allInside_cons, allInside_append, hreads]
        exact ⟨fun h => h.2, fun h => ⟨hhead, h⟩⟩
    · rw [if_neg hend, if_neg (fun h => hend h.1)]
      exact ⟨_, rfl, rfl, fun _ => trivial, fun _ => allInside_nil⟩

/-- With fuel for the bytes of the table the walk is over the entries of the table. -/
theorem walkMadt_spec (body : ℕ → σ → σ × List FieldRead) (s : σ)
    (hfuel : tableLength mem hdr < fuel) :
    ∃ r, walkEntries mem hdr body fuel madtSize s = some r ∧
      r.1 = (madtEntries mem hdr).foldl (fun s off => (body off s).1) s ∧
      (AllInside mem r.2 ↔ BodyInside mem body s (madtEntries mem hdr)) := by
  have hsame : records madtEntrySize (entryLength mem hdr) (tableLength mem hdr) fuel madtSize =
      madtEntries mem hdr := by
    apply records_steps (by decide) fuel
    · omega
    · omega
  rw [← hsame]
  exact walkEntries_spec fuel madtSize s (by omega) (by omega)

end Walk

/-! ### Where the walks stay inside -/

/-- How many characters are compared from character `j` on. -/
def comparedChars (mem : Mem) (sdt : ℕ) : ℕ → List Byte → ℕ
  | _, [] => 0
  | j, c::cs => if mem (sdt + j) = c then comparedChars mem sdt (j+1) cs + 1 else 1

/-- The first characters of the table are those of `sig`. -/
def SignatureIs (mem : Mem) (sdt : ℕ) (sig : List Byte) : Prop :=
  ∀ j, j < sig.length → sig[j]? = some (mem (sdt + j))

/-- The root table has a whole `length` field, and each table that it lists, up to the first with
the signature, is as long as the characters that are compared. -/
def FindWithinTables (mem : Mem) (rsdp : ℕ) (sig : List Byte) : Prop :=
  ∀ table width, rootTable mem rsdp = some (table, width) → 8 ≤ tableLength mem table ∧
    (verifyChecksum mem table (tableLength mem table) = true →
      ∀ i, i < (tableLength mem table - sdtHeaderSize) / width →
      (∀ j, j < i → ¬ SignatureIs mem (tableEntry mem table width j) sig) →
      comparedChars mem (tableEntry mem table width i) 0 sig ≤
        tableLength mem (tableEntry mem table width i))

/-- The fixed part of the MADT is there, and no entry of type 1 or 5 begins in its last 11 bytes. -/
def MadtWithinTable (mem : Mem) (hdr : ℕ) : Prop :=
  44 ≤ tableLength mem hdr ∧ ∀ off ∈ madtEntries mem hdr,
    entryType mem hdr off = 1 ∨ entryType mem hdr off = 5 → off + 12 ≤ tableLength mem hdr

/-- The field `length` is there, and none of the first 16 entries of type 2 begins in the last 9
bytes. -/
def IsaWithinTable (mem : Mem) (hdr : ℕ) : Prop :=
  8 ≤ tableLength mem hdr ∧
    ∀ off ∈ ((madtEntries mem hdr).filter (fun off => entryType mem hdr off == 2)).take 16,
      off + 10 ≤ tableLength mem hdr

/-- The calls end, and every field that they read lies inside its table. -/
structure AcpiInside (mem : Mem) (rsdp : ℕ) (sig : List Byte) (hdr : ℕ) : Prop where
  find : AllInside mem (acpiFindTable mem rsdp sig).2
  madt : ∀ fuel, tableLength mem hdr < fuel →
    ∃ r, acpiParseMadt mem hdr fuel = some r ∧ AllInside mem r.2
  isa : ∀ fuel, tableLength mem hdr < fuel →
    ∃ r, acpiParseIsaOverrides mem hdr fuel = some r ∧ AllInside mem r.2

section Find
variable {mem : Mem} {table width sdt : ℕ} {sig : List Byte}

theorem compareSignature_inside (mem : Mem) (sdt : ℕ) (sig : List Byte) :
    ∀ j, AllInside mem (compareSignature mem sdt j sig).2 ↔
    comparedChars mem sdt j sig = 0 ∨ j + comparedChars mem sdt j sig ≤ tableLength mem sdt := by
  induction sig with
  | nil => exact fun j => ⟨fun _ => Or.inl rfl, fun _ => allInside_nil⟩
  | cons c cs ih =>
    intro j
    unfold compareSignature comparedChars
    have hone : FieldRead.Inside mem ⟨sdt, j, 1⟩ ↔ j + 1 ≤ tableLength mem sdt := Iff.rfl
    by_cases hc : mem (sdt + j) = c
    · rw [if_pos hc, if_pos hc]
      dsimp only
      rw [allInside_cons, ih, hone]
      omega
    · rw [if_neg hc, if_neg hc]
      dsimp only
      rw [allInside_cons, hone]
      exact ⟨fun h => Or.inr h.1, fun h => ⟨by omega, allInside_nil⟩⟩

theorem compareSignature_iff (sig : List Byte) : ∀ j, (compareSignature mem sdt j sig).1 = true ↔
    ∀ i, i < sig.length → sig[i]? = some (mem (sdt + (j + i))) := by
  induction sig with
  | nil => exact fun j => ⟨fun _ i hi => absurd hi (Nat.not_lt_zero i), fun _ => rfl⟩
  | cons c cs ih =>
    intro j
    unfold compareSignature
    by_cases hc : mem (sdt + j) = c
    · rw [if_pos hc]
      dsimp only
      rw [ih]
      constructor
      · intro h i hi
        cases i with
        | zero => exact congrArg some hc.symm
        | succ i =>
          have hrest := h i (Nat.lt_of_succ_lt_succ hi)
          rw [List.getElem?_cons_succ, hrest, Nat.add_right_comm, Nat.add_assoc]
      · intro h i hi
        have hrest := h (i+1) (Nat.succ_lt_succ hi)
        rw [List.getElem?_cons_succ] at hrest
        rw [hrest, Nat.add_right_comm, Nat.add_assoc]
    · rw [if_neg hc]
      constructor
      · exact fun h => Bool.noConfusion h
      · intro h
        exact absurd (Option.some.inj (h 0 (Nat.succ_pos _))).symm hc

theorem signatureIs_iff : SignatureIs mem sdt sig ↔ (compareSignature mem sdt 0 sig).1 = true := by
  rw [compareSignature_iff]
  simp only [Nat.zero_add, SignatureIs]

/-- The entries are inside because they are counted; what they point to is another matter. -/
theorem searchEntries_inside (sig : List Byte) (n : ℕ) : ∀ i,
    (∀ k, i ≤ k → k < i + n → sdtHeaderSize + width * k + width ≤ tableLength mem table) →
    (AllInside mem (searchEntries mem table width sig n i).2 ↔
      ∀ k, i ≤ k → k < i + n → (∀ j, i ≤ j → j < k →
        ¬ SignatureIs mem (tableEntry mem table width j) sig) →
        comparedChars mem (tableEntry mem table width k) 0 sig ≤
          tableLength mem (tableEntry mem table width k)) := by
  induction n with
  | zero => exact fun i _ => ⟨fun _ k h1 h2 => absurd h1 (by omega), fun _ => allInside_nil⟩
  | succ n ih =>
    intro i hcount
    have hhere : FieldRead.Inside mem ⟨table, sdtHeaderSize + width * i, width⟩ :=
      hcount i (Nat.le_refl i) (by omega)
    have hcmp := compareSignature_inside mem (tableEntry mem table width i) sig 0
    rw [Nat.zero_add] at hcmp
    have hcmp' : AllInside mem (compareSignature mem (tableEntry mem table width i) 0 sig).2 ↔
        comparedChars mem (tableEntry mem table width i) 0 sig ≤
          tableLength mem (tableEntry mem table width i) := by
      rw [hcmp]
      omega
    have hrest := ih (i+1) (fun k h1 h2 => hcount k (by omega) (by omega))
    unfold searchEntries
    dsimp only
    by_cases hsig : (compareSignature mem (tableEntry mem table width i) 0 sig).1 = true
    · rw [if_pos hsig]
      dsimp only
      rw [allInside_cons, hcmp']
      constructor
      · intro h k hik _ hfirst
        by_cases hk : k = i
        · rw [hk]
          exact h.2
        · exact absurd (signatureIs_iff.mpr hsig) (hfirst i (Nat.le_refl i) (by omega))
      · intro h
        exact ⟨hhere, h i (Nat.le_refl i) (by omega) (fun j h1 h2 => absurd h1 (by omega))⟩
    · rw [if_neg hsig]
      dsimp only
      rw [List.cons_append, allInside_cons, allInside_append, hcmp', hrest]
      have hnot : ¬ SignatureIs mem (tableEntry mem table width i) sig := fun h =>
        hsig (signatureIs_iff.mp h)
      constructor
      · intro h k hik hk hfirst
        by_cases hki : k = i
        · rw [hki]
          exact h.2.1
        · exact h.2.2 k (by omega) (by omega) (fun j h1 h2 => hfirst j (by omega) h2)
      · intro h
        refine ⟨hhere, h i (Nat.le_refl i) (by omega) (fun j h1 h2 => absurd h1 (by omega)), ?_⟩
        intro k hik hk hfirst
        apply h k (by omega) (by omega)
        intro j h1 h2
        by_cases hj : j = i
        · rw [hj]
          exact hnot
        · exact hfirst j (by omega) h2

/-- The subtraction wraps around for a table without a whole header, and the `int` is negative. -/
theorem entryCount_toNat (mem : Mem) (table : ℕ) (hw : width = 8 ∨ width = 4) :
    (entryCount mem table width).toNat = (tableLength mem table - sdtHeaderSize) / width := by
  have hlen : tableLength mem table < 256^4 := load_lt _ _ 4
  unfold entryCount sdtHeaderSize
  generalize tableLength mem table = len at hlen ⊢
  dsimp only
  cases hw with
  | inl h =>
    subst h
    split <;> omega
  | inr h =>
    subst h
    split <;> omega

theorem searchTable_inside (hw : width = 8 ∨ width = 4) :
    AllInside mem (searchTable mem table width sig).2 ↔ 8 ≤ tableLength mem table ∧
      (verifyChecksum mem table (tableLength mem table) = true →
        ∀ i, i < (tableLength mem table - sdtHeaderSize) / width →
        (∀ j, j < i → ¬ SignatureIs mem (tableEntry mem table width j) sig) →
        comparedChars mem (tableEntry mem table width i) 0 sig ≤
          tableLength mem (tableEntry mem table width i)) := by
  have hlength : (lengthRead table).Inside mem ↔ 8 ≤ tableLength mem table := Iff.rfl
  have hcheck : AllInside mem (checksumReads table (tableLength mem table)) := by
    intro r hr
    obtain ⟨i, hi, rfl⟩ := List.mem_map.mp hr
    exact List.mem_range.mp hi
  have hcount := entryCount_toNat mem table hw
  have hentries : ∀ k, 0 ≤ k → k < 0 + (entryCount mem table width).toNat →
      sdtHeaderSize + width * k + width ≤ tableLength mem table := by
    intro k _ hk
    rw [Nat.zero_add, hcount] at hk
    have hmul : (k + 1) * width ≤ tableLength mem table - sdtHeaderSize :=
      (Nat.le_div_iff_mul_le (by omega)).mp hk
    rw [Nat.succ_mul, Nat.mul_comm k width] at hmul
    have hpos : 0 < width := by omega
    omega
  have hsearch := searchEntries_inside sig _ 0 hentries
  rw [hcount] at hsearch
  unfold searchTable
  dsimp only
  by_cases hsum : verifyChecksum mem table (tableLength mem table) = true
  · rw [if_pos hsum]
    dsimp only
    rw [allInside_append, allInside_cons, allInside_cons, hlength, hcount, hsearch]
    constructor
    · intro h
      refine ⟨h.1.1, fun _ i hi hfirst => ?_⟩
      apply h.2.2 i (Nat.zero_le i) (by omega)
      exact fun j _ hj => hfirst j hj
    · intro h
      refine ⟨⟨h.1, hcheck⟩, h.1, fun i _ hi hfirst => ?_⟩
      apply h.2 hsum i (by omega)
      exact fun j hj => hfirst j (Nat.zero_le j) hj
  · rw [if_neg hsum]
    dsimp only
    rw [allInside_cons, hlength]
    exact ⟨fun h => ⟨h.1, fun h' => absurd h' hsum⟩, fun h => ⟨h.1, hcheck⟩⟩

theorem rootTable_width {rsdp : ℕ} (h : rootTable mem rsdp = some (table, width)) :
    width = 8 ∨ width = 4 := by
  unfold rootTable at h
  split at h
  · exact Or.inl (Prod.mk.inj (Option.some.inj h)).2.symm
  · split at h
    · exact Or.inr (Prod.mk.inj (Option.some.inj h)).2.symm
    · cases h

theorem acpiFindTable_inside (rsdp : ℕ) :
    AllInside mem (acpiFindTable mem rsdp sig).2 ↔ FindWithinTables mem rsdp sig := by
  unfold acpiFindTable FindWithinTables
  cases hroot : rootTable mem rsdp with
  | none => exact ⟨fun _ _ _ h => (Option.some_ne_none _ h.symm).elim, fun _ => allInside_nil⟩
  | some root =>
    obtain ⟨table, width⟩ := root
    dsimp only
    rw [searchTable_inside (rootTable_width hroot)]
    constructor
    · intro h table' width' heq
      obtain ⟨rfl, rfl⟩ := Prod.mk.inj (Option.some.inj heq)
      exact h
    · exact fun h => h table width rfl

end Find

section Madt
variable {mem : Mem} {hdr : ℕ}

theorem madtBody_inside {off : ℕ} (info : MadtInfo) (hin : off + 2 ≤ tableLength mem hdr) :
    AllInside mem (madtBody mem hdr off info).2 ↔
      (entryType mem hdr off = 1 ∨ entryType mem hdr off = 5 → off + 12 ≤ tableLength mem hdr) := by
  have hread : ∀ o n, FieldRead.Inside mem ⟨hdr, o, n⟩ ↔ o + n ≤ tableLength mem hdr :=
    fun _ _ => Iff.rfl
  have hnil : AllInside mem [] ↔ True := ⟨fun _ => trivial, fun _ => allInside_nil⟩
  unfold madtBody
  by_cases h1 : entryType mem hdr off = 1
  · rw [if_pos h1]
    simp only [allInside_cons, hread, hnil, and_true]
    constructor
    · intro h _
      omega
    · intro h
      have hlast := h (Or.inl h1)
      omega
  · rw [if_neg h1]
    by_cases h5 : entryType mem hdr off = 5
    · rw [if_pos h5]
      simp only [allInside_cons, hread, hnil, and_true]
      constructor
      · intro h _
        omega
      · intro h
        have hlast := h (Or.inr h5)
        omega
    · rw [if_neg h5]
      simp only [allInside_cons, hread, hnil, and_true]
      constructor
      · exact fun _ h => absurd h (not_or.mpr ⟨h1, h5⟩)
      · intro _
        omega

theorem madtBodies_inside (offs : List ℕ) : ∀ info, (∀ off ∈ offs, off + 2 ≤ tableLength mem hdr) →
    (BodyInside mem (madtBody mem hdr) info offs ↔ ∀ off ∈ offs,
      entryType mem hdr off = 1 ∨ entryType mem hdr off = 5 → off + 12 ≤ tableLength mem hdr) := by
  induction offs with
  | nil => exact fun _ _ => ⟨fun _ off h => absurd h List.not_mem_nil, fun _ => trivial⟩
  | cons off offs ih =>
    intro info hin
    unfold BodyInside
    rw [madtBody_inside info (hin off List.mem_cons_self),
      ih _ (fun o ho => hin o (List.mem_cons_of_mem off ho)), List.forall_mem_cons]

/-- An override is copied whole while there is room for it. -/
theorem isaBodies_inside (offs : List ℕ) : ∀ overrides,
    (∀ off ∈ offs, off + 2 ≤ tableLength mem hdr) →
    (BodyInside mem (isaBody mem hdr) overrides offs ↔
      ∀ off ∈ (offs.filter (fun off => entryType mem hdr off == 2)).take (16 - overrides.length),
        off + 10 ≤ tableLength mem hdr) := by
  induction offs with
  | nil =>
    intro overrides _
    rw [List.filter_nil, List.take_nil]
    exact ⟨fun _ off h => absurd h List.not_mem_nil, fun _ => trivial⟩
  | cons off offs ih =>
    intro overrides hin
    have hrest : ∀ o ∈ offs, o + 2 ≤ tableLength mem hdr :=
      fun o ho => hin o (List.mem_cons_of_mem off ho)
    have hoff := hin off List.mem_cons_self
    have htype : FieldRead.Inside mem ⟨hdr, off, 1⟩ := by
      change off + 1 ≤ tableLength mem hdr
      omega
    change AllInside mem (isaBody mem hdr off overrides).2 ∧
      BodyInside mem (isaBody mem hdr) (isaBody mem hdr off overrides).1 offs ↔ _
    by_cases htwo : entryType mem hdr off = 2
    · rw [List.filter_cons_of_pos (by rw [htwo]; rfl)]
      by_cases hroom : overrides.length < 16
      · have hbody : isaBody mem hdr off overrides =
            (overrides ++ [intOverrideAt mem hdr off], [⟨hdr, off, 1⟩, ⟨hdr, off, 10⟩]) :=
          if_pos ⟨htwo, hroom⟩
        have hcopy : FieldRead.Inside mem ⟨hdr, off, 10⟩ ↔ off + 10 ≤ tableLength mem hdr := Iff.rfl
        have hmore : 16 - overrides.length = 16 - (overrides.length + 1) + 1 := by omega
        rw [hbody, hmore, List.take_succ_cons, List.forall_mem_cons]
        dsimp only
        rw [ih _ hrest, List.length_append, List.length_singleton, allInside_cons, allInside_cons,
          hcopy]
        exact ⟨fun h => ⟨h.1.2.1, h.2⟩, fun h => ⟨⟨htype, h.1, allInside_nil⟩, h.2⟩⟩
      · have hbody : isaBody mem hdr off overrides = (overrides, [⟨hdr, off, 1⟩]) :=
          if_neg (fun h => hroom h.2)
        have hnone : 16 - overrides.length = 0 := by omega
        have hin' := ih overrides hrest
        rw [hnone, List.take_zero] at hin'
        rw [hbody, hnone, List.take_zero]
        exact ⟨fun h => hin'.mp h.2, fun h =>
          ⟨allInside_cons.mpr ⟨htype, allInside_nil⟩, hin'.mpr h⟩⟩
    · have hbody : isaBody mem hdr off overrides = (overrides, [⟨hdr, off, 1⟩]) :=
        if_neg (fun h => htwo h.1)
      rw [List.filter_cons_of_neg (by simpa using htwo), hbody, ← ih overrides hrest]
      exact ⟨fun h => h.2, fun h => ⟨allInside_cons.mpr ⟨htype, allInside_nil⟩, h⟩⟩

theorem madtEntries_fit {off : ℕ} (h : off ∈ madtEntries mem hdr) : off + 2 ≤ tableLength mem hdr :=
  (records_fit h).1

/-- A walk that ends under each fuel behind the table, inside the table or not for the same reason,
is inside exactly for that reason. -/
theorem inside_of_each_fuel {α : Type*} {f : ℕ → Option (α × List FieldRead)} {b : ℕ} {P : Prop}
    (hone : ∀ fuel, b < fuel → ∃ r, f fuel = some r ∧ (AllInside mem r.2 ↔ P)) :
    (∀ fuel, b < fuel → ∃ r, f fuel = some r ∧ AllInside mem r.2) ↔ P := by
  constructor
  · intro h
    obtain ⟨r, hr, hiff⟩ := hone (b+1) (Nat.lt_succ_self b)
    obtain ⟨r', hr', hin⟩ := h (b+1) (Nat.lt_succ_self b)
    rw [hr] at hr'
    rw [← Option.some.inj hr'] at hin
    exact hiff.mp hin
  · intro h fuel hfuel
    obtain ⟨r, hr, hiff⟩ := hone fuel hfuel
    exact ⟨r, hr, hiff.mpr h⟩

theorem acpiParseMadt_inside : (∀ fuel, tableLength mem hdr < fuel →
    ∃ r, acpiParseMadt mem hdr fuel = some r ∧ AllInside mem r.2) ↔ MadtWithinTable mem hdr := by
  have hread : ∀ o n, FieldRead.Inside mem ⟨hdr, o, n⟩ ↔ o + n ≤ tableLength mem hdr :=
    fun _ _ => Iff.rfl
  apply inside_of_each_fuel
  intro fuel hfuel
  unfold acpiParseMadt
  dsimp only
  generalize ({ lapicAddr := load mem (hdr + 36) 4, flags := load mem (hdr + 40) 4
                ioapicFound := false, ioapicId := 0, ioapicAddr := 0
                ioapicGsiBase := 0 } : MadtInfo) = info
  obtain ⟨r, hr, -, hin⟩ := walkMadt_spec (madtBody mem hdr) info hfuel
  rw [hr]
  refine ⟨_, rfl, ?_⟩
  dsimp only
  rw [allInside_cons, allInside_cons, allInside_cons, hin,
    madtBodies_inside _ _ (fun off h => madtEntries_fit h), hread, hread]
  unfold lengthRead MadtWithinTable
  rw [hread]
  constructor
  · exact fun h => ⟨h.2.1, h.2.2.2⟩
  · exact fun h => ⟨by omega, h.1, by omega, h.2⟩

theorem acpiParseIsaOverrides_inside : (∀ fuel, tableLength mem hdr < fuel →
    ∃ r, acpiParseIsaOverrides mem hdr fuel = some r ∧ AllInside mem r.2) ↔
      IsaWithinTable mem hdr := by
  apply inside_of_each_fuel
  intro fuel hfuel
  unfold acpiParseIsaOverrides
  obtain ⟨r, hr, -, hin⟩ := walkMadt_spec (isaBody mem hdr) [] hfuel
  rw [hr]
  refine ⟨_, rfl, ?_⟩
  dsimp only
  rw [allInside_cons, hin, isaBodies_inside _ _ (fun off h => madtEntries_fit h)]
  exact Iff.rfl

end Madt

/-- The three functions always end; they stay inside their tables exactly under these conditions. -/
theorem acpi_inside_iff (mem : Mem) (rsdp : ℕ) (sig : List Byte) (hdr : ℕ) :
    AcpiInside mem rsdp sig hdr ↔
      FindWithinTables mem rsdp sig ∧ MadtWithinTable mem hdr ∧ IsaWithinTable mem hdr := by
  rw [← acpiFindTable_inside, ← acpiParseMadt_inside, ← acpiParseIsaOverrides_inside]
  exact ⟨fun h => ⟨h.find, h.madt, h.isa⟩, fun h => ⟨h.1, h.2.1, h.2.2⟩⟩

/-- A MADT of 50 bytes at 0x1000 whose only entry is an I/O APIC of 12 bytes. -/
def truncatedMadt : Mem := fun a =>
  if a = 0x1004 then 50#8 else if a = 0x102C then 1#8 else if a = 0x102D then 12#8 else 0#8

/-- Of the entry 6 bytes are in the table; the address and the GSI base are read behind it. -/
theorem madt_entry_read_beyond : ¬ ∀ mem rsdp sig hdr, AcpiInside mem rsdp sig hdr := by
  intro hall
  obtain ⟨r, hr, hin⟩ := (hall truncatedMadt 0 [] 0x1000).madt 51 (by decide)
  have hwalk : acpiParseMadt truncatedMadt 0x1000 51 = some (⟨0, 0, true, 0, 0, 0⟩,
      [⟨0x1000, 36, 4⟩, ⟨0x1000, 40, 4⟩, ⟨0x1000, 4, 4⟩, ⟨0x1000, 45, 1⟩, ⟨0x1000, 44, 1⟩,
        ⟨0x1000, 46, 1⟩, ⟨0x1000, 48, 4⟩, ⟨0x1000, 52, 4⟩]) := by decide
  rw [hwalk] at hr
  rw [← Option.some.inj hr] at hin
  exact absurd (hin ⟨0x1000, 52, 4⟩ (by decide)) (by decide)

end SukiOS.Acpi

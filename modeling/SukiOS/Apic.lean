import Mathlib.Data.Finset.Card
import Mathlib.Data.Finset.Range
import Mathlib.Data.List.Induction
import SukiOS.Acpi

/-! The I/O APIC: `ioapic_set_redirection`, the redirection that the keyboard asks for, and what the
MADT says about it. -/
namespace SukiOS.Acpi
open ByteMemory Records

/-! ### The driver -/

def irqKeyboard : ℕ := 0x21
def ioapicRedirBase : ℕ := 0x10
def ioapicRedirMask : ℕ := 2^16
def ioapicRedirPolarity : ℕ := 2^13
def ioapicRedirTrigger : ℕ := 2^15

/-- The values that are written to the registers, in order. -/
def ioapicSetRedirection (irqPin vector : ℕ) (masked : Bool) (flags : ℕ) : List (ℕ × ℕ) :=
  let reg := ioapicRedirBase + irqPin * 2
  let polarity := flags &&& 0x3
  let trigger := flags >>> 2 &&& 0x3
  let low := vector ||| (if polarity = 2 then ioapicRedirPolarity else 0) |||
    (if trigger = 4 then ioapicRedirTrigger else 0) ||| (if masked then ioapicRedirMask else 0)
  [(reg, low), (reg + 1, 0)]

/-- The call in `keyboard_init`; the GSI is cast to `uint8_t`. -/
def keyboardRedirection (overrides : List IntOverride) : List (ℕ × ℕ) :=
  let r := acpiGetIsaOverride overrides 1
  ioapicSetRedirection (r.1 % 2^8) irqKeyboard false r.2

/-- The parts of `apic_init` and `keyboard_init` that route the keyboard: the address of the I/O
APIC that is set up, if any, and the registers that are written there. -/
def routeKeyboard (mem : Mem) (hdr fuel : ℕ) : Option (Option ℕ × List (ℕ × ℕ)) := do
  let info ← acpiParseMadt mem hdr fuel
  let isa ← acpiParseIsaOverrides mem hdr fuel
  return (if info.1.ioapicFound then some info.1.ioapicAddr else none, keyboardRedirection isa.1)

/-! ### What the table says -/

structure Ioapic where
  addr : ℕ
  gsiBase : ℕ
deriving DecidableEq, Repr

def ioapicAt (mem : Mem) (hdr off : ℕ) : Ioapic where
  addr := load mem (hdr + off + 4) 4
  gsiBase := load mem (hdr + off + 8) 4

def madtIoapics (mem : Mem) (hdr : ℕ) : List Ioapic :=
  ((madtEntries mem hdr).filter (fun off => entryType mem hdr off == 1)).map (ioapicAt mem hdr)

def madtOverrides (mem : Mem) (hdr : ℕ) : List IntOverride :=
  ((madtEntries mem hdr).filter (fun off => entryType mem hdr off == 2)).map (intOverrideAt mem hdr)

/-- The I/O APICs have addresses of their own; the overrides are for the 16 interrupts of the ISA
bus, at most one for each. -/
structure MadtWellFormed (mem : Mem) (hdr : ℕ) : Prop where
  ioapics : ((madtIoapics mem hdr).map Ioapic.addr).Nodup
  isa : ∀ ov ∈ madtOverrides mem hdr, ov.bus = 0 ∧ ov.irq < 16
  once : ((madtOverrides mem hdr).map IntOverride.irq).Nodup

/-- The GSI and the flags of an ISA interrupt. -/
def madtRoute (mem : Mem) (hdr irq : ℕ) : ℕ × ℕ :=
  match (madtOverrides mem hdr).find? (fun ov => ov.irq == irq) with
  | some ov => (ov.gsi, ov.flags)
  | none => (irq, 0)

/-- The redirection entries of an I/O APIC with the version register `ver`. -/
def redirEntries (ver : ℕ) : ℕ := (ver >>> 16 &&& 0xFF) + 1

/-- The encoding of the ACPI specification: 3 is active low, and 3 is level. -/
def FlagsActiveLow (flags : ℕ) : Prop := flags &&& 0x3 = 3
def FlagsLevel (flags : ℕ) : Prop := flags >>> 2 &&& 0x3 = 3

instance (flags : ℕ) : Decidable (FlagsLevel flags) := inferInstanceAs (Decidable (_ = _))

/-- What is written is the entry of the GSI of IRQ 1 at an I/O APIC whose range contains it, with
the polarity and the trigger mode of the flags. -/
def RoutedAsMadtSays (mem : Mem) (hdr : ℕ) (version : ℕ → ℕ) (written : Option ℕ × List (ℕ × ℕ)) :
    Prop :=
  let route := madtRoute mem hdr 1
  ∃ io ∈ madtIoapics mem hdr, written.1 = some io.addr ∧
    io.gsiBase ≤ route.1 ∧ route.1 < io.gsiBase + redirEntries (version io.addr) ∧
    ∃ low high,
      written.2 = [(0x10 + 2 * (route.1 - io.gsiBase), low),
        (0x10 + 2 * (route.1 - io.gsiBase) + 1, high)] ∧
      (low.testBit 13 = true ↔ FlagsActiveLow route.2) ∧
      (low.testBit 15 = true ↔ FlagsLevel route.2)

/-- The range of the I/O APIC that is listed last contains the GSI and begins at a multiple of 256,
and the flags ask neither for active low nor for level. -/
def KeyboardRoutable (mem : Mem) (hdr : ℕ) (version : ℕ → ℕ) : Prop :=
  let route := madtRoute mem hdr 1
  (∃ io, (madtIoapics mem hdr).getLast? = some io ∧ io.gsiBase ≤ route.1 ∧
    route.1 < io.gsiBase + redirEntries (version io.addr) ∧ io.gsiBase % 2^8 = 0) ∧
  route.2 &&& 0x3 ≤ 1 ∧ ¬ FlagsLevel route.2

/-! ### What the walks return -/

section Parse
variable {mem : Mem} {hdr fuel : ℕ}

/-- Each I/O APIC replaces the one before it. -/
theorem madtFold_ioapic (mem : Mem) (hdr : ℕ) (offs : List ℕ) (info : MadtInfo)
    (hinfo : info.ioapicFound = false) :
    let r := offs.foldl (fun s off => (madtBody mem hdr off s).1) info
    (if r.ioapicFound then some r.ioapicAddr else none) =
      ((offs.filter (fun off => entryType mem hdr off == 1)).map (ioapicAt mem hdr)).getLast?.map
        Ioapic.addr := by
  induction offs using List.reverseRecOn with
  | nil =>
    change (if info.ioapicFound = true then some info.ioapicAddr else none) = none
    exact if_neg (by rw [hinfo]; decide)
  | append_singleton offs off ih =>
    dsimp only at ih ⊢
    rw [List.foldl_append, List.foldl_cons, List.foldl_nil, List.filter_append]
    generalize offs.foldl (fun s off => (madtBody mem hdr off s).1) info = r at ih ⊢
    unfold madtBody
    by_cases h1 : entryType mem hdr off = 1
    · rw [if_pos h1, List.filter_cons_of_pos (by rw [h1]; rfl), List.filter_nil, List.map_append,
        List.map_singleton, List.getLast?_concat]
      rfl
    · rw [if_neg h1, List.filter_cons_of_neg (by simpa using h1), List.filter_nil, List.append_nil,
        ← ih]
      split <;> rfl

/-- The first sixteen overrides are kept. -/
theorem isaFold_eq (offs : List ℕ) : ∀ overrides : List IntOverride,
    offs.foldl (fun s off => (isaBody mem hdr off s).1) overrides = overrides ++
      ((offs.filter (fun off => entryType mem hdr off == 2)).map (intOverrideAt mem hdr)).take
        (16 - overrides.length) := by
  induction offs with
  | nil =>
    intro overrides
    rw [List.filter_nil, List.map_nil, List.take_nil, List.append_nil]
    rfl
  | cons off offs ih =>
    intro overrides
    rw [List.foldl_cons, ih]
    by_cases htwo : entryType mem hdr off = 2
    · rw [List.filter_cons_of_pos (by rw [htwo]; rfl), List.map_cons]
      by_cases hroom : overrides.length < 16
      · have hbody : (isaBody mem hdr off overrides).1 = overrides ++ [intOverrideAt mem hdr off] :=
          congrArg Prod.fst (if_pos ⟨htwo, hroom⟩)
        have hmore : 16 - overrides.length = 16 - (overrides.length + 1) + 1 := by omega
        rw [hbody, hmore, List.take_succ_cons, List.length_append, List.length_singleton,
          List.append_assoc, List.singleton_append]
      · have hbody : (isaBody mem hdr off overrides).1 = overrides :=
          congrArg Prod.fst (if_neg (fun h => hroom h.2))
        have hnone : 16 - overrides.length = 0 := by omega
        rw [hbody, hnone, List.take_zero, List.take_zero]
    · have hbody : (isaBody mem hdr off overrides).1 = overrides :=
        congrArg Prod.fst (if_neg (fun h => htwo h.1))
      rw [List.filter_cons_of_neg (by simpa using htwo), hbody]

/-- A well-formed table has at most sixteen overrides, so all of them are kept. -/
theorem MadtWellFormed.few (h : MadtWellFormed mem hdr) : (madtOverrides mem hdr).length ≤ 16 := by
  have hsub : ((madtOverrides mem hdr).map IntOverride.irq).toFinset ⊆ Finset.range 16 := by
    intro irq hirq
    obtain ⟨ov, hov, rfl⟩ := List.mem_map.mp (List.mem_toFinset.mp hirq)
    exact Finset.mem_range.mpr (h.isa ov hov).2
  have hcard := Finset.card_le_card hsub
  rwa [List.toFinset_card_of_nodup h.once, List.length_map, Finset.card_range] at hcard

theorem routeKeyboard_eq (h : MadtWellFormed mem hdr) (hfuel : tableLength mem hdr < fuel) :
    routeKeyboard mem hdr fuel = some ((madtIoapics mem hdr).getLast?.map Ioapic.addr,
      ioapicSetRedirection ((madtRoute mem hdr 1).1 % 2^8) irqKeyboard false
        (madtRoute mem hdr 1).2) := by
  unfold routeKeyboard acpiParseMadt acpiParseIsaOverrides
  dsimp only
  obtain ⟨r, hr, hmadt, -⟩ := walkMadt_spec (madtBody mem hdr)
    { lapicAddr := load mem (hdr + 36) 4, flags := load mem (hdr + 40) 4, ioapicFound := false
      ioapicId := 0, ioapicAddr := 0, ioapicGsiBase := 0 } hfuel
  obtain ⟨r', hr', hisa, -⟩ := walkMadt_spec (isaBody mem hdr) [] hfuel
  rw [hr, hr']
  have hio := madtFold_ioapic mem hdr (madtEntries mem hdr)
    { lapicAddr := load mem (hdr + 36) 4, flags := load mem (hdr + 40) 4, ioapicFound := false
      ioapicId := 0, ioapicAddr := 0, ioapicGsiBase := 0 } (Eq.refl _)
  dsimp only at hio
  rw [← hmadt] at hio
  change _ = (madtIoapics mem hdr).getLast?.map Ioapic.addr at hio
  have hov : r'.1 = madtOverrides mem hdr := by
    rw [hisa, isaFold_eq, List.nil_append]
    exact List.take_of_length_le h.few
  have hroute : acpiGetIsaOverride (madtOverrides mem hdr) 1 = madtRoute mem hdr 1 := by
    unfold acpiGetIsaOverride madtRoute
    cases (madtOverrides mem hdr).find? (fun ov => ov.irq == 1) <;> rfl
  change some (if r.1.ioapicFound then some r.1.ioapicAddr else none, keyboardRedirection r'.1) = _
  unfold keyboardRedirection
  rw [hio, hov, hroute]

end Parse

/-! ### The registers -/

/-- The polarity bit is set for the value 2, and the trigger bit never. -/
theorem ioapicSetRedirection_keyboard (pin flags : ℕ) : ∃ low,
    ioapicSetRedirection pin irqKeyboard false flags =
      [(0x10 + 2 * pin, low), (0x10 + 2 * pin + 1, 0)] ∧
    (low.testBit 13 = true ↔ flags &&& 0x3 = 2) ∧ low.testBit 15 = false := by
  have hreg : ioapicRedirBase + pin * 2 = 0x10 + 2 * pin := by
    rw [Nat.mul_comm]
    rfl
  have htrigger : ¬ flags >>> 2 &&& 0x3 = 4 := by
    have hmask : flags >>> 2 &&& 0x3 = flags >>> 2 % 4 := Nat.and_two_pow_sub_one_eq_mod _ 2
    omega
  unfold ioapicSetRedirection
  dsimp only
  rw [hreg, if_neg htrigger]
  refine ⟨_, rfl, ?_⟩
  by_cases hpol : flags &&& 0x3 = 2
  · rw [if_pos hpol]
    exact ⟨⟨fun _ => hpol, fun _ => by decide⟩, by decide⟩
  · rw [if_neg hpol]
    exact ⟨⟨fun h => absurd h (by decide), fun h => absurd h hpol⟩, by decide⟩

/-- The keyboard is routed as a well-formed table says exactly when it is routable in this sense. -/
theorem keyboard_routed_iff (mem : Mem) (hdr : ℕ) (version : ℕ → ℕ) (h : MadtWellFormed mem hdr) :
    (∀ fuel, tableLength mem hdr < fuel →
      ∃ written, routeKeyboard mem hdr fuel = some written ∧
        RoutedAsMadtSays mem hdr version written) ↔
    KeyboardRoutable mem hdr version := by
  have hroute : ∀ fuel, tableLength mem hdr < fuel → _ := fun _ hfuel => routeKeyboard_eq h hfuel
  obtain ⟨low, hregs, h13, h15⟩ := ioapicSetRedirection_keyboard ((madtRoute mem hdr 1).1 % 2^8)
    (madtRoute mem hdr 1).2
  rw [hregs] at hroute
  have hentries : ∀ io : Ioapic, redirEntries (version io.addr) ≤ 256 := by
    intro io
    have hmask : version io.addr >>> 16 &&& 0xFF = version io.addr >>> 16 % 256 :=
      Nat.and_two_pow_sub_one_eq_mod _ 8
    unfold redirEntries
    omega
  have hpolarity : (madtRoute mem hdr 1).2 &&& 0x3 = (madtRoute mem hdr 1).2 % 4 :=
    Nat.and_two_pow_sub_one_eq_mod _ 2
  unfold KeyboardRoutable
  dsimp only
  constructor
  · intro hall
    obtain ⟨written, hw, hsays⟩ := hall _ (Nat.lt_succ_self _)
    rw [hroute _ (Nat.lt_succ_self _)] at hw
    have hw := Option.some.inj hw
    subst hw
    obtain ⟨io, hio, haddr, hbase, hrange, low', high, hlist, hlow, hlevel⟩ := hsays
    dsimp only at haddr
    obtain ⟨last, hlast, hsame⟩ := Option.map_eq_some_iff.mp haddr
    -- addresses are not shared, so the I/O APIC is the last one
    have heq : last = io :=
      List.inj_on_of_nodup_map h.ioapics (List.mem_of_getLast? hlast) hio hsame
    subst heq
    have hhead := (List.cons.inj hlist).1
    have hreg := congrArg Prod.fst hhead
    have hval : low = low' := congrArg Prod.snd hhead
    dsimp only at hreg
    rw [← hval, h15] at hlevel
    rw [← hval, h13] at hlow
    have hnum := hentries last
    refine ⟨⟨last, hlast, hbase, hrange, by omega⟩, ?_, ?_⟩
    · unfold FlagsActiveLow at hlow
      omega
    · exact fun hlev => Bool.noConfusion (hlevel.mpr hlev)
  · intro hgood fuel hfuel
    obtain ⟨⟨io, hlast, hbase, hrange, hmod⟩, hpol, htrig⟩ := hgood
    refine ⟨_, hroute fuel hfuel, io, List.mem_of_getLast? hlast, ?_, hbase, hrange, low, 0, ?_, ?_,
      ?_⟩
    · dsimp only
      rw [hlast]
      rfl
    · have hnum := hentries io
      have hpin : (madtRoute mem hdr 1).1 % 2^8 = (madtRoute mem hdr 1).1 - io.gsiBase := by omega
      dsimp only
      rw [hpin]
    · rw [h13]
      unfold FlagsActiveLow
      omega
    · rw [h15]
      exact ⟨fun hb => Bool.noConfusion hb, fun hlev => absurd hlev htrig⟩

/-- A MADT at 0x1000 with one I/O APIC for the interrupts from 0 on, at 0xFEC00000, and an override
of IRQ 1 to GSI `gsi` with the flags `flags`. -/
def sampleMadt (gsi flags : Byte) : Mem := fun a =>
  if a = 0x1004 then 66#8
  else if a = 0x102C then 1#8 else if a = 0x102D then 12#8 else if a = 0x1032 then 0xC0#8
  else if a = 0x1033 then 0xFE#8
  else if a = 0x1038 then 2#8 else if a = 0x1039 then 10#8 else if a = 0x103B then 1#8
  else if a = 0x103C then gsi else if a = 0x1040 then flags else 0#8

/-- The version register of an I/O APIC with 24 entries. -/
def version24 (_ : ℕ) : ℕ := 0x170011

theorem sampleMadt_entries (gsi flags : Byte) :
    madtEntries (sampleMadt gsi flags) 0x1000 = [44, 56] := by
  have hlength : tableLength (sampleMadt gsi flags) 0x1000 = 66 := rfl
  have hfirst : entryLength (sampleMadt gsi flags) 0x1000 44 = 12 := rfl
  have hsecond : entryLength (sampleMadt gsi flags) 0x1000 56 = 10 := rfl
  unfold madtEntries madtEntrySize madtSize
  rw [hlength]
  simp only [records, hfirst, hsecond]
  rfl

theorem sampleMadt_ioapics (gsi flags : Byte) : madtIoapics (sampleMadt gsi flags) 0x1000 =
    [ioapicAt (sampleMadt gsi flags) 0x1000 44] := by
  unfold madtIoapics
  rw [sampleMadt_entries]
  rfl

theorem sampleMadt_overrides (gsi flags : Byte) : madtOverrides (sampleMadt gsi flags) 0x1000 =
    [intOverrideAt (sampleMadt gsi flags) 0x1000 56] := by
  unfold madtOverrides
  rw [sampleMadt_entries]
  rfl

theorem sampleMadt_wellFormed (gsi flags : Byte) :
    MadtWellFormed (sampleMadt gsi flags) 0x1000 := by
  constructor
  · rw [sampleMadt_ioapics]
    exact List.nodup_singleton _
  · intro ov hov
    rw [sampleMadt_overrides, List.mem_singleton] at hov
    have hbus : ov.bus = 0 := hov ▸ rfl
    have hirq : ov.irq = 1 := hov ▸ rfl
    exact ⟨hbus, by omega⟩
  · rw [sampleMadt_overrides]
    exact List.nodup_singleton _

/-- IRQ 1 at GSI 9, active high and edge triggered. -/
theorem keyboard_routed_sample : ∃ written,
    routeKeyboard (sampleMadt 9#8 5#8) 0x1000 67 = some written ∧
    RoutedAsMadtSays (sampleMadt 9#8 5#8) 0x1000 version24 written := by
  apply (keyboard_routed_iff (sampleMadt 9#8 5#8) 0x1000 version24
    (sampleMadt_wellFormed 9#8 5#8)).mpr ?_ 67 (by decide)
  exact ⟨⟨⟨0xFEC00000, 0⟩, by decide, by decide, by decide, by decide⟩, by decide, by decide⟩

/-- IRQ 1 at GSI 9, active low and level triggered: the entry is written as active high and edge. -/
theorem keyboard_level_lost : ¬ ∀ mem hdr version, MadtWellFormed mem hdr →
    ∀ fuel, tableLength mem hdr < fuel →
      ∃ written, routeKeyboard mem hdr fuel = some written ∧
        RoutedAsMadtSays mem hdr version written := by
  intro hall
  obtain ⟨written, hw, io, -, -, -, -, low, high, hregs, -, hlevel⟩ :=
    hall _ 0x1000 version24 (sampleMadt_wellFormed 9#8 0xF#8) 67 (by decide)
  have hroute : routeKeyboard (sampleMadt 9#8 0xF#8) 0x1000 67 =
      some (some 0xFEC00000, [(34, 0x21), (35, 0)]) := by
    rw [routeKeyboard_eq (sampleMadt_wellFormed 9#8 0xF#8) (by decide)]
    decide
  rw [hroute] at hw
  have hw := Option.some.inj hw
  subst hw
  have hlow : 0x21 = low := congrArg Prod.snd (List.cons.inj hregs).1
  have hflags : FlagsLevel (madtRoute (sampleMadt 9#8 0xF#8) 0x1000 1).2 := by decide
  have hbit := hlevel.mpr hflags
  rw [← hlow] at hbit
  exact absurd hbit (by decide)

end SukiOS.Acpi

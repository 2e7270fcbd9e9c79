import SukiOS.Lib.Word
import SukiOS.Pci

/-! What the enumeration finds: the functions of the bus, each with its registers, which are left as
they were, and the sizes of its base address registers. -/
namespace SukiOS.Pci
open Polling Polling.Io

/-! ### Addresses -/

section Access
variable {c : Config} {h : Host} {bus slot func offset register : ℕ} {v w : BitVec 32} {f : Func}

/-- The bits of an address do not overlap. -/
theorem configAddress_eq (hb : bus < 256) (hs : slot < 32) (hf : func < 8) (ho : offset < 256) :
    configAddress bus slot func offset =
      2^31 + bus * 2^16 + slot * 2^11 + func * 2^8 + offset / 4 * 4 := by
  have hmask : offset &&& 0xFC = offset / 2^2 % 2^6 * 2^2 := MachineWord.land_window offset 2 6
  have hoff : offset / 2^2 % 2^6 * 2^2 = offset / 4 * 4 := by omega
  have h1 : (1 : ℕ) <<< 31 = 1 * 2^31 := Nat.shiftLeft_eq 1 31
  unfold configAddress
  rw [hmask, hoff, h1, Nat.shiftLeft_eq, Nat.shiftLeft_eq, Nat.shiftLeft_eq,
    MachineWord.lor_eq_add 1 (bus * 2^16) 31 (by omega)]
  have e1 : 1 * 2^31 + bus * 2^16 = (2^15 + bus) * 2^16 := by ring
  rw [e1, MachineWord.lor_eq_add _ (slot * 2^11) 16 (by omega)]
  have e2 : (2^15 + bus) * 2^16 + slot * 2^11 = ((2^15 + bus) * 2^5 + slot) * 2^11 := by ring
  rw [e2, MachineWord.lor_eq_add _ (func * 2^8) 11 (by omega)]
  have e3 : ((2^15 + bus) * 2^5 + slot) * 2^11 + func * 2^8 =
      (((2^15 + bus) * 2^5 + slot) * 2^3 + func) * 2^8 := by ring
  rw [e3, MachineWord.lor_eq_add _ (offset / 4 * 4) 8 (by omega)]
  ring

theorem addressParts_configAddress (hb : bus < 256) (hs : slot < 32) (hf : func < 8)
    (ho : offset < 256) :
    addressParts (configAddress bus slot func offset) = (bus, slot, func, offset / 4) ∧
      configAddress bus slot func offset / 2^31 % 2 = 1 := by
  rw [configAddress_eq hb hs hf ho]
  refine ⟨?_, by omega⟩
  unfold addressParts
  refine Prod.ext ?_ (Prod.ext ?_ (Prod.ext ?_ ?_))
  all_goals dsimp only; omega

theorem pciConfigRead_returns (hb : bus < 256) (hs : slot < 32) (hf : func < 8) (ho : offset < 256)
    (h : Host) : Completes (pciConfigRead bus slot func offset) h
      (h.config.read bus slot func (offset / 4))
      { h with address := configAddress bus slot func offset } := by
  obtain ⟨hparts, hbit⟩ := addressParts_configAddress hb hs hf ho
  have hin : ({ h with address := configAddress bus slot func offset } : Host).inData =
      (h.config.read bus slot func (offset / 4),
        { h with address := configAddress bus slot func offset }) := by
    simp only [Host.inData, hparts, hbit, if_true]
  have hread := Completes.input Host.inData
    (d := ({ h with address := configAddress bus slot func offset } : Host))
  rw [hin] at hread
  exact (Completes.output _).bind hread

theorem pciConfigWrite_returns (hb : bus < 256) (hs : slot < 32) (hf : func < 8) (ho : offset < 256)
    (h : Host) (v : BitVec 32) : Completes (pciConfigWrite bus slot func offset v) h ()
      { address := configAddress bus slot func offset
        config := h.config.write bus slot func (offset / 4) v } := by
  obtain ⟨hparts, hbit⟩ := addressParts_configAddress hb hs hf ho
  have hout : Host.outData v { h with address := configAddress bus slot func offset } =
      { address := configAddress bus slot func offset
        config := h.config.write bus slot func (offset / 4) v } := by
    simp only [Host.outData, hparts, hbit, if_true]
  have hwrite := Completes.output (Host.outData v)
    (d := ({ h with address := configAddress bus slot func offset } : Host))
  rw [hout] at hwrite
  exact (Completes.output _).bind hwrite

/-! ### Probing -/

/-- What is read from a register after all its bits were written. -/
def Config.sized (c : Config) (bus slot func register : ℕ) : BitVec 32 :=
  match c bus slot func with
  | none => 0xFFFFFFFF#32
  | some f => (f.reg register &&& ~~~f.mask register) ||| f.mask register

theorem all_and (m : BitVec 32) : 0xFFFFFFFF#32 &&& m = m := by
  have hall : 0xFFFFFFFF#32 = BitVec.allOnes 32 := by decide
  rw [hall, BitVec.allOnes_and]

theorem read_write_all (c : Config) (bus slot func register : ℕ) :
    (c.write bus slot func register 0xFFFFFFFF#32).read bus slot func register =
      c.sized bus slot func register := by
  unfold Config.read Config.sized Config.write
  cases hc : c bus slot func with
  | none => simp only [hc]
  | some f => simp only [and_self, if_true, Func.write, Function.update_self, all_and]

/-- Writing the old value restores the register, whichever of its bits can be written. -/
theorem write_restore (c : Config) (bus slot func register : ℕ) (v : BitVec 32) :
    (c.write bus slot func register v).write bus slot func register
      (c.read bus slot func register) = c := by
  cases hc : c bus slot func with
  | none => simp only [Config.write, hc]
  | some f =>
    have hold (r m v : BitVec 32) :
        (((r &&& ~~~m) ||| (v &&& m)) &&& ~~~m) ||| (r &&& m) = r := by
      apply BitVec.eq_of_getLsbD_eq
      intro i hi
      simp only [BitVec.getLsbD_or, BitVec.getLsbD_and, BitVec.getLsbD_not, hi, decide_true,
        Bool.true_and]
      cases r.getLsbD i <;> cases m.getLsbD i <;> cases v.getLsbD i <;> rfl
    have hfunc : (f.write register v).write register (f.reg register) = f := by
      obtain ⟨reg, mask⟩ := f
      simp only [Func.write, Function.update_self, Function.update_idem, hold,
        Function.update_eq_self]
    funext b s k
    by_cases hbsk : b = bus ∧ s = slot ∧ k = func
    · obtain ⟨rfl, rfl, rfl⟩ := hbsk
      simp only [Config.write, Config.read, hc, and_self, if_true, hfunc]
    · simp only [Config.write, Config.read, hc, and_self, if_true, if_neg hbsk]

end Access

/-! ### What the driver makes of a bus with the configuration `c` -/

/-- The bus has the configuration `c`. -/
def Has (c : Config) (h : Host) : Prop := h.config = c

section Answers
variable {c : Config} {bus slot func offset i k n : ℕ} {dev dev' : PciDevice} {r resp : BitVec 32}

theorem read_answers (hb : bus < 256) (hs : slot < 32) (hf : func < 8) (ho : offset < 256) :
    Answers (Has c) (pciConfigRead bus slot func offset) (c.read bus slot func (offset / 4)) := by
  intro h hh
  rw [← hh]
  exact ⟨_, pciConfigRead_returns hb hs hf ho h, rfl⟩

/-- A function that answers with a vendor. -/
def Config.present (c : Config) (bus slot func : ℕ) : Bool :=
  (c.read bus slot func 0 &&& 0xFFFF#32).setWidth 16 ≠ 0xFFFF#16

theorem exists_answers (c : Config) (hb : bus < 256) (hs : slot < 32) (hf : func < 8) :
    Answers (Has c) (pciDeviceExists bus slot func) (c.present bus slot func) :=
  (read_answers hb hs hf (by decide)).bind Answers.pure

/-- The probe of a register leaves it as it was. -/
theorem probe_answers (hb : dev.bus < 256) (hs : dev.slot < 32) (hf : dev.function < 8) (hi : i < 6)
    (hbar : dev.bar i = c.read dev.bus dev.slot dev.function (4 + i)) :
    Answers (Has c) (pciProbeBar dev i)
      (setBar dev i (dev.bar i) (c.sized dev.bus dev.slot dev.function (4 + i))) := by
  intro h hh
  have ho : 0x10 + i*4 < 256 := by omega
  have hreg : (0x10 + i*4) / 4 = 4 + i := by omega
  have hones := pciConfigWrite_returns hb hs hf ho h 0xFFFFFFFF#32
  rw [hreg, hh] at hones
  have hread := pciConfigRead_returns hb hs hf ho
    { address := configAddress dev.bus dev.slot dev.function (0x10 + i*4)
      config := c.write dev.bus dev.slot dev.function (4 + i) 0xFFFFFFFF#32 }
  rw [hreg, read_write_all] at hread
  have hback := pciConfigWrite_returns hb hs hf ho
    { address := configAddress dev.bus dev.slot dev.function (0x10 + i*4)
      config := c.write dev.bus dev.slot dev.function (4 + i) 0xFFFFFFFF#32 } (dev.bar i)
  rw [hreg, hbar, write_restore] at hback
  rw [← hbar] at hback
  exact ⟨_, hones.bind (hread.bind (hback.bind Completes.pure)), rfl⟩

/-- The register `i` and its size in `dev`. -/
def withBar (c : Config) (dev : PciDevice) (i : ℕ) : PciDevice :=
  setBar
    { dev with bar := Function.update dev.bar i (c.read dev.bus dev.slot dev.function (4 + i)) } i
    (c.read dev.bus dev.slot dev.function (4 + i)) (c.sized dev.bus dev.slot dev.function (4 + i))

theorem readBar_answers (hb : dev.bus < 256) (hs : dev.slot < 32) (hf : dev.function < 8)
    (hi : i < 6) :
    Answers (Has c) (readBar i dev) (withBar c dev i) := by
  have ho : 0x10 + i*4 < 256 := by omega
  have hreg : (0x10 + i*4) / 4 = 4 + i := by omega
  have hread := read_answers (c := c) hb hs hf ho
  rw [hreg] at hread
  refine hread.bind ?_
  let dev' : PciDevice := { dev with
    bar := Function.update dev.bar i (c.read dev.bus dev.slot dev.function (4 + i)) }
  have hbar : dev'.bar i = c.read dev.bus dev.slot dev.function (4 + i) :=
    Function.update_self _ _ _
  have hprobe : Answers (Has c) (pciProbeBar dev' i) (setBar dev' i (dev'.bar i)
      (c.sized dev.bus dev.slot dev.function (4 + i))) := probe_answers hb hs hf hi hbar
  rw [hbar] at hprobe
  exact hprobe

/-- The first `n` registers. -/
def withBars (c : Config) (dev : PciDevice) : ℕ → PciDevice
  | 0 => dev
  | n+1 => withBar c (withBars c dev n) n

/-- The fields that the registers of a function fill, apart from the base addresses. -/
def withHeader (c : Config) (dev : PciDevice) (bus slot func : ℕ) : PciDevice :=
  { dev with
    bus := bus
    slot := slot
    function := func
    vendorId := (c.read bus slot func 0 &&& 0xFFFF#32).setWidth 16
    deviceId := (c.read bus slot func 0 >>> 16).setWidth 16
    classCode := (c.read bus slot func 2 >>> 24 &&& 0xFF#32).setWidth 8
    subclass := (c.read bus slot func 2 >>> 16 &&& 0xFF#32).setWidth 8
    progIf := (c.read bus slot func 2 >>> 8 &&& 0xFF#32).setWidth 8
    headerType := (c.read bus slot func 3 >>> 16 &&& 0x7F#32).setWidth 8 }

/-- Filling in a base address changes no other field. -/
theorem withBars_fields (c : Config) (dev : PciDevice) (n : ℕ) :
    (withBars c dev n).bus = dev.bus ∧ (withBars c dev n).slot = dev.slot ∧
      (withBars c dev n).function = dev.function ∧ (withBars c dev n).vendorId = dev.vendorId ∧
      (withBars c dev n).deviceId = dev.deviceId ∧ (withBars c dev n).classCode = dev.classCode ∧
      (withBars c dev n).subclass = dev.subclass ∧ (withBars c dev n).progIf = dev.progIf := by
  induction n with
  | zero => exact ⟨rfl, rfl, rfl, rfl, rfl, rfl, rfl, rfl⟩
  | succ n ih =>
    rw [withBars, withBar, setBar]
    split
    · exact ih
    split
    · exact ih
    · exact ih

theorem readFunction_answers (hb : bus < 256) (hs : slot < 32) (hf : func < 8) (dev : PciDevice) :
    Answers (Has c) (readFunction dev bus slot func)
      (withBars c (withHeader c dev bus slot func) 6,
        c.read bus slot func 3 &&& 0x800000#32 ≠ 0#32) := by
  have hloop : Answers (Has c) (forUpTo readBar (withHeader c dev bus slot func) 6)
      (withBars c (withHeader c dev bus slot func) 6) := by
    obtain ⟨b, hans, rfl⟩ := Answers.loop (P := Has c) (f := readBar) (n := 6)
      (Q := fun n d => d = withBars c (withHeader c dev bus slot func) n)
      (a := withHeader c dev bus slot func)
      rfl (by
        rintro i _ hi rfl
        obtain ⟨h1, h2, h3, -⟩ := withBars_fields c (withHeader c dev bus slot func) i
        exact ⟨_, readBar_answers (h1.symm ▸ hb) (h2.symm ▸ hs) (h3.symm ▸ hf) hi, rfl⟩)
    exact hans
  exact (read_answers hb hs hf (by decide)).bind ((read_answers hb hs hf (by decide)).bind
    ((read_answers hb hs hf (by decide)).bind (hloop.bind Answers.pure)))

end Answers

/-! ### What is printed -/

/-- A device with all fields 0. -/
def noDevice : PciDevice where
  bus := 0
  slot := 0
  function := 0
  vendorId := 0#16
  deviceId := 0#16
  classCode := 0#8
  subclass := 0#8
  progIf := 0#8
  headerType := 0#8
  bar := fun _ => 0#32
  barAddr := fun _ => 0#64
  barSize := fun _ => 0#32
  barType := fun _ => 0#8

/-- The device that the registers of a function describe. -/
def describe (c : Config) (bus slot func : ℕ) : PciDevice :=
  withBars c (withHeader c noDevice bus slot func) 6

/-- The functions of a slot that the enumeration looks at: the others only when the first one is
there and says that there are several. -/
def functionsOf (c : Config) (bus slot : ℕ) : List ℕ :=
  if c.present bus slot 0 then
    0 :: if c.read bus slot 0 3 &&& 0x800000#32 ≠ 0#32 then
      ((List.range 7).map (· + 1)).filter (c.present bus slot) else []
  else []

def functionText (c : Config) (bus slot func : ℕ) : List TtyOp :=
  .setcolor 7#4 0#4 :: (pciPrintDevice (describe c bus slot func)).map .putchar

def busText (c : Config) : List TtyOp :=
  (List.range 256).flatMap fun bus => (List.range 32).flatMap fun slot =>
    (functionsOf c bus slot).flatMap (functionText c bus slot)

section Text
variable {c : Config} {bus slot func i j n : ℕ} {dev dev' : PciDevice} {r resp : BitVec 32}

theorem printBar_setBar_of_ne (h : j ≠ i) : printBar (setBar dev i r resp) j = printBar dev j := by
  unfold setBar
  split
  · simp only [printBar, Function.update_of_ne h]
  split
  · simp only [printBar, Function.update_of_ne h]
  · simp only [printBar, Function.update_of_ne h]

/-- Where the probe finds no size, the other fields of the register do not count. -/
theorem printBar_setBar_self (dev dev' : PciDevice) :
    printBar (setBar dev i r resp) i = printBar (setBar dev' i r resp) i := by
  unfold setBar
  split
  · simp only [printBar, Function.update_self, if_true]
  split
  · simp only [printBar, Function.update_self]
  · simp only [printBar, Function.update_self]

theorem printBar_withBars (hb : dev.bus = dev'.bus) (hs : dev.slot = dev'.slot)
    (hf : dev.function = dev'.function) (hi : i < n) :
    printBar (withBars c dev n) i = printBar (withBars c dev' n) i := by
  induction n with
  | zero => exact absurd hi (Nat.not_lt_zero i)
  | succ n ih =>
    obtain ⟨h1, h2, h3, -⟩ := withBars_fields c dev n
    obtain ⟨h1', h2', h3', -⟩ := withBars_fields c dev' n
    unfold withBars withBar
    rw [h1, h2, h3, h1', h2', h3', hb, hs, hf]
    by_cases hin : i = n
    · subst hin
      exact printBar_setBar_self _ _
    · rw [printBar_setBar_of_ne hin, printBar_setBar_of_ne hin]
      exact ih (by omega)

/-- What stood in the fields before a function was read is not printed. -/
theorem print_withBars (c : Config) (dev : PciDevice) (bus slot func : ℕ) :
    pciPrintDevice (withBars c (withHeader c dev bus slot func) 6) =
      pciPrintDevice (describe c bus slot func) := by
  obtain ⟨h1, h2, h3, h4, h5, h6, h7, h8⟩ := withBars_fields c (withHeader c dev bus slot func) 6
  obtain ⟨h1', h2', h3', h4', h5', h6', h7', h8'⟩ :=
    withBars_fields c (withHeader c noDevice bus slot func) 6
  have hbars : (List.range 6).flatMap (printBar (withBars c (withHeader c dev bus slot func) 6)) =
      (List.range 6).flatMap (printBar (describe c bus slot func)) := by
    rw [List.flatMap_def, List.flatMap_def]
    congr 1
    apply List.map_congr_left
    intro i hi
    exact printBar_withBars rfl rfl rfl (List.mem_range.mp hi)
  unfold pciPrintDevice
  rw [hbars]
  unfold describe
  rw [h1, h2, h3, h4, h5, h6, h7, h8, h1', h2', h3', h4', h5', h6', h7', h8']
  rfl

theorem enumerateSlot_answers (hb : bus < 256) (hs : slot < 32) (garbage : PciDevice)
    (out : List TtyOp) :
    Answers (Has c) (enumerateSlot garbage bus slot out)
      (out ++ (functionsOf c bus slot).flatMap (functionText c bus slot)) := by
  have hexists := exists_answers c hb hs (show 0 < 8 by decide)
  unfold functionsOf
  cases hp : c.present bus slot 0 with
  | false =>
    rw [hp] at hexists
    refine hexists.bind ?_
    rw [if_neg Bool.false_ne_true, if_neg Bool.false_ne_true, List.flatMap_nil, List.append_nil]
    exact Answers.pure
  | true =>
    rw [hp] at hexists
    refine hexists.bind ?_
    rw [if_pos rfl, if_pos rfl, List.flatMap_cons]
    refine (readFunction_answers hb hs (by decide) garbage).bind ?_
    dsimp only
    rw [print_withBars]
    by_cases hmulti : c.read bus slot 0 3 &&& 0x800000#32 ≠ 0#32
    · rw [if_pos hmulti, if_pos (by simpa using hmulti)]
      -- the functions 1 to 7
      obtain ⟨⟨dev, text⟩, hans, htext⟩ :=
        Answers.loop (P := Has c) (f := nextFunction bus slot) (n := 7)
        (Q := fun n r => r.2 = (out ++ functionText c bus slot 0) ++
          (((List.range n).map (· + 1)).filter (c.present bus slot)).flatMap
          (functionText c bus slot))
        (a := (withBars c (withHeader c garbage bus slot 0) 6, out ++ functionText c bus slot 0))
        (List.append_nil _).symm (by
          rintro k ⟨dev, text⟩ hk htext
          have hf : k+1 < 8 := by omega
          have hnext := exists_answers c hb hs hf
          have hrange : ((List.range (k+1)).map (· + 1)).filter (c.present bus slot) =
              ((List.range k).map (· + 1)).filter (c.present bus slot) ++
                [k+1].filter (c.present bus slot) := by
            rw [List.range_succ, List.map_append, List.filter_append]
            rfl
          rw [hrange, List.flatMap_append, ← List.append_assoc, ← htext]
          cases hq : c.present bus slot (k+1) with
          | false =>
            rw [hq] at hnext
            refine ⟨(dev, text), hnext.bind ?_, ?_⟩
            · rw [if_neg Bool.false_ne_true]
              exact Answers.pure
            · rw [List.filter_cons_of_neg (by rw [hq]; exact Bool.false_ne_true)]
              exact (List.append_nil _).symm
          | true =>
            rw [hq] at hnext
            have hread := readFunction_answers (c := c) hb hs hf dev
            refine ⟨_, hnext.bind (hread.bind Answers.pure), ?_⟩
            rw [List.filter_cons_of_pos hq, List.filter_nil, List.flatMap_cons, List.flatMap_nil,
              List.append_nil]
            dsimp only
            rw [print_withBars]
            rfl)
      have htext : text = _ := htext
      rw [← List.append_assoc, ← htext]
      exact hans.bind Answers.pure
    · rw [if_neg hmulti, if_neg (by simpa using hmulti), List.flatMap_nil, List.append_nil]
      exact Answers.pure

theorem slots_answer (hb : bus < 256) (garbage : ℕ → PciDevice) (out : List TtyOp) :
    Answers (Has c) (forUpTo (fun slot out => enumerateSlot (garbage slot) bus slot out) out 32)
      (out ++ (List.range 32).flatMap fun slot =>
        (functionsOf c bus slot).flatMap (functionText c bus slot)) := by
  obtain ⟨b, hans, rfl⟩ := Answers.loop (P := Has c)
    (f := fun slot out => enumerateSlot (garbage slot) bus slot out) (n := 32) (a := out)
    (Q := fun n r => r = out ++ (List.range n).flatMap fun slot =>
      (functionsOf c bus slot).flatMap (functionText c bus slot))
    (List.append_nil _).symm (by
      rintro slot _ hs rfl
      refine ⟨_, enumerateSlot_answers hb hs _ _, ?_⟩
      rw [List.range_succ, List.flatMap_append, List.flatMap_cons, List.flatMap_nil,
        List.append_nil,
        List.append_assoc])
  exact hans

theorem buses_answer (garbage : ℕ → ℕ → PciDevice) (out : List TtyOp) :
    Answers (Has c) (forUpTo (fun bus out => forUpTo (fun slot out =>
      enumerateSlot (garbage bus slot) bus slot out) out 32) out 256) (out ++ busText c) := by
  obtain ⟨b, hans, rfl⟩ := Answers.loop (P := Has c)
    (f := fun bus out => forUpTo (fun slot out => enumerateSlot (garbage bus slot) bus slot out) out
      32)
    (n := 256) (a := out)
    (Q := fun n r => r = out ++ (List.range n).flatMap fun bus =>
      (List.range 32).flatMap fun slot =>
      (functionsOf c bus slot).flatMap (functionText c bus slot))
    (List.append_nil _).symm (by
      rintro bus _ hb rfl
      refine ⟨_, slots_answer hb _ _, ?_⟩
      rw [List.range_succ (n := bus), List.flatMap_append, List.flatMap_cons, List.flatMap_nil,
        List.append_nil, List.append_assoc])
  exact hans

/-- The enumeration prints every function that it looks at, in order, with what its registers say
and nothing else, and leaves all registers of the bus as they were. -/
theorem pci_enumerate_reports (h : Host) (garbage : ℕ → ℕ → PciDevice) :
    ∃ h', Completes (pciEnumerate garbage) h
        ((ascii "[..] Enumerating PCI bus...\n").map .putchar ++ busText h.config ++
          (ascii "[OK] PCI enumeration complete.\n").map .putchar) h' ∧
      h'.config = h.config := by
  have hprints : Answers (Has h.config) (pciEnumerate garbage)
      ((ascii "[..] Enumerating PCI bus...\n").map .putchar ++ busText h.config ++
        (ascii "[OK] PCI enumeration complete.\n").map .putchar) := by
    unfold pciEnumerate
    refine (buses_answer garbage _).bind ?_
    exact Answers.pure
  exact hprints h rfl

end Text

/-! ### Sizes -/

/-- A base address register decodes the address bits from `k` up to `n`; those below `t` say what it
is and all others are 0. -/
structure Decodes (f : Func) (register t k n : ℕ) : Prop where
  type_le : t ≤ k
  lt : k < n
  le_word : n ≤ 32
  mask : ∀ j < 32, (f.mask register).getLsbD j = decide (k ≤ j ∧ j < n)
  zero : ∀ j < 32, t ≤ j → j < k ∨ n ≤ j → (f.reg register).getLsbD j = false

section Sizes
variable {c : Config} {bus slot func i k n t : ℕ} {f : Func} {low : BitVec 32}

theorem Decodes.mask_toNat (h : Decodes f i t k n) : (f.mask i).toNat = 2^n - 2^k := by
  have hpow : (2^(n-k) - 1) * 2^k = 2^n - 2^k := by
    rw [Nat.sub_mul, one_mul, ← pow_add, Nat.sub_add_cancel h.lt.le]
  have hlt : (2^(n-k) - 1) * 2^k < 2^32 := by
    have hn : 2^n ≤ 2^32 := Nat.pow_le_pow_right (by decide) h.le_word
    have hk : 0 < 2^k := Nat.two_pow_pos k
    omega
  have hbits : f.mask i = BitVec.ofNat 32 ((2^(n-k) - 1) * 2^k) := by
    apply BitVec.eq_of_getLsbD_eq
    intro j hj
    rw [h.mask j hj, BitVec.getLsbD_ofNat, Nat.testBit_mul_two_pow, Nat.testBit_two_pow_sub_one,
      decide_eq_true hj, Bool.true_and, Bool.decide_and]
    by_cases hkj : k ≤ j
    · congr 1
      exact decide_eq_decide.mpr (by omega)
    · rw [decide_eq_false hkj, Bool.false_and, Bool.false_and]
  rw [hbits, BitVec.toNat_ofNat, Nat.mod_eq_of_lt hlt, hpow]

/-- With the type bits cleared the answer of a register is its mask, and its value the address. -/
theorem Decodes.answer (h : Decodes f i t k n) (hlow : ∀ j < 32, low.getLsbD j = decide (t ≤ j)) :
    ((f.reg i &&& ~~~f.mask i) ||| f.mask i) &&& low = f.mask i ∧
      f.reg i &&& low = f.reg i &&& f.mask i := by
  have ht := h.type_le
  constructor
  · apply BitVec.eq_of_getLsbD_eq
    intro j hj
    rw [BitVec.getLsbD_and, BitVec.getLsbD_or, BitVec.getLsbD_and, BitVec.getLsbD_not, hlow j hj,
      h.mask j hj, decide_eq_true hj, Bool.true_and]
    by_cases hin : k ≤ j ∧ j < n
    · rw [decide_eq_true hin, decide_eq_true (ht.trans hin.1), Bool.or_true, Bool.and_true]
    · rw [decide_eq_false hin, Bool.or_false, Bool.not_false, Bool.and_true]
      by_cases htj : t ≤ j
      · rw [h.zero j hj htj (by omega), Bool.false_and]
      · rw [decide_eq_false htj, Bool.and_false]
  · apply BitVec.eq_of_getLsbD_eq
    intro j hj
    rw [BitVec.getLsbD_and, BitVec.getLsbD_and, hlow j hj, h.mask j hj]
    by_cases hin : k ≤ j ∧ j < n
    · rw [decide_eq_true hin, decide_eq_true (ht.trans hin.1)]
    · rw [decide_eq_false hin, Bool.and_false]
      by_cases htj : t ≤ j
      · rw [h.zero j hj htj (by omega), Bool.false_and]
      · rw [decide_eq_false htj, Bool.and_false]

theorem Decodes.size (h : Decodes f i t k n) : (~~~f.mask i + 1#32).toNat = 2^k + (2^32 - 2^n) := by
  have hm := h.mask_toNat
  have hk : 2^k < 2^n := Nat.pow_lt_pow_right (by decide) h.lt
  have hn : 2^n ≤ 2^32 := Nat.pow_le_pow_right (by decide) h.le_word
  have hpos : 0 < 2^k := Nat.two_pow_pos k
  rw [← BitVec.neg_eq_not_add, BitVec.toNat_neg, hm]
  rw [Nat.mod_eq_of_lt (by omega)]
  omega

/-- Later registers do not change what was found in an earlier one. -/
theorem setBar_of_ne {dev : PciDevice} {r resp : BitVec 32} {j : ℕ} (hji : j ≠ i) :
    (setBar dev i r resp).barType j = dev.barType j ∧
    (setBar dev i r resp).barAddr j = dev.barAddr j ∧
      (setBar dev i r resp).barSize j = dev.barSize j := by
  unfold setBar
  split
  · exact ⟨rfl, rfl, Function.update_of_ne hji _ _⟩
  split
  · exact ⟨Function.update_of_ne hji _ _, Function.update_of_ne hji _ _,
      Function.update_of_ne hji _ _⟩
  · exact ⟨Function.update_of_ne hji _ _, Function.update_of_ne hji _ _,
      Function.update_of_ne hji _ _⟩

theorem withBars_found (dev : PciDevice) (hin : i < n) :
    ∃ d : PciDevice,
      let found := setBar d i (c.read dev.bus dev.slot dev.function (4 + i))
        (c.sized dev.bus dev.slot dev.function (4 + i))
      (withBars c dev n).barType i = found.barType i ∧
      (withBars c dev n).barAddr i = found.barAddr i ∧
        (withBars c dev n).barSize i = found.barSize i := by
  induction n with
  | zero => exact absurd hin (Nat.not_lt_zero i)
  | succ n ih =>
    obtain ⟨h1, h2, h3, -⟩ := withBars_fields c dev n
    rw [withBars, withBar, h1, h2, h3]
    by_cases heq : i = n
    · rw [← heq]
      exact ⟨_, rfl, rfl, rfl⟩
    · obtain ⟨d, htype, haddr, hsize⟩ := ih (by omega)
      exact ⟨d, (setBar_of_ne heq).1.trans htype, (setBar_of_ne heq).2.1.trans haddr,
        (setBar_of_ne heq).2.2.trans hsize⟩

/-- The bits that `&` with -2^t keeps. -/
theorem typeless_bits (io : Bool) (j : ℕ) (hj : j < 32) :
    (if io then 0xFFFFFFFC#32 else 0xFFFFFFF0#32).getLsbD j =
      decide ((if io then 2 else 4) ≤ j) := by
  cases io
  · revert j
    decide
  · revert j
    decide

theorem and_one_ne_iff (r : BitVec 32) : r &&& 1#32 ≠ 0#32 ↔ r.getLsbD 0 = true := by
  have hone : r &&& 1#32 = if r.getLsbD 0 then 1#32 else 0#32 := by
    apply BitVec.eq_of_getLsbD_eq
    intro j hj
    rw [BitVec.getLsbD_and, BitVec.getLsbD_one]
    cases j with
    | zero => cases hr : r.getLsbD 0 <;> rfl
    | succ j => cases r.getLsbD 0 <;> simp
  rw [hone]
  cases r.getLsbD 0 <;> decide

/-- The answer is neither of the two that mean that there is no register: the bit `k` is set and,
with type bits that are not all 1, another one is not. -/
theorem Decodes.answer_some (h : Decodes f i t k n) {j : ℕ} (hj : j < t)
    (hfree : (f.reg i).getLsbD j = false) :
    ¬((f.reg i &&& ~~~f.mask i) ||| f.mask i = 0#32 ∨
      (f.reg i &&& ~~~f.mask i) ||| f.mask i = 0xFFFFFFFF#32) := by
  have hk := h.lt
  have hn := h.le_word
  have htk := h.type_le
  rintro (hzero | hones)
  · have hset : ((f.reg i &&& ~~~f.mask i) ||| f.mask i).getLsbD k = true := by
      rw [BitVec.getLsbD_or, h.mask k (by omega), decide_eq_true ⟨le_refl k, hk⟩, Bool.or_true]
    rw [hzero, BitVec.getLsbD_zero] at hset
    exact Bool.false_ne_true hset
  · have hclear : ((f.reg i &&& ~~~f.mask i) ||| f.mask i).getLsbD j = false := by
      rw [BitVec.getLsbD_or, BitVec.getLsbD_and, hfree, h.mask j (by omega),
        decide_eq_false (by omega),
        Bool.false_and, Bool.or_false]
    have hall : 0xFFFFFFFF#32 = BitVec.allOnes 32 := by decide
    rw [hones, hall, BitVec.getLsbD_allOnes, decide_eq_true (by omega)] at hclear
    exact Bool.false_ne_true hclear.symm

/-- What the enumeration finds out about a base address register, 2 type bits for ports and 4 for
memory: its kind, its address, and a size that is right exactly when the register decodes the upper
bits of the address. One that decodes 16 bits is found too large. -/
theorem bar_size_exact_iff (h : Host) (dev : PciDevice) (hb : bus < 256) (hs : slot < 32)
    (hf : func < 8)
    (hc : h.config bus slot func = some f) (hi : i < 6) (io : Bool)
    (hd : Decodes f (4 + i) (if io then 2 else 4) k n) (h0 : (f.reg (4 + i)).getLsbD 0 = io)
    (h1 : io = true → (f.reg (4 + i)).getLsbD 1 = false) :
    ∃ found several h', Completes (readFunction dev bus slot func) h (found, several) h' ∧
      h'.config = h.config ∧ found.barType i = (if io then 1#8 else 0#8) ∧
      found.barAddr i = (f.reg (4 + i) &&& f.mask (4 + i)).setWidth 64 ∧
      (found.barSize i).toNat = 2^k + (2^32 - 2^n) ∧ ((found.barSize i).toNat = 2^k ↔ n = 32) := by
  obtain ⟨h', hret, hhas⟩ := readFunction_answers hb hs hf dev h rfl
  obtain ⟨d, htype, haddr, hsize⟩ :=
    withBars_found (c := h.config) (withHeader h.config dev bus slot func) hi
  have hread : h.config.read bus slot func (4 + i) = f.reg (4 + i) := by
    rw [Config.read, hc]
  have hsized : h.config.sized bus slot func (4 + i) =
      (f.reg (4 + i) &&& ~~~f.mask (4 + i)) ||| f.mask (4 + i) := by
    rw [Config.sized, hc]
  have hbus : (withHeader h.config dev bus slot func).bus = bus := rfl
  have hslot : (withHeader h.config dev bus slot func).slot = slot := rfl
  have hfunction : (withHeader h.config dev bus slot func).function = func := rfl
  rw [hbus, hslot, hfunction, hread, hsized] at htype haddr hsize
  obtain ⟨hmask, hvalue⟩ := hd.answer (typeless_bits io)
  have hbit := and_one_ne_iff (f.reg (4 + i))
  rw [h0] at hbit
  have hfound : (withBars h.config (withHeader h.config dev bus slot func) 6).barType i =
        (if io then 1#8 else 0#8) ∧
      (withBars h.config (withHeader h.config dev bus slot func) 6).barAddr i =
        (f.reg (4 + i) &&& f.mask (4 + i)).setWidth 64 ∧
      (withBars h.config (withHeader h.config dev bus slot func) 6).barSize i =
        ~~~f.mask (4 + i) + 1#32 := by
    rw [htype, haddr, hsize]
    cases io
    · rw [setBar, if_neg (hd.answer_some (by decide) h0),
        if_neg (fun h => Bool.false_ne_true (hbit.mp h))]
      dsimp only
      rw [Function.update_self, Function.update_self, Function.update_self]
      exact ⟨rfl, congrArg (BitVec.setWidth 64) hvalue, congrArg (~~~· + 1#32) hmask⟩
    · rw [setBar, if_neg (hd.answer_some (by decide) (h1 rfl)), if_pos (hbit.mpr rfl)]
      dsimp only
      rw [Function.update_self, Function.update_self, Function.update_self]
      exact ⟨rfl, congrArg (BitVec.setWidth 64) hvalue, congrArg (~~~· + 1#32) hmask⟩
  obtain ⟨hio, hat, hbytes⟩ := hfound
  refine ⟨_, _, h', hret, hhas, hio, hat, hbytes ▸ hd.size, ?_⟩
  rw [hbytes, hd.size]
  constructor
  · intro hexact
    have hpow : 2^32 ≤ 2^n := by omega
    exact le_antisymm hd.le_word ((Nat.pow_le_pow_iff_right (by decide)).mp hpow)
  · rintro rfl
    rfl

/-- The ports of an IDE controller at 0xC001, of which 16 address bits are decoded. -/
def idePorts : Func where
  reg := fun r => if r = 4 then 0xC001#32 else 0#32
  mask := fun r => if r = 4 then 0xFFF0#32 else 0#32

theorem bar_size_exact_iff_ide :
    ∃ found several h', Completes (readFunction noDevice 0 1 1) ⟨0, fun _ _ _ => some idePorts⟩
        (found, several) h' ∧
      h'.config = (fun _ _ _ => some idePorts) ∧ found.barType 0 = 1#8 ∧
      found.barAddr 0 = 0xC000#64 ∧ (found.barSize 0).toNat = 0xFFFF0010 ∧
      ((found.barSize 0).toNat = 16 ↔ 16 = 32) :=
  bar_size_exact_iff (i := 0) (k := 4) (n := 16) (f := idePorts)
    ⟨0, fun _ _ _ => some idePorts⟩ noDevice
    (by decide) (by decide) (by decide) rfl (by decide) true
    ⟨by decide, by decide, by decide, by decide, by decide⟩ (by decide) (fun _ => by decide)

end Sizes

end SukiOS.Pci

import Mathlib.Data.Nat.Bitwise
import SukiOS.Lib.Polling
import SukiOS.TtyPrint

/-! `pci.c`: the configuration mechanism, the sizes of the base address registers, and the
enumeration of the bus. -/
namespace SukiOS.Pci
open Polling Polling.Io

/-! ### The host bridge -/

/-- The configuration registers of a function, and which of their bits can be written. -/
structure Func where
  reg : ℕ → BitVec 32
  mask : ℕ → BitVec 32

/-- The functions by bus, slot and number. -/
abbrev Config := ℕ → ℕ → ℕ → Option Func

structure Host where
  address : ℕ
  config : Config

/-- `inl(PCI_CONFIG_DATA)` -/
def Config.read (c : Config) (bus slot func register : ℕ) : BitVec 32 :=
  match c bus slot func with
  | none => 0xFFFFFFFF#32
  | some f => f.reg register

def Func.write (f : Func) (register : ℕ) (value : BitVec 32) : Func :=
  let kept := f.reg register &&& ~~~f.mask register
  { f with reg := Function.update f.reg register (kept ||| (value &&& f.mask register)) }

def Config.write (c : Config) (bus slot func register : ℕ) (value : BitVec 32) : Config :=
  match c bus slot func with
  | none => c
  | some f => fun b s k => if b = bus ∧ s = slot ∧
      k = func then some (f.write register value) else c b s k

/-- The parts of an address: bus, slot, function and register. -/
def addressParts (address : ℕ) : ℕ × ℕ × ℕ × ℕ :=
  (address / 2^16 % 2^8, address / 2^11 % 2^5, address / 2^8 % 2^3, address / 2^2 % 2^6)

/-- The data port is that of the addressed register while bit 31 is set. -/
def Host.inData (h : Host) : BitVec 32 × Host :=
  let (b, s, f, r) := addressParts h.address
  (if h.address / 2^31 % 2 = 1 then h.config.read b s f r else 0xFFFFFFFF#32, h)

def Host.outData (value : BitVec 32) (h : Host) : Host :=
  let (b, s, f, r) := addressParts h.address
  if h.address / 2^31 % 2 = 1 then { h with config := h.config.write b s f r value } else h

/-! ### The driver -/

def configAddress (bus slot func offset : ℕ) : ℕ :=
  1 <<< 31 ||| bus <<< 16 ||| slot <<< 11 ||| func <<< 8 ||| (offset &&& 0xFC)

def pciConfigRead (bus slot func offset : ℕ) : Io Host (BitVec 32) := do
  output fun h => { h with address := configAddress bus slot func offset }
  input Host.inData

def pciConfigWrite (bus slot func offset : ℕ) (value : BitVec 32) : Io Host Unit := do
  output fun h => { h with address := configAddress bus slot func offset }
  output (Host.outData value)

def pciDeviceExists (bus slot func : ℕ) : Io Host Bool := do
  let vendor ← pciConfigRead bus slot func 0x00
  pure ((vendor &&& 0xFFFF#32).setWidth 16 ≠ 0xFFFF#16)

/-- `pci_device_t` -/
structure PciDevice where
  bus : ℕ
  slot : ℕ
  function : ℕ
  vendorId : BitVec 16
  deviceId : BitVec 16
  classCode : BitVec 8
  subclass : BitVec 8
  progIf : BitVec 8
  headerType : BitVec 8
  bar : ℕ → BitVec 32
  barAddr : ℕ → BitVec 64
  barSize : ℕ → BitVec 32
  barType : ℕ → BitVec 8

/-- The end of `pci_probe_bar`, with the register and its value after all bits were written. -/
def setBar (dev : PciDevice) (i : ℕ) (barVal barResp : BitVec 32) : PciDevice :=
  if barResp = 0#32 ∨ barResp = 0xFFFFFFFF#32 then
    { dev with barSize := Function.update dev.barSize i 0#32 }
  else if barVal &&& 1#32 ≠ 0#32 then
    { dev with
      barType := Function.update dev.barType i 1#8
      barAddr := Function.update dev.barAddr i ((barVal &&& 0xFFFFFFFC#32).setWidth 64)
      barSize := Function.update dev.barSize i (~~~(barResp &&& 0xFFFFFFFC#32) + 1#32) }
  else
    { dev with
      barType := Function.update dev.barType i 0#8
      barAddr := Function.update dev.barAddr i ((barVal &&& 0xFFFFFFF0#32).setWidth 64)
      barSize := Function.update dev.barSize i (~~~(barResp &&& 0xFFFFFFF0#32) + 1#32) }

def pciProbeBar (dev : PciDevice) (i : ℕ) : Io Host PciDevice := do
  let barVal := dev.bar i
  pciConfigWrite dev.bus dev.slot dev.function (0x10 + i*4) 0xFFFFFFFF#32
  let barResp ← pciConfigRead dev.bus dev.slot dev.function (0x10 + i*4)
  pciConfigWrite dev.bus dev.slot dev.function (0x10 + i*4) barVal
  pure (setBar dev i barVal barResp)

def ascii (s : String) : List (BitVec 8) := s.toList.map fun c => BitVec.ofNat 8 c.toNat

def classNames : List String :=
  ["Legacy", "Mass Storage", "Network", "Display", "Multimedia", "Memory", "Bridge",
    "Communication",
    "Base System Periph.", "Input", "Docking", "Processor", "Serial Bus", "Wireless",
      "Intelligent IO",
    "Satellite", "Encryption", "Data Acquisition"]

/-- The line of a base address register; those without a size are left out. -/
def printBar (dev : PciDevice) (i : ℕ) : List (BitVec 8) :=
  if dev.barSize i = 0#32 then []
  else
    ascii "      BAR" ++ ttyPrintDec i (fun _ => 0#8) ++ ascii ": " ++
      (if dev.barType i = 1#8 then ascii "I/O  " ++ ttyPrintHex64 (dev.barAddr i).toNat
        else ascii "MMIO " ++ ttyPrintHex64 (dev.barAddr i).toNat) ++
      ascii " size=" ++ ttyPrintHex64 (dev.barSize i).toNat ++ ascii " bytes\n"

/-- What `pci_print_device` prints after it has set the colours. -/
def pciPrintDevice (dev : PciDevice) : List (BitVec 8) :=
  ttyPrintDec dev.bus (fun _ => 0#8) ++ ascii ":" ++ ttyPrintDec dev.slot (fun _ => 0#8) ++
    ascii "." ++
    ttyPrintDec dev.function (fun _ => 0#8) ++ ascii "  " ++ ttyPrintHex64 dev.vendorId.toNat ++
      ascii ":" ++
    ttyPrintHex64 dev.deviceId.toNat ++ ascii "  Class " ++ ttyPrintHex64 dev.classCode.toNat ++
      ascii "." ++
    ttyPrintHex64 dev.subclass.toNat ++ ascii "." ++ ttyPrintHex64 dev.progIf.toNat ++ ascii " (" ++
    ascii (if dev.classCode.toNat < 18 then classNames.getD dev.classCode.toNat ""
      else "Unknown") ++
    ascii ")\n" ++ (List.range 6).flatMap (printBar dev)

/-- One turn of the loop over the base address registers. -/
def readBar (i : ℕ) (dev : PciDevice) : Io Host PciDevice := do
  let bar ← pciConfigRead dev.bus dev.slot dev.function (0x10 + i*4)
  pciProbeBar { dev with bar := Function.update dev.bar i bar } i

/-- What `pci_enumerate` reads of a function, with `dev` from the function before it; the flag is
that of a device with several functions. -/
def readFunction (dev : PciDevice) (bus slot func : ℕ) : Io Host (PciDevice × Bool) := do
  let idReg ← pciConfigRead bus slot func 0x00
  let classReg ← pciConfigRead bus slot func 0x08
  let headerReg ← pciConfigRead bus slot func 0x0C
  let dev ← forUpTo readBar { dev with
    bus := bus
    slot := slot
    function := func
    vendorId := (idReg &&& 0xFFFF#32).setWidth 16
    deviceId := (idReg >>> 16).setWidth 16
    classCode := (classReg >>> 24 &&& 0xFF#32).setWidth 8
    subclass := (classReg >>> 16 &&& 0xFF#32).setWidth 8
    progIf := (classReg >>> 8 &&& 0xFF#32).setWidth 8
    headerType := (headerReg >>> 16 &&& 0x7F#32).setWidth 8 } 6
  pure (dev, headerReg &&& 0x800000#32 ≠ 0#32)

/-- The functions after the first one; `out` is what was printed. -/
def nextFunction (bus slot k : ℕ) (r : PciDevice × List TtyOp) : Io Host (PciDevice × List TtyOp) :=
  do
  if ← pciDeviceExists bus slot (k+1) then
    let (dev, _) ← readFunction r.1 bus slot (k+1)
    pure (dev, r.2 ++ .setcolor 7#4 0#4 :: (pciPrintDevice dev).map .putchar)
  else pure r

/-- A slot; `garbage` is what stands on the stack. -/
def enumerateSlot (garbage : PciDevice) (bus slot : ℕ) (out : List TtyOp) : Io Host (List TtyOp) :=
  do
  if ← pciDeviceExists bus slot 0 then
    let (dev, multifunc) ← readFunction garbage bus slot 0
    let out := out ++ .setcolor 7#4 0#4 :: (pciPrintDevice dev).map .putchar
    if multifunc then
      let (_, out) ← forUpTo (nextFunction bus slot) (dev, out) 7
      pure out
    else pure out
  else pure out

/-- `pci_enumerate`, with what it prints. -/
def pciEnumerate (garbage : ℕ → ℕ → PciDevice) : Io Host (List TtyOp) := do
  let out ← forUpTo (fun bus out => forUpTo
    (fun slot out => enumerateSlot (garbage bus slot) bus slot out)
    out 32) ((ascii "[..] Enumerating PCI bus...\n").map .putchar) 256
  pure (out ++ (ascii "[OK] PCI enumeration complete.\n").map .putchar)

end SukiOS.Pci

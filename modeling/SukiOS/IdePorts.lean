import SukiOS.Ide
import SukiOS.Lib.Service
import SukiOS.Lib.Polling

/-! `ide.c` at its ports: the driver, and the two drives of an ATA channel, which take their time
and may refuse a command. -/
namespace SukiOS.Ata
open ByteMemory Polling Polling.Io
open Fat32 (IdePort TaskFile)

/-! ### The drives -/

/-- What becomes of a command: how often the drive says that it is busy, whether it then takes the
command, how often it is busy after the data, and whether it could write the data. -/
structure Fate where
  wait : ℕ
  accepted : Bool
  settle : ℕ
  written : Bool

/-- What a drive is doing. `busy n` says that it is busy `n+1` times. -/
inductive Phase
  | idle (err : Bool)
  | busy (polls : ℕ) (next : Phase)
  | dataIn (words : List (BitVec 16))
  | dataOut (lba : ℕ) (fate : Fate) (words : List (BitVec 16))

def Phase.delayed : ℕ → Phase → Phase
  | 0, next => next
  | n+1, next => .busy n next

/-- A drive with the fates of its commands, one after the other. `other` stands for the bits of the
status that the driver does not look at, `packet` for a drive without sectors. -/
structure Drive where
  disk : Mem
  phase : Phase
  fate : ℕ → Fate
  turn : ℕ
  other : Byte
  packet : Bool
  ident : ℕ → BitVec 16

def Drive.enter (d : Drive) (p : Phase) : Drive := { d with phase := p }

/-- `IDE_SR_BSY`, or `IDE_SR_DRDY` with `IDE_SR_DRQ` or `IDE_SR_ERR`. -/
def Phase.flags : Phase → Byte
  | .busy _ _ => 0x80#8
  | .idle false => 0x40#8
  | .idle true => 0x41#8
  | _ => 0x48#8

def Drive.status (d : Drive) : Byte := d.phase.flags ||| (d.other &&& 0x36#8)

/-- Time passes when the status is read. -/
def Phase.polled : Phase → Phase
  | .busy 0 next => next
  | .busy (n+1) next => .busy n next
  | p => p

/-- The words of a sector, low byte first. -/
def sectorWords (disk : Mem) (lba : ℕ) : List (BitVec 16) :=
  (List.range 256).map fun i => disk (lba*512 + (2*i + 1)) ++ disk (lba*512 + 2*i)

def putWords (disk : Mem) (lba : ℕ) (words : List (BitVec 16)) : Mem := fun a =>
  if a / 512 = lba then
    let w := words.getD (a % 512 / 2) 0#16
    if a % 2 = 0 then w.setWidth 8 else (w >>> 8).setWidth 8
  else disk a

/-- Only transfers of one sector are modelled; the driver asks for no others. -/
def Drive.command (d : Drive) (t : TaskFile) (count cmd : ℕ) : Drive × TaskFile :=
  let fate := d.fate d.turn
  let begin (p : Phase) : Drive := { d.enter (.delayed fate.wait p) with turn := d.turn + 1 }
  if cmd = 0x20 ∧ count = 1 ∧ d.packet = false then
    (begin (if fate.accepted then .dataIn (sectorWords d.disk t.lba) else .idle true), t)
  else if cmd = 0x30 ∧ count = 1 ∧ d.packet = false then
    (begin (if fate.accepted then .dataOut t.lba fate [] else .idle true), t)
  else if cmd = 0xE7 then (begin (.idle (!fate.accepted)), t)
  else if cmd = 0xEC ∧ d.packet = false then
    (begin (if fate.accepted then .dataIn ((List.range 256).map d.ident) else .idle true), t)
  -- a packet drive refuses `IDE_CMD_IDENTIFY` with its signature in the registers
  else if cmd = 0xEC then (begin (.idle true), { t with lbaMid := 0x14, lbaHigh := 0xEB })
  else (begin (.idle true), t)

def Drive.takeWord (d : Drive) : BitVec 16 × Drive :=
  match d.phase with
  | .dataIn (w::ws) => (w, d.enter (if ws = [] then .idle false else .dataIn ws))
  | _ => (0xFFFF#16, d)

/-- With its last word a sector is written. -/
def Drive.giveWord (d : Drive) (w : BitVec 16) : Drive :=
  match d.phase with
  | .dataOut lba fate ws =>
    if ws.length + 1 < 256 then d.enter (.dataOut lba fate (ws ++ [w]))
    else
      { d.enter (.delayed fate.settle (.idle (!fate.written))) with
        disk := if fate.written then putWords d.disk lba (ws ++ [w]) else d.disk }
  | _ => d

/-! ### The channel -/

/-- Two drives with common registers; `absent` is what is read where there is no drive. -/
structure Channel where
  count : ℕ
  regs : TaskFile
  master : Option Drive
  slave : Option Drive
  absent : Byte

/-- Bit 4 of the drive register selects the slave. -/
def Channel.onSlave (c : Channel) : Bool := c.regs.driveSel.testBit 4

def Channel.drive (c : Channel) (slave : Bool) : Option Drive := if slave then c.slave else c.master

def Channel.setDrive (c : Channel) (slave : Bool) (d : Drive) : Channel :=
  if slave then { c with slave := some d } else { c with master := some d }

/-- `inb(IDE_STATUS)` -/
def Channel.inStatus (c : Channel) : Byte × Channel :=
  match c.drive c.onSlave with
  | none => (c.absent, c)
  | some d => (d.status, c.setDrive c.onSlave (d.enter d.phase.polled))

/-- `inw(IDE_DATA)` -/
def Channel.inData (c : Channel) : BitVec 16 × Channel :=
  match c.drive c.onSlave with
  | none => (c.absent ++ c.absent, c)
  | some d => (d.takeWord.1, c.setDrive c.onSlave d.takeWord.2)

/-- `outw(IDE_DATA, w)` -/
def Channel.outData (c : Channel) (w : BitVec 16) : Channel :=
  match c.drive c.onSlave with
  | none => c
  | some d => c.setDrive c.onSlave (d.giveWord w)

/-- `outb` to one of the other ports. -/
def Channel.out (c : Channel) : IdePort × ℕ → Channel
  | (.sectorCount, x) => { c with count := x }
  | (.command, cmd) =>
    match c.drive c.onSlave with
    | none => c
    | some d =>
      let r := d.command c.regs c.count cmd
      { c.setDrive c.onSlave r.1 with regs := r.2 }
  | w => { c with regs := c.regs.out w }

/-! ### The driver -/

def outb (w : IdePort × ℕ) : Io Channel Unit := output fun c => c.out w

def ideWaitReady : Io Channel ℤ := do
  let status ← waitUntil Channel.inStatus (fun status => status &&& 0x80#8 = 0#8)
  pure (if status &&& 0x40#8 ≠ 0#8 then 0 else -1)

def ideWaitDrq : Io Channel ℤ := do
  let status ← waitUntil Channel.inStatus (fun status => status &&& (0x08#8 ||| 0x01#8) ≠ 0#8)
  pure (if status &&& 0x01#8 ≠ 0#8 then -1 else 0)

/-- Reading the status gives the drive the time to react. -/
def readStatus : Io Channel Unit := do
  let _ ← input Channel.inStatus
  pure ()

def ideSelectDrive (ideDriveSel lba : ℕ) : Io Channel Unit := do
  outb (.driveSel, ideDriveSel ||| (lba >>> 24 &&& 0x0F))
  forUpTo (fun _ _ => readStatus) () 10

/-- What `ide_read_sector` and `ide_write_sector` send before the data. -/
def ideSendCommand (cmd lba : ℕ) : Io Channel Unit := do
  outb (.sectorCount, 1)
  outb (.lbaLow, lba &&& 0xFF)
  outb (.lbaMid, lba >>> 8 &&& 0xFF)
  outb (.lbaHigh, lba >>> 16 &&& 0xFF)
  outb (.command, cmd)

/-- `buffer[i * 2] = data & 0xFF; buffer[i * 2 + 1] = data >> 8;` -/
def storeWord (buffer : Mem) (i : ℕ) (data : BitVec 16) : Mem := fun o =>
  if o = i*2 then data.setWidth 8 else if o = i*2 + 1 then (data >>> 8).setWidth 8 else buffer o

def ideReadSector (ideDriveSel lba : ℕ) (buffer : Mem) : Io Channel (Bool × Mem) :=
  if ideDriveSel = 0 then pure (false, buffer)
  else do
    ideSelectDrive ideDriveSel lba
    ideSendCommand 0x20 lba
    let r ← ideWaitDrq
    if r ≠ 0 then pure (false, buffer)
    else do
      let buffer ← forUpTo (fun i buffer => do
        let data ← input Channel.inData
        pure (storeWord buffer i data)) buffer 256
      pure (true, buffer)

def ideWriteSector (ideDriveSel lba : ℕ) (buffer : Mem) : Io Channel Bool :=
  if ideDriveSel = 0 then pure false
  else do
    ideSelectDrive ideDriveSel lba
    ideSendCommand 0x30 lba
    let r ← ideWaitDrq
    if r ≠ 0 then pure false
    else do
      forUpTo (fun i _ => output fun c => c.outData
        ((buffer (i*2 + 1)).setWidth 16 <<< 8 ||| (buffer (i*2)).setWidth 16)) () 256
      let r ← ideWaitReady
      if r ≠ 0 then pure false
      else do
        outb (.command, 0xE7)
        let r ← ideWaitReady
        pure (r = 0)

def ideProbeAta (driveSel : ℕ) : Io Channel Bool := do
  outb (.driveSel, driveSel)
  forUpTo (fun _ _ => readStatus) () 10
  outb (.sectorCount, 0)
  outb (.lbaLow, 0)
  outb (.lbaMid, 0)
  outb (.lbaHigh, 0)
  outb (.command, 0xEC)
  let status ← input Channel.inStatus
  if status = 0#8 then pure false
  else do
    let r ← ideWaitReady
    if r ≠ 0 then pure false
    else do
      let mid ← input fun c => (c.regs.lbaMid, c)
      let high ← input fun c => (c.regs.lbaHigh, c)
      if mid = 0x14 ∧ high = 0xEB then pure false
      else do
        forUpTo (fun _ _ => do
          let _ ← input Channel.inData
          pure ()) () 256
        pure true

/-- `ide_init` returns the new value of `ide_drive_sel`. -/
def ideInit : Io Channel ℕ := do
  if ← ideProbeAta 0xE0 then pure 0xE0
  else if ← ideProbeAta 0xF0 then pure 0xF0
  else pure 0

end SukiOS.Ata

import SukiOS.IdePorts

/-! What the IDE driver does with a drive: in every sequence of calls it reads and writes the
sectors of the disk, however long the drive takes. -/
namespace SukiOS.Ata
open ByteMemory Polling Polling.Io
open Fat32 (IdePort TaskFile)

/-! ### Words and bytes -/

theorem setWidth_append_low (h l : Byte) : (h ++ l).setWidth 8 = l := by
  apply BitVec.eq_of_getLsbD_eq
  intro i hi
  rw [BitVec.getLsbD_setWidth, BitVec.getLsbD_append, if_pos hi, decide_eq_true hi, Bool.true_and]

theorem setWidth_append_high (h l : Byte) : ((h ++ l) >>> 8).setWidth 8 = h := by
  apply BitVec.eq_of_getLsbD_eq
  intro i hi
  rw [BitVec.getLsbD_setWidth, BitVec.getLsbD_ushiftRight, BitVec.getLsbD_append, if_neg (by omega),
    decide_eq_true hi, Bool.true_and, Nat.add_sub_cancel_left]

theorem shift_or_eq_append (h l : Byte) :
    h.setWidth 16 <<< 8 ||| l.setWidth 16 = h ++ l := by
  apply BitVec.eq_of_getLsbD_eq
  intro i hi
  rw [BitVec.getLsbD_or, BitVec.getLsbD_shiftLeft, BitVec.getLsbD_setWidth, BitVec.getLsbD_setWidth,
    BitVec.getLsbD_append, decide_eq_true hi]
  by_cases h8 : i < 8
  · rw [if_pos h8, decide_eq_true h8]
    rfl
  · have hl : l.getLsbD i = false := BitVec.getLsbD_of_ge l i (by omega)
    rw [if_neg h8, decide_eq_false h8, hl, decide_eq_true (by omega)]
    simp

/-! ### The registers of the channel -/

section Channel
variable {c : Channel} {b b' : Bool} {d d' : Drive} {p : Phase}

@[simp] theorem Channel.setDrive_regs : (c.setDrive b d).regs = c.regs := by
  cases b <;> rfl

@[simp] theorem Channel.setDrive_onSlave : (c.setDrive b d).onSlave = c.onSlave := by
  rw [Channel.onSlave, Channel.setDrive_regs, Channel.onSlave]

@[simp] theorem Channel.setDrive_setDrive : (c.setDrive b d).setDrive b d' = c.setDrive b d' := by
  cases b <;> rfl

theorem Channel.drive_setDrive : (c.setDrive b d).drive b' =
    if b' = b then some d else c.drive b' := by
  cases b <;> cases b' <;> rfl

@[simp] theorem Channel.drive_setDrive_self : (c.setDrive b d).drive b = some d := by
  rw [Channel.drive_setDrive, if_pos rfl]

theorem Channel.setDrive_self (h : c.drive b = some d) : c.setDrive b d = c := by
  cases b with
  | false =>
    have hm : c.master = some d := h
    simp only [Channel.setDrive, Bool.false_eq_true, if_false, ← hm]
  | true =>
    have hs : c.slave = some d := h
    simp only [Channel.setDrive, if_true, ← hs]

end Channel

/-! ### Waiting -/

section Waiting
variable {c : Channel} {d : Drive} {p : Phase} {err : Bool} {n : ℕ} {done : Byte → Bool}

@[simp] theorem Drive.enter_phase : (d.enter p).phase = p := rfl

@[simp] theorem Drive.enter_self : d.enter d.phase = d := rfl

/-- The driver looks at bits that the drive sets as its phase says. -/
theorem Drive.status_and (d : Drive) {m : Byte} (h : 0x36#8 &&& m = 0#8) :
    d.status &&& m = d.phase.flags &&& m := by
  rw [Drive.status, BitVec.and_or_distrib_right, BitVec.and_assoc, h, BitVec.and_zero,
    BitVec.or_zero]

theorem Phase.polled_busy (n : ℕ) (p : Phase) : (Phase.busy n p).polled = .delayed n p := by
  cases n <;> rfl

theorem inStatus_eq (h : c.drive c.onSlave = some d) :
    c.inStatus = (d.status, c.setDrive c.onSlave (d.enter d.phase.polled)) := by
  rw [Channel.inStatus, h]

/-- Reading the status of a drive that is not busy changes nothing. -/
theorem readStatus_returns (h : c.drive c.onSlave = some d) (hp : d.phase.polled = d.phase) :
    Completes readStatus c () c := by
  have hin : c.inStatus.2 = c := by
    rw [inStatus_eq h, hp]
    exact Channel.setDrive_self h
  have hread := (Completes.input Channel.inStatus (d := c)).bind
    (f := fun _ => pure ()) Completes.pure
  rw [hin] at hread
  exact hread

/-- A wait that ends with the phase `p` and not before. -/
theorem wait_returns (done : Byte → Bool) (h : c.drive c.onSlave = some d)
    (hd : d.phase = .delayed n p)
    (hp : p.polled = p) (hbusy : ∀ d : Drive, d.phase.flags = 0x80#8 → done d.status = false)
    (hdone : done (d.enter p).status = true) :
    Completes (waitUntil Channel.inStatus done) c (d.enter p).status
      (c.setDrive c.onSlave (d.enter p)) := by
  induction n generalizing c d with
  | zero =>
    have hd : d.phase = p := hd
    have hin : c.inStatus = (d.status, c.setDrive c.onSlave d) := by
      rw [inStatus_eq h, hd, hp, ← hd]
      rfl
    rw [← hd, Drive.enter_self] at hdone ⊢
    exact Completes.wait_done hin hdone
  | succ n ih =>
    have hnext : d.phase.polled = .delayed n p := by
      rw [hd]
      exact Phase.polled_busy n p
    have hin : c.inStatus = (d.status, c.setDrive c.onSlave (d.enter (.delayed n p))) := by
      rw [inStatus_eq h, hnext]
    have hflags : d.phase.flags = 0x80#8 := by
      rw [hd]
      rfl
    apply Completes.wait_step
    · rw [hin]
      exact hbusy d hflags
    · rw [hin]
      have hrest := ih (c := c.setDrive c.onSlave (d.enter (.delayed n p)))
        (d := (d.enter (.delayed n p))) (by simp) rfl hdone
      simp only [Channel.setDrive_onSlave, Channel.setDrive_setDrive] at hrest
      exact hrest

theorem idle_ready (err : Bool) :
    (Phase.idle err).flags &&& 0x80#8 = 0#8 ∧ (Phase.idle err).flags &&& 0x40#8 ≠ 0#8 := by
  cases err <;> decide

/-- The driver waits for a drive that will not be busy. -/
theorem ideWaitReady_returns (h : c.drive c.onSlave = some d) (hd : d.phase = .delayed n p)
    (hp : p.polled = p) (hready : p.flags &&& 0x80#8 = 0#8 ∧ p.flags &&& 0x40#8 ≠ 0#8) :
    Completes ideWaitReady c 0 (c.setDrive c.onSlave (d.enter p)) := by
  have hbits (m : Byte) (hm : 0x36#8 &&& m = 0#8) : (d.enter p).status &&& m = p.flags &&& m :=
    (d.enter p).status_and hm
  have hwait := wait_returns (fun status => status &&& 0x80#8 = 0#8) h hd hp
    (fun d hb => by rw [d.status_and (by decide), hb]; decide)
    (by rw [hbits _ (by decide), hready.1]; decide)
  refine hwait.bind ?_
  rw [if_pos (by rw [hbits _ (by decide)]; exact hready.2)]
  exact Completes.pure

/-- The driver waits for a drive that takes the command, or refuses it. -/
theorem ideWaitDrq_returns {accepted : Bool} (h : c.drive c.onSlave = some d)
    (hd : d.phase = .delayed n (if accepted then p else .idle true)) (hp : p.flags = 0x48#8)
    (hpoll : p.polled = p) :
    Completes ideWaitDrq c (if accepted then 0 else -1)
      (c.setDrive c.onSlave (d.enter (if accepted then p else .idle true))) := by
  have hbits (m : Byte) (hm : 0x36#8 &&& m = 0#8) :=
    (d.enter (if accepted then p else .idle true)).status_and hm
  have hflags : (d.enter (if accepted then p else .idle true)).phase.flags =
      if accepted then 0x48#8 else 0x41#8 := by
    cases accepted
    · rfl
    · exact hp
  have hwait := wait_returns (fun status => status &&& (0x08#8 ||| 0x01#8) ≠ 0#8) h hd
    (by cases accepted; rfl; exact hpoll)
    (fun d hb => by rw [d.status_and (by decide), hb]; decide)
    (by rw [hbits _ (by decide), hflags]; cases accepted <;> decide)
  refine hwait.bind ?_
  rw [hbits 0x01#8 (by decide), hflags]
  cases accepted
  · exact Completes.pure
  · exact Completes.pure

end Waiting

/-! ### Commands -/

section Commands
variable {c : Channel} {d : Drive} {sel lba cmd : ℕ}

/-- The number that `ide_select_drive` writes. -/
def selected (ideDriveSel lba : ℕ) : ℕ := ideDriveSel ||| (lba >>> 24 &&& 0x0F)

theorem selected_slave (sel lba : ℕ) : (selected sel lba).testBit 4 = sel.testBit 4 := by
  have hlow : lba >>> 24 &&& 0x0F = lba >>> 24 % 2^4 := Nat.and_two_pow_sub_one_eq_mod _ 4
  rw [selected, Nat.testBit_or, hlow, Nat.testBit_mod_two_pow]
  simp

/-- Reading the status of a drive that does nothing changes nothing. -/
theorem delay_returns (h : ∀ d, c.drive c.onSlave = some d → d.phase.polled = d.phase) :
    Completes (forUpTo (fun _ _ => readStatus) () 10) c () c := by
  apply Completes.loop (fun _ => ()) (fun _ => c)
  intro i _
  cases hd : c.drive c.onSlave with
  | none =>
    have hin : c.inStatus.2 = c := by rw [Channel.inStatus, hd]
    have hread := (Completes.input Channel.inStatus (d := c)).bind
      (f := fun _ => pure ()) Completes.pure
    rw [hin] at hread
    exact hread
  | some d => exact readStatus_returns hd (h d hd)

/-- The address that the driver has put in the registers when it gives the command. -/
def addressed (c : Channel) (lba : ℕ) : TaskFile :=
  { c.regs with
    lbaLow := lba &&& 0xFF
    lbaMid := lba >>> 8 &&& 0xFF
    lbaHigh := lba >>> 16 &&& 0xFF }

theorem sendCommand_returns (cmd lba : ℕ) (h : c.drive c.onSlave = some d) :
    Completes (ideSendCommand cmd lba) c ()
      { { c with count := 1 }.setDrive c.onSlave (d.command (addressed c lba) 1 cmd).1 with
        regs := (d.command (addressed c lba) 1 cmd).2 } := by
  let c1 : Channel := { c with count := 1, regs := addressed c lba }
  have hout : c1.out (.command, cmd) =
      { { c with count := 1 }.setDrive c.onSlave (d.command (addressed c lba) 1 cmd).1 with
        regs := (d.command (addressed c lba) 1 cmd).2 } := by
    have h1 : c1.drive c1.onSlave = some d := h
    simp only [Channel.out, h1]
    show ({ c1.setDrive c.onSlave _ with regs := _ } : Channel) = _
    cases c.onSlave <;> rfl
  rw [← hout]
  refine (Completes.output _).bind ((Completes.output _).bind ((Completes.output _).bind
    ((Completes.output _).bind ?_)))
  exact Completes.output _

/-- The drive is addressed at `lba` without its four upper bits. -/
theorem addressed_lba (hsel : sel = 0xE0 ∨ sel = 0xF0) (c : Channel) (lba : ℕ) :
    (addressed (c.out (.driveSel, selected sel lba)) lba).lba = lba % 2^28 := by
  have haddr (master slave : Bool) (hinit : Fat32.ideInit master slave = sel) :
      TaskFile.addressed c.regs (Fat32.ideCommandSector 0 sel lba) = [lba % 2^28] := by
    rw [← hinit]
    apply Fat32.addressed_commandSector
    rw [hinit]
    omega
  have hlist : TaskFile.addressed c.regs (Fat32.ideCommandSector 0 sel lba) = [lba % 2^28] := by
    rcases hsel with rfl | rfl
    · exact haddr true false rfl
    · exact haddr false true rfl
  have hne : sel ≠ 0 := by omega
  unfold Fat32.ideCommandSector at hlist
  rw [if_neg hne] at hlist
  exact List.singleton_inj.mp hlist

end Commands

/-! ### Data -/

section Data
variable {c : Channel} {d : Drive} {sel lba : ℕ} {words : List (BitVec 16)} {buffer : Mem}
    {fate : Fate}

/-- The drive after `i` words of its data were read. -/
def giving (words : List (BitVec 16)) (i : ℕ) : Phase :=
  if i < words.length then .dataIn (words.drop i) else .idle false

theorem takeWord_giving {i : ℕ} (hi : i < words.length) :
    (d.enter (giving words i)).takeWord = (words[i], d.enter (giving words (i+1))) := by
  have hphase : (d.enter (giving words i)).phase = .dataIn (words[i] :: words.drop (i+1)) := by
    rw [Drive.enter_phase, giving, if_pos hi, List.drop_eq_getElem_cons hi]
  have hnext : (if words.drop (i+1) = [] then Phase.idle false else .dataIn (words.drop (i+1))) =
      giving words (i+1) := by
    unfold giving
    by_cases hlast : i + 1 < words.length
    · rw [if_pos hlast, if_neg]
      rw [List.drop_eq_nil_iff]
      omega
    · rw [if_neg hlast, if_pos]
      rw [List.drop_eq_nil_iff]
      omega
  unfold Drive.takeWord
  rw [hphase, ← hnext]
  rfl

theorem inData_giving (c : Channel) (d : Drive) {i : ℕ} (hi : i < words.length) :
    (c.setDrive c.onSlave (d.enter (giving words i))).inData =
      (words[i], c.setDrive c.onSlave (d.enter (giving words (i+1)))) := by
  simp only [Channel.inData, Channel.setDrive_onSlave, Channel.drive_setDrive_self,
    takeWord_giving hi, Channel.setDrive_setDrive]

/-- The buffer after `i` words were read. -/
def filled (words : List (BitVec 16)) (buffer : Mem) : ℕ → Mem
  | 0 => buffer
  | i+1 => storeWord (filled words buffer i) i (words.getD i 0#16)

/-- The loop of `ide_read_sector`. -/
theorem readWords_returns (buffer : Mem) (h : c.drive c.onSlave = some d)
    (hd : d.phase = .dataIn words)
    (hlen : words.length = 256) :
    Completes (forUpTo (fun i buffer => do
        let data ← input Channel.inData
        pure (storeWord buffer i data)) buffer 256) c (filled words buffer 256)
      (c.setDrive c.onSlave (d.enter (.idle false))) := by
  have hstart : c.setDrive c.onSlave (d.enter (giving words 0)) = c := by
    rw [giving, if_pos (by omega), List.drop_zero, ← hd, Drive.enter_self, Channel.setDrive_self h]
  have hend : giving words 256 = .idle false := by
    rw [giving, if_neg (by omega)]
  have hloop := Completes.loop (f := fun i buffer => do
        let data ← input Channel.inData
        pure (storeWord buffer i data)) (filled words buffer)
      (fun i => c.setDrive c.onSlave (d.enter (giving words i))) (n := 256) (fun i hi => by
    have hi : i < words.length := by omega
    have hin := inData_giving c d hi
    have hget : words.getD i 0#16 = words[i] := by
      rw [List.getD_eq_getElem?_getD, List.getElem?_eq_getElem hi, Option.getD_some]
    refine (Completes.input Channel.inData).bind ?_
    rw [hin, filled, hget]
    exact Completes.pure)
  rw [hstart, hend] at hloop
  exact hloop

theorem filled_apply (words : List (BitVec 16)) (buffer : Mem) (n o : ℕ) :
    filled words buffer n o = if o < 2*n then
      (if o % 2 = 0 then (words.getD (o/2) 0#16).setWidth 8
        else (words.getD (o/2) 0#16 >>> 8).setWidth 8)
      else buffer o := by
  induction n with
  | zero => rw [filled, if_neg (by omega)]
  | succ n ih =>
    rw [filled, storeWord]
    by_cases hlow : o = n*2
    · have hdiv : o / 2 = n := by omega
      rw [if_pos hlow, if_pos (by omega), if_pos (by omega), hdiv]
    · rw [if_neg hlow]
      by_cases hhigh : o = n*2 + 1
      · have hdiv : o / 2 = n := by omega
        rw [if_pos hhigh, if_pos (by omega), if_neg (by omega), hdiv]
      · rw [if_neg hhigh, ih]
        by_cases ho : o < 2*n
        · rw [if_pos ho, if_pos (show o < 2*(n+1) by omega)]
        · rw [if_neg ho, if_neg (by omega)]

theorem sectorWords_getD (disk : Mem) (lba : ℕ) {i : ℕ} (hi : i < 256) :
    (sectorWords disk lba).getD i 0#16 = disk (lba*512 + (2*i + 1)) ++ disk (lba*512 + 2*i) := by
  rw [sectorWords, List.getD_eq_getElem?_getD, List.getElem?_map, List.getElem?_range hi]
  rfl

/-- What is read are the bytes of the sector. -/
theorem filled_sectorWords (disk : Mem) (lba : ℕ) (buffer : Mem) :
    filled (sectorWords disk lba) buffer 256 =
      fun o => if o < 512 then disk (lba*512 + o) else buffer o := by
  funext o
  rw [filled_apply]
  by_cases ho : o < 512
  · rw [if_pos ho, if_pos ho, sectorWords_getD disk lba (by omega), setWidth_append_low,
      setWidth_append_high]
    by_cases heven : o % 2 = 0
    · rw [if_pos heven]
      congr 1
      omega
    · rw [if_neg heven]
      congr 1
      omega
  · rw [if_neg ho, if_neg ho]

/-- The drive after it got the first `i` of the words. -/
def taking (d : Drive) (lba : ℕ) (fate : Fate) (words : List (BitVec 16)) (i : ℕ) : Drive :=
  if i < 256 then d.enter (.dataOut lba fate (words.take i))
  else
    { d.enter (.delayed fate.settle (.idle (!fate.written))) with
      disk := if fate.written then putWords d.disk lba words else d.disk }

theorem giveWord_taking (hlen : words.length = 256) {i : ℕ} (hi : i < 256) :
    (taking d lba fate words i).giveWord (words.getD i 0#16) = taking d lba fate words (i+1) := by
  have hget : words.getD i 0#16 = words[i] := by
    rw [List.getD_eq_getElem?_getD, List.getElem?_eq_getElem, Option.getD_some]
  have htake : words.take i ++ [words[i]] = words.take (i+1) := List.take_append_getElem (by omega)
  have hcount : (words.take i).length = i := List.length_take_of_le (by omega)
  unfold taking
  rw [if_pos hi, hget]
  unfold Drive.giveWord
  simp only [Drive.enter_phase]
  rw [hcount, htake]
  by_cases hlast : i + 1 < 256
  · rw [if_pos hlast, if_pos hlast]
    rfl
  · have hall : words.take (i+1) = words := List.take_of_length_le (by omega)
    rw [if_neg hlast, if_neg hlast, hall]
    rfl

/-- The loop of `ide_write_sector`. -/
theorem writeWords_returns (h : c.drive c.onSlave = some d) (hd : d.phase = .dataOut lba fate [])
    (hlen : words.length = 256) (word : ℕ → BitVec 16)
    (hword : ∀ i, i < 256 → word i = words.getD i 0#16) :
    Completes (forUpTo (fun i _ => output fun c => c.outData (word i)) () 256) c ()
      (c.setDrive c.onSlave (taking d lba fate words 256)) := by
  have hstart : c.setDrive c.onSlave (taking d lba fate words 0) = c := by
    rw [taking, if_pos (by decide), List.take_zero, ← hd, Drive.enter_self, Channel.setDrive_self h]
  have hloop := Completes.loop (f := fun i _ => output fun c => c.outData (word i))
      (fun _ => ()) (fun i => c.setDrive c.onSlave (taking d lba fate words i)) (n := 256)
      (fun i hi => by
    have hout : (c.setDrive c.onSlave (taking d lba fate words i)).outData (words.getD i 0#16) =
        c.setDrive c.onSlave (taking d lba fate words (i+1)) := by
      simp only [Channel.outData, Channel.setDrive_onSlave, Channel.drive_setDrive_self,
        giveWord_taking hlen hi, Channel.setDrive_setDrive]
    rw [← hout, ← hword i hi]
    exact Completes.output _)
  rw [hstart] at hloop
  exact hloop

end Data

/-! ### Calls -/

/-- What the drive is for: sectors, and the fates of the commands. -/
structure Platter where
  disk : Mem
  fate : ℕ → Fate
  turn : ℕ

inductive SectorCall
  | read (lba : ℕ) (buffer : Mem)
  | write (lba : ℕ) (buffer : Mem)

/-- The result, and what is in the buffer then. -/
structure SectorAnswer where
  ok : Bool
  buffer : Mem

/-- A command that is taken transfers the sector; a write is a success also when the drive could not
write the data. -/
def Platter.call (p : Platter) : SectorCall → Platter × SectorAnswer
  | .read lba buffer =>
    ({ p with turn := p.turn + 1 },
      if (p.fate p.turn).accepted then
        ⟨true, fun o => if o < 512 then Fat32.ideReadSector p.disk lba o else buffer o⟩
      else ⟨false, buffer⟩)
  | .write lba buffer =>
    if (p.fate p.turn).accepted then
      ({ p with
          turn := p.turn + 2
          disk := if (p.fate p.turn).written then Fat32.ideWriteSector p.disk lba buffer
            else p.disk },
        ⟨true, buffer⟩)
    else ({ p with turn := p.turn + 1 }, ⟨false, buffer⟩)

def platterService : Services.Service Platter SectorCall SectorAnswer where
  call p c := some (p.call c)

/-- A call of the driver. -/
def ideCall (ideDriveSel : ℕ) : SectorCall → Io Channel SectorAnswer
  | .read lba buffer => do
    let r ← ideReadSector ideDriveSel lba buffer
    pure ⟨r.1, r.2⟩
  | .write lba buffer => do
    let r ← ideWriteSector ideDriveSel lba buffer
    pure ⟨r, buffer⟩

def ideCalls (ideDriveSel : ℕ) : List SectorCall → Io Channel (List SectorAnswer)
  | [] => pure []
  | i::is => do
    let r ← ideCall ideDriveSel i
    let rs ← ideCalls ideDriveSel is
    pure (r::rs)

/-- The selected drive is idle and stands for `p`; the other one is `other`. -/
structure Attached (sel : ℕ) (c : Channel) (p : Platter) (other : Option Drive) : Prop where
  drive : ∃ d err, c.drive (sel.testBit 4) = some d ∧ d.phase = .idle err ∧ d.packet = false ∧
    d.disk = p.disk ∧ d.fate = p.fate ∧ d.turn = p.turn
  other : c.drive (!sel.testBit 4) = other

section Calls
variable {sel lba cmd : ℕ} {c : Channel} {d : Drive} {p : Platter} {other : Option Drive}
    {buffer : Mem}
  {err : Bool} {data : Phase}

theorem Channel.drive_other {b : Bool} : (c.setDrive b d).drive (!b) = c.drive (!b) := by
  cases b <;> rfl

/-- The drive with the address in its registers takes the command or refuses it. -/
theorem command_returns (cmd lba : ℕ) (data : Phase) (hsel : sel = 0xE0 ∨ sel = 0xF0)
    (h : c.drive (sel.testBit 4) = some d) (hidle : d.phase = .idle err)
    (hdata : data.flags = 0x48#8) (hpoll : data.polled = data)
    (hcmd : ∀ t : TaskFile, t.lba = lba % 2^28 → d.command t 1 cmd =
      ({ d.enter (.delayed (d.fate d.turn).wait
          (if (d.fate d.turn).accepted then data else .idle true)) with turn := d.turn + 1 }, t)) :
    ∃ c1 c2 c3, Completes (ideSelectDrive sel lba) c () c1 ∧
      Completes (ideSendCommand cmd lba) c1 () c2 ∧
      Completes ideWaitDrq c2 (if (d.fate d.turn).accepted then 0 else -1) c3 ∧
      c3.onSlave = sel.testBit 4 ∧
      c3.drive (sel.testBit 4) = some { d.enter
        (if (d.fate d.turn).accepted then data else .idle true)
        with turn := d.turn + 1 } ∧
      c3.drive (!sel.testBit 4) = c.drive (!sel.testBit 4) := by
  have hslave := selected_slave sel lba
  have hselect : Completes (ideSelectDrive sel lba) c () (c.out (.driveSel, selected sel lba)) := by
    refine (Completes.output fun c : Channel => c.out (.driveSel, selected sel lba)).bind ?_
    apply delay_returns
    intro d' hd'
    have hdrive : c.drive ((selected sel lba).testBit 4) = some d' := hd'
    rw [hslave, h] at hdrive
    rw [← Option.some.inj hdrive, hidle]
    rfl
  have hon : (c.out (.driveSel, selected sel lba)).onSlave = sel.testBit 4 := hslave
  have hdrive : (c.out (.driveSel, selected sel lba)).drive (sel.testBit 4) = some d := h
  have hother : (c.out (.driveSel, selected sel lba)).drive (!sel.testBit 4) =
    c.drive (!sel.testBit 4) := rfl
  have haddr := hcmd _ (addressed_lba hsel c lba)
  generalize c.out (.driveSel, selected sel lba) = c1 at hselect hon hdrive hother haddr
  have hsend := sendCommand_returns cmd lba (c := c1) (d := d) (by rw [hon, hdrive])
  rw [haddr, hon] at hsend
  generalize hd2 : ({ d.enter (.delayed (d.fate d.turn).wait
    (if (d.fate d.turn).accepted then data else .idle true)) with turn := d.turn + 1 } : Drive) = d2
    at hsend
  generalize hc2 : ({ { c1 with count := 1 }.setDrive (sel.testBit 4) d2 with
    regs := addressed c1 lba } : Channel) = c2 at hsend
  have hon2 : c2.onSlave = sel.testBit 4 := by
    rw [← hc2]
    exact hon
  have hdrive2 : c2.drive (sel.testBit 4) = some d2 := by
    rw [← hc2]
    cases sel.testBit 4 <;> rfl
  have hother2 : c2.drive (!sel.testBit 4) = c.drive (!sel.testBit 4) := by
    rw [← hother, ← hc2]
    cases sel.testBit 4 <;> rfl
  have hwait := ideWaitDrq_returns (c := c2) (d := d2) (by rw [hon2, hdrive2])
    (by rw [← hd2]; rfl) hdata hpoll
  refine ⟨c1, c2, _, hselect, hsend, hwait, ?_, ?_, ?_⟩
  · rw [Channel.setDrive_onSlave, hon2]
  · rw [hon2, Channel.drive_setDrive_self, ← hd2]
    rfl
  · rw [hon2, Channel.drive_other, hother2]

theorem ideRead_returns (hsel : sel = 0xE0 ∨ sel = 0xF0) (h : Attached sel c p other) :
    ∃ c', Completes (ideCall sel (.read lba buffer)) c (p.call (.read lba buffer)).2 c' ∧
      Attached sel c' (p.call (.read lba buffer)).1 other := by
  obtain ⟨disk, fate, turn⟩ := p
  obtain ⟨⟨d, err, hdrive, hidle, hpacket, rfl, rfl, rfl⟩, rfl⟩ := h
  have hne : sel ≠ 0 := by omega
  obtain ⟨c1, c2, c3, hselect, hsend, hwait, hon, hdrive3, hother⟩ :=
    command_returns 0x20 lba (.dataIn (sectorWords d.disk (lba % 2^28)))
      hsel hdrive hidle rfl rfl (fun t ht => by
        rw [Drive.command, if_pos ⟨rfl, rfl, hpacket⟩, ht])
  have hcall (r : Bool × Mem) (c' : Channel)
      (hr : Completes (do
        let r ← ideWaitDrq
        if r ≠ 0 then pure (false, buffer)
        else do
          let buffer ← forUpTo (fun i buffer => do
            let data ← input Channel.inData
            pure (storeWord buffer i data)) buffer 256
          pure (true, buffer)) c2 r c') :
      Completes (ideCall sel (.read lba buffer)) c ⟨r.1, r.2⟩ c' := by
    have hsector : Completes (ideReadSector sel lba buffer) c r c' := by
      unfold ideReadSector
      rw [if_neg hne]
      exact hselect.bind (hsend.bind hr)
    exact hsector.bind Completes.pure
  unfold Platter.call
  cases hacc : (d.fate d.turn).accepted with
  | false =>
    rw [hacc] at hwait hdrive3
    refine ⟨c3, hcall (false, buffer) c3 (hwait.bind Completes.pure),
      ⟨_, true, hdrive3, rfl, hpacket,
      rfl, rfl, rfl⟩, hother⟩
  | true =>
    rw [hacc] at hwait hdrive3
    have hlen : (sectorWords d.disk (lba % 2^28)).length = 256 := by
      rw [sectorWords, List.length_map, List.length_range]
    have hread := readWords_returns (c := c3) buffer (by rw [hon, hdrive3]) rfl hlen
    rw [filled_sectorWords] at hread
    refine ⟨_, hcall (true, _) _ (hwait.bind (hread.bind Completes.pure)),
      ⟨{ d.enter (.idle false) with turn := d.turn + 1 }, false, ?_, rfl, hpacket, rfl, rfl, rfl⟩,
        ?_⟩
    · rw [hon, Channel.drive_setDrive_self]
      rfl
    · rw [hon, Channel.drive_other, hother]

/-- The words that the driver sends. -/
def bufferWords (buffer : Mem) : List (BitVec 16) :=
  (List.range 256).map fun i => buffer (2*i + 1) ++ buffer (2*i)

theorem bufferWords_getD (buffer : Mem) {i : ℕ} (hi : i < 256) :
    (bufferWords buffer).getD i 0#16 = buffer (2*i + 1) ++ buffer (2*i) := by
  rw [bufferWords, List.getD_eq_getElem?_getD, List.getElem?_map, List.getElem?_range hi]
  rfl

/-- What is written are the bytes of the buffer. -/
theorem putWords_bufferWords (disk : Mem) (lba : ℕ) (buffer : Mem) :
    putWords disk (lba % 2^28) (bufferWords buffer) = Fat32.ideWriteSector disk lba buffer := by
  funext a
  unfold putWords Fat32.ideWriteSector
  by_cases ha : a / 512 = lba % 2^28
  · rw [if_pos ha, if_pos ha, bufferWords_getD buffer (by omega)]
    dsimp only
    rw [setWidth_append_low, setWidth_append_high]
    by_cases heven : a % 2 = 0
    · rw [if_pos heven]
      congr 1
      omega
    · rw [if_neg heven]
      congr 1
      omega
  · rw [if_neg ha, if_neg ha]

theorem flush_returns (h : c.drive c.onSlave = some d) :
    Completes (outb (.command, 0xE7)) c () (c.setDrive c.onSlave
      { d.enter (.delayed (d.fate d.turn).wait (.idle (!(d.fate d.turn).accepted))) with
        turn := d.turn + 1 }) := by
  have hout : c.out (.command, 0xE7) = c.setDrive c.onSlave
      { d.enter (.delayed (d.fate d.turn).wait (.idle (!(d.fate d.turn).accepted))) with
        turn := d.turn + 1 } := by
    simp only [Channel.out, h]
    cases c.onSlave <;> rfl
  rw [← hout]
  exact Completes.output _

theorem ideWrite_returns (hsel : sel = 0xE0 ∨ sel = 0xF0) (h : Attached sel c p other) :
    ∃ c', Completes (ideCall sel (.write lba buffer)) c (p.call (.write lba buffer)).2 c' ∧
      Attached sel c' (p.call (.write lba buffer)).1 other := by
  obtain ⟨disk, fate, turn⟩ := p
  obtain ⟨⟨d, err, hdrive, hidle, hpacket, rfl, rfl, rfl⟩, rfl⟩ := h
  have hne : sel ≠ 0 := by omega
  obtain ⟨c1, c2, c3, hselect, hsend, hwait, hon, hdrive3, hother⟩ :=
    command_returns 0x30 lba (.dataOut (lba % 2^28) (d.fate d.turn) [])
      hsel hdrive hidle rfl rfl (fun t ht => by
        rw [Drive.command, if_neg (by omega), if_pos ⟨rfl, rfl, hpacket⟩, ht])
  have hcall (r : Bool) (c' : Channel)
      (hr : Completes (do
        let r ← ideWaitDrq
        if r ≠ 0 then pure false
        else do
          forUpTo (fun i _ => output fun c => c.outData
            ((buffer (i*2 + 1)).setWidth 16 <<< 8 ||| (buffer (i*2)).setWidth 16)) () 256
          let r ← ideWaitReady
          if r ≠ 0 then pure false
          else do
            outb (.command, 0xE7)
            let r ← ideWaitReady
            pure (r = 0)) c2 r c') :
      Completes (ideCall sel (.write lba buffer)) c ⟨r, buffer⟩ c' := by
    have hsector : Completes (ideWriteSector sel lba buffer) c r c' := by
      unfold ideWriteSector
      rw [if_neg hne]
      exact hselect.bind (hsend.bind hr)
    exact hsector.bind Completes.pure
  unfold Platter.call
  cases hacc : (d.fate d.turn).accepted with
  | false =>
    rw [hacc] at hwait hdrive3
    refine ⟨c3, hcall false c3 (hwait.bind Completes.pure), ⟨_, true, hdrive3, rfl, hpacket,
      rfl, rfl, rfl⟩, hother⟩
  | true =>
    rw [hacc] at hwait hdrive3
    have hlen : (bufferWords buffer).length = 256 := by
      rw [bufferWords, List.length_map, List.length_range]
    have hwords := writeWords_returns (c := c3) (by rw [hon, hdrive3]) rfl
      hlen (fun i => (buffer (i*2 + 1)).setWidth 16 <<< 8 ||| (buffer (i*2)).setWidth 16)
      (fun i hi => by rw [bufferWords_getD buffer hi, shift_or_eq_append, Nat.mul_comm])
    rw [hon] at hwords
    -- the sector is on the disk, unless the drive could not write it
    generalize hd4 : taking _ (lba % 2^28) (d.fate d.turn) (bufferWords buffer) 256 = d4 at hwords
    have hdisk : d4.disk =
        if (d.fate d.turn).written then Fat32.ideWriteSector d.disk lba buffer else d.disk := by
      rw [← hd4, ← putWords_bufferWords]
      rfl
    have hready := ideWaitReady_returns (c := c3.setDrive (sel.testBit 4) d4) (d := d4)
      (n := (d.fate d.turn).settle) (p := .idle (!(d.fate d.turn).written))
      (by rw [Channel.setDrive_onSlave, hon, Channel.drive_setDrive_self]) (by rw [← hd4]; rfl) rfl
      (idle_ready _)
    rw [Channel.setDrive_onSlave, hon, Channel.setDrive_setDrive] at hready
    have hflush := flush_returns
      (c := c3.setDrive (sel.testBit 4) (d4.enter (.idle (!(d.fate d.turn).written))))
      (d := d4.enter (.idle (!(d.fate d.turn).written)))
      (by rw [Channel.setDrive_onSlave, hon, Channel.drive_setDrive_self])
    rw [Channel.setDrive_onSlave, hon, Channel.setDrive_setDrive] at hflush
    generalize hd5 : ({ (d4.enter (.idle (!(d.fate d.turn).written))).enter _ with
      turn := _ } : Drive) = d5 at hflush
    have hready' := ideWaitReady_returns (c := c3.setDrive (sel.testBit 4) d5) (d := d5)
      (n := (d4.fate d4.turn).wait) (p := .idle (!(d4.fate d4.turn).accepted))
      (by rw [Channel.setDrive_onSlave, hon, Channel.drive_setDrive_self]) (by rw [← hd5]; rfl) rfl
      (idle_ready _)
    rw [Channel.setDrive_onSlave, hon, Channel.setDrive_setDrive] at hready'
    refine ⟨_, hcall true _ (hwait.bind (hwords.bind (hready.bind (hflush.bind
      (hready'.bind Completes.pure))))), ⟨_, _, Channel.drive_setDrive_self, rfl, ?_, ?_, ?_, ?_⟩,
        ?_⟩
    · rw [← hd5, ← hd4]
      exact hpacket
    · rw [← hd5]
      exact hdisk
    · rw [← hd5, ← hd4]
      rfl
    · rw [← hd5, ← hd4]
      rfl
    · rw [Channel.drive_other, hother]

theorem ideCall_returns (hsel : sel = 0xE0 ∨ sel = 0xF0) (h : Attached sel c p other)
    (i : SectorCall) :
    ∃ c', Completes (ideCall sel i) c (p.call i).2 c' ∧ Attached sel c' (p.call i).1 other := by
  cases i with
  | read lba buffer => exact ideRead_returns hsel h
  | write lba buffer => exact ideWrite_returns hsel h

/-- In every sequence of reads and writes the driver returns, with the sectors of the disk, however
long the drive takes for each command and whichever it refuses; the other drive is left alone. -/
theorem ideCalls_returns (hsel : sel = 0xE0 ∨ sel = 0xF0) (h : Attached sel c p other)
    (calls : List SectorCall) :
    ∃ p' answers c', platterService.run p calls = some (p', answers) ∧
      Completes (ideCalls sel calls) c answers c' ∧ Attached sel c' p' other := by
  induction calls generalizing c p with
  | nil => exact ⟨p, [], c, rfl, Completes.pure, h⟩
  | cons i is ih =>
    obtain ⟨c1, hcall, h1⟩ := ideCall_returns hsel h i
    obtain ⟨p', answers, c', hrun, hcalls, h'⟩ := ih h1
    refine ⟨p', (p.call i).2 :: answers, c', ?_, hcall.bind (hcalls.bind Completes.pure), h'⟩
    have hfirst : platterService.call p i = some ((p.call i).1, (p.call i).2) := rfl
    rw [Services.Service.run_cons hfirst, hrun]
    rfl

end Calls

end SukiOS.Ata

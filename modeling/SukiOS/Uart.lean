import SukiOS.Lib.Polling
import SukiOS.TtyPrint

/-! The serial port: what the terminal prints goes over the line of a 16550, character by character,
however slow the line is. -/
namespace SukiOS.Serial
open Polling Polling.Io

/-! ### The device -/

/-- The ports of COM1 by their offsets. Offsets 0 and 1 are the divisor while bit 7 of `lcr` is set.
A character sent while the holding register is full takes the place of the one before it. -/
structure Uart where
  ier : BitVec 8
  fcr : BitVec 8
  lcr : BitVec 8
  mcr : BitVec 8
  dll : BitVec 8
  dlm : BitVec 8
  /-- How often the holding register will be found full. -/
  busy : ℕ
  /-- The same after the character number `n`. -/
  wait : ℕ → ℕ
  /-- The bits of the status that the driver does not look at. -/
  other : BitVec 8
  line : List (BitVec 8)
  lost : ℕ

inductive UartReg
  | thr | ier | fcr | lcr | mcr
deriving DecidableEq

def Uart.send (u : Uart) (c : BitVec 8) : Uart :=
  { u with
    line := if u.busy = 0 then u.line ++ [c] else u.line.dropLast ++ [c]
    lost := if u.busy = 0 then u.lost else u.lost + 1
    busy := u.wait u.line.length }

def Uart.out (u : Uart) : UartReg × BitVec 8 → Uart
  | (.thr, x) => if u.lcr.getLsbD 7 then { u with dll := x } else u.send x
  | (.ier, x) => if u.lcr.getLsbD 7 then { u with dlm := x } else { u with ier := x }
  | (.fcr, x) => { u with fcr := x }
  | (.lcr, x) => { u with lcr := x }
  | (.mcr, x) => { u with mcr := x }

/-- `inb(COM1_BASE + UART_LSR)` -/
def Uart.inLsr (u : Uart) : BitVec 8 × Uart :=
  ((if u.busy = 0 then 0x20#8 else 0#8) ||| (u.other &&& 0xDF#8), { u with busy := u.busy - 1 })

/-! ### The driver -/

def outb (w : UartReg × BitVec 8) : Io Uart Unit := output fun u => u.out w

def uartInit : Io Uart Unit := do
  outb (.ier, 0x00#8)
  outb (.lcr, 0x80#8)
  outb (.thr, 0x01#8)
  outb (.ier, 0x00#8)
  outb (.lcr, 0x03#8)
  outb (.fcr, 0x01#8 ||| 0x02#8 ||| 0x04#8)
  outb (.mcr, 0x01#8 ||| 0x02#8 ||| 0x08#8)

def uartPutchar (c : BitVec 8) : Io Uart Unit := do
  let _ ← waitUntil Uart.inLsr (fun lsr => lsr &&& 0x20#8 ≠ 0#8)
  outb (.thr, c)

/-- The calls that print; `buf` is what the stack of `tty_print_dec` holds. -/
inductive PrintCall
  | putchar (c : BitVec 8)
  | print (s : List (BitVec 8))
  | hex64 (value : ℕ)
  | dec (value : ℕ) (buf : ℤ → BitVec 8)

/-- The characters for `tty_putchar`. -/
def PrintCall.text : PrintCall → List (BitVec 8)
  | .putchar c => [c]
  | .print s => s
  | .hex64 value => ttyPrintHex64 value
  | .dec value buf => ttyPrintDec value buf

/-- `tty_putchar`: the serial port first, then the screen. -/
def putchar (c : BitVec 8) : Io (Uart × Tty) Unit := do
  onFst (uartPutchar c)
  output fun s => (s.1, ttyPutchar s.2 c)

def putchars : List (BitVec 8) → Io (Uart × Tty) Unit
  | [] => pure ()
  | c::s => do
    putchar c
    putchars s

def printCalls : List PrintCall → Io (Uart × Tty) Unit
  | [] => pure ()
  | i::is => do
    putchars i.text
    printCalls is

/-! ### The line -/

section Line
variable {u : Uart} {t : Tty} {c : BitVec 8} {text : List (BitVec 8)} {q : Prop}

/-- 115200 baud, 8 data bits, no parity, one stop bit, and no interrupts if `q` holds. -/
structure Configured (q : Prop) (u : Uart) : Prop where
  divisor : u.dlm ++ u.dll = 1#16
  format : u.lcr = 0x03#8
  quiet : q → u.ier = 0#8

/-- The first write of `uart_init` reaches the interrupt register unless the divisor was selected.
-/
theorem uartInit_returns (u : Uart) : ∃ u', Completes uartInit u () u' ∧
    Configured (u.lcr.getLsbD 7 = false) u' ∧ u'.line = u.line ∧ u'.lost = u.lost := by
  have hfirst : ∃ u1, u.out (.ier, 0x00#8) = u1 ∧ u1.line = u.line ∧ u1.lost = u.lost ∧
      (u.lcr.getLsbD 7 = false → u1.ier = 0#8) := by
    refine ⟨_, rfl, ?_⟩
    show (if u.lcr.getLsbD 7 then _ else _ : Uart).line = _ ∧
      (if u.lcr.getLsbD 7 then _ else _ : Uart).lost = _ ∧
      (_ → (if u.lcr.getLsbD 7 then _ else _ : Uart).ier = _)
    cases u.lcr.getLsbD 7
    · exact ⟨rfl, rfl, fun _ => rfl⟩
    · exact ⟨rfl, rfl, fun h => nomatch h⟩
  obtain ⟨u1, h1, hline, hlost, hquiet⟩ := hfirst
  have hrun : Completes uartInit u () ([(.lcr, 0x80#8), (.thr, 0x01#8), (.ier, 0x00#8),
    (.lcr, 0x03#8),
      (.fcr, 0x01#8 ||| 0x02#8 ||| 0x04#8), (.mcr, 0x01#8 ||| 0x02#8 ||| 0x08#8)].foldl Uart.out
        (u.out (.ier, 0x00#8))) :=
    (Completes.output _).bind ((Completes.output _).bind ((Completes.output _).bind
      ((Completes.output _).bind ((Completes.output _).bind
        ((Completes.output _).bind (Completes.output _))))))
  have hregs : [(.lcr, 0x80#8), (.thr, 0x01#8), (.ier, 0x00#8), (.lcr, 0x03#8),
      (.fcr, 0x01#8 ||| 0x02#8 ||| 0x04#8),
      (.mcr, 0x01#8 ||| 0x02#8 ||| 0x08#8)].foldl Uart.out u1 =
      { u1 with dll := 0x01#8, dlm := 0x00#8, lcr := 0x03#8, fcr := 0x07#8, mcr := 0x0B#8 } := by
    simp [Uart.out]
  rw [h1, hregs] at hrun
  exact ⟨_, hrun, ⟨(by decide : 0x00#8 ++ 0x01#8 = 1#16), rfl, hquiet⟩, hline, hlost⟩

/-- The wait ends with the holding register empty. -/
theorem wait_returns (u : Uart) : ∃ lsr, Completes
    (waitUntil Uart.inLsr (fun lsr => lsr &&& 0x20#8 ≠ 0#8)) u lsr { u with busy := 0 } := by
  obtain ⟨n, hn⟩ : ∃ n, u.busy = n := ⟨_, rfl⟩
  have hbit (x : BitVec 8) : (x ||| (u.other &&& 0xDF#8)) &&& 0x20#8 = x &&& 0x20#8 := by
    rw [BitVec.and_or_distrib_right, BitVec.and_assoc, (by decide : 0xDF#8 &&& 0x20#8 = 0#8),
      BitVec.and_zero, BitVec.or_zero]
  induction n generalizing u with
  | zero =>
    have hin : u.inLsr = (0x20#8 ||| (u.other &&& 0xDF#8), { u with busy := 0 }) := by
      rw [Uart.inLsr, if_pos hn, hn]
    refine ⟨_, Completes.wait_done hin ?_⟩
    rw [hbit]
    decide
  | succ n ih =>
    have hin : u.inLsr = (0#8 ||| (u.other &&& 0xDF#8), { u with busy := n }) := by
      rw [Uart.inLsr, if_neg (by omega), hn]
      rfl
    obtain ⟨lsr, hrest⟩ := ih { u with busy := n } rfl (fun x => hbit x)
    refine ⟨lsr, Completes.wait_step ?_ ?_⟩
    · rw [hin, hbit]
      decide
    · rw [hin]
      exact hrest

theorem putchar_returns (h : Configured q u) (t : Tty) (c : BitVec 8) :
    ∃ u', Completes (putchar c) (u, t) () (u', ttyPutchar t c) ∧ Configured q u' ∧
      u'.line = u.line ++ [c] ∧ u'.lost = u.lost := by
  obtain ⟨lsr, hwait⟩ := wait_returns u
  have hout : ({ u with busy := 0 } : Uart).out (.thr, c) =
      { u with line := u.line ++ [c], busy := u.wait u.line.length } := by
    have hlcr : u.lcr.getLsbD 7 = false := by
      rw [h.format]
      rfl
    show (if u.lcr.getLsbD 7 then _ else _) = _
    rw [hlcr, if_neg Bool.false_ne_true]
    rfl
  have hsend : Completes (uartPutchar c) u ()
      { u with line := u.line ++ [c], busy := u.wait u.line.length } := by
    rw [← hout]
    exact hwait.bind (Completes.output _)
  exact ⟨_, (hsend.onFst t).bind (Completes.output _), ⟨h.divisor, h.format, h.quiet⟩, rfl, rfl⟩

theorem putchars_returns (h : Configured q u) (t : Tty) (text : List (BitVec 8)) :
    ∃ u', Completes (putchars text) (u, t) () (u', ttyRun (text.map .putchar) t) ∧ Configured q u' ∧
      u'.line = u.line ++ text ∧ u'.lost = u.lost := by
  induction text generalizing u t with
  | nil => exact ⟨u, Completes.pure, h, (List.append_nil _).symm, rfl⟩
  | cons c s ih =>
    obtain ⟨u1, h1, hc1, hline1, hlost1⟩ := putchar_returns h t c
    obtain ⟨u2, h2, hc2, hline2, hlost2⟩ := ih hc1 (ttyPutchar t c)
    refine ⟨u2, h1.bind h2, hc2, ?_, hlost2.trans hlost1⟩
    rw [hline2, hline1, List.append_assoc]
    rfl

theorem ttyRun_append (ops ops' : List TtyOp) (t : Tty) :
    ttyRun (ops ++ ops') t = ttyRun ops' (ttyRun ops t) := by
  induction ops generalizing t with
  | nil => rfl
  | cons op ops ih =>
    cases op with
    | setcolor fg bg => exact ih _
    | putchar c => exact ih _

theorem printCalls_returns (h : Configured q u) (t : Tty) (calls : List PrintCall) :
    ∃ u', Completes (printCalls calls) (u, t) ()
        (u', ttyRun ((calls.flatMap PrintCall.text).map .putchar) t) ∧ Configured q u' ∧
      u'.line = u.line ++ calls.flatMap PrintCall.text ∧ u'.lost = u.lost := by
  induction calls generalizing u t with
  | nil => exact ⟨u, Completes.pure, h, (List.append_nil _).symm, rfl⟩
  | cons i is ih =>
    obtain ⟨u1, h1, hc1, hline1, hlost1⟩ := putchars_returns h t i.text
    obtain ⟨u2, h2, hc2, hline2, hlost2⟩ := ih hc1 (ttyRun (i.text.map .putchar) t)
    refine ⟨u2, ?_, hc2, ?_, hlost2.trans hlost1⟩
    · rw [List.flatMap_cons, List.map_append, ttyRun_append]
      exact h1.bind h2
    · rw [hline2, hline1, List.append_assoc, List.flatMap_cons]

/-- Whatever state the port is in and however long the line takes for each character: after
`uart_init` all that is printed goes over the line at 115200 baud, in order and without a loss,
while the terminal shows it. -/
theorem serial_log (u : Uart) (t : Tty) (calls : List PrintCall) :
    ∃ u', Completes (do
        onFst uartInit
        printCalls calls) (u, t) () (u', ttyRun ((calls.flatMap PrintCall.text).map .putchar) t) ∧
      Configured (u.lcr.getLsbD 7 = false) u' ∧ u'.line = u.line ++ calls.flatMap PrintCall.text ∧
        u'.lost = u.lost := by
  obtain ⟨u1, h1, hc1, hline1, hlost1⟩ := uartInit_returns u
  obtain ⟨u2, h2, hc2, hline2, hlost2⟩ := printCalls_returns hc1 t calls
  exact ⟨u2, (h1.onFst t).bind h2, hc2, by rw [hline2, hline1], hlost2.trans hlost1⟩

end Line

end SukiOS.Serial

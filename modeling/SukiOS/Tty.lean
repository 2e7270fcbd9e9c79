import Mathlib.Algebra.Group.Nat.Defs
import Mathlib.Data.List.Basic
import Mathlib.Logic.Function.Basic
import SukiOS.Lib.Loop

/-! The terminal of `tty.c` in VGA text mode. `char` is signed. -/
namespace SukiOS
open CountedLoop

/-! ### The source -/

def vgaWidth : ℕ := 80

def vgaHeight : ℕ := 25

/-- The state of the terminal. `stores` are the cells that were written to, the last one first, and
`uart` is what went to the serial port. -/
structure Tty where
  row : ℕ
  col : ℕ
  color : BitVec 8
  buffer : ℕ → BitVec 16
  stores : List ℕ
  /-- The position that the hardware cursor was set to. -/
  cursor : BitVec 16
  uart : List (BitVec 8)

def vgaColor (fg bg : BitVec 8) : BitVec 8 := fg ||| bg <<< 4

/-- The cast of the signed `c` to `uint16_t` extends its sign. -/
def vgaEntry (c color : BitVec 8) : BitVec 16 := c.signExtend 16 ||| color.setWidth 16 <<< 8

/-- `term_buffer[i] = v` -/
def Tty.poke (t : Tty) (i : ℕ) (v : BitVec 16) : Tty :=
  { t with buffer := Function.update t.buffer i v, stores := i :: t.stores }

/-- The high byte of the position, then the low byte. -/
def ttyUpdateCursor (t : Tty) : Tty :=
  { t with cursor := BitVec.ofNat 16 (t.row * vgaWidth + t.col) }

def ttyScroll (t : Tty) : Tty :=
  let t := forUpTo (fun y t =>
    forUpTo (fun x t =>
      t.poke (y * vgaWidth + x) (t.buffer ((y + 1) * vgaWidth + x))) vgaWidth t) (vgaHeight - 1) t
  forUpTo (fun x t => t.poke ((vgaHeight - 1) * vgaWidth + x) (vgaEntry 0x20#8 t.color)) vgaWidth t

/-- The assignments of `tty_init`, on a screen with any contents. -/
def ttyReset (buffer : ℕ → BitVec 16) : Tty where
  row := 0
  col := 0
  color := vgaColor 7#8 0#8
  buffer := buffer
  stores := []
  cursor := 0#16
  uart := []

/-- The loops of `tty_init`. -/
def ttyClear (t : Tty) : Tty :=
  forUpTo (fun y t =>
    forUpTo (fun x t => t.poke (y * vgaWidth + x) (vgaEntry 0x20#8 t.color)) vgaWidth t) vgaHeight t

def ttyInit (buffer : ℕ → BitVec 16) : Tty := ttyUpdateCursor (ttyClear (ttyReset buffer))

def ttySetcolor (t : Tty) (fg bg : BitVec 8) : Tty := { t with color := vgaColor fg bg }

/-- The start of the next line, in both branches of `tty_putchar`. -/
def lineFeed (t : Tty) : Tty :=
  let t := { t with col := 0, row := t.row + 1 }
  if t.row = vgaHeight then ttyScroll { t with row := vgaHeight - 1 } else t

/-- `tty_putchar` after the character is in its cell. -/
def ttyAdvance (t : Tty) : Tty :=
  let t := { t with col := t.col + 1 }
  if t.col = vgaWidth then lineFeed t else t

/-- The backspace of `tty_putchar`. -/
def ttyErase (t : Tty) : Tty :=
  let t := { t with col := t.col - 1 }
  t.poke (t.row * vgaWidth + t.col) (vgaEntry 0x20#8 t.color)

def ttyPutchar (t : Tty) (c : BitVec 8) : Tty :=
  let t := { t with uart := t.uart ++ [c] }
  if c = 0x0A#8 then ttyUpdateCursor (lineFeed t)
  else if c = 0x08#8 then
    if 0 < t.col then ttyUpdateCursor (ttyErase t) else t
  else ttyUpdateCursor (ttyAdvance (t.poke (t.row * vgaWidth + t.col) (vgaEntry c t.color)))

inductive TtyOp where
  | setcolor (fg bg : BitVec 4)
  | putchar (c : BitVec 8)
deriving DecidableEq, Repr

/-- The calls one after the other; the colours are below 16. -/
def ttyRun : List TtyOp → Tty → Tty
  | [], t => t
  | .setcolor fg bg :: ops, t => ttyRun ops (ttySetcolor t (fg.setWidth 8) (bg.setWidth 8))
  | .putchar c :: ops, t => ttyRun ops (ttyPutchar t c)

/-! ### The reference terminal -/

/-- A character and the colours that it was printed in. -/
structure Cell where
  ch : BitVec 8
  fg : BitVec 4
  bg : BitVec 4
deriving DecidableEq, Repr

/-- The 16 bits for a cell. -/
def Cell.bits (c : Cell) : BitVec 16 := c.bg ++ c.fg ++ c.ch

/-- A terminal of 25 lines of 80 cells. -/
structure Screen where
  cell : Fin 25 → Fin 80 → Cell
  row : Fin 25
  col : Fin 80
  fg : BitVec 4
  bg : BitVec 4

def Screen.blank (s : Screen) : Cell := { ch := 0x20#8, fg := s.fg, bg := s.bg }

def Screen.put (s : Screen) (c : Cell) : Screen :=
  { s with cell := Function.update s.cell s.row (Function.update (s.cell s.row) s.col c) }

/-- The lines move up by one, and the last one is blank. -/
def Screen.scroll (s : Screen) : Screen :=
  { s with cell := fun y x => if h : y.val + 1 < 25 then s.cell ⟨y.val + 1, h⟩ x else s.blank }

/-- The start of the next line; at the last line the screen scrolls. -/
def Screen.newline (s : Screen) : Screen :=
  if h : s.row.val + 1 < 25 then { s with row := ⟨s.row.val + 1, h⟩, col := 0 }
  else { s.scroll with col := 0 }

/-- The cell before the cursor becomes blank. -/
def Screen.erase (s : Screen) : Screen :=
  let s := { s with col := ⟨s.col.val - 1, by omega⟩ }
  s.put s.blank

/-- The next cell; a full line wraps. -/
def Screen.advance (s : Screen) : Screen :=
  if h : s.col.val + 1 < 80 then { s with col := ⟨s.col.val + 1, h⟩ } else s.newline

/-- A backspace stays within the line. -/
def Screen.putchar (s : Screen) (c : BitVec 8) : Screen :=
  if c = 0x0A#8 then s.newline
  else if c = 0x08#8 then if 0 < s.col.val then s.erase else s
  else (s.put { ch := c, fg := s.fg, bg := s.bg }).advance

def screenStart : Screen where
  cell _ _ := { ch := 0x20#8, fg := 7#4, bg := 0#4 }
  row := 0
  col := 0
  fg := 7#4
  bg := 0#4

def screenRun : List TtyOp → Screen → Screen
  | [], s => s
  | .setcolor fg bg :: ops, s => screenRun ops { s with fg := fg, bg := bg }
  | .putchar c :: ops, s => screenRun ops (s.putchar c)

/-! ### Agreement -/

/-- The cursor and the colour are those of the reference, and only cells of the screen were written
to. -/
structure SameCursor (t : Tty) (s : Screen) : Prop where
  row : t.row = s.row.val
  col : t.col = s.col.val
  color : t.color = s.bg ++ s.fg
  stores : ∀ i, i ∈ t.stores → i < 2000

/-- The hardware cursor is there too. -/
structure Tracks (t : Tty) (s : Screen) : Prop extends SameCursor t s where
  cursor : t.cursor = BitVec.ofNat 16 (t.row * 80 + t.col)

/-- The buffer holds the cells of the reference. -/
def ShowsCells (t : Tty) (s : Screen) : Prop :=
  ∀ (y : Fin 25) (x : Fin 80), t.buffer (y.val * 80 + x.val) = (s.cell y x).bits

/-- Every character is below 128, or the colours in force are white on white. -/
def PrintsAscii : BitVec 8 → List TtyOp → Prop
  | _, [] => True
  | _, .setcolor fg bg :: ops => PrintsAscii (bg ++ fg) ops
  | color, .putchar c :: ops => (c.toNat < 128 ∨ color = 0xFF#8) ∧ PrintsAscii color ops

end SukiOS

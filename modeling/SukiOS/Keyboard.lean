import Mathlib.Data.List.Basic
import SukiOS.Lib.RingBuffer

/-! The keyboard driver `keyboard.c`: the decoder of Set 1 scancodes, the modifier and lock keys,
the ASCII tables, the ring buffer and the key repeat. The command that sets the LEDs is a parameter
here. -/
namespace SukiOS
open RingBuffer

/-! ### Keys -/

/-- `keycode_t` -/
inductive Keycode where
  | none | escape | n1 | n2 | n3 | n4 | n5 | n6 | n7 | n8 | n9 | n0 | minus | equals | backspace |
      tab
  | q | w | e | r | t | y | u | i | o | p | lbracket | rbracket | enter | lctrl
  | a | s | d | f | g | h | j | k | l | semicolon | apostrophe | grave | lshift | backslash
  | z | x | c | v | b | n | m | comma | dot | slash | rshift | kpMultiply | lalt | space | capslock
  | f1 | f2 | f3 | f4 | f5 | f6 | f7 | f8 | f9 | f10 | numlock | scrolllock
  | kp7 | kp8 | kp9 | kpMinus | kp4 | kp5 | kp6 | kpPlus | kp1 | kp2 | kp3 | kp0 | kpDot | f11 | f12
  | kpEnter | rctrl | kpDivide | ralt | pause | printscreen | home | up | pageup | left | right
  | «end» | down | pagedown | insert | delete | lwin | rwin | menu
deriving DecidableEq, Repr

/-- The values of the enumeration. -/
def Keycode.code : Keycode → ℕ
  | .none => 0x00 | .escape => 0x01
  | .n1 => 0x02 | .n2 => 0x03 | .n3 => 0x04 | .n4 => 0x05 | .n5 => 0x06 | .n6 => 0x07
  | .n7 => 0x08 | .n8 => 0x09 | .n9 => 0x0A | .n0 => 0x0B | .minus => 0x0C | .equals => 0x0D
  | .backspace => 0x0E | .tab => 0x0F
  | .q => 0x10 | .w => 0x11 | .e => 0x12 | .r => 0x13 | .t => 0x14 | .y => 0x15 | .u => 0x16
  | .i => 0x17 | .o => 0x18 | .p => 0x19 | .lbracket => 0x1A | .rbracket => 0x1B
  | .enter => 0x1C | .lctrl => 0x1D
  | .a => 0x1E | .s => 0x1F | .d => 0x20 | .f => 0x21 | .g => 0x22 | .h => 0x23 | .j => 0x24
  | .k => 0x25 | .l => 0x26 | .semicolon => 0x27 | .apostrophe => 0x28 | .grave => 0x29
  | .lshift => 0x2A | .backslash => 0x2B
  | .z => 0x2C | .x => 0x2D | .c => 0x2E | .v => 0x2F | .b => 0x30 | .n => 0x31 | .m => 0x32
  | .comma => 0x33 | .dot => 0x34 | .slash => 0x35 | .rshift => 0x36 | .kpMultiply => 0x37
  | .lalt => 0x38 | .space => 0x39 | .capslock => 0x3A
  | .f1 => 0x3B | .f2 => 0x3C | .f3 => 0x3D | .f4 => 0x3E | .f5 => 0x3F | .f6 => 0x40
  | .f7 => 0x41 | .f8 => 0x42 | .f9 => 0x43 | .f10 => 0x44
  | .numlock => 0x45 | .scrolllock => 0x46
  | .kp7 => 0x47 | .kp8 => 0x48 | .kp9 => 0x49 | .kpMinus => 0x4A | .kp4 => 0x4B | .kp5 => 0x4C
  | .kp6 => 0x4D | .kpPlus => 0x4E | .kp1 => 0x4F | .kp2 => 0x50 | .kp3 => 0x51 | .kp0 => 0x52
  | .kpDot => 0x53 | .f11 => 0x57 | .f12 => 0x58
  | .kpEnter => 0x60 | .rctrl => 0x61 | .kpDivide => 0x62 | .ralt => 0x63 | .pause => 0x64
  | .printscreen => 0x65 | .home => 0x66 | .up => 0x67 | .pageup => 0x68 | .left => 0x69
  | .right => 0x6A | .end => 0x6B | .down => 0x6C | .pagedown => 0x6D | .insert => 0x6E
  | .delete => 0x6F | .lwin => 0x70 | .rwin => 0x71 | .menu => 0x72

inductive KeyEventType where
  | press
  | release
deriving DecidableEq, Repr

structure KeyboardEvent where
  key : Keycode
  type : KeyEventType
  extended : Bool
deriving DecidableEq, Repr

/-- `set1_make_to_keycode`. The entries that are not listed are `KEY_NONE`. -/
def set1MakeToKeycode (code : ℕ) : Keycode :=
  ([(0x01, .escape),
    (0x02, .n1), (0x03, .n2), (0x04, .n3), (0x05, .n4), (0x06, .n5), (0x07, .n6), (0x08, .n7),
    (0x09, .n8), (0x0A, .n9), (0x0B, .n0), (0x0C, .minus), (0x0D, .equals), (0x0E, .backspace),
    (0x0F, .tab),
    (0x10, .q), (0x11, .w), (0x12, .e), (0x13, .r), (0x14, .t), (0x15, .y), (0x16, .u), (0x17, .i),
    (0x18, .o), (0x19, .p), (0x1A, .lbracket), (0x1B, .rbracket), (0x1C, .enter), (0x1D, .lctrl),
    (0x1E, .a), (0x1F, .s), (0x20, .d), (0x21, .f), (0x22, .g), (0x23, .h), (0x24, .j), (0x25, .k),
    (0x26, .l), (0x27, .semicolon), (0x28, .apostrophe), (0x29, .grave), (0x2A, .lshift),
    (0x2B, .backslash),
    (0x2C, .z), (0x2D, .x), (0x2E, .c), (0x2F, .v), (0x30, .b), (0x31, .n), (0x32, .m),
    (0x33, .comma), (0x34, .dot), (0x35, .slash), (0x36, .rshift), (0x37, .kpMultiply),
    (0x38, .lalt), (0x39, .space), (0x3A, .capslock),
    (0x3B, .f1), (0x3C, .f2), (0x3D, .f3), (0x3E, .f4), (0x3F, .f5), (0x40, .f6), (0x41, .f7),
    (0x42, .f8), (0x43, .f9), (0x44, .f10), (0x45, .numlock), (0x46, .scrolllock),
    (0x47, .kp7), (0x48, .kp8), (0x49, .kp9), (0x4A, .kpMinus), (0x4B, .kp4), (0x4C, .kp5),
    (0x4D, .kp6), (0x4E, .kpPlus), (0x4F, .kp1), (0x50, .kp2), (0x51, .kp3), (0x52, .kp0),
    (0x53, .kpDot), (0x57, .f11), (0x58, .f12)].lookup code).getD .none

/-- `e0_make_to_keycode`. The multimedia keys are `KEY_NONE`. -/
def e0MakeToKeycode (code : ℕ) : Keycode :=
  ([(0x1C, .kpEnter), (0x1D, .rctrl), (0x35, .kpDivide), (0x38, .ralt), (0x47, .home), (0x48, .up),
    (0x49, .pageup), (0x4B, .left), (0x4D, .right), (0x4F, .end), (0x50, .down), (0x51, .pagedown),
    (0x52, .insert), (0x53, .delete), (0x5B, .lwin), (0x5C, .rwin),
    (0x5D, .menu)].lookup code).getD .none

/-! ### The decoder -/

/-- `enum scancode_state` -/
inductive ScancodeState where
  | normal
  | expectE0Data
  | expectE1Data1
  | expectE1Data2
  | expectE1Release1
  | expectE1Release2
  | expectE0Release
deriving DecidableEq, Repr

/-- A make code, or a break code, which is the make code with bit 7 set. -/
def breakType (scancode : BitVec 8) : KeyEventType :=
  if scancode &&& 0x80#8 ≠ 0#8 then .release else .press

/-- The state of the decoder after a byte, and the event that it hands to
`keyboard_handle_event`. -/
def decodeScancode (st : ScancodeState) (scancode : BitVec 8) :
    ScancodeState × Option KeyboardEvent :=
  match st with
  | .normal =>
    if scancode = 0xE0#8 then (.expectE0Data, none)
    else if scancode = 0xE1#8 then (.expectE1Data1, none)
    else (.normal, some { key := set1MakeToKeycode (scancode &&& 0x7F#8).toNat
                          type := breakType scancode, extended := false })
  | .expectE0Data =>
    if scancode &&& 0x80#8 ≠ 0#8 then
      (.normal, some { key := e0MakeToKeycode (scancode &&& 0x7F#8).toNat
                       type := .release, extended := true })
    -- the start of the PrintScreen sequence; e0_saved_data, which keeps the byte, is never read
    else if scancode = 0x2A#8 then (.expectE0Release, none)
    else (.normal, some { key := e0MakeToKeycode scancode.toNat, type := .press, extended := true })
  -- the byte itself is not looked at
  | .expectE0Release => (.normal, some { key := .printscreen, type := .press, extended := true })
  | .expectE1Data1 => (.expectE1Data2, none)
  | .expectE1Data2 => (.expectE1Release1, none)
  | .expectE1Release1 =>
    if scancode = 0xE1#8 then (.expectE1Release2, none) else (.normal, none)
  | .expectE1Release2 => (.normal, some { key := .pause, type := .press, extended := true })

/-- The events of a stream of bytes, in order. -/
def decodeScancodes (st : ScancodeState) : List (BitVec 8) → ScancodeState × List KeyboardEvent
  | [] => (st, [])
  | b::bs =>
    let r := decodeScancode st b
    let rest := decodeScancodes r.1 bs
    (rest.1, r.2.toList ++ rest.2)

/-! ### ASCII -/

/-- No character. -/
def nul : Char := Char.ofNat 0

/-- `keycode_to_ascii`. The entries that are not listed are 0. -/
def keycodeToAscii (key : Keycode) : Char :=
  ([(.n1, '1'), (.n2, '2'), (.n3, '3'), (.n4, '4'), (.n5, '5'), (.n6, '6'), (.n7, '7'), (.n8, '8'),
    (.n9, '9'), (.n0, '0'), (.minus, '-'), (.equals, '='), (.backspace, Char.ofNat 8),
    (.tab, Char.ofNat 9),
    (.q, 'q'), (.w, 'w'), (.e, 'e'), (.r, 'r'), (.t, 't'), (.y, 'y'), (.u, 'u'), (.i, 'i'),
    (.o, 'o'), (.p, 'p'), (.lbracket, '['), (.rbracket, ']'), (.enter, Char.ofNat 10),
    (.a, 'a'), (.s, 's'), (.d, 'd'), (.f, 'f'), (.g, 'g'), (.h, 'h'), (.j, 'j'), (.k, 'k'),
    (.l, 'l'), (.semicolon, ';'), (.apostrophe, Char.ofNat 0x27), (.grave, Char.ofNat 0x60),
    (.backslash, Char.ofNat 0x5C),
    (.z, 'z'), (.x, 'x'), (.c, 'c'), (.v, 'v'), (.b, 'b'), (.n, 'n'), (.m, 'm'), (.comma, ','),
    (.dot, '.'), (.slash, '/'), (.space, ' '),
    (.kp7, '7'), (.kp8, '8'), (.kp9, '9'), (.kpMinus, '-'), (.kp4, '4'), (.kp5, '5'), (.kp6, '6'),
    (.kpPlus, '+'), (.kp1, '1'), (.kp2, '2'), (.kp3, '3'), (.kp0, '0'),
    (.kpDot, '.')].lookup key).getD nul

/-- `keycode_to_ascii_shift` -/
def keycodeToAsciiShift (key : Keycode) : Char :=
  ([(.n1, '!'), (.n2, '@'), (.n3, '#'), (.n4, '$'), (.n5, '%'), (.n6, '^'), (.n7, '&'), (.n8, '*'),
    (.n9, '('), (.n0, ')'), (.minus, '_'), (.equals, '+'),
    (.q, 'Q'), (.w, 'W'), (.e, 'E'), (.r, 'R'), (.t, 'T'), (.y, 'Y'), (.u, 'U'), (.i, 'I'),
    (.o, 'O'), (.p, 'P'), (.lbracket, Char.ofNat 0x7B), (.rbracket, Char.ofNat 0x7D),
    (.a, 'A'), (.s, 'S'), (.d, 'D'), (.f, 'F'), (.g, 'G'), (.h, 'H'), (.j, 'J'), (.k, 'K'),
    (.l, 'L'), (.semicolon, ':'), (.apostrophe, Char.ofNat 0x22), (.grave, '~'), (.backslash, '|'),
    (.z, 'Z'), (.x, 'X'), (.c, 'C'), (.v, 'V'), (.b, 'B'), (.n, 'N'), (.m, 'M'), (.comma, '<'),
    (.dot, '>'), (.slash, '?'), (.space, ' '),
    (.kp7, '7'), (.kp8, '8'), (.kp9, '9'), (.kpMinus, '-'), (.kp4, '4'), (.kp5, '5'), (.kp6, '6'),
    (.kpPlus, '+'), (.kp1, '1'), (.kp2, '2'), (.kp3, '3'), (.kp0, '0'),
    (.kpDot, '.')].lookup key).getD nul

def isLetterKey (key : Keycode) : Bool :=
  (decide (Keycode.q.code ≤ key.code) && decide (key.code ≤ Keycode.p.code)) ||
  (decide (Keycode.a.code ≤ key.code) && decide (key.code ≤ Keycode.l.code)) ||
  (decide (Keycode.z.code ≤ key.code) && decide (key.code ≤ Keycode.m.code))

def isKpNumber (key : Keycode) : Bool :=
  (decide (Keycode.kp7.code ≤ key.code) && decide (key.code ≤ Keycode.kp9.code)) ||
  (decide (Keycode.kp4.code ≤ key.code) && decide (key.code ≤ Keycode.kp6.code)) ||
  (decide (Keycode.kp1.code ≤ key.code) && decide (key.code ≤ Keycode.kp3.code)) ||
  key == .kp0 || key == .kpDot

def isKpOperator (key : Keycode) : Bool :=
  key == .kpPlus || key == .kpMinus || key == .kpMultiply || key == .kpDivide || key == .kpEnter

/-- `struct keyboard_state` -/
structure KeyboardState where
  lshift : Bool
  rshift : Bool
  lctrl : Bool
  rctrl : Bool
  lalt : Bool
  ralt : Bool
  capslock : Bool
  numlock : Bool
  scrolllock : Bool
deriving DecidableEq, Repr

def keycodeToAsciiChar (s : KeyboardState) (key : Keycode) : Char :=
  let shift := s.lshift || s.rshift
  if isLetterKey key then
    let base := keycodeToAscii key
    if base = nul then nul
    else if s.capslock ^^ shift then Char.ofNat (base.toNat - 32) else base
  else if isKpNumber key then
    if s.numlock then keycodeToAscii key else nul
  else if isKpOperator key then keycodeToAscii key
  else if shift then
    let c := keycodeToAsciiShift key
    if c ≠ nul then c else keycodeToAscii key
  else keycodeToAscii key

/-! ### The driver -/

def kbdBufferSize : ℕ := 256

/-- The globals of the driver. -/
structure Kbd where
  state : KeyboardState
  scancodeSt : ScancodeState
  buffer : RingBuf Char
  repeatKey : Keycode
  repeatTimer : ℕ
  ledCache : BitVec 8

def kbdCmdSetLeds : BitVec 8 := 0xED#8

def ledState (s : KeyboardState) : BitVec 8 :=
  (if s.scrolllock then 0x01#8 else 0#8) ||| (if s.numlock then 0x02#8 else 0#8) |||
    (if s.capslock then 0x04#8 else 0#8)

/-- The modifier and lock keys at a press. -/
def pressState (s : KeyboardState) : Keycode → KeyboardState
  | .lshift => { s with lshift := true }
  | .rshift => { s with rshift := true }
  | .lctrl => { s with lctrl := true }
  | .rctrl => { s with rctrl := true }
  | .lalt => { s with lalt := true }
  | .ralt => { s with ralt := true }
  | .capslock => { s with capslock := !s.capslock }
  | .numlock => { s with numlock := !s.numlock }
  | .scrolllock => { s with scrolllock := !s.scrolllock }
  | _ => s

def releaseState (s : KeyboardState) : Keycode → KeyboardState
  | .lshift => { s with lshift := false }
  | .rshift => { s with rshift := false }
  | .lctrl => { s with lctrl := false }
  | .rctrl => { s with rctrl := false }
  | .lalt => { s with lalt := false }
  | .ralt => { s with ralt := false }
  | _ => s

/-- The keys whose press updates the LEDs. -/
def isLockKey (key : Keycode) : Bool := key == .capslock || key == .numlock || key == .scrolllock

section Driver
variable {π : Type*} (sendCommandWithParam : π → BitVec 8 → BitVec 8 → π × Bool)

/-- `π` is the state of the controller and of the keyboard behind it. -/
def kbdUpdateLeds (port : π) (k : Kbd) : π × Kbd :=
  let led := ledState k.state
  if led = k.ledCache then (port, k)
  else
    let r := sendCommandWithParam port kbdCmdSetLeds led
    (r.1, if r.2 then { k with ledCache := led } else k)

/-- The character goes to the ring buffer when there is one. -/
def pushChar (rb : RingBuf Char) (c : Char) : RingBuf Char :=
  if c = nul then rb else rb.push kbdBufferSize c

def keyboardHandleEvent (port : π) (k : Kbd) (event : KeyboardEvent) : π × Kbd :=
  match event.type with
  | .press =>
    let k := { k with state := pressState k.state event.key }
    let r := if isLockKey event.key then kbdUpdateLeds sendCommandWithParam port k else (port, k)
    (r.1, { r.2 with
      buffer := pushChar r.2.buffer (keycodeToAsciiChar r.2.state event.key)
      repeatKey := event.key
      repeatTimer := 0 })
  | .release =>
    let k := { k with state := releaseState k.state event.key }
    (port, if event.key = k.repeatKey then { k with repeatKey := .none, repeatTimer := 0 } else k)

def keyboardProcessScancode (port : π) (k : Kbd) (scancode : BitVec 8) : π × Kbd :=
  let r := decodeScancode k.scancodeSt scancode
  let k := { k with scancodeSt := r.1 }
  match r.2 with
  | none => (port, k)
  | some event => keyboardHandleEvent sendCommandWithParam port k event

variable {sendCommandWithParam} {k : Kbd} {scancode : BitVec 8} {event : KeyboardEvent}

theorem keyboardProcessScancode_none (port : π)
    (h : (decodeScancode k.scancodeSt scancode).2 = none) :
    keyboardProcessScancode sendCommandWithParam port k scancode =
      (port, { k with scancodeSt := (decodeScancode k.scancodeSt scancode).1 }) := by
  unfold keyboardProcessScancode
  dsimp only
  rw [h]

theorem keyboardProcessScancode_some (port : π)
    (h : (decodeScancode k.scancodeSt scancode).2 = some event) :
    keyboardProcessScancode sendCommandWithParam port k scancode =
      keyboardHandleEvent sendCommandWithParam port
        { k with scancodeSt := (decodeScancode k.scancodeSt scancode).1 } event := by
  unfold keyboardProcessScancode
  dsimp only
  rw [h]

end Driver

/-- `keyboard_getchar_nb` -/
def keyboardGetcharNb (k : Kbd) : Char × Kbd :=
  let r := @RingBuf.pop _ ⟨nul⟩ kbdBufferSize k.buffer
  (r.1, { k with buffer := r.2 })

end SukiOS

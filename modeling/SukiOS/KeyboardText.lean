import SukiOS.KeyboardDecode

/-! Typing: scancodes and calls of `keyboard_getchar_nb` in any order, and the text that a US QWERTY
keyboard documents for the keys that were pressed. -/
namespace SukiOS
open RingBuffer

/-! ### The documented text -/

/-- The modifier and lock keys that decide on a character. -/
structure Modifiers where
  lshift : Bool
  rshift : Bool
  capslock : Bool
  numlock : Bool
deriving DecidableEq, Repr

/-- Shift is held from its press to its release; a lock key is switched by each press. -/
def Modifiers.note (m : Modifiers) : KeyStroke → Modifiers
  | (.lshift, type) => { m with lshift := type == .press }
  | (.rshift, type) => { m with rshift := type == .press }
  | (.capslock, .press) => { m with capslock := !m.capslock }
  | (.numlock, .press) => { m with numlock := !m.numlock }
  | _ => m

/-- What a key stands for. -/
inductive Legend where
  | letter (lower upper : Char)
  | main (plain shifted : Char)
  | keypad (c : Char)
  | operator (c : Char)
  | silent
deriving DecidableEq, Repr

def newline : Char := Char.ofNat 10

def Keycode.legend : Keycode → Legend
  | .q => .letter 'q' 'Q' | .w => .letter 'w' 'W' | .e => .letter 'e' 'E' | .r => .letter 'r' 'R'
  | .t => .letter 't' 'T' | .y => .letter 'y' 'Y' | .u => .letter 'u' 'U' | .i => .letter 'i' 'I'
  | .o => .letter 'o' 'O' | .p => .letter 'p' 'P' | .a => .letter 'a' 'A' | .s => .letter 's' 'S'
  | .d => .letter 'd' 'D' | .f => .letter 'f' 'F' | .g => .letter 'g' 'G' | .h => .letter 'h' 'H'
  | .j => .letter 'j' 'J' | .k => .letter 'k' 'K' | .l => .letter 'l' 'L' | .z => .letter 'z' 'Z'
  | .x => .letter 'x' 'X' | .c => .letter 'c' 'C' | .v => .letter 'v' 'V' | .b => .letter 'b' 'B'
  | .n => .letter 'n' 'N' | .m => .letter 'm' 'M'
  | .n1 => .main '1' '!' | .n2 => .main '2' '@' | .n3 => .main '3' '#' | .n4 => .main '4' '$'
  | .n5 => .main '5' '%' | .n6 => .main '6' '^' | .n7 => .main '7' '&' | .n8 => .main '8' '*'
  | .n9 => .main '9' '(' | .n0 => .main '0' ')' | .minus => .main '-' '_' | .equals => .main '=' '+'
  | .lbracket => .main '[' (Char.ofNat 0x7B) | .rbracket => .main ']' (Char.ofNat 0x7D)
  | .semicolon => .main ';' ':' | .apostrophe => .main (Char.ofNat 0x27) (Char.ofNat 0x22)
  | .grave => .main (Char.ofNat 0x60) '~' | .backslash => .main (Char.ofNat 0x5C) '|'
  | .comma => .main ',' '<' | .dot => .main '.' '>' | .slash => .main '/' '?'
  | .space => .main ' ' ' ' | .enter => .main newline newline
  | .backspace => .main (Char.ofNat 8) (Char.ofNat 8) | .tab => .main (Char.ofNat 9) (Char.ofNat 9)
  | .kp7 => .keypad '7' | .kp8 => .keypad '8' | .kp9 => .keypad '9' | .kp4 => .keypad '4'
  | .kp5 => .keypad '5' | .kp6 => .keypad '6' | .kp1 => .keypad '1' | .kp2 => .keypad '2'
  | .kp3 => .keypad '3' | .kp0 => .keypad '0' | .kpDot => .keypad '.'
  | .kpPlus => .operator '+' | .kpMinus => .operator '-' | .kpMultiply => .operator '*'
  | .kpDivide => .operator '/' | .kpEnter => .operator newline
  | _ => .silent

def Modifiers.char (m : Modifiers) (key : Keycode) : Option Char :=
  match key.legend with
  | .letter lower upper => some (if m.capslock ^^ (m.lshift || m.rshift) then upper else lower)
  | .main plain shifted => some (if m.lshift || m.rshift then shifted else plain)
  | .keypad c => if m.numlock then some c else none
  | .operator c => some c
  | .silent => none

/-- The text of a sequence of events. -/
def typedText (m : Modifiers) : List KeyStroke → List Char
  | [] => []
  | e::es =>
    (if e.2 = .press then ((m.note e).char e.1).toList else []) ++ typedText (m.note e) es

/-! ### Typing and reading -/

inductive KbdOp where
  | scancode (b : BitVec 8)
  | getchar
deriving DecidableEq, Repr

/-- The driver, the ports behind it, and the characters that were read. -/
structure Typing (π : Type*) where
  port : π
  kbd : Kbd
  got : List Char

section Run
variable {π : Type*} (sendCommandWithParam : π → BitVec 8 → BitVec 8 → π × Bool)

/-- The result 0 of `keyboard_getchar_nb` is no character. -/
def Typing.step (t : Typing π) : KbdOp → Typing π
  | .scancode b =>
    let r := keyboardProcessScancode sendCommandWithParam t.port t.kbd b
    { t with port := r.1, kbd := r.2 }
  | .getchar =>
    let r := keyboardGetcharNb t.kbd
    { t with kbd := r.2, got := if r.1 = nul then t.got else t.got ++ [r.1] }

def Typing.run (t : Typing π) : List KbdOp → Typing π
  | [] => t
  | op::ops => Typing.run (t.step sendCommandWithParam op) ops

/-- The readers leave fewer than 255 characters in the buffer all along. -/
def Typing.KeepsUp (t : Typing π) : List KbdOp → Prop
  | [] => t.kbd.buffer.count kbdBufferSize < 255
  | op::ops => t.kbd.buffer.count kbdBufferSize < 255 ∧
      Typing.KeepsUp (t.step sendCommandWithParam op) ops

end Run

/-- What was read, and what waits to be read. -/
def Typing.delivered {π : Type*} (t : Typing π) : List Char :=
  t.got ++ t.kbd.buffer.items kbdBufferSize

def scancodesOf (ops : List KbdOp) : List (BitVec 8) :=
  ops.filterMap (fun op =>
    match op with
    | .scancode b => some b
    | .getchar => none)

/-! ### The characters of the driver -/

def eventState (s : KeyboardState) (e : KeyStroke) : KeyboardState :=
  match e.2 with
  | .press => pressState s e.1
  | .release => releaseState s e.1

/-- The character that an event puts in the buffer. -/
def eventChars (s : KeyboardState) (e : KeyStroke) : List Char :=
  if e.2 = .press ∧ keycodeToAsciiChar (eventState s e) e.1 ≠ nul then
    [keycodeToAsciiChar (eventState s e) e.1] else []

def pushedChars (s : KeyboardState) : List KeyStroke → List Char
  | [] => []
  | e::es => eventChars s e ++ pushedChars (eventState s e) es

section Steps
variable {π : Type*} {sendCommandWithParam : π → BitVec 8 → BitVec 8 → π × Bool} {t : Typing π}
  {pend : List Char}

theorem kbdUpdateLeds_spec (port : π) (k : Kbd) :
    ((kbdUpdateLeds sendCommandWithParam port k).2.state = k.state) ∧
    ((kbdUpdateLeds sendCommandWithParam port k).2.buffer = k.buffer) := by
  unfold kbdUpdateLeds
  dsimp only
  by_cases hled : ledState k.state = k.ledCache
  · rw [if_pos hled]
    exact ⟨rfl, rfl⟩
  · rw [if_neg hled]
    dsimp only
    split <;> exact ⟨rfl, rfl⟩

variable (sendCommandWithParam) in
/-- An event changes the modifiers and puts at most one character in the buffer. -/
theorem keyboardHandleEvent_spec (port : π) (k : Kbd) (e : KeyboardEvent) :
    (keyboardHandleEvent sendCommandWithParam port k e).2.state = eventState k.state e.stroke ∧
    (keyboardHandleEvent sendCommandWithParam port k e).2.buffer =
      (eventChars k.state e.stroke).foldl (RingBuf.push kbdBufferSize) k.buffer := by
  obtain ⟨key, type, extended⟩ := e
  cases type with
  | release =>
    refine ⟨?_, ?_⟩
    · unfold keyboardHandleEvent
      dsimp only
      split <;> rfl
    · unfold keyboardHandleEvent
      dsimp only
      split <;> rfl
  | press =>
    -- the LEDs do not touch the modifiers and the buffer
    have hleds : ∀ r : π × Kbd, r = (if isLockKey key = true then
        kbdUpdateLeds sendCommandWithParam port { k with state := pressState k.state key }
        else (port, { k with state := pressState k.state key })) →
        r.2.state = pressState k.state key ∧ r.2.buffer = k.buffer := by
      rintro r rfl
      split
      · exact kbdUpdateLeds_spec port { k with state := pressState k.state key }
      · exact ⟨rfl, rfl⟩
    obtain ⟨hstate, hbuf⟩ := hleds _ rfl
    unfold keyboardHandleEvent
    refine ⟨hstate, ?_⟩
    change pushChar _ (keycodeToAsciiChar _ key) = _
    rw [hstate, hbuf]
    unfold pushChar eventChars
    by_cases hc : keycodeToAsciiChar (pressState k.state key) key = nul
    · rw [if_pos hc, if_neg (fun h => h.2 hc)]
      rfl
    · rw [if_neg hc, if_pos ⟨rfl, hc⟩]
      rfl

/-- The characters in the buffer are characters. -/
structure Pending (k : Kbd) (pend : List Char) : Prop where
  holds : k.buffer.Holds kbdBufferSize pend
  chars : ∀ c ∈ pend, c ≠ nul

theorem Pending.push {k k' : Kbd} {e : KeyStroke} (h : Pending k pend) (hlen : pend.length < 255)
    (hk : k'.buffer = (eventChars k.state e).foldl (RingBuf.push kbdBufferSize) k.buffer) :
    Pending k' (pend ++ eventChars k.state e) := by
  unfold eventChars at hk ⊢
  by_cases hc : e.2 = .press ∧ keycodeToAsciiChar (eventState k.state e) e.1 ≠ nul
  · rw [if_pos hc] at hk ⊢
    refine ⟨?_, fun c hmem => ?_⟩
    · rw [hk]
      exact h.holds.push (Nat.succ_lt_succ hlen) _
    · rcases List.mem_append.mp hmem with hmem | hmem
      · exact h.chars c hmem
      · rw [List.mem_singleton.mp hmem]
        exact hc.2
  · rw [if_neg hc] at hk ⊢
    rw [List.append_nil]
    refine ⟨?_, h.chars⟩
    rw [hk]
    exact h.holds

/-- In a run whose readers keep up, what is delivered grows by the characters of the events. -/
theorem Typing.run_spec (ops : List KbdOp) : ∀ (t : Typing π) (pend : List Char),
    Pending t.kbd pend → t.KeepsUp sendCommandWithParam ops →
    (t.run sendCommandWithParam ops).delivered = t.got ++ pend ++ pushedChars t.kbd.state
      ((decodeScancodes t.kbd.scancodeSt (scancodesOf ops)).2.map KeyboardEvent.stroke) := by
  induction ops with
  | nil =>
    intro t pend h _
    unfold Typing.run Typing.delivered
    rw [h.holds.items_eq]
    exact (List.append_nil _).symm
  | cons op ops ih =>
    intro t pend h hup
    have hlen : pend.length < 255 := h.holds.count_eq ▸ hup.1
    cases op with
    | getchar =>
      have hbytes : scancodesOf (.getchar :: ops) = scancodesOf ops := rfl
      have hstep := ih (t.step sendCommandWithParam .getchar)
      rw [hbytes]
      cases pend with
      | nil =>
        -- nothing waits, and nothing is read
        have hpop := @RingBuf.Holds.pop_nil _ _ _ ⟨nul⟩ h.holds
        have hself : t.step sendCommandWithParam .getchar = t := by
          unfold Typing.step keyboardGetcharNb
          dsimp only
          rw [hpop]
          exact congrArg (fun g => ({ t with got := g } : Typing π)) (if_pos rfl)
        rw [Typing.run, hself]
        exact ih t [] h (hself ▸ hup.2)
      | cons c pend =>
        obtain ⟨hc, hrest⟩ := @RingBuf.Holds.pop_cons _ _ _ _ _ ⟨nul⟩ h.holds
        have hgot : (t.step sendCommandWithParam .getchar).got = t.got ++ [c] := by
          unfold Typing.step keyboardGetcharNb
          dsimp only
          rw [hc, if_neg (h.chars c List.mem_cons_self)]
        rw [Typing.run, hstep pend ⟨hrest, fun x hx => h.chars x (List.mem_cons_of_mem c hx)⟩ hup.2,
          hgot, List.append_assoc t.got [c] pend, List.singleton_append]
        rfl
    | scancode b =>
      have hbytes : scancodesOf (.scancode b :: ops) = b :: scancodesOf ops := rfl
      rw [hbytes, Typing.run, decodeScancodes, List.map_append]
      have hstep := ih (t.step sendCommandWithParam (.scancode b))
      cases hev : (decodeScancode t.kbd.scancodeSt b).2 with
      | none =>
        have hkbd : (t.step sendCommandWithParam (.scancode b)).kbd =
            { t.kbd with scancodeSt := (decodeScancode t.kbd.scancodeSt b).1 } :=
          congrArg Prod.snd (keyboardProcessScancode_none t.port hev)
        rw [hstep pend (hkbd ▸ ⟨h.holds, h.chars⟩) hup.2, hkbd]
        rfl
      | some e =>
        have hkbd : (t.step sendCommandWithParam (.scancode b)).kbd =
            (keyboardHandleEvent sendCommandWithParam t.port
              { t.kbd with scancodeSt := (decodeScancode t.kbd.scancodeSt b).1 } e).2 :=
          congrArg Prod.snd (keyboardProcessScancode_some t.port hev)
        rw [keyboardHandleEvent_scancodeSt] at hkbd
        have hspec := keyboardHandleEvent_spec sendCommandWithParam t.port t.kbd e
        obtain ⟨hstate, hbuf⟩ := hspec
        have hwait : Pending (t.step sendCommandWithParam (.scancode b)).kbd
            (pend ++ eventChars t.kbd.state e.stroke) := by
          apply h.push hlen
          rw [hkbd]
          exact hbuf
        rw [hstep _ hwait hup.2, hkbd]
        dsimp only
        rw [hstate]
        simp only [Option.toList_some, List.map_cons, List.map_nil, List.singleton_append,
          pushedChars, List.append_assoc]
        rfl

end Steps

/-! ### The characters of the driver and the documented ones -/

def modifiers (s : KeyboardState) : Modifiers where
  lshift := s.lshift
  rshift := s.rshift
  capslock := s.capslock
  numlock := s.numlock

/-- The operators of the keypad without an entry in `keycode_to_ascii`. -/
def LostOperator (key : Keycode) : Prop := key = .kpMultiply ∨ key = .kpDivide ∨ key = .kpEnter

instance (key : Keycode) : Decidable (LostOperator key) := inferInstanceAs (Decidable (_ ∨ _))

theorem modifiers_eventState (s : KeyboardState) (e : KeyStroke) :
    modifiers (eventState s e) = (modifiers s).note e := by
  obtain ⟨key, type⟩ := e
  cases type <;> cases key <;> rfl

theorem keycodeToAsciiChar_lost {s : KeyboardState} {key : Keycode} (h : LostOperator key) :
    keycodeToAsciiChar s key = nul := by
  rcases h with rfl | rfl | rfl <;> rfl

/-- The tables agree with the legends of the other keys. -/
theorem keycodeToAsciiChar_eq {s : KeyboardState} {key : Keycode} (h : ¬ LostOperator key) :
    keycodeToAsciiChar s key = ((modifiers s).char key).getD nul := by
  obtain ⟨ls, rs, -, -, -, -, caps, num, -⟩ := s
  cases key <;> first
    | rfl
    | exact absurd (by decide) h
    | cases ls <;> cases rs <;> cases caps <;> rfl
    | cases num <;> rfl

def Legend.chars : Legend → List Char
  | .letter lower upper => [lower, upper]
  | .main plain shifted => [plain, shifted]
  | .keypad c => [c]
  | .operator c => [c]
  | .silent => []

theorem choice_mem {c d : Char} (b : Bool) : (if b = true then d else c) ∈ [c, d] := by
  cases b
  · exact List.mem_cons_self
  · exact List.mem_cons_of_mem _ List.mem_cons_self

theorem Modifiers.char_mem {m : Modifiers} {key : Keycode} {c : Char} (h : m.char key = some c) :
    c ∈ key.legend.chars := by
  unfold Modifiers.char at h
  cases hl : key.legend with
  | letter lower upper =>
    rw [hl] at h
    obtain rfl := Option.some.inj h
    exact choice_mem _
  | main plain shifted =>
    rw [hl] at h
    obtain rfl := Option.some.inj h
    exact choice_mem _
  | keypad d =>
    rw [hl] at h
    obtain ⟨-, hd⟩ := Option.ite_none_right_eq_some.mp h
    exact List.mem_singleton.mpr (Option.some.inj hd).symm
  | operator d =>
    rw [hl] at h
    exact List.mem_singleton.mpr (Option.some.inj h).symm
  | silent =>
    rw [hl] at h
    exact nomatch h

/-- No key stands for the character 0. -/
theorem Modifiers.char_ne_nul {m : Modifiers} {key : Keycode} {c : Char} (h : m.char key = some c) :
    c ≠ nul := by
  have hall : key.legend.chars.all (fun d => d != nul) = true := by
    cases key <;> rfl
  exact bne_iff_ne.mp (List.all_eq_true.mp hall c (Modifiers.char_mem h))

/-- The documented characters of one event. -/
def strokeText (m : Modifiers) (e : KeyStroke) : List Char :=
  if e.2 = .press then ((m.note e).char e.1).toList else []

theorem typedText_cons (m : Modifiers) (e : KeyStroke) (es : List KeyStroke) :
    typedText m (e::es) = strokeText m e ++ typedText (m.note e) es := rfl

/-- A press of an operator without an entry. -/
def LosesChar (e : KeyStroke) : Prop := e.2 = .press ∧ LostOperator e.1

instance (e : KeyStroke) : Decidable (LosesChar e) := inferInstanceAs (Decidable (_ ∧ _))

theorem eventChars_eq {s : KeyboardState} {e : KeyStroke} (h : ¬ LosesChar e) :
    eventChars s e = strokeText (modifiers s) e := by
  unfold eventChars strokeText
  by_cases hp : e.2 = .press
  · have hlost : ¬ LostOperator e.1 := fun hl => h ⟨hp, hl⟩
    rw [keycodeToAsciiChar_eq hlost, modifiers_eventState, if_pos hp]
    cases hc : ((modifiers s).note e).char e.1 with
    | none =>
      rw [if_neg (fun hn => hn.2 rfl)]
      rfl
    | some c =>
      rw [if_pos ⟨hp, Modifiers.char_ne_nul hc⟩]
      rfl
  · rw [if_neg (fun hn => hp hn.1), if_neg hp]

theorem eventChars_lost {s : KeyboardState} {e : KeyStroke} (h : LosesChar e) :
    eventChars s e = [] := if_neg (fun hn => hn.2 (keycodeToAsciiChar_lost h.2))

theorem strokeText_lost {m : Modifiers} {e : KeyStroke} (h : LosesChar e) :
    (strokeText m e).length = 1 := by
  obtain ⟨key, type⟩ := e
  obtain ⟨rfl, hkey⟩ : type = .press ∧ LostOperator key := h
  rcases hkey with rfl | rfl | rfl <;> rfl

/-- The driver adds no character. -/
theorem pushedChars_length (es : List KeyStroke) : ∀ s : KeyboardState,
    (pushedChars s es).length ≤ (typedText (modifiers s) es).length := by
  induction es with
  | nil => exact fun _ => Nat.le_refl 0
  | cons e es ih =>
    intro s
    have hrest := ih (eventState s e)
    rw [pushedChars, typedText_cons, List.length_append, List.length_append,
      ← modifiers_eventState]
    by_cases h : LosesChar e
    · rw [eventChars_lost h, List.length_nil, Nat.zero_add]
      exact Nat.le_add_left_of_le hrest
    · rw [eventChars_eq h]
      exact Nat.add_le_add_left hrest _

theorem pushedChars_eq_iff (es : List KeyStroke) : ∀ s : KeyboardState,
    pushedChars s es = typedText (modifiers s) es ↔ ∀ e ∈ es, ¬ LosesChar e := by
  induction es with
  | nil => simp [pushedChars, typedText]
  | cons e es ih =>
    intro s
    rw [pushedChars, typedText_cons, List.forall_mem_cons, ← modifiers_eventState]
    by_cases h : LosesChar e
    · -- one character is missing, and the driver does not make up for it
      have hlen := pushedChars_length es (eventState s e)
      constructor
      · intro heq
        have hcount := congrArg List.length heq
        rw [eventChars_lost h, List.nil_append, List.length_append, strokeText_lost h] at hcount
        omega
      · exact fun hn => absurd h hn.1
    · rw [eventChars_eq h, List.append_cancel_left_eq, ih (eventState s e)]
      exact ⟨fun hn => ⟨h, hn⟩, fun hn => hn.2⟩

/-! ### The text is delivered -/

section Delivery
variable {π : Type*} (sendCommandWithParam : π → BitVec 8 → BitVec 8 → π × Bool)

/-- A driver that waits for a code, with an empty buffer. -/
structure Ready (t : Typing π) : Prop where
  normal : t.kbd.scancodeSt = .normal
  empty : t.kbd.buffer.Holds kbdBufferSize []
  unread : t.got = []

/-- The text of the keys is delivered in order, however its bytes and the reads are interleaved, if
and only if no operator without an entry is pressed. -/
theorem typed_text_iff (t : Typing π) (ht : Ready t) (es : List KeyStroke)
    (hes : ∀ e ∈ es, e.1 ≠ .none ∧ ¬ HasSequence e.1) (ops : List KbdOp)
    (hops : scancodesOf ops = es.flatMap encodeStroke)
    (hup : t.KeepsUp sendCommandWithParam ops) :
    (t.run sendCommandWithParam ops).delivered = typedText (modifiers t.kbd.state) es ↔
      ∀ e ∈ es, ¬ LosesChar e := by
  have henc : ∀ e ∈ es, Encodable e := by
    intro e he
    refine ⟨(hes e he).1, ?_⟩
    rintro rfl
    exact (hes _ he).2 (Or.inr rfl)
  have hdec : (decodeScancodes .normal (es.flatMap encodeStroke)).2.map KeyboardEvent.stroke = es :=
    ((scancode_round_trip_iff es henc).mpr (fun e he => (hes e he).2)).2
  have hrun := Typing.run_spec ops t [] ⟨ht.empty, fun c hc => absurd hc List.not_mem_nil⟩ hup
  rw [hrun, ht.unread, ht.normal, hops, hdec, List.nil_append, List.nil_append]
  exact pushedChars_eq_iff es t.kbd.state

end Delivery

/-! ### A word and an operator -/

/-- A keyboard that answers every command. -/
def answering (port : Unit) (_ _ : BitVec 8) : Unit × Bool := (port, true)

/-- The driver after `keyboard_init`: NumLock is on, and the keyboard has shown it. -/
def freshTyping : Typing Unit where
  port := ()
  kbd := {
    state := { lshift := false, rshift := false, lctrl := false, rctrl := false, lalt := false
               ralt := false, capslock := false, numlock := true, scrolllock := false }
    scancodeSt := .normal
    buffer := { data := fun _ => nul, head := 0, tail := 0 }
    repeatKey := .none
    repeatTimer := 0
    ledCache := 0x02#8 }
  got := []

theorem freshTyping_ready : Ready freshTyping where
  normal := rfl
  empty := RingBuf.Holds.nil (by decide) _
  unread := rfl

/-- Shift and `h`, then `i`; the first character is read while the second key is still down. -/
theorem typed_text_hi :
    (freshTyping.run answering [.scancode 0x2A#8, .scancode 0x23#8, .scancode 0xAA#8,
      .scancode 0xA3#8, .scancode 0x17#8, .getchar, .scancode 0x97#8]).delivered =
    typedText (modifiers freshTyping.kbd.state) [(.lshift, .press), (.h, .press),
      (.lshift, .release), (.h, .release), (.i, .press), (.i, .release)] :=
  (typed_text_iff answering freshTyping freshTyping_ready _ (by decide) _ (by decide)
    (by simp only [Typing.KeepsUp]; decide)).mpr (by decide)

/-- The `*` of the keypad is swallowed. -/
theorem typed_text_kp_multiply : Ready freshTyping ∧
    scancodesOf [.scancode 0x37#8] = encodeStroke (.kpMultiply, .press) ∧
    freshTyping.KeepsUp answering [.scancode 0x37#8] ∧
    (freshTyping.run answering [.scancode 0x37#8]).delivered = [] ∧
    typedText (modifiers freshTyping.kbd.state) [(.kpMultiply, .press)] = ['*'] := by
  refine ⟨freshTyping_ready, rfl, ?_, rfl, rfl⟩
  simp only [Typing.KeepsUp]
  decide

end SukiOS

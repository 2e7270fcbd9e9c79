import SukiOS.Keyboard

/-! The Set 1 formats that the driver documents, and what the decoder makes of a stream of them. -/
namespace SukiOS

/-! ### The formats -/

abbrev KeyStroke := Keycode × KeyEventType

inductive ScancodeFormat where
  | plain (make : BitVec 8)
  | extended (make : BitVec 8)
  | printScreen
  | pause
deriving DecidableEq, Repr

/-- The codes of the main block and the keypad are the values of their keys. -/
def Keycode.format : Keycode → ScancodeFormat
  | .kpEnter => .extended 0x1C#8
  | .rctrl => .extended 0x1D#8
  | .kpDivide => .extended 0x35#8
  | .ralt => .extended 0x38#8
  | .home => .extended 0x47#8
  | .up => .extended 0x48#8
  | .pageup => .extended 0x49#8
  | .left => .extended 0x4B#8
  | .right => .extended 0x4D#8
  | .end => .extended 0x4F#8
  | .down => .extended 0x50#8
  | .pagedown => .extended 0x51#8
  | .insert => .extended 0x52#8
  | .delete => .extended 0x53#8
  | .lwin => .extended 0x5B#8
  | .rwin => .extended 0x5C#8
  | .menu => .extended 0x5D#8
  | .printscreen => .printScreen
  | .pause => .pause
  | key => .plain (BitVec.ofNat 8 key.code)

/-- The bytes of one event. Pause has no break code. -/
def encodeStroke (e : KeyStroke) : List (BitVec 8) :=
  match e.1.format, e.2 with
  | .plain make, .press => [make]
  | .plain make, .release => [make ||| 0x80#8]
  | .extended make, .press => [0xE0#8, make]
  | .extended make, .release => [0xE0#8, make ||| 0x80#8]
  | .printScreen, .press => [0xE0#8, 0x2A#8, 0xE0#8, 0x37#8]
  | .printScreen, .release => [0xE0#8, 0xB7#8, 0xE0#8, 0xAA#8]
  | .pause, .press => [0xE1#8, 0x1D#8, 0x45#8, 0xE1#8, 0x9D#8, 0xC5#8]
  | .pause, .release => []

/-- The events of a key that have a code. -/
def Encodable (e : KeyStroke) : Prop := e.1 ≠ .none ∧ e ≠ (.pause, .release)

instance (e : KeyStroke) : Decidable (Encodable e) := inferInstanceAs (Decidable (_ ∧ _))

def KeyboardEvent.stroke (e : KeyboardEvent) : KeyStroke := (e.key, e.type)

/-! ### The decoder and the event handler -/

section Feed
variable {π : Type*} (sendCommandWithParam : π → BitVec 8 → BitVec 8 → π × Bool)

def feedScancodes (port : π) (k : Kbd) : List (BitVec 8) → π × Kbd
  | [] => (port, k)
  | b::bs =>
    let r := keyboardProcessScancode sendCommandWithParam port k b
    feedScancodes r.1 r.2 bs

def handleEvents (port : π) (k : Kbd) : List KeyboardEvent → π × Kbd
  | [] => (port, k)
  | e::es =>
    let r := keyboardHandleEvent sendCommandWithParam port k e
    handleEvents r.1 r.2 es

variable {sendCommandWithParam}

/-- The handler neither looks at the state of the decoder nor changes it. -/
theorem keyboardHandleEvent_scancodeSt (port : π) (k : Kbd) (e : KeyboardEvent)
    (st : ScancodeState) :
    keyboardHandleEvent sendCommandWithParam port { k with scancodeSt := st } e =
      ((keyboardHandleEvent sendCommandWithParam port k e).1,
        { (keyboardHandleEvent sendCommandWithParam port k e).2 with scancodeSt := st }) := by
  unfold keyboardHandleEvent kbdUpdateLeds
  cases e.type with
  | press =>
    dsimp only
    by_cases hlock : isLockKey e.key = true
    · rw [if_pos hlock, if_pos hlock]
      by_cases hled : ledState (pressState k.state e.key) = k.ledCache
      · rw [if_pos hled, if_pos hled]
      · rw [if_neg hled, if_neg hled]
        cases (sendCommandWithParam port kbdCmdSetLeds (ledState (pressState k.state e.key))).2 <;>
          rfl
    · rw [if_neg hlock, if_neg hlock]
  | release =>
    dsimp only
    split <;> rfl

theorem handleEvents_scancodeSt (st : ScancodeState) (es : List KeyboardEvent) :
    ∀ (port : π) (k : Kbd), handleEvents sendCommandWithParam port { k with scancodeSt := st } es =
      ((handleEvents sendCommandWithParam port k es).1,
        { (handleEvents sendCommandWithParam port k es).2 with scancodeSt := st }) := by
  induction es with
  | nil => exact fun _ _ => rfl
  | cons e es ih =>
    intro port k
    simp only [handleEvents, keyboardHandleEvent_scancodeSt, ih]

/-- Feeding bytes is handling the events that they are decoded to. -/
theorem feedScancodes_eq (bs : List (BitVec 8)) : ∀ (port : π) (k : Kbd),
    feedScancodes sendCommandWithParam port k bs =
      ((handleEvents sendCommandWithParam port k (decodeScancodes k.scancodeSt bs).2).1,
        { (handleEvents sendCommandWithParam port k (decodeScancodes k.scancodeSt bs).2).2 with
          scancodeSt := (decodeScancodes k.scancodeSt bs).1 }) := by
  induction bs with
  | nil => exact fun _ _ => rfl
  | cons b bs ih =>
    intro port k
    unfold feedScancodes decodeScancodes keyboardProcessScancode
    dsimp only
    cases (decodeScancode k.scancodeSt b).2 with
    | none =>
      rw [ih]
      dsimp only
      rw [handleEvents_scancodeSt]
      rfl
    | some e =>
      dsimp only
      rw [keyboardHandleEvent_scancodeSt, ih]
      dsimp only
      rw [handleEvents_scancodeSt]
      rfl

end Feed

/-! ### What the decoder makes of them -/

/-- The events that come out for one event. The last byte of the PrintScreen sequence and of the
Pause sequence is decoded as a key of its own. -/
def decodedStrokes (e : KeyStroke) : List KeyStroke :=
  match e with
  | (.printscreen, .press) => [(.printscreen, .press), (.kpMultiply, .press)]
  | (.printscreen, .release) => [(.none, .release), (.none, .release)]
  | (.pause, .press) => [(.pause, .press), (.numlock, .release)]
  | (.pause, .release) => []
  | e => [e]

theorem decodeScancodes_append (bs cs : List (BitVec 8)) : ∀ st,
    decodeScancodes st (bs ++ cs) =
      ((decodeScancodes (decodeScancodes st bs).1 cs).1,
        (decodeScancodes st bs).2 ++ (decodeScancodes (decodeScancodes st bs).1 cs).2) := by
  induction bs with
  | nil => exact fun _ => rfl
  | cons b bs ih =>
    intro st
    simp only [List.cons_append, decodeScancodes, ih, List.append_assoc]

/-- The bytes of one event take the decoder from `STATE_NORMAL` back to it. -/
theorem decode_encodeStroke (e : KeyStroke) :
    (decodeScancodes .normal (encodeStroke e)).1 = .normal ∧
    (decodeScancodes .normal (encodeStroke e)).2.map KeyboardEvent.stroke = decodedStrokes e := by
  obtain ⟨key, type⟩ := e
  cases type <;> cases key <;> exact ⟨rfl, rfl⟩

/-- So does a stream, and the events of its strokes follow each other. -/
theorem decode_encode (es : List KeyStroke) :
    (decodeScancodes .normal (es.flatMap encodeStroke)).1 = .normal ∧
    (decodeScancodes .normal (es.flatMap encodeStroke)).2.map KeyboardEvent.stroke =
      es.flatMap decodedStrokes := by
  induction es with
  | nil => exact ⟨rfl, rfl⟩
  | cons e es ih =>
    obtain ⟨hst, hev⟩ := decode_encodeStroke e
    rw [List.flatMap_cons, decodeScancodes_append, hst, List.flatMap_cons, List.map_append, hev,
      ih.2]
    exact ⟨ih.1, rfl⟩

/-! ### Which streams come back -/

/-- PrintScreen and Pause are the keys with sequences of their own. -/
def HasSequence (key : Keycode) : Prop := key = .printscreen ∨ key = .pause

instance (key : Keycode) : Decidable (HasSequence key) := inferInstanceAs (Decidable (_ ∨ _))

theorem decodedStrokes_plain {e : KeyStroke} (h : ¬ HasSequence e.1) : decodedStrokes e = [e] := by
  obtain ⟨key, type⟩ := e
  cases type <;> cases key <;> first | rfl | exact absurd (by decide) h

theorem decodedStrokes_sequence {e : KeyStroke} (he : Encodable e) (h : HasSequence e.1) :
    (decodedStrokes e).length = 2 := by
  obtain ⟨key, type⟩ := e
  obtain rfl | rfl : key = .printscreen ∨ key = .pause := h
  · cases type <;> rfl
  · cases type with
    | press => rfl
    | release => exact absurd rfl he.2

/-- No event is dropped. -/
theorem length_le_decodedStrokes {es : List KeyStroke} (hes : ∀ e ∈ es, Encodable e) :
    es.length ≤ (es.flatMap decodedStrokes).length := by
  induction es with
  | nil => exact Nat.le_refl 0
  | cons e es ih =>
    have hrest := ih (fun x hx => hes x (List.mem_cons_of_mem e hx))
    have hone : 1 ≤ (decodedStrokes e).length := by
      by_cases h : HasSequence e.1
      · rw [decodedStrokes_sequence (hes e List.mem_cons_self) h]
        exact Nat.le_succ 1
      · rw [decodedStrokes_plain h]
        exact Nat.le_refl 1
    rw [List.flatMap_cons, List.length_append, List.length_cons]
    omega

theorem flatMap_decodedStrokes_iff {es : List KeyStroke} (hes : ∀ e ∈ es, Encodable e) :
    es.flatMap decodedStrokes = es ↔ ∀ e ∈ es, ¬ HasSequence e.1 := by
  induction es with
  | nil => simp
  | cons e es ih =>
    have hrest : ∀ x ∈ es, Encodable x := fun x hx => hes x (List.mem_cons_of_mem e hx)
    rw [List.flatMap_cons, List.forall_mem_cons, ← ih hrest]
    by_cases h : HasSequence e.1
    · -- an event too many, and none is dropped behind it
      have hlen := length_le_decodedStrokes hrest
      constructor
      · intro heq
        have hcount := congrArg List.length heq
        rw [List.length_append, decodedStrokes_sequence (hes e List.mem_cons_self) h,
          List.length_cons] at hcount
        omega
      · exact fun hn => absurd h hn.1
    · rw [decodedStrokes_plain h, List.singleton_append, List.cons.injEq]
      exact ⟨fun heq => ⟨h, heq.2⟩, fun heq => ⟨rfl, heq.2⟩⟩

/-- The decoder gives back exactly the events of the stream and ends in `STATE_NORMAL`. -/
def DecodesTo (es : List KeyStroke) : Prop :=
  (decodeScancodes .normal (es.flatMap encodeStroke)).1 = .normal ∧
  (decodeScancodes .normal (es.flatMap encodeStroke)).2.map KeyboardEvent.stroke = es

/-- Decoding inverts encoding on the streams without PrintScreen and Pause, and on no other. -/
theorem scancode_round_trip_iff (es : List KeyStroke) (hes : ∀ e ∈ es, Encodable e) :
    DecodesTo es ↔ ∀ e ∈ es, ¬ HasSequence e.1 := by
  rw [← flatMap_decodedStrokes_iff hes, DecodesTo, (decode_encode es).2]
  exact ⟨fun h => h.2, fun h => ⟨(decode_encode es).1, h⟩⟩

theorem scancode_round_trip_shift_a :
    DecodesTo [(.lshift, .press), (.a, .press), (.a, .release), (.lshift, .release)] :=
  (scancode_round_trip_iff _ (by decide)).mpr (by decide)

/-- A press of PrintScreen is followed by a press of the keypad's `*`. -/
theorem scancode_round_trip_printscreen :
    (∀ e ∈ [((Keycode.printscreen, KeyEventType.press) : KeyStroke)], Encodable e) ∧
    ¬ DecodesTo [(.printscreen, .press)] ∧
    (decodeScancodes .normal [0xE0#8, 0x2A#8, 0xE0#8, 0x37#8]).2.map KeyboardEvent.stroke =
      [(.printscreen, .press), (.kpMultiply, .press)] := by
  refine ⟨by decide, fun h => ?_, rfl⟩
  have hlen := congrArg List.length h.2
  exact absurd hlen (by decide)

end SukiOS

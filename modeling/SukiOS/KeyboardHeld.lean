import Mathlib.Algebra.Ring.Parity
import Mathlib.Logic.Function.Iterate
import SukiOS.KeyboardText

/-! The physical keyboard behind the scancodes: keys that go down, stay down and resend their make
code, and come up, and what the modifier and lock state of the driver has to do with them. -/
namespace SukiOS

/-! ### Physical keys -/

/-- A key goes down, resends its make code while it is down, or comes up. -/
inductive KeyMove where
  | press
  | again
  | release
deriving DecidableEq, Repr

abbrev PhysicalEvent := Keycode × KeyMove

/-- The code that is sent: the make code also for a repetition. -/
def PhysicalEvent.stroke (e : PhysicalEvent) : KeyStroke :=
  (e.1, if e.2 = .release then .release else .press)

def PhysicalEvent.bytes (e : PhysicalEvent) : List (BitVec 8) := encodeStroke e.stroke

/-- The keys that are held after an event. -/
def heldAfter (held : Keycode → Bool) (e : PhysicalEvent) : Keycode → Bool :=
  match e.2 with
  | .press => Function.update held e.1 true
  | .again => held
  | .release => Function.update held e.1 false

/-- A key that is up goes down; a key that is down resends its code or comes up. -/
def Physical (held : Keycode → Bool) : List PhysicalEvent → Prop
  | [] => True
  | e::es => held e.1 = decide (e.2 ≠ .press) ∧ Physical (heldAfter held e) es

def isModifierKey (key : Keycode) : Bool :=
  key == .lshift || key == .rshift || key == .lctrl || key == .rctrl || key == .lalt || key == .ralt

/-- The flag of a modifier or lock key. -/
def KeyboardState.flag (s : KeyboardState) : Keycode → Bool
  | .lshift => s.lshift
  | .rshift => s.rshift
  | .lctrl => s.lctrl
  | .rctrl => s.rctrl
  | .lalt => s.lalt
  | .ralt => s.ralt
  | .capslock => s.capslock
  | .numlock => s.numlock
  | .scrolllock => s.scrolllock
  | _ => false

/-- After the events `es` from the state `start` the modifiers are those that are held, and the
locks were switched once for each time their key went down. -/
structure FollowsKeys (start s : KeyboardState) (held : Keycode → Bool) (es : List PhysicalEvent) :
    Prop where
  modifiers : ∀ key, isModifierKey key → s.flag key = es.foldl heldAfter held key
  locks : ∀ key, isLockKey key → s.flag key = not^[es.count (key, .press)] (start.flag key)

/-- So they do after each of the events, whose bytes the driver `k` is fed with. -/
def FollowsThroughout {π : Type*} (sendCommandWithParam : π → BitVec 8 → BitVec 8 → π × Bool)
    (port : π) (k : Kbd) (held : Keycode → Bool) (es : List PhysicalEvent) : Prop :=
  ∀ pre, pre <+: es → FollowsKeys k.state
    (feedScancodes sendCommandWithParam port k (pre.flatMap PhysicalEvent.bytes)).2.state held pre

/-- The make code of a lock key sent again. -/
def RepeatsLock (e : PhysicalEvent) : Prop := isLockKey e.1 = true ∧ e.2 = .again

instance (e : PhysicalEvent) : Decidable (RepeatsLock e) := inferInstanceAs (Decidable (_ ∧ _))

/-! ### The driver sees strokes -/

section Strokes
variable {π : Type*} {sendCommandWithParam : π → BitVec 8 → BitVec 8 → π × Bool}

theorem handleEvents_state (es : List KeyboardEvent) : ∀ (port : π) (k : Kbd),
    (handleEvents sendCommandWithParam port k es).2.state =
      (es.map KeyboardEvent.stroke).foldl eventState k.state := by
  induction es with
  | nil => exact fun _ _ => rfl
  | cons e es ih =>
    intro port k
    unfold handleEvents
    dsimp only
    rw [ih, (keyboardHandleEvent_spec sendCommandWithParam port k e).1]
    rfl

/-- The bytes of the events act on the flags as the strokes of the events do. -/
theorem feedPhysical_state (port : π) (k : Kbd) (hk : k.scancodeSt = .normal)
    (es : List PhysicalEvent) (hes : ∀ e ∈ es, e.1 ≠ .none ∧ ¬ HasSequence e.1) :
    (feedScancodes sendCommandWithParam port k (es.flatMap PhysicalEvent.bytes)).2.state =
      (es.map PhysicalEvent.stroke).foldl eventState k.state := by
  have hbytes : es.flatMap PhysicalEvent.bytes =
    (es.map PhysicalEvent.stroke).flatMap encodeStroke :=
    (List.flatMap_map PhysicalEvent.stroke encodeStroke es).symm
  have henc : ∀ e ∈ es.map PhysicalEvent.stroke, Encodable e ∧ ¬ HasSequence e.1 := by
    intro e he
    obtain ⟨p, hp, rfl⟩ := List.mem_map.mp he
    have hkey := hes p hp
    refine ⟨⟨hkey.1, ?_⟩, hkey.2⟩
    intro hpause
    exact hkey.2 (Or.inr (congrArg Prod.fst hpause))
  have hdec := (scancode_round_trip_iff _ (fun e he => (henc e he).1)).mpr
    (fun e he => (henc e he).2)
  rw [hbytes, feedScancodes_eq, hk]
  dsimp only
  rw [handleEvents_state, hdec.2]

end Strokes

/-! ### One stroke -/

theorem eventState_modifier {key : Keycode} (hkey : isModifierKey key = true) (s : KeyboardState)
    (e : KeyStroke) :
    (eventState s e).flag key = if e.1 = key then decide (e.2 = .press) else s.flag key := by
  obtain ⟨sent, type⟩ := e
  simp only [isModifierKey, Bool.or_eq_true, beq_iff_eq] at hkey
  rcases hkey with ((((rfl | rfl) | rfl) | rfl) | rfl) | rfl <;> cases type <;> cases sent <;> rfl

theorem eventState_lock {key : Keycode} (hkey : isLockKey key = true) (s : KeyboardState)
    (e : KeyStroke) :
    (eventState s e).flag key = if e = (key, .press) then !s.flag key else s.flag key := by
  obtain ⟨sent, type⟩ := e
  simp only [isLockKey, Bool.or_eq_true, beq_iff_eq] at hkey
  rcases hkey with (rfl | rfl) | rfl <;> cases type <;> cases sent <;> rfl

/-! ### Runs -/

/-- Whether a modifier is held shows in its code alone, so repetitions do no harm. -/
theorem modifiers_follow {key : Keycode} (hkey : isModifierKey key = true)
    (es : List PhysicalEvent) :
    ∀ (s : KeyboardState) (held : Keycode → Bool), s.flag key = held key → Physical held es →
    ((es.map PhysicalEvent.stroke).foldl eventState s).flag key = es.foldl heldAfter held key := by
  induction es with
  | nil => exact fun _ _ h _ => h
  | cons e es ih =>
    intro s held h hphys
    apply ih (eventState s e.stroke) (heldAfter held e) ?_ hphys.2
    rw [eventState_modifier hkey]
    obtain ⟨sent, move⟩ := e
    have hmove := hphys.1
    change (if sent = key then _ else _) = _
    by_cases hk : sent = key
    · subst hk
      rw [if_pos rfl]
      cases move with
      | press => exact (Function.update_self sent true held).symm
      | again => exact hmove.symm
      | release => exact (Function.update_self sent false held).symm
    · rw [if_neg hk, h]
      cases move with
      | press => exact (Function.update_of_ne (Ne.symm hk) true held).symm
      | again => exact Eq.refl _
      | release => exact (Function.update_of_ne (Ne.symm hk) false held).symm

/-- A lock is switched by each press and by each repetition. -/
theorem locks_run {key : Keycode} (hkey : isLockKey key = true) (es : List PhysicalEvent) :
    ∀ s : KeyboardState, ((es.map PhysicalEvent.stroke).foldl eventState s).flag key =
      not^[es.count (key, .press) + es.count (key, .again)] (s.flag key) := by
  induction es with
  | nil => exact fun _ => rfl
  | cons e es ih =>
    intro s
    rw [List.map_cons, List.foldl_cons, ih, eventState_lock hkey]
    obtain ⟨sent, move⟩ := e
    by_cases hsent : sent = key
    · subst hsent
      have hother : ∀ m m' : KeyMove, m ≠ m' → (sent, m) ≠ (sent, m') :=
        fun m m' hne h => hne (congrArg Prod.snd h)
      have hmake : ∀ m : KeyMove, m ≠ .release → PhysicalEvent.stroke (sent, m) = (sent, .press) :=
        fun m hm => congrArg (Prod.mk sent) (if_neg hm)
      have hbreak : PhysicalEvent.stroke (sent, .release) ≠ (sent, .press) :=
        fun h => KeyEventType.noConfusion (congrArg Prod.snd h)
      cases move with
      | press =>
        rw [List.count_cons_self, List.count_cons_of_ne (hother _ _ (by decide)),
          Nat.add_right_comm, Function.iterate_succ_apply, if_pos (hmake .press (by decide))]
      | again =>
        rw [List.count_cons_self, List.count_cons_of_ne (hother _ _ (by decide)), ← Nat.add_assoc,
          Function.iterate_succ_apply, if_pos (hmake .again (by decide))]
      | release =>
        rw [List.count_cons_of_ne (hother _ _ (by decide)),
          List.count_cons_of_ne (hother _ _ (by decide)), if_neg hbreak]
    · have hstroke : PhysicalEvent.stroke (sent, move) ≠ (key, .press) :=
        fun h => hsent (congrArg Prod.fst h)
      have hne : ∀ m : KeyMove, (sent, move) ≠ (key, m) := fun m h => hsent (congrArg Prod.fst h)
      rw [if_neg hstroke, List.count_cons_of_ne (hne _), List.count_cons_of_ne (hne _)]

theorem not_iterate_add (b : Bool) (m n : ℕ) : not^[m + n] b = not^[m] b ↔ Even n := by
  rw [Function.iterate_add_apply]
  have hinj : Function.Injective (not^[m]) := (Bool.involutive_not.injective).iterate m
  rw [hinj.eq_iff]
  constructor
  · intro h
    by_contra hodd
    rw [Nat.not_even_iff_odd] at hodd
    rw [Bool.involutive_not.iterate_odd hodd] at h
    cases b
    · exact Bool.noConfusion h
    · exact Bool.noConfusion h
  · intro heven
    rw [Bool.involutive_not.iterate_even heven]
    rfl

/-- A count that is even on every prefix is zero. -/
theorem even_prefixes_iff {α : Type*} [BEq α] [LawfulBEq α] (a : α) (l : List α) :
    (∀ pre, pre <+: l → Even (pre.count a)) ↔ a ∉ l := by
  constructor
  · induction l with
    | nil => exact fun _ => List.not_mem_nil
    | cons b l ih =>
      intro h
      have hone := h [b] ⟨l, rfl⟩
      have hb : b ≠ a := by
        rintro rfl
        rw [List.count_singleton_self] at hone
        exact absurd hone (by decide)
      have hrest := ih (fun pre hpre => by
        have heven := h (b::pre) ((List.prefix_cons_inj b).mpr hpre)
        rwa [List.count_cons_of_ne hb] at heven)
      exact fun hmem => (List.mem_cons.mp hmem).elim (fun hab => hb hab.symm) hrest
  · intro hnot pre hpre
    rw [List.count_eq_zero_of_not_mem (fun hmem => hnot (hpre.subset hmem))]
    exact Even.zero

theorem Physical.initial {es pre : List PhysicalEvent} (hpre : pre <+: es) :
    ∀ held, Physical held es → Physical held pre := by
  obtain ⟨post, rfl⟩ := hpre
  induction pre with
  | nil => exact fun _ _ => trivial
  | cons e pre ih => exact fun held h => ⟨h.1, ih _ h.2⟩

/-- After each event the flags follow the physical keys, if and only if no lock key resends its make
code while it is held. -/
theorem flags_follow_keys_iff {π : Type*} (sendCommandWithParam : π → BitVec 8 → BitVec 8 →
    π × Bool)
    (port : π) (k : Kbd) (hk : k.scancodeSt = .normal) (held : Keycode → Bool)
    (hheld : ∀ key, isModifierKey key → k.state.flag key = held key) (es : List PhysicalEvent)
    (hes : ∀ e ∈ es, e.1 ≠ .none ∧ ¬ HasSequence e.1) (hphys : Physical held es) :
    FollowsThroughout sendCommandWithParam port k held es ↔ ∀ e ∈ es, ¬ RepeatsLock e := by
  have hstate : ∀ pre, pre <+: es →
      (feedScancodes sendCommandWithParam port k (pre.flatMap PhysicalEvent.bytes)).2.state =
        (pre.map PhysicalEvent.stroke).foldl eventState k.state := fun pre hpre =>
    feedPhysical_state port k hk pre (fun e he => hes e (hpre.subset he))
  constructor
  · intro hall e he hrep
    obtain ⟨key, move⟩ := e
    obtain ⟨hkey, rfl⟩ : isLockKey key = true ∧ move = .again := hrep
    apply (even_prefixes_iff (key, KeyMove.again) es).mp ?_ he
    intro pre hpre
    have hlocks := (hall pre hpre).locks key hkey
    rw [hstate pre hpre, locks_run hkey] at hlocks
    exact (not_iterate_add _ _ _).mp hlocks
  · intro hno pre hpre
    rw [hstate pre hpre]
    constructor
    · intro key hkey
      exact modifiers_follow hkey pre k.state held (hheld key hkey) (hphys.initial hpre held)
    · intro key hkey
      have hnone : (key, KeyMove.again) ∉ pre := fun hmem => hno _ (hpre.subset hmem) ⟨hkey, rfl⟩
      rw [locks_run hkey, List.count_eq_zero_of_not_mem hnone, Nat.add_zero]

/-- Shift is held over an `a` that is repeated, and CapsLock is pressed once and released. -/
def shiftedStream : List PhysicalEvent :=
  [(.lshift, .press), (.a, .press), (.a, .again), (.capslock, .press), (.a, .release),
    (.capslock, .release), (.lshift, .again), (.lshift, .release)]

theorem flags_follow_shifted_stream :
    FollowsThroughout answering () freshTyping.kbd (fun _ => false) shiftedStream := by
  apply (flags_follow_keys_iff answering () freshTyping.kbd rfl (fun _ => false) (by
    intro key hkey
    simp only [isModifierKey, Bool.or_eq_true, beq_iff_eq] at hkey
    rcases hkey with ((((rfl | rfl) | rfl) | rfl) | rfl) | rfl <;> rfl) shiftedStream
      (by decide) ?_).mpr
  · decide
  · simp only [shiftedStream, Physical]
    decide

/-- CapsLock goes down once and resends its code once, and the driver has switched it twice. -/
theorem capslock_repeats : ¬ ∀ (k : Kbd) (held : Keycode → Bool) (es : List PhysicalEvent),
    k.scancodeSt = .normal → (∀ key, isModifierKey key → k.state.flag key = held key) →
    (∀ e ∈ es, e.1 ≠ .none ∧ ¬ HasSequence e.1) → Physical held es →
    FollowsThroughout answering () k held es := by
  intro hall
  have hfollow := hall freshTyping.kbd (fun _ => false)
    [(.capslock, .press), (.capslock, .again)] rfl
    (by
      intro key hkey
      simp only [isModifierKey, Bool.or_eq_true, beq_iff_eq] at hkey
      rcases hkey with ((((rfl | rfl) | rfl) | rfl) | rfl) | rfl <;> rfl)
    (by decide) (by simp only [Physical]; decide) _ (List.prefix_refl _)
  exact absurd (hfollow.locks .capslock rfl) (by decide)

end SukiOS

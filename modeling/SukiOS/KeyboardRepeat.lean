import Mathlib.Algebra.Group.Nat.Defs
import Mathlib.Data.List.Induction
import SukiOS.KeyboardText

/-! The software key repeat: `keyboard_timer_tick` between the events of the keys and the reads of
the buffer. -/
namespace SukiOS
open RingBuffer

/-! ### The timer -/

def repeatDelayMs : ℕ := 500
def repeatRateMs : ℕ := 33

/-- `TICKS_PER_MS`; a tick is about 10 ms. -/
def ticksPerMs : ℕ := 10

def repeatDelayTicks : ℕ := repeatDelayMs / ticksPerMs
def repeatRateTicks : ℕ := repeatRateMs / ticksPerMs

def keyboardTimerTick (k : Kbd) : Kbd :=
  if k.repeatKey = .none then k
  else
    let k := { k with repeatTimer := (k.repeatTimer + 1) % 2^32 }
    if k.repeatTimer < repeatDelayTicks then k
    else
      let elapsed := k.repeatTimer - repeatDelayTicks
      if 0 < elapsed ∧ elapsed % repeatRateTicks = 0 then
        { k with buffer := pushChar k.buffer (keycodeToAsciiChar k.state k.repeatKey) }
      else k

/-- The ticks that repeat, counted from the press. -/
def RepeatDue (n : ℕ) : Prop := 50 < n ∧ (n - 50) % 3 = 0

instance (n : ℕ) : Decidable (RepeatDue n) := inferInstanceAs (Decidable (_ ∧ _))

theorem keyboardTimerTick_spec {k : Kbd} (h : k.repeatKey ≠ .none) :
    keyboardTimerTick k = { k with
      repeatTimer := (k.repeatTimer + 1) % 2^32
      buffer := if RepeatDue ((k.repeatTimer + 1) % 2^32) then
          pushChar k.buffer (keycodeToAsciiChar k.state k.repeatKey) else k.buffer } := by
  have hdelay : repeatDelayTicks = 50 := rfl
  have hrate : repeatRateTicks = 3 := rfl
  unfold keyboardTimerTick
  rw [if_neg h]
  dsimp only
  rw [hdelay, hrate]
  generalize (k.repeatTimer + 1) % 2^32 = t
  by_cases hwait : t < 50
  · have hnot : ¬ RepeatDue t := fun hdue => absurd hdue.1 (by omega)
    rw [if_pos hwait, if_neg hnot]
  · have hiff : (0 < t - 50 ∧ (t - 50) % 3 = 0) ↔ RepeatDue t :=
      and_congr_left' (by omega)
    rw [if_neg hwait]
    by_cases hdue : RepeatDue t
    · rw [if_pos (hiff.mpr hdue), if_pos hdue]
    · rw [if_neg (fun hcond => hdue (hiff.mp hcond)), if_neg hdue]

/-! ### Histories -/

/-- An event of a key, a tick of the timer, or a read of the buffer. -/
inductive RepeatOp where
  | event (e : KeyboardEvent)
  | tick
  | getchar
deriving DecidableEq, Repr

section Run
variable {π : Type*} (sendCommandWithParam : π → BitVec 8 → BitVec 8 → π × Bool)

def repeatStep (s : π × Kbd) : RepeatOp → π × Kbd
  | .event e => keyboardHandleEvent sendCommandWithParam s.1 s.2 e
  | .tick => (s.1, keyboardTimerTick s.2)
  | .getchar => (s.1, (keyboardGetcharNb s.2).2)

def repeatRun (s : π × Kbd) (ops : List RepeatOp) : π × Kbd :=
  ops.foldl (repeatStep sendCommandWithParam) s

end Run

/-- After the press of `key` no key is pressed, and `key` is not released. -/
def RepeatOp.Keeps (key : Keycode) : RepeatOp → Prop
  | .event e => e.type = .release ∧ e.key ≠ key
  | .tick => True
  | .getchar => True

/-- `key` was pressed `n` ticks ago and not released since, and no key was pressed after it. -/
def HeldLast (ops : List RepeatOp) (key : Keycode) (n : ℕ) : Prop :=
  key ≠ .none ∧ ∃ pre post extended, ops = pre ++ .event ⟨key, .press, extended⟩ :: post ∧
    (∀ op ∈ post, op.Keeps key) ∧ n = post.count .tick

/-- A tick adds the character `c` to those that wait. -/
def InsertsChar (k : Kbd) (c : Char) : Prop :=
  (keyboardTimerTick k).buffer.items kbdBufferSize = k.buffer.items kbdBufferSize ++ [c]

/-- A tick inserts a character only for the key that is held and was pressed last, and exactly at
the ticks that are due, if that key has a character and the buffer has room. The count of the ticks
is one of 32 bits; where nothing is read, the buffer is full long before it overflows. -/
structure RepeatsHeldKey (ops : List RepeatOp) (k : Kbd) : Prop where
  only : ∀ c, InsertsChar k c → ∃ n, HeldLast ops k.repeatKey n
  exact : ∀ key n, HeldLast ops key n → (n + 1 < 2^32 ∨ .getchar ∉ ops) →
    keycodeToAsciiChar k.state key ≠ nul → ¬ k.buffer.isFull kbdBufferSize →
    ∀ c, InsertsChar k c ↔ c = keycodeToAsciiChar k.state key ∧ RepeatDue (n + 1)

/-! ### One step of a history -/

section History
variable {ops : List RepeatOp} {op : RepeatOp} {key : Keycode} {n : ℕ}

theorem heldLast_press {e : KeyboardEvent} (hpress : e.type = .press) :
    HeldLast (ops ++ [.event e]) key n ↔ e.key = key ∧ key ≠ .none ∧ n = 0 := by
  obtain ⟨pressed, type, extended⟩ := e
  obtain rfl : type = .press := hpress
  constructor
  · rintro ⟨hkey, pre, post, extended', heq, hkeeps, hcount⟩
    rcases List.eq_nil_or_concat' post with rfl | ⟨post, last, rfl⟩
    · have hlast := (List.append_inj' heq rfl).2
      injection hlast with hev
      injection hev with hev
      injection hev with hk
      exact ⟨hk, hkey, hcount⟩
    · rw [← List.cons_append, ← List.append_assoc] at heq
      have hlast := (List.append_inj' heq rfl).2
      injection hlast with hev
      have hlastKeeps := hkeeps last (List.mem_append_right _ List.mem_cons_self)
      rw [← hev] at hlastKeeps
      exact KeyEventType.noConfusion hlastKeeps.1
  · rintro ⟨rfl, hkey, rfl⟩
    exact ⟨hkey, ops, [], extended, rfl, fun _ h => absurd h List.not_mem_nil, rfl⟩

/-- Any other step keeps what is held, unless it releases it. -/
theorem heldLast_other (hop : ∀ e, op = .event e → e.type = .release) :
    HeldLast (ops ++ [op]) key n ↔
      op.Keeps key ∧ ∃ m, HeldLast ops key m ∧ n = m + if op = .tick then 1 else 0 := by
  constructor
  · rintro ⟨hkey, pre, post, extended, heq, hkeeps, hcount⟩
    rcases List.eq_nil_or_concat' post with rfl | ⟨post, last, rfl⟩
    · have hlast := (List.append_inj' heq rfl).2
      injection hlast with hev
      exact KeyEventType.noConfusion (hop _ hev)
    · rw [← List.cons_append, ← List.append_assoc] at heq
      obtain ⟨hops, hlast⟩ := List.append_inj' heq rfl
      injection hlast with hev
      subst hev
      refine ⟨hkeeps op (List.mem_append_right _ List.mem_cons_self), post.count .tick,
        ⟨hkey, pre, post, extended, hops, fun o ho => hkeeps o (List.mem_append_left _ ho), rfl⟩,
          ?_⟩
      rw [hcount, List.count_append, List.count_singleton]
      simp only [beq_iff_eq]
  · rintro ⟨hkeep, m, ⟨hkey, pre, post, extended, rfl, hkeeps, rfl⟩, rfl⟩
    refine ⟨hkey, pre, post ++ [op], extended, by rw [List.append_assoc, List.cons_append], ?_, ?_⟩
    · intro o ho
      rcases List.mem_append.mp ho with ho | ho
      · exact hkeeps o ho
      · rw [List.mem_singleton.mp ho]
        exact hkeep
    · rw [List.count_append, List.count_singleton]
      simp only [beq_iff_eq]

theorem event_ne_tick (e : KeyboardEvent) : RepeatOp.event e ≠ .tick := by
  intro h
  cases h

theorem not_heldLast_nil : ¬ HeldLast [] key n := by
  rintro ⟨-, pre, post, extended, heq, -, -⟩
  exact absurd heq.symm (List.append_ne_nil_of_right_ne_nil pre (List.cons_ne_nil _ _))

end History

/-! ### What the driver keeps -/

section Driver
variable {π : Type*} (sendCommandWithParam : π → BitVec 8 → BitVec 8 → π × Bool)

theorem keyboardHandleEvent_press (port : π) (k : Kbd) {e : KeyboardEvent} (h : e.type = .press) :
    (keyboardHandleEvent sendCommandWithParam port k e).2.repeatKey = e.key ∧
    (keyboardHandleEvent sendCommandWithParam port k e).2.repeatTimer = 0 := by
  unfold keyboardHandleEvent
  rw [h]
  exact ⟨rfl, rfl⟩

theorem keyboardHandleEvent_release (port : π) (k : Kbd) {e : KeyboardEvent}
    (h : e.type = .release) :
    (keyboardHandleEvent sendCommandWithParam port k e).2.repeatKey =
      (if e.key = k.repeatKey then .none else k.repeatKey) ∧
    (keyboardHandleEvent sendCommandWithParam port k e).2.repeatTimer =
      (if e.key = k.repeatKey then 0 else k.repeatTimer) ∧
    (keyboardHandleEvent sendCommandWithParam port k e).2.buffer = k.buffer ∧
    (keyboardHandleEvent sendCommandWithParam port k e).2.state = releaseState k.state e.key := by
  unfold keyboardHandleEvent
  rw [h]
  dsimp only
  by_cases hkey : e.key = k.repeatKey
  · rw [if_pos hkey, if_pos hkey, if_pos hkey]
    exact ⟨rfl, rfl, rfl, rfl⟩
  · rw [if_neg hkey, if_neg hkey, if_neg hkey]
    exact ⟨rfl, rfl, rfl, rfl⟩

/-- Whether a key has a character depends on NumLock alone. -/
theorem keycodeToAsciiChar_nul_iff {s s' : KeyboardState} (h : s.numlock = s'.numlock)
    (key : Keycode) : keycodeToAsciiChar s key = nul ↔ keycodeToAsciiChar s' key = nul := by
  by_cases hlost : LostOperator key
  · rw [keycodeToAsciiChar_lost hlost, keycodeToAsciiChar_lost hlost]
  · have hnul : ∀ s : KeyboardState,
        keycodeToAsciiChar s key = nul ↔ ((modifiers s).char key).isNone := by
      intro s
      rw [keycodeToAsciiChar_eq hlost]
      cases hc : (modifiers s).char key with
      | none => exact ⟨fun _ => rfl, fun _ => rfl⟩
      | some c =>
        constructor
        · exact fun hn => absurd hn (Modifiers.char_ne_nul hc)
        · exact fun hn => Bool.noConfusion hn
    have hnone : ((modifiers s).char key).isNone = ((modifiers s').char key).isNone := by
      have hnum : (modifiers s).numlock = (modifiers s').numlock := h
      unfold Modifiers.char
      rw [hnum]
      cases key.legend with
      | keypad c => cases (modifiers s').numlock <;> rfl
      | _ => rfl
    rw [hnul s, hnul s', hnone]

theorem releaseState_numlock (s : KeyboardState) (key : Keycode) :
    (releaseState s key).numlock = s.numlock := by
  cases key <;> rfl

/-- The characters that wait, and what the driver has noted of the history. Without reads the buffer
fills up with the characters that were due. -/
structure RepeatInv (ops : List RepeatOp) (k : Kbd) : Prop where
  queue : ∃ l, k.buffer.Holds kbdBufferSize l
  tracks : ∀ key n, HeldLast ops key n → k.repeatKey = key ∧ k.repeatTimer = n % 2^32
  held : k.repeatKey ≠ .none → ∃ n, HeldLast ops k.repeatKey n
  fills : .getchar ∉ ops → ∀ key n, HeldLast ops key n → keycodeToAsciiChar k.state key ≠ nul →
    min 255 ((n - 50) / 3) ≤ k.buffer.count kbdBufferSize

variable {k : Kbd} {ops : List RepeatOp}

theorem pushChar_holds {r : RingBuf Char} {l : List Char} (h : r.Holds kbdBufferSize l) (c : Char) :
    ∃ l', (pushChar r c).Holds kbdBufferSize l' ∧
      l' = if c ≠ nul ∧ l.length < 255 then l ++ [c] else l := by
  unfold pushChar
  by_cases hc : c = nul
  · rw [if_pos hc, if_neg (fun hn => hn.1 hc)]
    exact ⟨l, h, rfl⟩
  · rw [if_neg hc]
    refine ⟨_, h.push_any c, ?_⟩
    unfold kbdBufferSize
    by_cases hl : l.length < 255
    · rw [if_pos (by omega), if_pos ⟨hc, hl⟩]
    · rw [if_neg (by omega), if_neg (fun hn => hl hn.2)]

/-- The characters that wait after a tick. -/
theorem keyboardTimerTick_items {l : List Char} (hl : k.buffer.Holds kbdBufferSize l)
    (hkey : k.repeatKey ≠ .none) :
    (keyboardTimerTick k).buffer.Holds kbdBufferSize
      (if RepeatDue ((k.repeatTimer + 1) % 2^32) ∧ keycodeToAsciiChar k.state k.repeatKey ≠ nul ∧
          l.length < 255 then l ++ [keycodeToAsciiChar k.state k.repeatKey] else l) := by
  rw [keyboardTimerTick_spec hkey]
  dsimp only
  by_cases hdue : RepeatDue ((k.repeatTimer + 1) % 2^32)
  · obtain ⟨l', hl', heq⟩ := pushChar_holds hl (keycodeToAsciiChar k.state k.repeatKey)
    rw [if_pos hdue]
    simp only [hdue, true_and]
    rw [← heq]
    exact hl'
  · rw [if_neg hdue, if_neg (fun h => hdue h.1)]
    exact hl

theorem RepeatInv.press (h : RepeatInv ops k) (port : π) {e : KeyboardEvent}
    (hpress : e.type = .press) :
    RepeatInv (ops ++ [.event e]) (keyboardHandleEvent sendCommandWithParam port k e).2 := by
  have hnoted := keyboardHandleEvent_press sendCommandWithParam port k hpress
  obtain ⟨l, hl⟩ := h.queue
  constructor
  · rw [(keyboardHandleEvent_spec sendCommandWithParam port k e).2]
    unfold eventChars
    split
    · exact ⟨_, hl.push_any _⟩
    · exact ⟨l, hl⟩
  · intro key n hheld
    have hp := (heldLast_press hpress).mp hheld
    rw [hnoted.1, hnoted.2, hp.2.2]
    exact ⟨hp.1, rfl⟩
  · intro hkey
    rw [hnoted.1] at hkey ⊢
    exact ⟨0, (heldLast_press hpress).mpr ⟨rfl, hkey, rfl⟩⟩
  · intro _ key n hheld _
    rw [((heldLast_press hpress).mp hheld).2.2]
    exact Nat.zero_le _

theorem RepeatInv.release (h : RepeatInv ops k) (port : π) {e : KeyboardEvent}
    (hrelease : e.type = .release) :
    RepeatInv (ops ++ [.event e]) (keyboardHandleEvent sendCommandWithParam port k e).2 := by
  obtain ⟨hkey, htimer, hbuf, hstate⟩ :=
    keyboardHandleEvent_release sendCommandWithParam port k hrelease
  have hother : ∀ e', RepeatOp.event e = .event e' → e'.type = .release := by
    intro e' heq
    rw [← RepeatOp.event.inj heq]
    exact hrelease
  have hback : ∀ key n, HeldLast (ops ++ [.event e]) key n → HeldLast ops key n ∧ e.key ≠ key := by
    intro key n hheld
    obtain ⟨hkeeps, m, hm, hn⟩ := (heldLast_other hother).mp hheld
    rw [if_neg (event_ne_tick e), Nat.add_zero] at hn
    rw [hn]
    exact ⟨hm, hkeeps.2⟩
  constructor
  · rw [hbuf]
    exact h.queue
  · intro key n hheld
    have hold := hback key n hheld
    have htrack := h.tracks key n hold.1
    have hne : e.key ≠ k.repeatKey := htrack.1.symm ▸ hold.2
    rw [hkey, htimer, if_neg hne, if_neg hne]
    exact htrack
  · intro hnone
    rw [hkey] at hnone ⊢
    by_cases hsame : e.key = k.repeatKey
    · exact absurd (if_pos hsame) hnone
    · rw [if_neg hsame] at hnone ⊢
      obtain ⟨n, hn⟩ := h.held hnone
      refine ⟨n, (heldLast_other hother).mpr ⟨⟨hrelease, hsame⟩, n, hn, ?_⟩⟩
      rw [if_neg (event_ne_tick e), Nat.add_zero]
  · intro hreads key n hheld hchar
    have hreads' : .getchar ∉ ops := fun hmem => hreads (List.mem_append_left _ hmem)
    rw [hbuf]
    apply h.fills hreads' key n (hback key n hheld).1
    rw [hstate] at hchar
    exact fun hnul => hchar ((keycodeToAsciiChar_nul_iff
      (releaseState_numlock k.state e.key) key).mpr hnul)

theorem RepeatInv.tick (h : RepeatInv ops k) :
    RepeatInv (ops ++ [.tick]) (keyboardTimerTick k) := by
  have hother : ∀ e, RepeatOp.tick = .event e → e.type = .release :=
    fun e heq => absurd heq.symm (event_ne_tick e)
  have hback : ∀ key n, HeldLast (ops ++ [.tick]) key n → ∃ m, HeldLast ops key m ∧ n = m + 1 := by
    intro key n hheld
    obtain ⟨-, m, hm, hn⟩ := (heldLast_other hother).mp hheld
    rw [if_pos rfl] at hn
    exact ⟨m, hm, hn⟩
  obtain ⟨l, hl⟩ := h.queue
  by_cases hkey : k.repeatKey = .none
  · -- no key is held, and nothing happens
    have hself : keyboardTimerTick k = k := if_pos hkey
    have hnever : ∀ key n, ¬ HeldLast (ops ++ [.tick]) key n := by
      intro key n hheld
      obtain ⟨m, hm, -⟩ := hback key n hheld
      exact hm.1 ((h.tracks key m hm).1.symm.trans hkey)
    rw [hself]
    exact ⟨h.queue, fun key n hheld => absurd hheld (hnever key n), fun hn => absurd hkey hn,
      fun _ key n hheld => absurd hheld (hnever key n)⟩
  have hitems := keyboardTimerTick_items hl hkey
  have hspec := keyboardTimerTick_spec hkey
  constructor
  · exact ⟨_, hitems⟩
  · intro key n hheld
    obtain ⟨m, hm, rfl⟩ := hback key n hheld
    have htrack := h.tracks key m hm
    rw [hspec]
    exact ⟨htrack.1, by rw [htrack.2]; exact Nat.mod_add_mod m _ 1⟩
  · intro _
    obtain ⟨n, hn⟩ := h.held hkey
    refine ⟨n + 1, (heldLast_other hother).mpr ⟨trivial, n, ?_, by rw [if_pos rfl]⟩⟩
    rw [hspec]
    exact hn
  · intro hreads key n hheld hchar
    have hreads' : .getchar ∉ ops := fun hmem => hreads (List.mem_append_left _ hmem)
    obtain ⟨m, hm, rfl⟩ := hback key n hheld
    obtain ⟨rfl, htimer⟩ := h.tracks key m hm
    rw [hspec] at hchar
    have hfill := h.fills hreads' _ m hm hchar
    have hlen := hl.length_lt
    rw [hl.count_eq] at hfill
    rw [hitems.count_eq]
    unfold kbdBufferSize at hlen
    have htime : (k.repeatTimer + 1) % 2^32 = (m + 1) % 2^32 := by
      rw [htimer, Nat.mod_add_mod]
    rw [htime]
    by_cases hadd : RepeatDue ((m + 1) % 2^32) ∧ keycodeToAsciiChar k.state k.repeatKey ≠ nul ∧
        l.length < 255
    · rw [if_pos hadd, List.length_append, List.length_singleton]
      omega
    · -- nothing was due, or the buffer is full
      rw [if_neg hadd]
      by_cases hfull : l.length < 255
      · have hsmall : m + 1 < 2^32 := by omega
        have hnot : ¬ RepeatDue (m + 1) := by
          intro hdue
          rw [Nat.mod_eq_of_lt hsmall] at hadd
          exact hadd ⟨hdue, hchar, hfull⟩
        unfold RepeatDue at hnot
        omega
      · omega

theorem RepeatInv.getchar (h : RepeatInv ops k) :
    RepeatInv (ops ++ [.getchar]) (keyboardGetcharNb k).2 := by
  have hother : ∀ e, RepeatOp.getchar = .event e → e.type = .release := by
    intro e heq
    cases heq
  have hback : ∀ key n, HeldLast (ops ++ [.getchar]) key n ↔ HeldLast ops key n := by
    intro key n
    rw [heldLast_other hother]
    constructor
    · rintro ⟨-, m, hm, rfl⟩
      exact hm
    · exact fun hn => ⟨trivial, n, hn, rfl⟩
  obtain ⟨l, hl⟩ := h.queue
  constructor
  · cases l with
    | nil =>
      have hpop := @RingBuf.Holds.pop_nil _ _ _ ⟨nul⟩ hl
      refine ⟨[], ?_⟩
      change (@RingBuf.pop _ ⟨nul⟩ kbdBufferSize k.buffer).2.Holds kbdBufferSize []
      rw [hpop]
      exact hl
    | cons c l => exact ⟨l, (@RingBuf.Holds.pop_cons _ _ _ _ _ ⟨nul⟩ hl).2⟩
  · exact fun key n hheld => h.tracks key n ((hback key n).mp hheld)
  · intro hkey
    obtain ⟨n, hn⟩ := h.held hkey
    exact ⟨n, (hback _ n).mpr hn⟩
  · exact fun hreads => absurd (List.mem_append_right ops List.mem_cons_self) hreads

theorem RepeatInv.step (port : π) (h : RepeatInv ops k) (op : RepeatOp) :
    RepeatInv (ops ++ [op]) (repeatStep sendCommandWithParam (port, k) op).2 := by
  cases op with
  | event e =>
    cases htype : e.type with
    | press => exact h.press sendCommandWithParam port htype
    | release => exact h.release sendCommandWithParam port htype
  | tick => exact h.tick
  | getchar => exact h.getchar

theorem RepeatInv.run (port : π) {k : Kbd} {l : List Char} (hl : k.buffer.Holds kbdBufferSize l)
    (hkey : k.repeatKey = .none) (ops : List RepeatOp) :
    RepeatInv ops (repeatRun sendCommandWithParam (port, k) ops).2 := by
  induction ops using List.reverseRecOn with
  | nil =>
    exact ⟨⟨l, hl⟩, fun key n h => absurd h not_heldLast_nil, fun hn => absurd hkey hn,
      fun _ key n h => absurd h not_heldLast_nil⟩
  | append_singleton ops op ih =>
    have hrun : repeatRun sendCommandWithParam (port, k) (ops ++ [op]) =
        repeatStep sendCommandWithParam (repeatRun sendCommandWithParam (port, k) ops) op :=
      List.foldl_append
    rw [hrun]
    exact ih.step sendCommandWithParam _ op

/-! ### What a tick inserts -/

theorem insertsChar_iff {l : List Char} {c : Char} (hl : k.buffer.Holds kbdBufferSize l)
    (hkey : k.repeatKey ≠ .none) : InsertsChar k c ↔
      c = keycodeToAsciiChar k.state k.repeatKey ∧ RepeatDue ((k.repeatTimer + 1) % 2^32) ∧
        keycodeToAsciiChar k.state k.repeatKey ≠ nul ∧ l.length < 255 := by
  unfold InsertsChar
  rw [(keyboardTimerTick_items hl hkey).items_eq, hl.items_eq]
  by_cases hadd : RepeatDue ((k.repeatTimer + 1) % 2^32) ∧
      keycodeToAsciiChar k.state k.repeatKey ≠ nul ∧ l.length < 255
  · rw [if_pos hadd, List.append_cancel_left_eq, List.singleton_inj]
    exact ⟨fun h => ⟨h.symm, hadd⟩, fun h => h.1.symm⟩
  · rw [if_neg hadd]
    constructor
    · intro h
      have hlen := congrArg List.length h
      rw [List.length_append, List.length_singleton] at hlen
      omega
    · exact fun h => absurd h.2 hadd

/-- Whatever happens before it, a tick repeats the key that is held and was pressed last, at the
documented times, and nothing else. -/
theorem key_repeat_follows_keys (port : π) (k : Kbd) (l : List Char)
    (hl : k.buffer.Holds kbdBufferSize l) (hkey : k.repeatKey = .none) (ops : List RepeatOp) :
    RepeatsHeldKey ops (repeatRun sendCommandWithParam (port, k) ops).2 := by
  have hinv := RepeatInv.run sendCommandWithParam port hl hkey ops
  generalize (repeatRun sendCommandWithParam (port, k) ops).2 = k' at hinv ⊢
  obtain ⟨l', hl'⟩ := hinv.queue
  constructor
  · intro c hins
    apply hinv.held
    intro hnone
    -- without a key the buffer stays as it is
    have hself : keyboardTimerTick k' = k' := if_pos hnone
    unfold InsertsChar at hins
    rw [hself] at hins
    have hlen := congrArg List.length hins
    rw [List.length_append, List.length_singleton] at hlen
    omega
  · intro key n hheld hbound hchar hroom c
    obtain ⟨hsame, htimer⟩ := hinv.tracks key n hheld
    have hlen : l'.length < 255 := by
      have hlt := hl'.length_lt
      rw [hl'.isFull_iff] at hroom
      unfold kbdBufferSize at hlt hroom
      omega
    have hsmall : n + 1 < 2^32 := by
      cases hbound with
      | inl h => exact h
      | inr hreads =>
        have hfill := hinv.fills hreads key n hheld hchar
        rw [hl'.count_eq] at hfill
        omega
    have htime : (k'.repeatTimer + 1) % 2^32 = n + 1 := by
      rw [htimer, Nat.mod_add_mod, Nat.mod_eq_of_lt hsmall]
    rw [insertsChar_iff hl' (hsame ▸ hheld.1), hsame, htime]
    exact ⟨fun h => ⟨h.1, h.2.1⟩, fun h => ⟨h.1, h.2, hchar, hlen⟩⟩

end Driver

set_option maxRecDepth 4000 in
/-- After the press of `a`, 52 ticks and the release of another key the next tick repeats `a`. -/
theorem key_repeat_a : InsertsChar (repeatRun answering ((), freshTyping.kbd)
    (.event ⟨.a, .press, false⟩ :: (List.replicate 52 .tick ++ [.event ⟨.b, .release, false⟩]))).2
      'a' := by
  have hrep := key_repeat_follows_keys answering () freshTyping.kbd [] freshTyping_ready.empty
    (Eq.refl _) (.event ⟨.a, .press, false⟩ ::
      (List.replicate 52 .tick ++ [.event ⟨.b, .release, false⟩]))
  have hheld : HeldLast (.event ⟨.a, .press, false⟩ ::
      (List.replicate 52 .tick ++ [.event ⟨.b, .release, false⟩])) .a 52 := by
    refine ⟨by decide, [], _, false, rfl, ?_, by decide⟩
    intro op hop
    rcases List.mem_append.mp hop with hop | hop
    · rw [List.eq_of_mem_replicate hop]
      trivial
    · rw [List.mem_singleton.mp hop]
      exact ⟨rfl, by decide⟩
  exact (hrep.exact .a 52 hheld (Or.inl (by decide)) (by decide) (by decide) 'a').mpr
    ⟨by decide, by decide⟩

end SukiOS

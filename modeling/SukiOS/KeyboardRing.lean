import SukiOS.Keyboard

/-! The functions of the ring buffer of `keyboard.c` on their own, and the queue of 255 characters
that they are, over any sequence of complete calls. -/
namespace SukiOS
open RingBuffer

/-- `struct kbd_ring_buffer`, of `char`. -/
abbrev KbdRingBuffer := RingBuf (BitVec 8)

def ringBufferIsEmpty (rb : KbdRingBuffer) : Bool := rb.isEmpty

def ringBufferIsFull (rb : KbdRingBuffer) : Bool := rb.isFull kbdBufferSize

/-- What does not fit is dropped. -/
def ringBufferPush (rb : KbdRingBuffer) (c : BitVec 8) : KbdRingBuffer :=
  if ringBufferIsFull rb then rb
  else { rb with data := Function.update rb.data rb.head c, head := (rb.head + 1) % kbdBufferSize }

def ringBufferPop (rb : KbdRingBuffer) : BitVec 8 × KbdRingBuffer :=
  if ringBufferIsEmpty rb then (0#8, rb)
  else (rb.data rb.tail, { rb with tail := (rb.tail + 1) % kbdBufferSize })

theorem ringBufferPush_eq (rb : KbdRingBuffer) (c : BitVec 8) :
    ringBufferPush rb c = rb.push kbdBufferSize c := rfl

theorem ringBufferPop_eq (rb : KbdRingBuffer) :
    ringBufferPop rb = @RingBuf.pop _ ⟨0#8⟩ kbdBufferSize rb := rfl

/-- The static buffer before the first call. -/
def zeroedRingBuffer : KbdRingBuffer := { data := fun _ => 0#8, head := 0, tail := 0 }

/-! ### Sequences of calls -/

inductive RingCall where
  | push (c : BitVec 8)
  | pop
deriving DecidableEq, Repr

/-- The characters that the calls of `ring_buffer_pop` return, and the buffer after the calls. -/
def ringRun : List RingCall → KbdRingBuffer → List (BitVec 8) × KbdRingBuffer
  | [], rb => ([], rb)
  | .push c :: calls, rb => ringRun calls (ringBufferPush rb c)
  | .pop :: calls, rb =>
    let r := ringBufferPop rb
    let rest := ringRun calls r.2
    (r.1 :: rest.1, rest.2)

/-- The same calls on a queue of at most 255 characters, the oldest first. -/
def queueRun : List RingCall → List (BitVec 8) → List (BitVec 8) × List (BitVec 8)
  | [], q => ([], q)
  | .push c :: calls, q => queueRun calls (if q.length < 255 then q ++ [c] else q)
  | .pop :: calls, [] =>
    let rest := queueRun calls []
    (0#8 :: rest.1, rest.2)
  | .pop :: calls, c::q =>
    let rest := queueRun calls q
    (c :: rest.1, rest.2)

/-- The buffer holds the queue, and the queue holds no 0, which would look like an empty one. -/
structure HoldsQueue (rb : KbdRingBuffer) (q : List (BitVec 8)) : Prop where
  holds : rb.Holds kbdBufferSize q
  head_lt : rb.head < 256
  nonzero : ∀ c, c ∈ q → c ≠ 0#8

variable {rb : KbdRingBuffer} {q : List (BitVec 8)} {c : BitVec 8}

theorem HoldsQueue.zeroed : HoldsQueue zeroedRingBuffer [] where
  holds := RingBuf.Holds.nil (Nat.succ_pos _) _
  head_lt := Nat.succ_pos _
  nonzero _ hc := absurd hc List.not_mem_nil

theorem HoldsQueue.length_le (h : HoldsQueue rb q) : q.length ≤ 255 :=
  Nat.le_of_lt_succ h.holds.length_lt

theorem HoldsQueue.head_lt_of_holds (h : rb.Holds kbdBufferSize q) : rb.head < 256 := by
  rw [h.head_eq]
  exact Nat.mod_lt _ (Nat.succ_pos _)

theorem HoldsQueue.push (h : HoldsQueue rb q) (hc : c ≠ 0#8) :
    HoldsQueue (ringBufferPush rb c) (if q.length < 255 then q ++ [c] else q) := by
  have hholds : (ringBufferPush rb c).Holds kbdBufferSize
      (if q.length < 255 then q ++ [c] else q) := by
    have hsame : (q.length + 1 < kbdBufferSize) = (q.length < 255) :=
      propext ⟨Nat.lt_of_succ_lt_succ, Nat.succ_lt_succ⟩
    have hpush := h.holds.push_any c
    simp only [hsame] at hpush
    rw [ringBufferPush_eq]
    exact hpush
  apply HoldsQueue.mk hholds (HoldsQueue.head_lt_of_holds hholds)
  intro x hx
  by_cases hl : q.length < 255
  · rw [if_pos hl] at hx
    rcases List.mem_append.mp hx with hx | hx
    · exact h.nonzero x hx
    · rw [List.mem_singleton.mp hx]
      exact hc
  · rw [if_neg hl] at hx
    exact h.nonzero x hx

theorem HoldsQueue.isFull_iff (h : HoldsQueue rb q) :
    ringBufferIsFull rb = true ↔ q.length = 255 := by
  have hfull := h.holds.isFull_iff
  unfold ringBufferIsFull
  rw [hfull]
  exact Nat.succ_inj

/-- With 255 characters pending a push leaves the slots and the positions as they are. -/
theorem HoldsQueue.push_full (h : HoldsQueue rb q) (hl : q.length = 255) (c : BitVec 8) :
    ringBufferPush rb c = rb := by
  have hfull := h.isFull_iff.mpr hl
  unfold ringBufferPush
  rw [if_pos hfull]

theorem HoldsQueue.pop_nil (h : HoldsQueue rb []) : ringBufferPop rb = (0#8, rb) := by
  rw [ringBufferPop_eq]
  exact @RingBuf.Holds.pop_nil _ _ _ ⟨0#8⟩ h.holds

theorem HoldsQueue.pop_cons (h : HoldsQueue rb (c::q)) :
    (ringBufferPop rb).1 = c ∧ HoldsQueue (ringBufferPop rb).2 q := by
  have hpop := @RingBuf.Holds.pop_cons _ _ _ _ _ ⟨0#8⟩ h.holds
  rw [ringBufferPop_eq]
  apply And.intro hpop.1
  apply HoldsQueue.mk hpop.2 (HoldsQueue.head_lt_of_holds hpop.2)
  intro x hx
  exact h.nonzero x (List.mem_cons_of_mem c hx)

/-- A pop returns 0 when no character waits, and then only. -/
theorem HoldsQueue.pop_zero_iff (h : HoldsQueue rb q) : (ringBufferPop rb).1 = 0#8 ↔ q = [] := by
  cases q with
  | nil => simp [h.pop_nil]
  | cons c q =>
    have hc : c ≠ 0#8 := h.nonzero c List.mem_cons_self
    simp [h.pop_cons.1, hc]

/-- A pop leaves the buffer as it is when no character waits, and then only. -/
theorem HoldsQueue.pop_same_iff (h : HoldsQueue rb q) : (ringBufferPop rb).2 = rb ↔ q = [] := by
  cases q with
  | nil => simp [h.pop_nil]
  | cons c q =>
    have hfewer := h.pop_cons.2.holds.count_eq
    have hmore := h.holds.count_eq
    have hne : (ringBufferPop rb).2 ≠ rb := by
      intro he
      rw [he, hmore, List.length_cons] at hfewer
      omega
    simp [hne]

/-- The calls return what they return on the queue, and the buffer goes on holding it. -/
theorem HoldsQueue.run (calls : List RingCall) (hcalls : ∀ c, .push c ∈ calls → c ≠ 0#8) :
    ∀ {rb : KbdRingBuffer} {q : List (BitVec 8)}, HoldsQueue rb q →
      (ringRun calls rb).1 = (queueRun calls q).1 ∧
      HoldsQueue (ringRun calls rb).2 (queueRun calls q).2 := by
  induction calls with
  | nil =>
    intro rb q h
    exact ⟨rfl, h⟩
  | cons call calls ih =>
    intro rb q h
    have hrest : ∀ c, .push c ∈ calls → c ≠ 0#8 :=
      fun c hc => hcalls c (List.mem_cons_of_mem call hc)
    cases call with
    | push c => exact ih hrest (h.push (hcalls c List.mem_cons_self))
    | pop =>
      cases q with
      | nil =>
        have hnext := ih hrest h
        simp only [ringRun, queueRun, h.pop_nil]
        exact ⟨congrArg (List.cons 0#8) hnext.1, hnext.2⟩
      | cons c q =>
        have hnext := ih hrest h.pop_cons.2
        simp only [ringRun, queueRun, h.pop_cons.1]
        exact ⟨congrArg (List.cons c) hnext.1, hnext.2⟩

/-- After any sequence of calls from the zeroed buffer, head and tail are positions of the array,
the calls have returned what those of a queue of 255 characters return, and the next push or pop
does what it does on that queue. -/
theorem ring_buffer_is_queue (calls : List RingCall) (hcalls : ∀ c, .push c ∈ calls → c ≠ 0#8) :
    let rb := (ringRun calls zeroedRingBuffer).2
    let q := (queueRun calls []).2
    rb.head < 256 ∧ rb.tail < 256 ∧ q.length ≤ 255 ∧ rb.items kbdBufferSize = q ∧
    (ringRun calls zeroedRingBuffer).1 = (queueRun calls []).1 ∧
    (∀ c, q.length ≠ 255 → (ringBufferPush rb c).items kbdBufferSize = q ++ [c]) ∧
    (∀ c, q.length = 255 → ringBufferPush rb c = rb) ∧
    (∀ c q', q = c::q' →
      (ringBufferPop rb).1 = c ∧ (ringBufferPop rb).2.items kbdBufferSize = q') ∧
    ((ringBufferPop rb).1 = 0#8 ↔ q = []) ∧ ((ringBufferPop rb).2 = rb ↔ q = []) := by
  intro rb q
  have hrun := HoldsQueue.run calls hcalls HoldsQueue.zeroed
  have h : HoldsQueue rb q := hrun.2
  have hpush (c : BitVec 8) (hl : q.length ≠ 255) :
      (ringBufferPush rb c).items kbdBufferSize = q ++ [c] := by
    have hle := h.length_le
    rw [ringBufferPush_eq]
    exact (h.holds.push (by unfold kbdBufferSize; omega) c).items_eq
  have hpop (c : BitVec 8) (q' : List (BitVec 8)) (he : q = c::q') :
      (ringBufferPop rb).1 = c ∧ (ringBufferPop rb).2.items kbdBufferSize = q' := by
    have hnext := (he ▸ h : HoldsQueue rb (c::q')).pop_cons
    exact ⟨hnext.1, hnext.2.holds.items_eq⟩
  exact ⟨h.head_lt, h.holds.tail_lt, h.length_le, h.holds.items_eq, hrun.1, hpush,
    fun c hl => h.push_full hl c, hpop, h.pop_zero_iff, h.pop_same_iff⟩

/-- Two characters in, three calls to take them out. -/
theorem ring_buffer_is_queue_pair :
    let rb := (ringRun [.push 65#8, .push 66#8, .pop, .pop, .pop] zeroedRingBuffer).2
    rb.head < 256 ∧ rb.tail < 256 ∧
    (ringRun [.push 65#8, .push 66#8, .pop, .pop, .pop] zeroedRingBuffer).1 = [65#8, 66#8, 0#8] :=
  have h := ring_buffer_is_queue [.push 65#8, .push 66#8, .pop, .pop, .pop] (by decide)
  ⟨h.1, h.2.1, h.2.2.2.2.1⟩

end SukiOS

import SukiOS.KeyboardText
import SukiOS.Lib.Transition

/-! The LED command and the interrupt handler share one output queue with the scancodes. The
keyboard answers each byte that it is sent, and may put scancodes in the queue at any time, also
ahead of an answer. -/
namespace SukiOS
open Transition

/-! ### The controller and the keyboard behind it -/

/-- A byte of the output queue and what the keyboard meant by it. -/
inductive QueueByte where
  | scancode (b : BitVec 8)
  | answer (b : BitVec 8)
deriving DecidableEq, Repr

def QueueByte.byte : QueueByte → BitVec 8
  | .scancode b => b
  | .answer b => b

def QueueByte.isScancode : QueueByte → Bool
  | .scancode _ => true
  | .answer _ => false

/-- What the keyboard does with a byte that it is sent: the scancodes that it enqueues first, and
whether it acknowledges the byte or asks to send it again. -/
structure Reply where
  ahead : List (BitVec 8)
  ack : Bool
deriving DecidableEq, Repr

/-- The output queue, what the keyboard will do, the LED byte that it acknowledged last, and all the
scancodes that it enqueued. -/
structure Ps2Port where
  queue : List QueueByte
  replies : List Reply
  silent : Bool
  lastAcked : BitVec 8
  enqueued : List (BitVec 8)
deriving DecidableEq, Repr

def ps2RespAck : BitVec 8 := 0xFA#8
def ps2RespResend : BitVec 8 := 0xFE#8

def Reply.byte (r : Reply) : BitVec 8 := if r.ack then ps2RespAck else ps2RespResend

/-- `ps2_send_device`. The byte that is not the command is the LED byte. -/
def ps2SendDevice (p : Ps2Port) (data : BitVec 8) : Ps2Port :=
  match p.replies with
  | [] => { p with silent := true }
  | r::rs => {
      queue := p.queue ++ r.ahead.map QueueByte.scancode ++ [.answer r.byte]
      replies := rs
      silent := p.silent
      lastAcked := if r.ack ∧ data ≠ kbdCmdSetLeds then data else p.lastAcked
      enqueued := p.enqueued ++ r.ahead }

/-- `ps2_read_data`; `none` is a timeout. -/
def ps2ReadData (p : Ps2Port) : Option (BitVec 8 × Ps2Port) :=
  match p.queue with
  | [] => none
  | q::qs => some (q.byte, { p with queue := qs })

def ps2Retries : ℕ := 3

/-- The loop of `kbd_send_command_with_param`. -/
def sendAttempts (cmd param : BitVec 8) (p : Ps2Port) : ℕ → Ps2Port × Bool
  | 0 => (p, false)
  | n+1 =>
    let p := ps2SendDevice p cmd
    match ps2ReadData p with
    | none => (p, false)
    | some (resp, p) =>
      if resp = ps2RespResend then sendAttempts cmd param p n
      else if resp ≠ ps2RespAck then (p, false)
      else
        let p := ps2SendDevice p param
        match ps2ReadData p with
        | none => (p, false)
        | some (resp, p) =>
          if resp = ps2RespResend then sendAttempts cmd param p n
          else (p, resp == ps2RespAck)

def kbdSendCommandWithParam (p : Ps2Port) (cmd param : BitVec 8) : Ps2Port × Bool :=
  sendAttempts cmd param p ps2Retries

/-! ### The handler and the keyboard, step by step -/

/-- The driver and the controller, and the bytes that went to `keyboard_process_scancode`. -/
structure KbdLink where
  port : Ps2Port
  kbd : Kbd
  processed : List QueueByte

inductive LinkOp where
  /-- The keyboard enqueues a scancode. -/
  | arrive (b : BitVec 8)
  /-- One round of the loop of `keyboard_irq_handler`, and the replies to what it sends. -/
  | poll (replies : List Reply)

/-- The port once the handler has read a byte. -/
def Ps2Port.round (p : Ps2Port) (rest : List QueueByte) (replies : List Reply) : Ps2Port :=
  { p with queue := rest, replies := replies, silent := false }

/-- One round of the loop, on a byte of the queue. -/
def irqRound (s : KbdLink) (q : QueueByte) (rest : List QueueByte) (replies : List Reply) :
    KbdLink :=
  let r := keyboardProcessScancode kbdSendCommandWithParam (s.port.round rest replies) s.kbd q.byte
  { port := r.1, kbd := r.2, processed := s.processed ++ [q] }

/-- The keyboard answers each byte that it is sent: all the replies are used and none is missing. -/
inductive LinkStep : KbdLink → LinkOp → KbdLink → Prop where
  | arrive (s : KbdLink) (b : BitVec 8) : LinkStep s (.arrive b)
      { s with port := { s.port with
          queue := s.port.queue ++ [.scancode b], enqueued := s.port.enqueued ++ [b] } }
  | poll (s : KbdLink) (q : QueueByte) (rest : List QueueByte) (replies : List Reply)
      (hq : s.port.queue = q :: rest)
      (hall : (irqRound s q rest replies).port.replies = [])
      (hanswered : (irqRound s q rest replies).port.silent = false) :
      LinkStep s (.poll replies) (irqRound s q rest replies)

/-- The driver starts with an empty queue and knows what the LEDs show. -/
def kbdLink : System KbdLink LinkOp where
  init s := s.port.queue = [] ∧ s.port.enqueued = [] ∧ s.processed = [] ∧
    s.kbd.ledCache = s.port.lastAcked
  step := LinkStep

/-- Each scancode went to the decoder once and in order or waits in the queue, no answer did, and
the driver knows what the LEDs show. -/
structure Faithful (s : KbdLink) : Prop where
  all : s.processed ++ s.port.queue = s.port.enqueued.map QueueByte.scancode
  leds : s.kbd.ledCache = s.port.lastAcked

/-- While a command is under way no scancode is in the queue ahead of an answer. -/
def NoCrossing (s : KbdLink) : LinkOp → Prop
  | .arrive _ => True
  | .poll replies => replies = [] ∨
      (s.port.queue.length ≤ 1 ∧ ∀ r ∈ replies, r.ahead = [])

/-! ### A command that is not disturbed -/

section Command
variable {p p' : Ps2Port} {cmd param data : BitVec 8} {r : Reply} {rs : List Reply}

theorem Reply.byte_resend (r : Reply) : r.byte = ps2RespResend ↔ r.ack = false := by
  unfold Reply.byte
  cases r.ack <;> decide

theorem Reply.byte_ack (r : Reply) : r.byte = ps2RespAck ↔ r.ack = true := by
  unfold Reply.byte
  cases r.ack <;> decide

theorem ps2SendDevice_reply (hr : p.replies = r :: rs) (data : BitVec 8) :
    ps2SendDevice p data = {
      queue := p.queue ++ r.ahead.map QueueByte.scancode ++ [.answer r.byte]
      replies := rs
      silent := p.silent
      lastAcked := if r.ack ∧ data ≠ kbdCmdSetLeds then data else p.lastAcked
      enqueued := p.enqueued ++ r.ahead } := by
  unfold ps2SendDevice
  rw [hr]

/-- Sending a byte and reading its answer from an empty queue. -/
theorem send_read (hq : p.queue = []) (hr : p.replies = r :: rs) (ha : r.ahead = [])
    (data : BitVec 8) : ps2ReadData (ps2SendDevice p data) = some (r.byte,
      { p with
        replies := rs
        lastAcked := if r.ack ∧ data ≠ kbdCmdSetLeds then data else p.lastAcked }) := by
  rw [ps2SendDevice_reply hr, hq, ha, List.append_nil]
  rfl

theorem send_silent (hq : p.queue = []) (hr : p.replies = []) (data : BitVec 8) :
    ps2ReadData (ps2SendDevice p data) = none ∧ (ps2SendDevice p data).queue = [] ∧
    (ps2SendDevice p data).lastAcked = p.lastAcked ∧
    (ps2SendDevice p data).enqueued = p.enqueued := by
  have hsend : ps2SendDevice p data = { p with silent := true } := by
    unfold ps2SendDevice
    rw [hr]
  rw [hsend]
  unfold ps2ReadData
  dsimp only
  rw [hq]
  exact ⟨rfl, rfl, rfl, rfl⟩

/-- The queue is empty again, no scancode came, and the command succeeds exactly when the keyboard
acknowledged the LED byte. -/
structure Sent (p : Ps2Port) (param : BitVec 8) (r : Ps2Port × Bool) : Prop where
  queue : r.1.queue = []
  enqueued : r.1.enqueued = p.enqueued
  acked : r.1.lastAcked = if r.2 then param else p.lastAcked

theorem Sent.of_replies {out : Ps2Port × Bool} (h : Sent { p with replies := rs } param out) :
    Sent p param out where
  queue := h.queue
  enqueued := h.enqueued
  acked := h.acked

theorem sendAttempts_spec (hparam : param ≠ kbdCmdSetLeds) (n : ℕ) : ∀ p : Ps2Port,
    p.queue = [] → (∀ r ∈ p.replies, r.ahead = []) →
    Sent p param (sendAttempts kbdCmdSetLeds param p n) := by
  induction n with
  | zero => exact fun p hq _ => ⟨hq, rfl, rfl⟩
  | succ n ih =>
    intro p hq hall
    unfold sendAttempts
    dsimp only
    cases hr : p.replies with
    | nil =>
      obtain ⟨hread, hq', hled, henq⟩ := send_silent hq hr kbdCmdSetLeds
      rw [hread]
      exact ⟨hq', henq, hled⟩
    | cons r rs =>
      rw [hr] at hall
      obtain ⟨hr0, hrs⟩ := List.forall_mem_cons.mp hall
      rw [send_read hq hr hr0]
      dsimp only
      rw [if_neg (show ¬ (r.ack = true ∧ kbdCmdSetLeds ≠ kbdCmdSetLeds) from fun h => h.2 rfl)]
      cases hack : r.ack with
      | false =>
        rw [if_pos (r.byte_resend.mpr hack)]
        exact Sent.of_replies (ih { p with replies := rs } hq hrs)
      | true =>
        rw [if_neg (fun h => Bool.noConfusion (hack.symm.trans (r.byte_resend.mp h))),
          if_neg (not_not.mpr (r.byte_ack.mpr hack))]
        -- now the parameter
        cases hs : rs with
        | nil =>
          obtain ⟨hread, hq', hled, henq⟩ :=
            send_silent (p := { p with replies := [] }) hq rfl param
          rw [hread]
          exact ⟨hq', henq, hled⟩
        | cons t ts =>
          rw [hs] at hrs
          obtain ⟨ht, hts⟩ := List.forall_mem_cons.mp hrs
          rw [send_read (p := { p with replies := t :: ts }) hq rfl ht]
          dsimp only
          cases htack : t.ack with
          | false =>
            rw [if_pos (t.byte_resend.mpr htack), if_neg (fun h => Bool.noConfusion h.1)]
            exact Sent.of_replies (ih { p with replies := ts } hq hts)
          | true =>
            rw [if_neg (fun h => Bool.noConfusion (htack.symm.trans (t.byte_resend.mp h))),
              if_pos ⟨rfl, hparam⟩, (t.byte_ack.mpr htack)]
            exact ⟨hq, rfl, rfl⟩

end Command

/-! ### A byte without an answer -/

section Silence
variable {p p' : Ps2Port} {cmd param data resp : BitVec 8}

theorem silent_send (h : p.silent = true) (data : BitVec 8) :
    (ps2SendDevice p data).silent = true := by
  unfold ps2SendDevice
  split
  · rfl
  · exact h

theorem silent_read (h : p.silent = true) (hr : ps2ReadData p = some (resp, p')) :
    p'.silent = true := by
  unfold ps2ReadData at hr
  split at hr
  · exact nomatch hr
  · obtain ⟨-, rfl⟩ := Prod.mk.inj (Option.some.inj hr)
    exact h

/-- One round stays silent when the rounds after it do. -/
theorem silent_round {n : ℕ} {p : Ps2Port} (h : (ps2SendDevice p cmd).silent = true)
    (hrest : ∀ q : Ps2Port, q.silent = true → (sendAttempts cmd param q n).1.silent = true) :
    (sendAttempts cmd param p (n+1)).1.silent = true := by
  rw [sendAttempts]
  dsimp only
  cases hr : ps2ReadData (ps2SendDevice p cmd) with
  | none => exact h
  | some x =>
    have h' := silent_read h hr
    dsimp only
    split
    · exact hrest x.2 h'
    split
    · exact h'
    have hp := silent_send h' param
    cases hr' : ps2ReadData (ps2SendDevice x.2 param) with
    | none => exact hp
    | some y =>
      have h'' := silent_read hp hr'
      dsimp only
      split
      · exact hrest y.2 h''
      · exact h''

theorem silent_rest (n : ℕ) : ∀ q : Ps2Port, q.silent = true →
    (sendAttempts cmd param q n).1.silent = true := by
  induction n with
  | zero => exact fun _ h => h
  | succ n ih => exact fun _ h => silent_round (silent_send h cmd) ih

theorem silent_attempts (n : ℕ) (p : Ps2Port) (h : (ps2SendDevice p cmd).silent = true) :
    (sendAttempts cmd param p (n+1)).1.silent = true :=
  silent_round h (silent_rest n)

end Silence

/-! ### A command that is disturbed -/

section Loss
variable {p p' p'' : Ps2Port} {cmd param data resp resp' : BitVec 8} {r : Reply} {rs : List Reply}
  {q : QueueByte} {qs : List QueueByte} {n : ℕ}

/-- The scancodes that are no longer in the queue. -/
def Ps2Port.taken (p : Ps2Port) : ℤ := p.enqueued.length - p.queue.countP QueueByte.isScancode

theorem countP_scancode (bs : List (BitVec 8)) :
    (bs.map QueueByte.scancode).countP QueueByte.isScancode = bs.length := by
  rw [List.countP_map]
  exact List.countP_eq_length.mpr (fun _ _ => rfl)

theorem taken_send (p : Ps2Port) (data : BitVec 8) : (ps2SendDevice p data).taken = p.taken := by
  cases hr : p.replies with
  | nil =>
    unfold ps2SendDevice
    rw [hr]
    rfl
  | cons r rs =>
    rw [ps2SendDevice_reply hr]
    unfold Ps2Port.taken
    dsimp only
    rw [List.countP_append, List.countP_append, countP_scancode, List.length_append,
      List.countP_singleton]
    simp only [QueueByte.isScancode, Bool.false_eq_true, if_false]
    omega

theorem taken_read_cons (hq : p.queue = q :: qs) :
    ({ p with queue := qs } : Ps2Port).taken = p.taken + if q.isScancode then 1 else 0 := by
  unfold Ps2Port.taken
  dsimp only
  rw [hq, List.countP_cons]
  split <;> omega

/-- A byte that is read is either an answer or a scancode that the decoder will not see. -/
theorem taken_exchange (h : ps2ReadData (ps2SendDevice p data) = some (resp, p')) :
    p.taken ≤ p'.taken := by
  unfold ps2ReadData at h
  cases hq : (ps2SendDevice p data).queue with
  | nil =>
    rw [hq] at h
    exact nomatch h
  | cons q qs =>
    rw [hq] at h
    obtain ⟨-, rfl⟩ := Prod.mk.inj (Option.some.inj h)
    rw [taken_read_cons hq, taken_send]
    split <;> omega

/-- A scancode ahead of the answer is read in its place. -/
theorem taken_exchange_lt (hr : p.replies = r :: rs) (hscan : ∀ q ∈ p.queue, q.isScancode = true)
    (hdist : p.queue ≠ [] ∨ r.ahead ≠ []) (data : BitVec 8) :
    ∃ resp p', ps2ReadData (ps2SendDevice p data) = some (resp, p') ∧ p.taken < p'.taken := by
  have hqueue : (ps2SendDevice p data).queue =
      p.queue ++ r.ahead.map QueueByte.scancode ++ [.answer r.byte] := by
    rw [ps2SendDevice_reply hr]
  obtain ⟨q, qs, hq, hs⟩ : ∃ q qs, (ps2SendDevice p data).queue = q :: qs ∧
      q.isScancode = true := by
    rw [hqueue]
    cases hpq : p.queue with
    | cons q qs => exact ⟨q, _, rfl, hscan q (hpq ▸ List.mem_cons_self)⟩
    | nil =>
      cases ha : r.ahead with
      | cons b bs => exact ⟨.scancode b, _, rfl, rfl⟩
      | nil => exact absurd ha (hdist.resolve_left (not_not.mpr hpq))
  refine ⟨q.byte, { ps2SendDevice p data with queue := qs }, ?_, ?_⟩
  · unfold ps2ReadData
    rw [hq]
  · rw [taken_read_cons hq, taken_send, if_pos hs]
    omega

theorem taken_attempts (n : ℕ) : ∀ p : Ps2Port, p.taken ≤ (sendAttempts cmd param p n).1.taken := by
  induction n with
  | zero => exact fun p => le_refl _
  | succ n ih =>
    intro p
    unfold sendAttempts
    dsimp only
    cases h : ps2ReadData (ps2SendDevice p cmd) with
    | none => exact (taken_send p cmd).ge
    | some x =>
      obtain ⟨resp, p'⟩ := x
      have hle := taken_exchange h
      dsimp only
      split
      · exact hle.trans (ih p')
      split
      · exact hle
      cases h' : ps2ReadData (ps2SendDevice p' param) with
      | none => exact hle.trans (taken_send p' param).ge
      | some y =>
        obtain ⟨resp', p''⟩ := y
        have hle' := hle.trans (taken_exchange h')
        dsimp only
        split
        · exact hle'.trans (ih p'')
        · exact hle'

/-- What follows the first answer, and what follows the second. -/
theorem taken_after (h : ps2ReadData (ps2SendDevice p cmd) = some (resp, p')) :
    p'.taken ≤ (sendAttempts cmd param p (n+1)).1.taken := by
  unfold sendAttempts
  dsimp only
  rw [h]
  dsimp only
  split
  · exact taken_attempts n p'
  split
  · exact le_refl _
  cases h' : ps2ReadData (ps2SendDevice p' param) with
  | none => exact (taken_send p' param).ge
  | some y =>
    obtain ⟨resp', p''⟩ := y
    have hle' := taken_exchange h'
    dsimp only
    split
    · exact hle'.trans (taken_attempts n p'')
    · exact hle'

theorem taken_after_param (h : ps2ReadData (ps2SendDevice p cmd) = some (ps2RespAck, p'))
    (h' : ps2ReadData (ps2SendDevice p' param) = some (resp', p'')) :
    p''.taken ≤ (sendAttempts cmd param p (n+1)).1.taken := by
  unfold sendAttempts
  dsimp only
  rw [h]
  dsimp only
  rw [if_neg (by decide), if_neg (not_not.mpr rfl), h']
  dsimp only
  split
  · exact taken_attempts n p''
  · exact le_refl _

/-- The reply with bytes ahead of it is a later one when the first has none. -/
theorem disturbed_tail {r : Reply} {rs : List Reply} (h : ∃ t ∈ r::rs, t.ahead ≠ [])
    (ha : r.ahead = []) :
    ∃ t ∈ rs, t.ahead ≠ [] := by
  obtain ⟨t, ht, hta⟩ := h
  rcases List.mem_cons.mp ht with rfl | ht
  · exact absurd ha hta
  · exact ⟨t, ht, hta⟩

/-- If the keyboard used all its replies and one was disturbed, a scancode was taken for an
answer. -/
theorem sendAttempts_loses (n : ℕ) : ∀ p : Ps2Port, (∀ q ∈ p.queue, q.isScancode = true) →
    (sendAttempts kbdCmdSetLeds param p n).1.replies = [] → p.replies ≠ [] →
    (p.queue ≠ [] ∨ ∃ r ∈ p.replies, r.ahead ≠ []) →
    p.taken < (sendAttempts kbdCmdSetLeds param p n).1.taken := by
  induction n with
  | zero => exact fun p _ hend hne _ => absurd hend hne
  | succ n ih =>
    intro p hscan hend hne hdist
    obtain ⟨r, rs, hr⟩ := List.exists_cons_of_ne_nil hne
    by_cases hfirst : p.queue ≠ [] ∨ r.ahead ≠ []
    · obtain ⟨resp, p', hread, hlt⟩ := taken_exchange_lt hr hscan hfirst kbdCmdSetLeds
      exact hlt.trans_le (taken_after hread)
    · -- the command byte is not disturbed
      rw [not_or, not_not, not_not] at hfirst
      obtain ⟨hq, ha⟩ := hfirst
      have hrest : ∃ t ∈ rs, t.ahead ≠ [] := by
        apply disturbed_tail ?_ ha
        rw [← hr]
        exact hdist.resolve_left (not_not.mpr hq)
      have hrsne : rs ≠ [] := hrest.elim (fun t ht => List.ne_nil_of_mem ht.1)
      have hread := send_read hq hr ha kbdCmdSetLeds
      rw [if_neg (show ¬ (r.ack = true ∧ kbdCmdSetLeds ≠ kbdCmdSetLeds) from fun h => h.2 rfl)]
        at hread
      cases hack : r.ack with
      | false =>
        have hstep : sendAttempts kbdCmdSetLeds param p (n+1) =
            sendAttempts kbdCmdSetLeds param { p with replies := rs } n := by
          rw [sendAttempts]
          dsimp only
          rw [hread]
          exact if_pos (r.byte_resend.mpr hack)
        rw [hstep] at hend ⊢
        exact ih { p with replies := rs } hscan hend hrsne (Or.inr hrest)
      | true =>
        rw [r.byte_ack.mpr hack] at hread
        obtain ⟨t, ts, hs⟩ := List.exists_cons_of_ne_nil hrsne
        by_cases ht : t.ahead ≠ []
        · obtain ⟨resp', p'', hread', hlt⟩ :=
            taken_exchange_lt (p := { p with replies := rs }) hs hscan (Or.inr ht) param
          exact hlt.trans_le (taken_after_param hread hread')
        · -- nor is the parameter byte, so a later round is disturbed
          have hts : ∃ u ∈ ts, u.ahead ≠ [] := by
            apply disturbed_tail ?_ (not_not.mp ht)
            rw [← hs]
            exact hrest
          have htsne : ts ≠ [] := hts.elim (fun u hu => List.ne_nil_of_mem hu.1)
          have hread' := send_read (p := { p with replies := rs }) hq hs (not_not.mp ht) param
          have hstep : sendAttempts kbdCmdSetLeds param p (n+1) =
              if t.byte = ps2RespResend then sendAttempts kbdCmdSetLeds param
                { p with replies := ts, lastAcked := if t.ack ∧ param ≠ kbdCmdSetLeds then param
                  else p.lastAcked } n
              else ({ p with replies := ts, lastAcked := if t.ack ∧ param ≠ kbdCmdSetLeds then param
                  else p.lastAcked }, t.byte == ps2RespAck) := by
            rw [sendAttempts]
            dsimp only
            rw [hread]
            dsimp only
            rw [if_neg (by decide), if_neg (not_not.mpr rfl), hread']
          rw [hstep] at hend ⊢
          by_cases hre : t.byte = ps2RespResend
          · rw [if_pos hre] at hend ⊢
            exact ih { p with replies := ts, lastAcked := if t.ack ∧ param ≠ kbdCmdSetLeds then param
                              else p.lastAcked } hscan hend htsne (Or.inr hts)
          · rw [if_neg hre] at hend
            exact absurd hend htsne

end Loss

/-! ### The steps -/

section Steps
variable {s s' : KbdLink} {q : QueueByte} {rest : List QueueByte} {replies : List Reply}
    {op : LinkOp}

theorem ledState_ne (s : KeyboardState) : ledState s ≠ kbdCmdSetLeds := by
  unfold ledState
  cases s.capslock <;> cases s.numlock <;> cases s.scrolllock <;> decide

/-- What a scancode does to the ports and to what the driver knows of the LEDs: nothing, or one
command for them. -/
theorem keyboardProcessScancode_leds (port : Ps2Port) (k : Kbd) (b : BitVec 8) :
    ((keyboardProcessScancode kbdSendCommandWithParam port k b).1 = port ∧
      (keyboardProcessScancode kbdSendCommandWithParam port k b).2.ledCache = k.ledCache) ∨
    ∃ led, led ≠ kbdCmdSetLeds ∧
      (keyboardProcessScancode kbdSendCommandWithParam port k b).1 =
        (sendAttempts kbdCmdSetLeds led port ps2Retries).1 ∧
      (keyboardProcessScancode kbdSendCommandWithParam port k b).2.ledCache =
        if (sendAttempts kbdCmdSetLeds led port ps2Retries).2 then led else k.ledCache := by
  cases hev : (decodeScancode k.scancodeSt b).2 with
  | none =>
    rw [keyboardProcessScancode_none port hev]
    exact Or.inl ⟨rfl, rfl⟩
  | some e =>
    rw [keyboardProcessScancode_some port hev]
    unfold keyboardHandleEvent
    cases e.type with
    | release =>
      dsimp only
      split <;> exact Or.inl ⟨rfl, rfl⟩
    | press =>
      dsimp only
      by_cases hlock : isLockKey e.key = true
      · rw [if_pos hlock]
        unfold kbdUpdateLeds
        dsimp only
        by_cases hled : ledState (pressState k.state e.key) = k.ledCache
        · rw [if_pos hled]
          exact Or.inl ⟨rfl, rfl⟩
        · rw [if_neg hled]
          refine Or.inr ⟨ledState (pressState k.state e.key), ledState_ne _, rfl, ?_⟩
          unfold kbdSendCommandWithParam
          dsimp only
          split <;> rfl
      · rw [if_neg hlock]
        exact Or.inl ⟨rfl, rfl⟩

theorem Faithful.scancodes (h : Faithful s) : ∀ q ∈ s.port.queue, q.isScancode = true := by
  intro q hq
  have hmem : q ∈ s.port.enqueued.map QueueByte.scancode := h.all ▸ List.mem_append_right _ hq
  obtain ⟨b, -, rfl⟩ := List.mem_map.mp hmem
  rfl

/-- As many bytes were taken from the queue as went to the decoder. -/
theorem Faithful.taken_eq (h : Faithful s) : s.port.taken = s.processed.length := by
  have hlen := congrArg List.length h.all
  rw [List.length_append, List.length_map] at hlen
  have hcount := List.countP_eq_length.mpr h.scancodes
  unfold Ps2Port.taken
  omega

theorem Faithful.round_undisturbed (h : Faithful s) (hq : s.port.queue = q :: rest)
    (hanswered : (irqRound s q rest replies).port.silent = false)
    (hc : NoCrossing s (.poll replies)) : Faithful (irqRound s q rest replies) := by
  have htotal := h.all
  rw [hq] at htotal
  have hkeep : s.processed ++ [q] ++ rest = s.port.enqueued.map QueueByte.scancode := by
    rw [List.append_assoc, List.singleton_append]
    exact htotal
  rcases keyboardProcessScancode_leds (s.port.round rest replies)
    s.kbd q.byte with ⟨hport, hcache⟩ | ⟨led, hne, hport, hcache⟩
  · refine ⟨?_, ?_⟩
    · unfold irqRound
      dsimp only
      rw [hport]
      exact hkeep
    · unfold irqRound
      dsimp only
      rw [hport]
      exact hcache.trans h.leds
  · have hanswered' := hanswered
    unfold irqRound at hanswered'
    dsimp only at hanswered'
    rw [hport] at hanswered'
    rcases hc with rfl | ⟨hlen, hahead⟩
    · -- a command was sent, and the keyboard did not answer it
      have hsilent : (sendAttempts kbdCmdSetLeds led (s.port.round rest []) (2+1)).1.silent =
        true :=
        silent_attempts 2 (s.port.round rest []) rfl
      exact absurd (hsilent.symm.trans hanswered') Bool.noConfusion
    · obtain rfl : rest = [] := by
        rw [hq, List.length_cons] at hlen
        exact List.length_eq_zero_iff.mp (by omega)
      have hsent := sendAttempts_spec hne ps2Retries
        (s.port.round [] replies) rfl hahead
      refine ⟨?_, ?_⟩
      · unfold irqRound
        dsimp only
        rw [hport, hsent.queue, hsent.enqueued]
        exact hkeep
      · unfold irqRound
        dsimp only
        rw [hport, hcache, hsent.acked, h.leds]
        rfl

theorem Faithful.round_disturbed (h : Faithful s) (hq : s.port.queue = q :: rest)
    (hall : (irqRound s q rest replies).port.replies = [])
    (hc : ¬ NoCrossing s (.poll replies)) : ¬ Faithful (irqRound s q rest replies) := by
  obtain ⟨hne, hdist⟩ := not_or.mp hc
  have hscan : ∀ x ∈ rest, x.isScancode = true := by
    intro x hx
    apply h.scancodes
    rw [hq]
    exact List.mem_cons_of_mem q hx
  have hbefore : (s.port.round rest replies).taken = s.processed.length + 1 := by
    have hread := taken_read_cons hq
    rw [if_pos (h.scancodes q (hq ▸ List.mem_cons_self)), h.taken_eq] at hread
    exact hread
  intro h'
  have hafter := h'.taken_eq
  have hlen : (irqRound s q rest replies).processed.length = s.processed.length + 1 :=
    List.length_append
  rw [hlen] at hafter
  unfold irqRound at hall hafter
  dsimp only at hall hafter
  rcases keyboardProcessScancode_leds (s.port.round rest replies)
    s.kbd q.byte with ⟨hport, -⟩ | ⟨led, -, hport, -⟩
  · -- nothing was sent, so there are no replies
    rw [hport] at hall
    exact hne hall
  · rw [hport] at hall hafter
    have hlost := sendAttempts_loses ps2Retries
      (s.port.round rest replies) hscan hall hne (by
        by_contra hcon
        rw [not_or, not_not] at hcon
        apply hdist
        refine ⟨?_, fun r hr => ?_⟩
        · have hrest : rest = [] := hcon.1
          rw [hq, hrest]
          exact Nat.le_refl 1
        · by_contra ha
          exact hcon.2 ⟨r, hr, ha⟩)
    omega

theorem Faithful.arrive (h : Faithful s) (b : BitVec 8) : Faithful { s with port := { s.port with
    queue := s.port.queue ++ [.scancode b], enqueued := s.port.enqueued ++ [b] } } where
  all := by
    change s.processed ++ (s.port.queue ++ [.scancode b]) =
      (s.port.enqueued ++ [b]).map QueueByte.scancode
    rw [← List.append_assoc, h.all, List.map_append]
    rfl
  leds := h.leds

/-- A step keeps all this exactly when no command is disturbed in it. -/
theorem faithful_step_iff (h : Faithful s) (hs : kbdLink.step s op s') :
    Faithful s' ↔ NoCrossing s op := by
  cases hs with
  | arrive b => exact ⟨fun _ => trivial, fun _ => h.arrive b⟩
  | poll q rest replies hq hall hanswered =>
    refine ⟨fun h' => ?_, fun hc => h.round_undisturbed hq hanswered hc⟩
    by_contra hc
    exact h.round_disturbed hq hall hc h'

end Steps

theorem kbdLink_init {s : KbdLink} (h : kbdLink.init s) : Faithful s := by
  obtain ⟨hq, he, hp, hled⟩ := h
  refine ⟨?_, hled⟩
  rw [hq, he, hp]
  rfl

/-- In the runs without a disturbed command no scancode is lost and no answer is taken for one, and
the next step keeps it so exactly when it disturbs no command either. -/
theorem led_commands_faithful {s : KbdLink} (hr : (kbdLink.restrict NoCrossing).Reachable s) :
    Faithful s ∧ ∀ op s', kbdLink.step s op s' → (Faithful s' ↔ NoCrossing s op) := by
  have h : Faithful s := System.Reachable.restrict_invariant (fun _ h0 => kbdLink_init h0)
    (fun s op s' hi hc hs => (faithful_step_iff hi hs).mpr hc) hr
  exact ⟨h, fun op s' hs => faithful_step_iff h hs⟩

/-! ### CapsLock, alone and with a key behind it -/

/-- The driver after `keyboard_init`. -/
def freshLink : KbdLink where
  port := { queue := [], replies := [], silent := false, lastAcked := 0x02#8, enqueued := [] }
  kbd := freshTyping.kbd
  processed := []

def arrived (s : KbdLink) (b : BitVec 8) : KbdLink :=
  { s with port := { s.port with
      queue := s.port.queue ++ [.scancode b], enqueued := s.port.enqueued ++ [b] } }

theorem led_commands_capslock : ∃ s, s.port.lastAcked = 0x06#8 ∧ Faithful s := by
  refine ⟨irqRound (arrived freshLink 0x3A#8) (.scancode 0x3A#8) [] [⟨[], true⟩, ⟨[], false⟩,
    ⟨[], true⟩, ⟨[], true⟩], rfl, (led_commands_faithful ?_).1⟩
  refine .step (i := .poll [⟨[], true⟩, ⟨[], false⟩, ⟨[], true⟩, ⟨[], true⟩])
    (.step (i := .arrive 0x3A#8) (.init ⟨rfl, rfl, rfl, rfl⟩) ⟨trivial, .arrive freshLink 0x3A#8⟩)
      ?_
  exact ⟨Or.inr ⟨by decide, by decide⟩, .poll _ _ _ _ rfl rfl rfl⟩

/-- The make code of `a` waits behind CapsLock. It is taken for the answer to the command, and the
answer goes to the decoder. -/
theorem led_commands_lose_a : ∃ s, kbdLink.Reachable s ∧ ¬ Faithful s ∧
    s.port.enqueued = [0x3A#8, 0x1E#8] ∧ s.port.queue = [] ∧
    s.processed = [.scancode 0x3A#8, .answer 0xFA#8] := by
  let s1 := arrived (arrived freshLink 0x3A#8) 0x1E#8
  let s2 := irqRound s1 (.scancode 0x3A#8) [.scancode 0x1E#8] [⟨[], true⟩]
  have hr1 : kbdLink.Reachable s1 :=
    .step (i := .arrive 0x1E#8) (.step (i := .arrive 0x3A#8) (.init ⟨rfl, rfl, rfl, rfl⟩)
      (.arrive freshLink 0x3A#8)) (.arrive (arrived freshLink 0x3A#8) 0x1E#8)
  have hr2 : kbdLink.Reachable s2 :=
    .step (i := .poll [⟨[], true⟩]) hr1
      (.poll s1 (.scancode 0x3A#8) [.scancode 0x1E#8] [⟨[], true⟩] rfl (by decide) (by decide))
  refine ⟨irqRound s2 (.answer 0xFA#8) [] [], .step (i := .poll []) hr2
    (.poll s2 (.answer 0xFA#8) [] [] (by decide) (by decide) (by decide)),
      fun h => ?_, by decide, by decide, by decide⟩
  exact absurd (congrArg (List.map QueueByte.byte) h.all) (by decide)

end SukiOS

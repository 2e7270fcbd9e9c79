import SukiOS.SchedQueue

/-! The ready queue while interrupts divide `enqueue` and `dequeue`: the tail may be stale, and a
process appended to a stale tail is lost. -/
namespace SukiOS
open LinkedList

/-! ### The single stores -/

/-- `ready_queue_head = ret->next` -/
def unlinkHead (s : Sched) : Sched := { s with readyQueueHead := s.next s.readyQueueHead }

/-- `if (!ready_queue_head) ready_queue_tail = NULL` -/
def clearTail (s : Sched) : Sched :=
  if s.readyQueueHead = 0 then { s with readyQueueTail := 0 } else s

/-- `if (prev->state == PROC_RUNNING) { enqueue(prev); prev->state = PROC_READY; }` -/
def requeue (s : Sched) : Sched :=
  if s.state s.currentProc = .running then
    (enqueue s s.currentProc).setState s.currentProc .ready
  else s

/-- `proc_create_from_elf` before the queue: the PCB, the frame and the fields of the PCB that
`enqueue` writes first. -/
def prepareProc (s : Sched) (p kstack entry : ℕ) : Sched :=
  let s1 := { s with nextPid := s.nextPid + 1 }.update p (fun c =>
    { c with fds := fun i => if i < maxFd then 0 else c.fds i, pid := s.nextPid,
             state := .ready, next := 0, userStack := userStackTop, entryPoint := entry,
             cr3 := 0 })
  ((prepareUserStack s1 p kstack entry userStackTop).setNext p 0).setState p .ready

section Stores
variable (s : Sched)

theorem dequeue_stores : dequeue s =
    if s.readyQueueHead = 0 then (s, 0) else (clearTail (unlinkHead s), s.readyQueueHead) := by
  unfold dequeue clearTail unlinkHead
  by_cases h : s.readyQueueHead = 0
  · rw [if_pos h, if_pos h]
  · rw [if_neg h, if_neg h]
    by_cases hn : s.next s.readyQueueHead = 0
    · simp only [if_pos hn]
    · simp only [if_neg hn]

/-- `schedule` without an interrupt. -/
theorem schedule_stores (hr : s.schedulerReady = true) (hn : s.currentProc ≠ pick s) :
    schedule s = ({ requeue (dequeue s).1 with currentProc := pick s }.setState (pick s) .running,
      some (pick s)) := by
  have hcurr : (dequeue s).1.currentProc = s.currentProc := by
    unfold dequeue
    split <;> rfl
  rw [schedule_eq, if_neg (by simp [hr]), if_neg hn, requeued, requeue, hcurr]

/-- A creation without an interrupt. -/
theorem procCreateFromElf_stores {p : ℕ} (kstack entry : ℕ) (h0 : p ≠ 0) :
    procCreateFromElf s (some entry) p kstack =
      (let s1 := prepareProc s p kstack entry
      if s1.readyQueueTail ≠ 0 then { s1.setNext s1.readyQueueTail p with readyQueueTail := p }
      else { s1 with readyQueueHead := p, readyQueueTail := p }, p) :=
  if_neg h0

theorem prepareProc_links (p kstack entry : ℕ) :
    let s' := prepareProc s p kstack entry
    s'.readyQueueHead = s.readyQueueHead ∧ s'.readyQueueTail = s.readyQueueTail ∧
      s'.currentProc = s.currentProc ∧ s'.idleProc = s.idleProc ∧
      s'.schedulerReady = s.schedulerReady ∧
      (∀ r, s'.next r = if r = p then 0 else s.next r) ∧
      ∀ r, s'.state r = if r = p then .ready else s.state r := by
  intro s'
  let s1 := { s with nextPid := s.nextPid + 1 }.update p (fun c =>
    { c with fds := fun i => if i < maxFd then 0 else c.fds i, pid := s.nextPid, state := .ready
             next := 0, userStack := userStackTop, entryPoint := entry, cr3 := 0 })
  obtain ⟨hh, ht, hc, hi, hr, hl⟩ := prepareUserStack_links s1 p kstack entry userStackTop
  have hother (r : ℕ) (hrp : r ≠ p) : s1.next r = s.next r ∧ s1.state r = s.state r := by
    simp only [s1, Sched.next, Sched.state, Sched.update_pcb, if_neg hrp, and_self]
  refine ⟨hh, ht, hc, hi, hr, fun r => ?_, fun r => ?_⟩
  · refine (Sched.setState_next _ _ _ _).trans ((Sched.setNext_next _ _ _ _).trans ?_)
    by_cases hrp : r = p
    · rw [if_pos hrp, if_pos hrp]
    · rw [if_neg hrp, if_neg hrp, (hl r).1, (hother r hrp).1]
  · refine (Sched.setState_state _ _ _ _).trans ?_
    by_cases hrp : r = p
    · rw [if_pos hrp, if_pos hrp]
    · rw [if_neg hrp, if_neg hrp, Sched.setNext_state, (hl r).2, (hother r hrp).2]

end Stores

/-! ### The queue with a stale tail -/

/-- The head starts the list `q`, and without a tail nobody waits. -/
structure Threaded (s : Sched) (q : List ℕ) : Prop where
  linked : Linked s.next 0 s.readyQueueHead q
  nodup : q.Nodup
  tail : s.readyQueueTail = 0 → q = []

section Threaded
variable {s s' : Sched} {q : List ℕ} {p n : ℕ}

theorem Threaded.congr (h : Threaded s q) (hh : s'.readyQueueHead = s.readyQueueHead)
    (ht : s'.readyQueueTail = s.readyQueueTail) (hn : ∀ r ∈ q, s'.next r = s.next r) :
    Threaded s' q :=
  ⟨hh ▸ h.linked.congr hn, h.nodup, fun h0 => h.tail (ht ▸ h0)⟩

theorem Threaded.head_null (h : Threaded s q) (hh : s.readyQueueHead = 0) : q = [] := by
  have hnil : Linked s.next 0 s.readyQueueHead [] := hh
  exact h.linked.unique hnil

theorem Threaded.head_mem (h : Threaded s q) (hh : s.readyQueueHead ≠ 0) :
    s.readyQueueHead ∈ q :=
  h.linked.head_mem.resolve_left hh

/-- `p` becomes the successor of `t`. -/
theorem Threaded.setNext (h : Threaded s q) (hp : p ∉ q) (h0 : p ≠ 0) (hlast : s.next p = 0)
    (t : ℕ) : ∃ q', Threaded (s.setNext t p) q' ∧ ∀ x ∈ q', x ∈ q ∨ x = p := by
  obtain ⟨q', hl, hn, hnil, hmem⟩ :=
    h.linked.relink h.nodup hp h0 hlast (fun y => s.setNext_next t y p)
  exact ⟨q', ⟨hl, hn, fun ht => hnil (h.tail ht)⟩, hmem⟩

theorem Threaded.enqueued (h : Threaded s q) (hp : p ∉ q) (h0 : p ≠ 0) :
    ∃ q', Threaded (enqueue s p) q' ∧ ∀ x ∈ q', x ∈ q ∨ x = p := by
  have hnext (r : ℕ) : ((s.setNext p 0).setState p .ready).next r =
      if r = p then 0 else s.next r := by
    rw [Sched.setState_next, Sched.setNext_next]
  have hbase : Threaded ((s.setNext p 0).setState p .ready) q :=
    h.congr rfl rfl (fun r hr => (hnext r).trans (if_neg (fun (hrp : r = p) => hp (hrp ▸ hr))))
  by_cases ht : s.readyQueueTail = 0
  · rw [enqueue_empty s p ht]
    refine ⟨[p], ⟨⟨rfl, h0, (hnext p).trans (if_pos rfl)⟩, List.nodup_singleton p,
      fun ht => absurd ht h0⟩, fun x hx => Or.inr (List.mem_singleton.mp hx)⟩
  · rw [enqueue_nonempty s p ht]
    obtain ⟨q', hq', hmem⟩ :=
      hbase.setNext hp h0 ((hnext p).trans (if_pos rfl)) s.readyQueueTail
    exact ⟨q', ⟨hq'.linked, hq'.nodup, fun ht => absurd ht h0⟩, hmem⟩

theorem Threaded.head_unlinked (h : Threaded s q) (hh : s.readyQueueHead ≠ 0) :
    ∃ q', q = s.readyQueueHead :: q' ∧ Linked s.next 0 (s.next s.readyQueueHead) q' ∧
      s.readyQueueHead ∉ q' ∧ q'.Nodup := by
  cases q with
  | nil => exact absurd h.linked hh
  | cons x q' =>
    obtain ⟨hx, -, hl⟩ := h.linked
    obtain ⟨hxq, hn⟩ := List.nodup_cons.mp h.nodup
    rw [hx]
    exact ⟨q', rfl, hl, hxq, hn⟩

/-- What `dequeue` leaves. -/
theorem Threaded.dequeued (h : Threaded s q) :
    ∃ q', Threaded (dequeue s).1 q' ∧ (∀ x ∈ q', x ∈ q) ∧
      (s.readyQueueHead ≠ 0 → s.readyQueueHead ∉ q') := by
  rw [dequeue_stores]
  by_cases hh : s.readyQueueHead = 0
  · rw [if_pos hh]
    exact ⟨q, h, fun x hx => hx, fun h0 => absurd hh h0⟩
  · rw [if_neg hh]
    obtain ⟨q', rfl, hl, hnq, hn⟩ := h.head_unlinked hh
    refine ⟨q', ?_, fun x hx => List.mem_cons_of_mem _ hx, fun _ => hnq⟩
    by_cases hnext : s.next s.readyQueueHead = 0
    · -- the queue is empty now
      have hct : clearTail (unlinkHead s) =
          { unlinkHead s with readyQueueTail := 0 } := if_pos hnext
      rw [hct]
      have hnil : Linked s.next 0 (s.next s.readyQueueHead) [] := hnext
      exact ⟨hl, hn, fun _ => hl.unique hnil⟩
    · have hct : clearTail (unlinkHead s) = unlinkHead s := if_neg hnext
      rw [hct]
      refine ⟨hl, hn, fun ht => ?_⟩
      exact absurd (h.tail ht) (by simp)

/-- `clearTail` writes only the tail. -/
theorem clearTail_eq (s : Sched) : ∃ t, (t = s.readyQueueTail ∨ t = 0) ∧
    clearTail s = { s with readyQueueTail := t } := by
  unfold clearTail
  split
  · exact ⟨0, Or.inr rfl, rfl⟩
  · exact ⟨s.readyQueueTail, Or.inl rfl, rfl⟩

theorem Threaded.tail_cleared (h : Threaded s q) : Threaded (clearTail s) q := by
  unfold clearTail
  by_cases hh : s.readyQueueHead = 0
  · rw [if_pos hh]
    exact ⟨h.linked, h.nodup, fun _ => h.head_null hh⟩
  · rw [if_neg hh]
    exact h

/-! ### One call of `schedule` -/

theorem enqueue_tail (s : Sched) (p : ℕ) : (enqueue s p).readyQueueTail = p := by
  obtain ⟨c, hd, h⟩ := enqueue_eq s p
  rw [h]

/-- `enqueue` writes two links. -/
theorem enqueue_next {r : ℕ} (hp : r ≠ p) (ht : r ≠ s.readyQueueTail) :
    (enqueue s p).next r = s.next r := by
  have hnext : ((s.setNext p 0).setState p .ready).next r = s.next r := by
    rw [Sched.setState_next, Sched.setNext_next, if_neg hp]
  by_cases h0 : s.readyQueueTail = 0
  · rw [enqueue_empty s p h0]
    exact hnext
  · rw [enqueue_nonempty s p h0]
    exact (Sched.setNext_next _ _ _ _).trans ((if_neg ht).trans hnext)

/-- `dequeue` writes the two ends of the queue. -/
theorem dequeue_eq (s : Sched) : ∃ hd tl,
    (dequeue s).1 = { s with readyQueueHead := hd, readyQueueTail := tl } ∧
      (tl = s.readyQueueTail ∨ tl = 0) := by
  unfold dequeue
  by_cases h : s.readyQueueHead = 0
  · rw [if_pos h]
    exact ⟨_, _, rfl, Or.inl rfl⟩
  · rw [if_neg h]
    refine ⟨_, _, rfl, ?_⟩
    by_cases hn : s.next s.readyQueueHead = 0
    · exact Or.inr (if_pos hn)
    · exact Or.inl (if_neg hn)

theorem pick_cases (s : Sched) : pick s = s.idleProc ∨
    s.readyQueueHead ≠ 0 ∧ pick s = s.readyQueueHead := by
  unfold pick
  by_cases h : s.readyQueueHead = 0
  · exact Or.inl (if_pos h)
  · exact Or.inr ⟨h, if_neg h⟩

theorem Threaded.pick_mem (h : Threaded s q) : pick s = s.idleProc ∨ pick s ∈ q := by
  rcases pick_cases s with hp | ⟨hh, hp⟩
  · exact Or.inl hp
  · exact Or.inr (hp ▸ h.head_mem hh)

/-- `schedule` switches from `s` with the queue `q` to `s'` with the queue `q'`. -/
structure Rescheduled (s : Sched) (q : List ℕ) (s' : Sched) (q' : List ℕ) : Prop where
  threaded : Threaded s' q'
  waited : ∀ x ∈ q', x ∈ q ∨ x = s.currentProc ∧ s.state s.currentProc = .running
  picked : pick s ∉ q'
  current : s'.currentProc = pick s
  ready : s'.schedulerReady = true
  tail : s'.readyQueueTail = s.readyQueueTail ∨ s'.readyQueueTail = 0 ∨
    s'.readyQueueTail = s.currentProc
  next : ∀ r, r ≠ s.currentProc → r ≠ s.readyQueueTail → r ≠ 0 → s'.next r = s.next r

/-- The queue after `dequeue` and the `enqueue` of the process that ran. -/
theorem Threaded.requeued (h : Threaded s q) (hc : s.currentProc ∉ q) (h0 : s.currentProc ≠ 0) :
    ∃ q', Threaded (requeue s) q' ∧
      ∀ x ∈ q', x ∈ q ∨ x = s.currentProc ∧ s.state s.currentProc = .running := by
  unfold requeue
  by_cases hrun : s.state s.currentProc = .running
  · rw [if_pos hrun]
    obtain ⟨q', hq', hmem⟩ := h.enqueued hc h0
    refine ⟨q', hq'.congr rfl rfl (fun r _ => Sched.setState_next _ _ _ _), fun x hx => ?_⟩
    exact (hmem x hx).imp id (fun hxc => ⟨hxc, hrun⟩)
  · rw [if_neg hrun]
    exact ⟨q, h, fun x hx => Or.inl hx⟩

theorem requeue_fields (s : Sched) : (requeue s).schedulerReady = s.schedulerReady ∧
    (requeue s).idleProc = s.idleProc ∧
    ((requeue s).readyQueueTail = s.readyQueueTail ∨
      (requeue s).readyQueueTail = s.currentProc) ∧
    ∀ r, r ≠ s.currentProc → r ≠ s.readyQueueTail → (requeue s).next r = s.next r := by
  unfold requeue
  by_cases hrun : s.state s.currentProc = .running
  · rw [if_pos hrun]
    refine ⟨enqueue_schedulerReady _ _, enqueue_idleProc _ _, Or.inr (enqueue_tail _ _),
      fun r hr ht => ?_⟩
    exact (Sched.setState_next _ _ _ _).trans (enqueue_next hr ht)
  · rw [if_neg hrun]
    exact ⟨rfl, rfl, Or.inl rfl, fun _ _ _ => rfl⟩

theorem Threaded.scheduled (h : Threaded s q) (hr : s.schedulerReady = true)
    (hc : s.currentProc ∉ q) (h0 : s.currentProc ≠ 0) (hn : s.currentProc ≠ pick s) :
    ∃ s' q', schedule s = (s', some (pick s)) ∧ Rescheduled s q s' q' := by
  obtain ⟨hd, tl, hdeq, htl⟩ := dequeue_eq s
  obtain ⟨q1, hq1, hsub, hhead⟩ := h.dequeued
  have hcurr : (dequeue s).1.currentProc = s.currentProc := by rw [hdeq]
  have hstate (r : ℕ) : (dequeue s).1.state r = s.state r := by
    rw [hdeq]
    rfl
  have hnext (r : ℕ) : (dequeue s).1.next r = s.next r := by
    rw [hdeq]
    rfl
  have htail : (dequeue s).1.readyQueueTail = tl := by rw [hdeq]
  have hready : (dequeue s).1.schedulerReady = true := by
    rw [hdeq]
    exact hr
  obtain ⟨q', hq', hmem⟩ := hq1.requeued (fun hx => hc (hsub _ (hcurr ▸ hx))) (hcurr.symm ▸ h0)
  obtain ⟨hr', -, ht', hn'⟩ := requeue_fields (dequeue s).1
  have hwaited : ∀ x ∈ q', x ∈ q1 ∨ x = s.currentProc ∧ s.state s.currentProc = .running := by
    intro x hx
    have hx' := hmem x hx
    rwa [hcurr, hstate] at hx'
  refine ⟨_, q', schedule_stores s hr hn, ?_, fun x hx => (hwaited x hx).imp (hsub x) id, ?_, rfl,
    hr'.trans hready, ?_, fun r hrc hrt hr0 => ?_⟩
  · exact hq'.congr rfl rfl (fun r _ => Sched.setState_next _ _ _ _)
  · -- the head has left the queue, and the idle process is picked when nobody waits
    intro hpick
    rcases hwaited _ hpick with hin | ⟨hin, -⟩
    · rcases pick_cases s with hp | ⟨hh, hp⟩
      · by_cases hh : s.readyQueueHead = 0
        · have := hsub _ hin
          rw [h.head_null hh] at this
          cases this
        · have hp' : pick s = s.readyQueueHead := if_neg hh
          exact hhead hh (hp' ▸ hin)
      · exact hhead hh (hp ▸ hin)
    · exact hn hin.symm
  · rcases ht' with ht' | ht'
    · rcases htl with rfl | rfl
      · exact Or.inl (ht'.trans htail)
      · exact Or.inr (Or.inl (ht'.trans htail))
    · exact Or.inr (Or.inr (ht'.trans hcurr))
  · refine (Sched.setState_next _ _ _ _).trans ?_
    refine (hn' r (fun hx => hrc (hx.trans hcurr)) (fun hx => ?_)).trans (hnext r)
    rw [htail] at hx
    rcases htl with rfl | rfl
    · exact hrt hx
    · exact hr0 hx

/-- With nothing to switch to `schedule` changes nothing. -/
theorem Threaded.not_scheduled (h : Threaded s q) (hc : s.currentProc ∉ q)
    (hn : s.currentProc = pick s) : schedule s = (s, none) := by
  have hh : s.readyQueueHead = 0 := by
    by_contra hh
    have hp : pick s = s.readyQueueHead := if_neg hh
    exact hc (hn ▸ hp ▸ h.head_mem hh)
  have hd : dequeue s = (s, 0) := if_pos hh
  rw [schedule_eq, if_pos hn, hd]
  split <;> rfl

end Threaded

end SukiOS

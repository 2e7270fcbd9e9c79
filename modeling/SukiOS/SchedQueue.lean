import SukiOS.Lib.LinkedList
import SukiOS.Lib.Transition
import SukiOS.Proc

/-! The ready queue as a list, and round-robin scheduling along every run of process
creations, timer ticks and exits. -/
namespace SukiOS
open LinkedList Transition

/-! ### Updating one process -/

namespace Sched
variable (s : Sched) (p r : ℕ) (f : Pcb → Pcb) (st : ProcState) (n : ℕ)

@[simp] theorem update_currentProc : (s.update p f).currentProc = s.currentProc := rfl
@[simp] theorem update_head : (s.update p f).readyQueueHead = s.readyQueueHead := rfl
@[simp] theorem update_tail : (s.update p f).readyQueueTail = s.readyQueueTail := rfl
@[simp] theorem update_idleProc : (s.update p f).idleProc = s.idleProc := rfl
@[simp] theorem update_schedulerReady : (s.update p f).schedulerReady = s.schedulerReady := rfl

theorem update_pcb : (s.update p f).pcb r = if r = p then f (s.pcb p) else s.pcb r := by
  by_cases h : r = p
  · rw [if_pos h, h]
    exact Function.update_self _ _ _
  · rw [if_neg h]
    exact Function.update_of_ne h _ _

/-- A field that the update leaves alone is the same in every PCB. -/
theorem update_field {α : Type*} (field : Pcb → α) (hf : ∀ c, field (f c) = field c) :
    field ((s.update p f).pcb r) = field (s.pcb r) := by
  rw [update_pcb]
  by_cases h : r = p
  · rw [if_pos h, hf, h]
  · rw [if_neg h]

@[simp] theorem setState_currentProc : (s.setState p st).currentProc = s.currentProc := rfl
@[simp] theorem setState_head : (s.setState p st).readyQueueHead = s.readyQueueHead := rfl
@[simp] theorem setState_tail : (s.setState p st).readyQueueTail = s.readyQueueTail := rfl
@[simp] theorem setState_idleProc : (s.setState p st).idleProc = s.idleProc := rfl
@[simp] theorem setState_schedulerReady :
    (s.setState p st).schedulerReady = s.schedulerReady := rfl

@[simp] theorem setState_next : (s.setState p st).next r = s.next r :=
  s.update_field p r _ Pcb.next (fun _ => rfl)

@[simp] theorem setState_state :
    (s.setState p st).state r = if r = p then st else s.state r := by
  simp only [state, setState, update_pcb]
  split <;> rfl

@[simp] theorem setNext_currentProc : (s.setNext p n).currentProc = s.currentProc := rfl
@[simp] theorem setNext_head : (s.setNext p n).readyQueueHead = s.readyQueueHead := rfl
@[simp] theorem setNext_tail : (s.setNext p n).readyQueueTail = s.readyQueueTail := rfl
@[simp] theorem setNext_idleProc : (s.setNext p n).idleProc = s.idleProc := rfl
@[simp] theorem setNext_schedulerReady :
    (s.setNext p n).schedulerReady = s.schedulerReady := rfl

@[simp] theorem setNext_next : (s.setNext p n).next r = if r = p then n else s.next r := by
  simp only [next, setNext, update_pcb]
  split <;> rfl

@[simp] theorem setNext_state : (s.setNext p n).state r = s.state r :=
  s.update_field p r _ Pcb.state (fun _ => rfl)

end Sched

/-- Saving a stack pointer changes no link, no state and no global variable. -/
theorem saveRsp_links (s : Sched) (rsp : ℕ) :
    (saveRsp s rsp).readyQueueHead = s.readyQueueHead ∧
      (saveRsp s rsp).readyQueueTail = s.readyQueueTail ∧
      (saveRsp s rsp).currentProc = s.currentProc ∧ (saveRsp s rsp).idleProc = s.idleProc ∧
      (saveRsp s rsp).schedulerReady = s.schedulerReady ∧
      ∀ r, (saveRsp s rsp).next r = s.next r ∧ (saveRsp s rsp).state r = s.state r := by
  unfold saveRsp
  split
  · exact ⟨rfl, rfl, rfl, rfl, rfl, fun r => ⟨s.update_field _ r _ Pcb.next (fun _ => rfl),
      s.update_field _ r _ Pcb.state (fun _ => rfl)⟩⟩
  · exact ⟨rfl, rfl, rfl, rfl, rfl, fun r => ⟨rfl, rfl⟩⟩

/-! ### The queue -/

/-- The ready queue is the list `q`: acyclic, with the tail pointer at its last node. -/
structure Queue (s : Sched) (q : List ℕ) : Prop where
  linked : Linked s.next 0 s.readyQueueHead q
  tail : s.readyQueueTail = q.getLastD 0
  nodup : q.Nodup

section Queue
variable {s : Sched} {q : List ℕ} {p : ℕ}

theorem Queue.congr {s' : Sched} (hq : Queue s q) (hh : s'.readyQueueHead = s.readyQueueHead)
    (ht : s'.readyQueueTail = s.readyQueueTail) (hn : ∀ r ∈ q, s'.next r = s.next r) :
    Queue s' q :=
  ⟨hh ▸ hq.linked.congr hn, ht.trans hq.tail, hq.nodup⟩

theorem enqueue_empty (s : Sched) (p : ℕ) (ht : s.readyQueueTail = 0) :
    enqueue s p = { (s.setNext p 0).setState p .ready with readyQueueHead := p,
                                                           readyQueueTail := p } := by
  simp [enqueue, ht]

theorem enqueue_nonempty (s : Sched) (p : ℕ) (ht : s.readyQueueTail ≠ 0) :
    enqueue s p = { ((s.setNext p 0).setState p .ready).setNext s.readyQueueTail p with
                      readyQueueTail := p } := by
  simp [enqueue, ht]

/-- `enqueue` writes the process store and the two ends of the queue. -/
theorem enqueue_eq (s : Sched) (p : ℕ) :
    ∃ c hd, enqueue s p = { s with pcb := c, readyQueueHead := hd, readyQueueTail := p } := by
  by_cases ht : s.readyQueueTail = 0
  · exact ⟨_, _, enqueue_empty s p ht⟩
  · exact ⟨_, _, enqueue_nonempty s p ht⟩

@[simp] theorem enqueue_currentProc (s : Sched) (p : ℕ) :
    (enqueue s p).currentProc = s.currentProc := by
  obtain ⟨c, hd, h⟩ := enqueue_eq s p
  rw [h]

@[simp] theorem enqueue_idleProc (s : Sched) (p : ℕ) : (enqueue s p).idleProc = s.idleProc := by
  obtain ⟨c, hd, h⟩ := enqueue_eq s p
  rw [h]

@[simp] theorem enqueue_schedulerReady (s : Sched) (p : ℕ) :
    (enqueue s p).schedulerReady = s.schedulerReady := by
  obtain ⟨c, hd, h⟩ := enqueue_eq s p
  rw [h]

@[simp] theorem enqueue_state (s : Sched) (p r : ℕ) :
    (enqueue s p).state r = if r = p then .ready else s.state r := by
  by_cases ht : s.readyQueueTail = 0
  · rw [enqueue_empty s p ht]
    exact (Sched.setState_state _ _ _ _).trans (by rw [Sched.setNext_state])
  · rw [enqueue_nonempty s p ht]
    exact (Sched.setNext_state _ _ _ _).trans
      ((Sched.setState_state _ _ _ _).trans (by rw [Sched.setNext_state]))

theorem Queue.enqueue (hq : Queue s q) (hp : p ∉ q) (h0 : p ≠ 0) :
    Queue (enqueue s p) (q ++ [p]) := by
  have hnodup : (q ++ [p]).Nodup :=
    List.nodup_append.mpr ⟨hq.nodup, List.nodup_singleton p, fun a ha b hb hab =>
      hp (List.mem_singleton.mp hb ▸ hab ▸ ha)⟩
  rcases List.eq_nil_or_concat q with rfl | ⟨l, t, rfl⟩
  · have ht : s.readyQueueTail = 0 := hq.tail
    rw [enqueue_empty s p ht]
    refine ⟨⟨rfl, h0, ?_⟩, rfl, hnodup⟩
    exact (Sched.setState_next _ _ _ _).trans (by rw [Sched.setNext_next, if_pos rfl])
  · rw [List.concat_eq_append] at hq hp hnodup ⊢
    have ht : s.readyQueueTail = t := by
      rw [hq.tail]
      simp
    have ht0 : t ≠ 0 := hq.linked.ne_null (by simp)
    have htp : p ≠ t := by
      rintro rfl
      exact hp (by simp)
    rw [enqueue_nonempty s p (by rw [ht]; exact ht0), ht]
    have hnext (r : ℕ) : ((s.setNext p 0).setState p .ready |>.setNext t p).next r =
        if r = t then p else if r = p then 0 else s.next r := by
      simp only [Sched.setNext_next, Sched.setState_next]
    refine ⟨?_, by simp, hnodup⟩
    rw [List.append_assoc]
    refine hq.linked.graft (s := []) ?_ ?_
    · intro z hz
      have hzt : z ≠ t := by
        rintro rfl
        exact (List.nodup_append.mp hq.nodup).2.2 z hz z (by simp) rfl
      have hzp : z ≠ p := by
        rintro rfl
        exact hp (by simp [hz])
      exact (hnext z).trans (by rw [if_neg hzt, if_neg hzp])
    · refine ⟨(hnext t).trans (if_pos rfl), h0, ?_⟩
      exact (hnext p).trans (by rw [if_neg htp, if_pos rfl])

theorem dequeue_empty (hq : Queue s []) : dequeue s = (s, 0) :=
  if_pos hq.linked

theorem Queue.dequeue (hq : Queue s (p :: q)) :
    dequeue s = ({ s with readyQueueHead := s.next p
                          readyQueueTail := q.getLastD 0 }, p) ∧
      Queue (SukiOS.dequeue s).1 q := by
  obtain ⟨hh, h0, ht⟩ := hq.linked
  have htail : (if s.next p = 0 then 0 else s.readyQueueTail) = q.getLastD 0 := by
    rw [hq.tail]
    cases q with
    | nil => exact if_pos ht
    | cons x xs => exact (if_neg (ht.1 ▸ ht.2.1)).trans (by simp)
  have heq : SukiOS.dequeue s = ({ s with readyQueueHead := s.next p
                                          readyQueueTail := q.getLastD 0 }, p) := by
    rw [SukiOS.dequeue, if_neg (hh ▸ h0), hh]
    simp only [htail]
  rw [heq]
  exact ⟨rfl, ht, rfl, (List.nodup_cons.mp hq.nodup).2⟩

end Queue

/-! ### One call of `schedule` -/

/-- The process `schedule` picks. -/
def pick (s : Sched) : ℕ := if s.readyQueueHead = 0 then s.idleProc else s.readyQueueHead

/-- A call of `schedule` would return: the scheduler is off, or the process it picks runs. -/
def NoSwitch (s : Sched) : Prop := s.schedulerReady = false ∨ s.currentProc = pick s

instance (s : Sched) : Decidable (NoSwitch s) := inferInstanceAs (Decidable (_ ∨ _))

theorem dequeue_pick (s : Sched) : (if (dequeue s).2 = 0 then s.idleProc else (dequeue s).2) =
    pick s := by
  unfold dequeue pick
  by_cases h : s.readyQueueHead = 0
  · simp only [h, if_true]
  · simp only [h, if_false]

/-- The state in which `schedule` has put the running process back. -/
def requeued (s : Sched) : Sched :=
  if (dequeue s).1.state s.currentProc = .running then
    (enqueue (dequeue s).1 s.currentProc).setState s.currentProc .ready
  else (dequeue s).1

theorem schedule_eq (s : Sched) : schedule s =
    if s.schedulerReady = false then (s, none)
    else if s.currentProc = pick s then ((dequeue s).1, none)
    else ({ requeued s with currentProc := pick s }.setState (pick s) .running, some (pick s)) := by
  unfold requeued
  simp only [schedule, dequeue_pick]

theorem schedule_snd (s : Sched) :
    (schedule s).2 = if NoSwitch s then none else some (pick s) := by
  rw [schedule_eq]
  by_cases hr : s.schedulerReady = false
  · have hno : NoSwitch s := Or.inl hr
    rw [if_pos hr, if_pos hno]
  · rw [if_neg hr]
    by_cases hn : s.currentProc = pick s
    · have hno : NoSwitch s := Or.inr hn
      rw [if_pos hn, if_pos hno]
    · have hno : ¬ NoSwitch s := not_or.mpr ⟨hr, hn⟩
      rw [if_neg hn, if_neg hno]

theorem schedule_returns_iff (s : Sched) : (schedule s).2 = none ↔ NoSwitch s := by
  rw [schedule_snd]
  split
  · exact iff_of_true rfl ‹_›
  · exact iff_of_false (Option.some_ne_none _) ‹_›

section Schedule
variable {s : Sched} {q : List ℕ} {n : ℕ}

/-- The processes `schedule` leaves: `prev` waits again if it was running, and `next` runs. -/
def ranState (s : Sched) (n r : ℕ) : ProcState :=
  if r = n then .running
  else if r = s.currentProc ∧ s.state s.currentProc = .running then .ready
  else s.state r

theorem schedule_idle (hq : Queue s []) (hc : s.currentProc = s.idleProc) :
    schedule s = (s, none) := by
  unfold schedule
  rw [dequeue_empty hq]
  simp [hc]

theorem schedule_switch (hq : Queue s (n :: q)) (hr : s.schedulerReady = true)
    (hc : s.currentProc ∉ n :: q) (h0 : s.currentProc ≠ 0) :
    ∃ s', schedule s = (s', some n) ∧
      Queue s' (q ++ if s.state s.currentProc = .running then [s.currentProc] else []) ∧
      s'.currentProc = n ∧ s'.idleProc = s.idleProc ∧ s'.schedulerReady = true ∧
      ∀ r, s'.state r = ranState s n r := by
  obtain ⟨heq, hq'⟩ := hq.dequeue
  have hn0 : n ≠ 0 := hq.linked.2.1
  have hcn : s.currentProc ≠ n := fun h => hc (h ▸ List.mem_cons_self)
  let s1 := (dequeue s).1
  have hs1 : dequeue s = (s1, n) := by
    simp only [s1]
    rw [heq]
  have hcur : s1.currentProc = s.currentProc := by simp only [s1, heq]
  have hidle : s1.idleProc = s.idleProc := by simp only [s1, heq]
  have hready : s1.schedulerReady = true := by simp only [s1, heq, hr]
  have hstate (r : ℕ) : s1.state r = s.state r := by simp only [s1, heq, Sched.state]
  let s2 := if s1.state s.currentProc = .running then
    (enqueue s1 s.currentProc).setState s.currentProc .ready else s1
  have hres : schedule s = ({ s2 with currentProc := n }.setState n .running, some n) := by
    unfold schedule
    rw [if_neg (by simp [hr]), hs1]
    simp only [if_neg hn0, if_neg hcn]
    rfl
  -- the process that ran goes to the end of the queue, unless it no longer runs
  have hs2 : Queue s2 (q ++ if s.state s.currentProc = .running then [s.currentProc] else []) ∧
      s2.idleProc = s.idleProc ∧ s2.schedulerReady = true ∧
      ∀ r, s2.state r =
        if r = s.currentProc ∧ s.state s.currentProc = .running then .ready else s.state r := by
    by_cases hrun : s.state s.currentProc = .running
    · have hs2 : s2 = (enqueue s1 s.currentProc).setState s.currentProc .ready :=
        if_pos ((hstate _).trans hrun)
      rw [hs2, if_pos hrun]
      refine ⟨?_, ?_, ?_, ?_⟩
      · exact (hq'.enqueue (fun h => hc (List.mem_cons_of_mem _ h)) h0).congr rfl rfl
          (fun r _ => Sched.setState_next _ _ _ _)
      · rw [Sched.setState_idleProc, enqueue_idleProc, hidle]
      · rw [Sched.setState_schedulerReady, enqueue_schedulerReady, hready]
      · intro r
        rw [Sched.setState_state, enqueue_state, hstate]
        by_cases hrc : r = s.currentProc
        · rw [if_pos hrc, if_pos ⟨hrc, hrun⟩]
        · rw [if_neg hrc, if_neg hrc, if_neg (fun h => hrc h.1)]
    · have hs2 : s2 = s1 := if_neg (fun h => hrun ((hstate _).symm.trans h))
      rw [hs2, if_neg hrun, List.append_nil]
      refine ⟨hq', hidle, hready, fun r => ?_⟩
      rw [hstate, if_neg (fun h => hrun h.2)]
  obtain ⟨hq2, hi2, hr2, hst2⟩ := hs2
  refine ⟨_, hres, ?_, rfl, hi2, hr2, ?_⟩
  · exact hq2.congr rfl rfl (fun r _ => Sched.setState_next _ _ _ _)
  · intro r
    refine (Sched.setState_state _ _ _ _).trans ?_
    unfold ranState
    by_cases hrn : r = n
    · rw [if_pos hrn, if_pos hrn]
    · rw [if_neg hrn, if_neg hrn]
      exact hst2 r

end Schedule

/-! ### Creation -/

section Create
variable {s : Sched} {q : List ℕ} {p : ℕ}

/-- Filling in a PCB keeps its queue link and its state. -/
theorem prepareUserStack_links (s : Sched) (p kstack entry top : ℕ) :
    let s' := prepareUserStack s p kstack entry top
    s'.readyQueueHead = s.readyQueueHead ∧ s'.readyQueueTail = s.readyQueueTail ∧
      s'.currentProc = s.currentProc ∧ s'.idleProc = s.idleProc ∧
      s'.schedulerReady = s.schedulerReady ∧ ∀ r, s'.next r = s.next r ∧
        s'.state r = s.state r := by
  unfold prepareUserStack
  split
  · exact ⟨rfl, rfl, rfl, rfl, rfl, fun r => ⟨rfl, rfl⟩⟩
  · exact ⟨rfl, rfl, rfl, rfl, rfl, fun r =>
      ⟨Sched.update_field _ p r _ Pcb.next (fun _ => rfl),
        Sched.update_field _ p r _ Pcb.state (fun _ => rfl)⟩⟩

theorem procCreateFromElf_spec (hq : Queue s q) (hp : p ∉ q) (h0 : p ≠ 0) (entry kstack : ℕ) :
    ∃ s', procCreateFromElf s (some entry) p kstack = (s', p) ∧ Queue s' (q ++ [p]) ∧
      s'.currentProc = s.currentProc ∧ s'.idleProc = s.idleProc ∧
      s'.schedulerReady = s.schedulerReady ∧
      ∀ r, s'.state r = if r = p then .ready else s.state r := by
  let s1 : Sched := { s with nextPid := s.nextPid + 1 }.update p (fun c =>
    { c with fds := fun i => if i < maxFd then 0 else c.fds i, pid := s.nextPid, state := .ready
             next := 0, userStack := userStackTop, entryPoint := entry, cr3 := 0 })
  have hres : procCreateFromElf s (some entry) p kstack =
      (enqueue (prepareUserStack s1 p kstack entry userStackTop) p, p) := if_neg h0
  obtain ⟨hh, ht, hc, hi, hr, hl⟩ := prepareUserStack_links s1 p kstack entry userStackTop
  have hlinks (r : ℕ) (hrp : r ≠ p) : s1.next r = s.next r ∧ s1.state r = s.state r := by
    simp only [s1, Sched.next, Sched.state, Sched.update_pcb, if_neg hrp, and_self]
  rw [hres]
  refine ⟨_, rfl, ?_, ?_, ?_, ?_, ?_⟩
  · refine Queue.enqueue (hq.congr hh ht (fun r hrq => ?_)) hp h0
    exact (hl r).1.trans (hlinks r (fun h => hp (h ▸ hrq))).1
  · rw [enqueue_currentProc, hc]
    rfl
  · rw [enqueue_idleProc, hi]
    rfl
  · rw [enqueue_schedulerReady, hr]
    rfl
  · intro r
    rw [enqueue_state, (hl r).2]
    split
    · rfl
    · exact (hlinks r ‹_›).2

end Create

/-! ### Runs of the scheduler -/

/-- The scheduler with the processes created since `scheduler_init`, and those that exited. -/
structure SchedRun where
  sched : Sched
  created : List ℕ
  exited : List ℕ

inductive SchedOp
  | create (p kstack entry : ℕ)
  | tick
  | exit

/-- The operation calls `schedule`. -/
def SchedOp.schedules : SchedOp → Bool
  | .create _ _ _ => false
  | .tick => true
  | .exit => true

def SchedRun.procs (r : SchedRun) : List ℕ := r.sched.idleProc :: r.created

inductive SchedRun.Step (r : SchedRun) : SchedOp → SchedRun → Prop
  /-- The block for the new PCB is none of those in use. -/
  | create {p kstack entry : ℕ} (h0 : p ≠ 0) (hf : p ∉ r.procs) :
      Step r (.create p kstack entry)
        { r with sched := (procCreateFromElf r.sched (some entry) p kstack).1
                 created := p :: r.created }
  | tick : Step r .tick { r with sched := (schedule r.sched).1 }
  | exit (hi : r.sched.currentProc ≠ r.sched.idleProc) :
      Step r .exit { r with sched := (sysExit r.sched).1
                            exited := r.sched.currentProc :: r.exited }

/-- `scheduler_init` on the static variables of `proc.c`. -/
def schedSystem : System SchedRun SchedOp where
  init r := ∃ s kstack idleEntry, s.readyQueueHead = 0 ∧ s.readyQueueTail = 0 ∧ s.idleProc ≠ 0 ∧
    r = ⟨schedulerInit s kstack idleEntry, [], []⟩
  step r op r' := SchedRun.Step r op r'

/-- The ready queue holds exactly the ready processes, the idle process among them when it does
not run; the current process is the running one. -/
structure SchedInv (r : SchedRun) (q : List ℕ) : Prop where
  queue : Queue r.sched q
  ready : r.sched.schedulerReady = true
  ne_null : ∀ p ∈ r.procs, p ≠ 0
  known : ∀ p ∈ q, p ∈ r.procs
  current_known : r.sched.currentProc ∈ r.procs
  current_not_mem : r.sched.currentProc ∉ q
  idle : r.sched.idleProc = r.sched.currentProc ∨ r.sched.idleProc ∈ q
  ready_iff : ∀ p ∈ r.procs, p ∈ q ↔ r.sched.state p = .ready
  running_iff : ∀ p ∈ r.procs, p = r.sched.currentProc ↔ r.sched.state p = .running
  exited : ∀ p ∈ r.exited, p ∈ r.created ∧ r.sched.state p = .zombie ∧ p ∉ q ∧
    p ≠ r.sched.currentProc

/-! ### The invariant along a run -/

section Steps
variable {r r' : SchedRun} {q : List ℕ}

theorem SchedInv.init {s : Sched} (kstack idleEntry : ℕ) (hh : s.readyQueueHead = 0)
    (ht : s.readyQueueTail = 0) (h0 : s.idleProc ≠ 0) :
    SchedInv ⟨schedulerInit s kstack idleEntry, [], []⟩ [] := by
  have hrun : (schedulerInit s kstack idleEntry).state s.idleProc = .running := by
    simp only [schedulerInit, Sched.state, Sched.update_pcb, if_true]
  refine { queue := ⟨hh, ht, List.nodup_nil⟩, ready := rfl, ne_null := ?_, known := by simp
           current_known := List.mem_cons_self, current_not_mem := by simp, idle := Or.inl rfl
           ready_iff := ?_, running_iff := ?_, exited := by simp }
  · intro p hp
    rwa [List.mem_singleton.mp hp]
  · intro p hp
    rw [List.mem_singleton.mp hp]
    simp only [List.not_mem_nil, false_iff]
    intro (h : (schedulerInit s kstack idleEntry).state s.idleProc = .ready)
    rw [hrun] at h
    cases h
  · intro p hp
    rw [List.mem_singleton.mp hp]
    exact iff_of_true rfl hrun

theorem SchedInv.current_running (hi : SchedInv r q) :
    r.sched.state r.sched.currentProc = .running :=
  (hi.running_iff _ hi.current_known).mp rfl

/-- Adding a created process. -/
theorem SchedInv.create (hi : SchedInv r q) {p : ℕ} (h0 : p ≠ 0) (hf : p ∉ r.procs)
    (entry kstack : ℕ) :
    SchedInv { r with sched := (procCreateFromElf r.sched (some entry) p kstack).1
                      created := p :: r.created } (q ++ [p]) ∧
      (procCreateFromElf r.sched (some entry) p kstack).1.currentProc = r.sched.currentProc := by
  have hpq : p ∉ q := fun h => hf (hi.known p h)
  obtain ⟨s', hres, hq, hc, hid, hr, hst⟩ := procCreateFromElf_spec hi.queue hpq h0 entry kstack
  rw [hres]
  have hpc : p ≠ r.sched.currentProc := fun h => hf (h ▸ hi.current_known)
  have hprocs (x : ℕ) : x ∈ SchedRun.procs ⟨s', p :: r.created, r.exited⟩ ↔ x = p ∨
    x ∈ r.procs := by
    simp only [SchedRun.procs, hid, List.mem_cons]
    tauto
  -- the new process is none of the others, and only its own state changes
  have hother (x : ℕ) (hx : x ∈ r.procs) : x ≠ p ∧ s'.state x = r.sched.state x := by
    have hxp : x ≠ p := fun h => hf (h ▸ hx)
    exact ⟨hxp, by rw [hst, if_neg hxp]⟩
  refine ⟨{ queue := hq, ready := hr.trans hi.ready, ne_null := ?_, known := ?_
            current_known := ?_, current_not_mem := ?_, idle := ?_, ready_iff := ?_
            running_iff := ?_, exited := ?_ }, hc⟩
  · intro x hx
    rcases (hprocs x).mp hx with rfl | hx
    · exact h0
    · exact hi.ne_null x hx
  · intro x hx
    rcases List.mem_append.mp hx with hx | hx
    · exact (hprocs x).mpr (Or.inr (hi.known x hx))
    · exact (hprocs x).mpr (Or.inl (List.mem_singleton.mp hx))
  · exact (hprocs _).mpr (Or.inr (hc ▸ hi.current_known))
  · rw [hc, List.mem_append, List.mem_singleton]
    rintro (h | h)
    · exact hi.current_not_mem h
    · exact hpc h.symm
  · rw [hc, hid, List.mem_append]
    rcases hi.idle with h | h
    · exact Or.inl h
    · exact Or.inr (Or.inl h)
  · intro x hx
    rw [List.mem_append, List.mem_singleton]
    rcases (hprocs x).mp hx with rfl | hx
    · exact iff_of_true (Or.inr rfl) (by rw [hst, if_pos rfl])
    · obtain ⟨hxp, hxs⟩ := hother x hx
      simp only [hxp, or_false]
      rw [hxs]
      exact hi.ready_iff x hx
  · intro x hx
    rw [hc]
    rcases (hprocs x).mp hx with rfl | hx
    · refine iff_of_false hpc ?_
      rw [hst, if_pos rfl]
      decide
    · rw [(hother x hx).2]
      exact hi.running_iff x hx
  · intro x hx
    obtain ⟨hxc, hxs, hxq, hxcur⟩ := hi.exited x hx
    obtain ⟨hxp, hxs'⟩ := hother x (List.mem_cons_of_mem _ hxc)
    refine ⟨List.mem_cons_of_mem _ hxc, hxs'.trans hxs, ?_, hc ▸ hxcur⟩
    rw [List.mem_append, List.mem_singleton]
    rintro (h | h)
    · exact hxq h
    · exact hxp h

section Switch
variable {s' : Sched} {n : ℕ} {q' : List ℕ} {st : ProcState}

/-- After a switch the waiting processes are the ready ones. -/
theorem SchedInv.switch_ready (hi : SchedInv r (n :: q))
    (hmem : ∀ x, x ∈ q' ↔ (x = r.sched.currentProc ∧ st = .ready) ∨ x ∈ q)
    (hstate : ∀ x, s'.state x =
      if x = n then .running else if x = r.sched.currentProc then st else r.sched.state x)
    (hnq' : n ∉ q') {x : ℕ} (hx : x ∈ r.procs) : x ∈ q' ↔ s'.state x = .ready := by
  have hcq : r.sched.currentProc ∉ q := fun h => hi.current_not_mem (List.mem_cons_of_mem _ h)
  have hready := hi.ready_iff x hx
  rw [hstate]
  by_cases hxn : x = n
  · rw [if_pos hxn, hxn]
    exact iff_of_false hnq' (by decide)
  · rw [if_neg hxn, hmem]
    by_cases hxc : x = r.sched.currentProc
    · rw [if_pos hxc, hxc]
      simp only [true_and, hcq, or_false]
    · rw [if_neg hxc, ← hready, List.mem_cons]
      simp only [hxc, hxn, false_and, false_or]

/-- A process that has exited stays where it is. -/
theorem SchedInv.switch_exited (hi : SchedInv r (n :: q))
    (hmem : ∀ x, x ∈ q' ↔ (x = r.sched.currentProc ∧ st = .ready) ∨ x ∈ q)
    (hstate : ∀ x, s'.state x =
      if x = n then .running else if x = r.sched.currentProc then st else r.sched.state x)
    {x : ℕ} (hx : x ∈ r.exited) : x ∈ r.created ∧ s'.state x = .zombie ∧ x ∉ q' ∧ x ≠ n := by
  obtain ⟨hxc, hxs, hxq, hxcur⟩ := hi.exited x hx
  have hxn : x ≠ n := fun h => hxq (h ▸ List.mem_cons_self)
  refine ⟨hxc, ?_, ?_, hxn⟩
  · rw [hstate, if_neg hxn, if_neg hxcur]
    exact hxs
  · rw [hmem]
    rintro (⟨h, -⟩ | h)
    · exact hxcur h
    · exact hxq (List.mem_cons_of_mem _ h)

end Switch

/-- The switch to the head `n` of the queue. The process that stops is left in the state `st`:
it waits at the tail, or it has exited. -/
theorem SchedInv.switch {s' : Sched} {n : ℕ} {q' exited : List ℕ} (st : ProcState)
    (hi : SchedInv r (n :: q))
    (hst : st = .ready ∧ exited = r.exited ∨
      st = .zombie ∧ r.sched.currentProc ≠ r.sched.idleProc ∧
        exited = r.sched.currentProc :: r.exited)
    (hq : Queue s' q') (hmem : ∀ x, x ∈ q' ↔ (x = r.sched.currentProc ∧ st = .ready) ∨ x ∈ q)
    (hn : s'.currentProc = n) (hid : s'.idleProc = r.sched.idleProc)
    (hr : s'.schedulerReady = true)
    (hstate : ∀ x, s'.state x =
      if x = n then .running else if x = r.sched.currentProc then st else r.sched.state x) :
    SchedInv { r with sched := s', exited := exited } q' := by
  have hcur := hi.current_not_mem
  have hcn : r.sched.currentProc ≠ n := fun h => hcur (h ▸ List.mem_cons_self)
  have hcq : r.sched.currentProc ∉ q := fun h => hcur (List.mem_cons_of_mem _ h)
  have hnq : n ∉ q := (List.nodup_cons.mp hi.queue.nodup).1
  have hprocs (x : ℕ) : x ∈ SchedRun.procs { r with sched := s', exited := exited } ↔
    x ∈ r.procs := by
    simp only [SchedRun.procs, hid]
  have hrun : st ≠ .running := by
    rcases hst with ⟨rfl, -⟩ | ⟨rfl, -⟩ <;> decide
  -- the process that runs next is in no queue
  have hnq' : n ∉ q' := by
    rw [hmem]
    rintro (⟨h, -⟩ | h)
    · exact hcn h.symm
    · exact hnq h
  refine { queue := hq, ready := hr, ne_null := ?_, known := ?_, current_known := ?_
           current_not_mem := hn ▸ hnq', idle := ?_, ready_iff := ?_, running_iff := ?_
           exited := ?_ }
  · exact fun x hx => hi.ne_null x ((hprocs x).mp hx)
  · intro x hx
    rcases (hmem x).mp hx with ⟨rfl, -⟩ | hx
    · exact (hprocs _).mpr hi.current_known
    · exact (hprocs x).mpr (hi.known x (List.mem_cons_of_mem _ hx))
  · exact (hprocs _).mpr (hn ▸ hi.known n List.mem_cons_self)
  · rw [hn, hid, hmem]
    rcases hi.idle with h | h
    · rcases hst with ⟨hst, -⟩ | ⟨-, hne, -⟩
      · exact Or.inr (Or.inl ⟨h, hst⟩)
      · exact absurd h.symm hne
    · rcases List.mem_cons.mp h with h | h
      · exact Or.inl h
      · exact Or.inr (Or.inr h)
  · exact fun x hx => hi.switch_ready hmem hstate hnq' ((hprocs x).mp hx)
  · intro x hx
    have hrunning := hi.running_iff x ((hprocs x).mp hx)
    rw [hn, hstate]
    by_cases hxn : x = n
    · rw [if_pos hxn]
      exact iff_of_true hxn rfl
    · rw [if_neg hxn]
      refine iff_of_false hxn ?_
      by_cases hxc : x = r.sched.currentProc
      · rw [if_pos hxc]
        exact hrun
      · rw [if_neg hxc]
        exact fun h => hxc (hrunning.mpr h)
  · intro x hx
    rw [hn]
    rcases hst with ⟨-, rfl⟩ | ⟨hz, hne, rfl⟩
    · exact hi.switch_exited hmem hstate hx
    · -- the process that stops has just exited
      rcases List.mem_cons.mp hx with rfl | hx
      · refine ⟨(List.mem_cons.mp hi.current_known).resolve_left hne, ?_, ?_, hcn⟩
        · rw [hstate, if_neg hcn, if_pos rfl, hz]
        · rw [hmem, hz]
          rintro (⟨-, h⟩ | h)
          · cases h
          · exact hcq h
      · exact hi.switch_exited hmem hstate hx

/-- A tick with a process waiting: the head runs and the current process waits at the tail. -/
theorem SchedInv.tick {n : ℕ} (hi : SchedInv r (n :: q)) :
    ∃ s', schedule r.sched = (s', some n) ∧ s'.currentProc = n ∧
      SchedInv { r with sched := s' } (q ++ [r.sched.currentProc]) := by
  have hrun := hi.current_running
  obtain ⟨s', hs, hq, hn, hid, hr, hst⟩ := schedule_switch hi.queue hi.ready hi.current_not_mem
    (hi.ne_null _ hi.current_known)
  rw [if_pos hrun] at hq
  refine ⟨s', hs, hn, SchedInv.switch .ready hi (Or.inl ⟨rfl, rfl⟩) hq ?_ hn hid hr ?_⟩
  · intro x
    rw [List.mem_append, List.mem_singleton, or_comm]
    simp only [and_true]
  · intro x
    rw [hst, ranState]
    simp only [hrun, and_true]

/-- A tick of the idle process with no process waiting. -/
theorem SchedInv.tick_idle (hi : SchedInv r []) : schedule r.sched = (r.sched, none) :=
  schedule_idle hi.queue (hi.idle.resolve_right List.not_mem_nil).symm

/-- An exit of a process other than the idle one: the head runs and the process is gone. -/
theorem SchedInv.exit (hi : SchedInv r q) (hne : r.sched.currentProc ≠ r.sched.idleProc) :
    ∃ n q' s', q = n :: q' ∧ sysExit r.sched = (s', some n) ∧ s'.currentProc = n ∧
      SchedInv { r with sched := s', exited := r.sched.currentProc :: r.exited } q' := by
  obtain ⟨n, q, rfl⟩ := List.exists_cons_of_ne_nil
    (List.ne_nil_of_mem (hi.idle.resolve_left hne.symm))
  have h0 := hi.ne_null _ hi.current_known
  let s1 := r.sched.setState r.sched.currentProc .zombie
  have hs1 (x : ℕ) : s1.state x = if x = r.sched.currentProc then .zombie else r.sched.state x :=
    Sched.setState_state _ _ _ _
  have hq1 : Queue s1 (n :: q) := hi.queue.congr rfl rfl (fun x _ => Sched.setState_next _ _ _ _)
  obtain ⟨s', hs, hq, hn, hid, hr, hst⟩ := schedule_switch hq1 hi.ready hi.current_not_mem h0
  have hz : s1.state s1.currentProc = .zombie := (hs1 _).trans (if_pos rfl)
  have hnot : ¬ s1.state s1.currentProc = .running := by
    rw [hz]
    decide
  rw [if_neg hnot, List.append_nil] at hq
  have hres : sysExit r.sched = (s', some n) := by
    rw [sysExit, if_pos h0]
    exact hs
  refine ⟨n, q, s', rfl, hres, hn, SchedInv.switch .zombie hi (Or.inr ⟨rfl, hne, rfl⟩) hq ?_ hn hid
    hr ?_⟩
  · simp
  · intro x
    have hwait : ¬ (x = s1.currentProc ∧ s1.state s1.currentProc = .running) := fun h => hnot h.2
    rw [hst, ranState, if_neg hwait, hs1]

/-- What one step does to the queue and the current process. -/
inductive QueueStep (r r' : SchedRun) : SchedOp → List ℕ → List ℕ → Prop
  | create {p kstack entry : ℕ} {q : List ℕ} (hc : r'.sched.currentProc = r.sched.currentProc) :
      QueueStep r r' (.create p kstack entry) q (q ++ [p])
  | idle : QueueStep r r' .tick [] []
  | run {op : SchedOp} {n : ℕ} {q l : List ℕ} (ho : op.schedules = true)
      (hn : r'.sched.currentProc = n) : QueueStep r r' op (n :: q) (q ++ l)

theorem sched_step (hi : SchedInv r q) {op : SchedOp} (hs : SchedRun.Step r op r') :
    ∃ q', SchedInv r' q' ∧ QueueStep r r' op q q' := by
  cases hs with
  | @create p kstack entry h0 hf =>
    obtain ⟨hi', hc⟩ := hi.create h0 hf entry kstack
    exact ⟨_, hi', .create hc⟩
  | tick =>
    cases q with
    | nil =>
      rw [hi.tick_idle]
      exact ⟨[], hi, .idle⟩
    | cons n q =>
      obtain ⟨s', hs, hn, hi'⟩ := hi.tick
      rw [hs]
      exact ⟨_, hi', .run rfl hn⟩
  | exit hne =>
    obtain ⟨n, q', s', rfl, hs, hn, hi'⟩ := hi.exit hne
    rw [hs]
    exact ⟨q' ++ [], by simpa using hi', .run rfl hn⟩

end Steps

theorem sched_reachable {r : SchedRun} (hr : schedSystem.Reachable r) : ∃ q, SchedInv r q := by
  apply hr.invariant (I := fun r => ∃ q, SchedInv r q)
  · rintro r ⟨s, kstack, idleEntry, hh, ht, h0, rfl⟩
    exact ⟨[], SchedInv.init kstack idleEntry hh ht h0⟩
  · rintro r op r' ⟨q, hi⟩ hs
    obtain ⟨q', hi', -⟩ := sched_step hi hs
    exact ⟨q', hi'⟩

/-! ### Round robin -/

def scheduleCalls (ops : List SchedOp) : ℕ := ops.countP SchedOp.schedules

theorem scheduleCalls_cons (op : SchedOp) (ops : List SchedOp) :
    scheduleCalls (op :: ops) = scheduleCalls ops + if op.schedules = true then 1 else 0 :=
  List.countP_cons

/-- Without a call of `schedule` the current process keeps running. -/
theorem current_of_no_calls {r r' : SchedRun} {ops : List SchedOp}
    (hrun : schedSystem.Run r ops r') : ∀ q, SchedInv r q → scheduleCalls ops = 0 →
      r'.sched.currentProc = r.sched.currentProc := by
  induction hrun with
  | nil r => exact fun _ _ _ => rfl
  | @cons r r1 r' op ops hs hrun ih =>
    intro q hi hz
    obtain ⟨q1, hi1, hstep⟩ := sched_step hi hs
    have hop : op.schedules = false ∧ scheduleCalls ops = 0 := by
      rw [scheduleCalls_cons] at hz
      cases hb : op.schedules with
      | false => exact ⟨rfl, by simpa [hb] using hz⟩
      | true => simp [hb] at hz
    have hrest := ih q1 hi1 hop.2
    cases hstep with
    | create hc => exact hrest.trans hc
    | idle => cases hop.1
    | run ho hn => simp [ho] at hop

/-- A process with `ls` ahead of it in the queue: the calls of `schedule` before its turn run
others, and the call after them runs it. -/
theorem turn_of_queue {r r' : SchedRun} {ops : List SchedOp} (hrun : schedSystem.Run r ops r') :
    ∀ ls p rs, SchedInv r (ls ++ p :: rs) →
      (scheduleCalls ops ≤ ls.length → r'.sched.currentProc ≠ p) ∧
      (scheduleCalls ops = ls.length + 1 → r'.sched.currentProc = p) := by
  induction hrun with
  | nil r =>
    intro ls p rs hi
    refine ⟨fun _ hc => hi.current_not_mem (by rw [hc]; simp), fun hc => ?_⟩
    simp [scheduleCalls] at hc
  | @cons r r1 r' op ops hs hrun ih =>
    intro ls p rs hi
    obtain ⟨q1, hi1, hstep⟩ := sched_step hi hs
    have hcount := scheduleCalls_cons op ops
    generalize hq : ls ++ p :: rs = q at hstep
    cases hstep with
    | @create x kstack entry q hc =>
      subst hq
      rw [List.append_assoc, List.cons_append] at hi1
      have hsame : scheduleCalls (.create x kstack entry :: ops) = scheduleCalls ops := hcount
      rw [hsame]
      exact ih ls p _ hi1
    | idle => simp at hq
    | @run op n q l ho hn =>
      rw [if_pos ho] at hcount
      cases ls with
      | nil =>
        obtain ⟨rfl, rfl⟩ := List.cons.inj hq
        refine ⟨fun h => by simp [hcount] at h, fun h => ?_⟩
        have hz : scheduleCalls ops = 0 := by
          rw [hcount, List.length_nil] at h
          omega
        rw [current_of_no_calls hrun _ hi1 hz, hn]
      | cons y ls =>
        obtain ⟨rfl, rfl⟩ := List.cons.inj hq
        change SchedInv r1 ((ls ++ p :: rs) ++ l) at hi1
        rw [List.append_assoc, List.cons_append] at hi1
        obtain ⟨hbefore, hturn⟩ := ih ls p _ hi1
        rw [hcount, List.length_cons]
        exact ⟨fun h => hbefore (by omega), fun h => hturn (by omega)⟩

/-- In every run the ready queue holds exactly the waiting processes, and a process with `k`
others ahead of it runs from the `k+1`-th following call of `schedule`. -/
theorem ready_queue_round_robin {r : SchedRun} (hr : schedSystem.Reachable r) :
    ∃ q, SchedInv r q ∧ ∀ ls p rs, q = ls ++ p :: rs → ∀ ops r', schedSystem.Run r ops r' →
      (scheduleCalls ops ≤ ls.length → r'.sched.currentProc ≠ p) ∧
      (scheduleCalls ops = ls.length + 1 → r'.sched.currentProc = p) := by
  obtain ⟨q, hi⟩ := sched_reachable hr
  refine ⟨q, hi, ?_⟩
  rintro ls p rs rfl ops r' hrun
  exact turn_of_queue hrun ls p rs hi

/-- The state of `proc.c` before `scheduler_init`, with `idle_proc` at the address `idle`. -/
def staticSched (idle : ℕ) : Sched :=
  let zero : Pcb := ⟨0, 0, 0, .ready, 0, 0, 0, fun _ => 0, 0⟩
  { mem := fun _ => 0#8, pcb := fun _ => zero, currentProc := 0, readyQueueHead := 0
    readyQueueTail := 0, nextPid := 1, schedulerReady := false, idleProc := idle }

/-- Two processes, a tick, and a third process: the first one runs, and the idle process waits. -/
def threeProcs : SchedRun :=
  let s := schedulerInit (staticSched 0x1000) 0x10000 0x2000
  let s1 := (procCreateFromElf s (some 0x400000) 0x5000 0x20000).1
  let s2 := (procCreateFromElf s1 (some 0x400000) 0x6000 0x30000).1
  ⟨(procCreateFromElf (schedule s2).1 (some 0x400000) 0x7000 0x40000).1,
    [0x7000, 0x6000, 0x5000], []⟩

theorem threeProcs_reachable : schedSystem.Reachable threeProcs := by
  have h0 : schedSystem.Reachable ⟨schedulerInit (staticSched 0x1000) 0x10000 0x2000, [], []⟩ :=
    .init ⟨staticSched 0x1000, _, _, rfl, rfl, by decide, rfl⟩
  have h1 : schedSystem.Reachable ⟨(procCreateFromElf
      (schedulerInit (staticSched 0x1000) 0x10000 0x2000) (some 0x400000) 0x5000 0x20000).1,
      [0x5000], []⟩ := .step h0 (.create (by decide) (by decide))
  have h2 : schedSystem.Reachable ⟨(procCreateFromElf (procCreateFromElf
      (schedulerInit (staticSched 0x1000) 0x10000 0x2000) (some 0x400000) 0x5000 0x20000).1
      (some 0x400000) 0x6000 0x30000).1, [0x6000, 0x5000], []⟩ :=
    .step h1 (.create (by decide) (by decide))
  exact .step (.step h2 .tick) (.create (by decide) (by decide))

/-- The third process waits behind the second and the idle one: a tick, an exit of the second, and
one more tick. -/
theorem ready_queue_round_robin_three : ∃ q r, SchedInv threeProcs q ∧
    q = [0x6000, 0x1000, 0x7000] ∧ schedSystem.Run threeProcs [.tick, .exit, .tick] r ∧
    r.sched.currentProc = 0x7000 := by
  obtain ⟨q, hi, hturn⟩ := ready_queue_round_robin threeProcs_reachable
  have hq : q = [0x6000, 0x1000, 0x7000] := by
    apply hi.queue.linked.unique
    exact ⟨rfl, by decide, rfl, by decide, rfl, by decide, rfl⟩
  have hrun : schedSystem.Run threeProcs [.tick, .exit, .tick] _ :=
    .cons .tick (.cons (.exit (by decide)) (.cons .tick (.nil _)))
  exact ⟨q, _, hi, hq, hrun, (hturn [0x6000, 0x1000] 0x7000 [] hq _ _ hrun).2 rfl⟩

end SukiOS

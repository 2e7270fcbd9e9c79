import SukiOS.SchedQueue

/-! The `execve` system call: `proc_create_from_elf` queues the new process, the handler makes
the same process current, and the stub returns on the stack of the replaced one. -/
namespace SukiOS
open LinkedList Transition

/-- The scheduler with the PCBs in use, and the contexts the CPU resumed when it left the
kernel: the current process and the stack pointer popped from, oldest first. -/
structure ExecRun where
  sched : Sched
  created : List ℕ
  resumes : List (ℕ × ℕ)

/-- `rsp` is the address of the frame that the interrupt or the system call pushed. -/
inductive ExecOp
  | create (p kstack entry : ℕ)
  | tick (rsp : ℕ)
  | exit (rsp : ℕ)
  | execve (rsp : ℕ) (elf : Option ℕ) (p kstack : ℕ)

namespace ExecRun

def procs (r : ExecRun) : List ℕ := r.sched.idleProc :: r.created

/-- Leave the kernel: through `switch_to_proc`, or through the stub on the frame at `rsp`. -/
def leave (r : ExecRun) (rsp : ℕ) (x : Sched × Option ℕ) : ExecRun :=
  match x.2 with
  | some next => { r with sched := x.1, resumes := r.resumes ++ [(next, (x.1.pcb next).rsp)] }
  | none => { r with sched := x.1, resumes := r.resumes ++ [(x.1.currentProc, rsp)] }

inductive Step (r : ExecRun) : ExecOp → ExecRun → Prop
  | create {p kstack entry : ℕ} (h0 : p ≠ 0) (hf : p ∉ r.procs) :
      Step r (.create p kstack entry)
        { r with sched := (procCreateFromElf r.sched (some entry) p kstack).1
                 created := p :: r.created }
  | tick {rsp : ℕ} : Step r (.tick rsp) (r.leave rsp (schedule (saveRsp r.sched rsp)))
  | exit {rsp : ℕ} : Step r (.exit rsp) (r.leave rsp (sysExit (saveRsp r.sched rsp)))
  | execve {rsp p kstack : ℕ} {elf : Option ℕ} (hf : p ∉ r.procs) :
      Step r (.execve rsp elf p kstack)
        ({ r with created := p :: r.created }.leave rsp
          ((sysExecve (saveRsp r.sched rsp) elf p kstack).1, none))

end ExecRun

def execSystem : System ExecRun ExecOp where
  init r := ∃ s kstack idleEntry, s.readyQueueHead = 0 ∧ s.readyQueueTail = 0 ∧ s.idleProc ≠ 0 ∧
    r = ⟨schedulerInit s kstack idleEntry, [], []⟩
  step r op r' := ExecRun.Step r op r'

/-- A sound state of the scheduler: the queue is a list without the current process, and no zombie
waits or runs. -/
structure SchedSound (s : Sched) (q : List ℕ) : Prop where
  queue : Queue s q
  current : s.currentProc ∉ q
  zombies : ∀ p, s.state p = .zombie → p ∉ q ∧ p ≠ s.currentProc

/-- After an `execve` that made the process `p` with its prepared frame at `frame`: however the
run goes on, the scheduler stays sound and `p` first runs from that frame. -/
def ExecveSound (r : ExecRun) (p frame : ℕ) : Prop :=
  ∀ ops r', execSystem.Run r ops r' → (∀ op ∈ ops, ∀ x k e, op ≠ .create x k e) →
    (∃ q, SchedSound r'.sched q) ∧
      ∀ c, r'.resumes.find? (fun c => c.1 = p) = some c → c.2 = frame

/-! ### The tail of the queue

What survives any number of `execve` calls: the tail is on the chain from the head, also when
the chain has become cyclic. -/

def TailOk (s : Sched) : Prop :=
  (s.readyQueueHead = 0 ∧ s.readyQueueTail = 0) ∨
    (s.readyQueueHead ≠ 0 ∧ s.readyQueueTail ≠ 0 ∧
      Chained s.next 0 s.readyQueueHead s.readyQueueTail ∧
      (s.next s.readyQueueTail = 0 ∨ s.next s.readyQueueTail = s.readyQueueTail))

section Tail
variable {s s' : Sched} {p : ℕ}

theorem TailOk.congr (h : TailOk s) (hh : s'.readyQueueHead = s.readyQueueHead)
    (ht : s'.readyQueueTail = s.readyQueueTail) (hn : ∀ r, s'.next r = s.next r) : TailOk s' := by
  unfold TailOk
  rw [hh, ht, hn]
  rcases h with h | ⟨h1, h2, h3, h4⟩
  · exact Or.inl h
  · exact Or.inr ⟨h1, h2, h3.congr hn, h4⟩

/-- Enqueuing `p`, also when it waits already: the chain is cut behind `p`, which becomes the
tail. The links of `s'` may differ from those of `s` at `p`. -/
theorem TailOk.enqueue (h : TailOk s) (hh : s'.readyQueueHead = s.readyQueueHead)
    (ht : s'.readyQueueTail = s.readyQueueTail) (hn : ∀ r, r ≠ p → s'.next r = s.next r)
    (h0 : p ≠ 0) :
    TailOk (enqueue s' p) ∧
      Chained (SukiOS.enqueue s' p).next 0 (SukiOS.enqueue s' p).readyQueueHead p := by
  rcases h with ⟨hh0, ht0⟩ | ⟨hh0, ht0, hc, -⟩
  · rw [enqueue_empty s' p (ht.trans ht0)]
    refine ⟨Or.inr ⟨h0, h0, .here p, Or.inl ?_⟩, .here p⟩
    exact (Sched.setState_next _ _ _ _).trans (by rw [Sched.setNext_next, if_pos rfl])
  · rw [enqueue_nonempty s' p (by rw [ht]; exact ht0), ht]
    let t := s.readyQueueTail
    let e : Sched := { ((s'.setNext p 0).setState p .ready).setNext t p with readyQueueTail := p }
    have hnext (r : ℕ) : e.next r = if r = t then p else if r = p then 0 else s.next r := by
      change (((s'.setNext p 0).setState p .ready).setNext t p).next r = _
      rw [Sched.setNext_next, Sched.setState_next, Sched.setNext_next]
      by_cases hrp : r = p
      · simp only [hrp, if_true]
      · simp only [hrp, if_false, hn r hrp]
    -- a path to the old tail goes on to the new one, or met it earlier
    have hpath : ∀ a, Chained s.next 0 a t → Chained e.next 0 a p := by
      intro a ha
      generalize hb : t = b at ha
      induction ha with
      | here b =>
        subst hb
        exact .next ht0 (by rw [hnext, if_pos rfl]; exact .here p)
      | @next a b ha _ ih =>
        by_cases hap : a = p
        · rw [hap]
          exact .here p
        · refine .next ha ?_
          rw [hnext, if_neg hap]
          split
          · exact .here p
          · exact ih hb
    have hhead : e.readyQueueHead = s.readyQueueHead := hh
    refine ⟨Or.inr ⟨?_, h0, ?_, ?_⟩, ?_⟩
    · exact fun h => hh0 (hhead.symm.trans h)
    · exact hhead ▸ hpath _ hc
    · change e.next p = 0 ∨ e.next p = p
      rw [hnext, if_pos rfl]
      split
      · exact Or.inr rfl
      · exact Or.inl rfl
    · exact hhead ▸ hpath _ hc

theorem TailOk.dequeue (h : TailOk s) : TailOk (dequeue s).1 := by
  unfold SukiOS.dequeue
  by_cases hh : s.readyQueueHead = 0
  · rw [if_pos hh]
    exact h
  · rw [if_neg hh]
    rcases h with ⟨h1, -⟩ | ⟨-, ht0, hc, hlast⟩
    · exact absurd h1 hh
    · by_cases hn : s.next s.readyQueueHead = 0
      · exact Or.inl ⟨hn, if_pos hn⟩
      · refine Or.inr ⟨hn, ?_, ?_, ?_⟩
        all_goals simp only [if_neg hn]
        · exact ht0
        · generalize hb : s.readyQueueTail = t at hc hlast
          generalize s.readyQueueHead = a at hc hn
          cases hc with
          | here a =>
            rw [hlast.resolve_left hn]
            exact .here _
          | next ha h => exact h
        · exact hlast

theorem dequeue_fields (s : Sched) :
    (SukiOS.dequeue s).1.currentProc = s.currentProc ∧
      (SukiOS.dequeue s).1.idleProc = s.idleProc := by
  unfold SukiOS.dequeue
  split <;> exact ⟨rfl, rfl⟩

/-- The invariant of every run, `execve` calls included. -/
structure TailInv (s : Sched) : Prop where
  tail : TailOk s
  current : s.currentProc ≠ 0
  idle : s.idleProc ≠ 0

theorem TailInv.congr (h : TailInv s) (hh : s'.readyQueueHead = s.readyQueueHead)
    (ht : s'.readyQueueTail = s.readyQueueTail) (hn : ∀ r, s'.next r = s.next r)
    (hc : s'.currentProc = s.currentProc) (hi : s'.idleProc = s.idleProc) : TailInv s' :=
  ⟨h.tail.congr hh ht hn, hc ▸ h.current, hi ▸ h.idle⟩

theorem TailInv.schedule (h : TailInv s) : TailInv (schedule s).1 := by
  obtain ⟨hdc, hdi⟩ := dequeue_fields s
  have hpick : pick s ≠ 0 := by
    unfold pick
    split
    · exact h.idle
    · assumption
  rw [schedule_eq]
  by_cases hr : s.schedulerReady = false
  · rw [if_pos hr]
    exact h
  rw [if_neg hr]
  by_cases hp : s.currentProc = pick s
  · rw [if_pos hp]
    exact ⟨h.tail.dequeue, hdc ▸ h.current, hdi ▸ h.idle⟩
  rw [if_neg hp]
  have hs2 : TailOk (requeued s) ∧ (requeued s).idleProc = s.idleProc := by
    unfold requeued
    split
    · refine ⟨?_, ?_⟩
      · exact (h.tail.dequeue.enqueue rfl rfl (fun _ _ => rfl) h.current).1.congr rfl rfl
          (fun r => Sched.setState_next _ _ _ _)
      · rw [Sched.setState_idleProc, enqueue_idleProc, hdi]
    · exact ⟨h.tail.dequeue, hdi⟩
  refine ⟨hs2.1.congr rfl rfl (fun r => Sched.setState_next _ _ _ _), hpick, ?_⟩
  exact fun h0 => h.idle (hs2.2.symm.trans h0)

theorem TailInv.saveRsp (h : TailInv s) (rsp : ℕ) : TailInv (saveRsp s rsp) := by
  obtain ⟨hh, ht, hc, hi, -, hl⟩ := saveRsp_links s rsp
  exact h.congr hh ht (fun r => (hl r).1) hc hi

theorem TailInv.sysExit (h : TailInv s) : TailInv (sysExit s).1 := by
  rw [SukiOS.sysExit, if_pos h.current]
  have hz : TailInv (s.setState s.currentProc .zombie) :=
    h.congr rfl rfl (fun r => Sched.setState_next _ _ _ _) rfl rfl
  exact hz.schedule

theorem TailInv.create (h : TailInv s) (h0 : p ≠ 0) (entry kstack : ℕ) :
    TailInv (procCreateFromElf s (some entry) p kstack).1 ∧
      Chained (procCreateFromElf s (some entry) p kstack).1.next 0
        (procCreateFromElf s (some entry) p kstack).1.readyQueueHead p := by
  let s1 : Sched := { s with nextPid := s.nextPid + 1 }.update p (fun c =>
    { c with fds := fun i => if i < maxFd then 0 else c.fds i, pid := s.nextPid, state := .ready
             next := 0, userStack := userStackTop, entryPoint := entry, cr3 := 0 })
  let s2 := prepareUserStack s1 p kstack entry userStackTop
  have hres : procCreateFromElf s (some entry) p kstack = (SukiOS.enqueue s2 p, p) := if_neg h0
  obtain ⟨hh, ht, hc, hi, -, hl⟩ := prepareUserStack_links s1 p kstack entry userStackTop
  have hlinks (r : ℕ) (hrp : r ≠ p) : s2.next r = s.next r := by
    refine (hl r).1.trans ?_
    simp only [s1, Sched.next, Sched.update_pcb, if_neg hrp]
  have hh' : s2.readyQueueHead = s.readyQueueHead := hh
  have ht' : s2.readyQueueTail = s.readyQueueTail := ht
  obtain ⟨htail, hchain⟩ := h.tail.enqueue hh' ht' hlinks h0
  rw [hres]
  refine ⟨⟨htail, ?_, ?_⟩, hchain⟩
  · rw [enqueue_currentProc, hc]
    exact h.current
  · rw [enqueue_idleProc, hi]
    exact h.idle

/-- A successful `execve`: the new process is current and is on the ready queue. -/
theorem TailInv.execve (h : TailInv s) (h0 : p ≠ 0) (entry kstack : ℕ) :
    let r := sysExecve s (some entry) p kstack
    r.2 = 0 ∧ TailInv r.1 ∧ r.1.currentProc = p ∧ Chained r.1.next 0 r.1.readyQueueHead p := by
  obtain ⟨hi, hc⟩ := h.create h0 entry kstack
  have hp : (procCreateFromElf s (some entry) p kstack).2 = p := by
    simp only [procCreateFromElf, if_neg h0]
  generalize hr : procCreateFromElf s (some entry) p kstack = r at hi hc hp
  have hres : sysExecve s (some entry) p kstack =
      ({ r.1.update s.currentProc (fun c =>
          { c with state := .zombie, fds := fun i => if i < maxFd then 0 else c.fds i }) with
            currentProc := r.2 }.setState r.2 .running, 0) := by
    simp only [sysExecve, hr, hp, if_neg h0, ne_eq, h.current, not_false_eq_true, if_true]
  rw [hres, hp]
  have hn (x : ℕ) : (({ r.1.update s.currentProc (fun c =>
      { c with state := .zombie, fds := fun i => if i < maxFd then 0 else c.fds i }) with
        currentProc := p } : Sched).setState p .running).next x = r.1.next x := by
    rw [Sched.setState_next]
    simp only [Sched.next, Sched.update_pcb]
    split
    · rename_i hx
      rw [hx]
    · rfl
  exact ⟨rfl, ⟨hi.tail.congr rfl rfl hn, h0, hi.idle⟩, rfl, hc.congr hn⟩

theorem sysExecve_fails (s : Sched) {elf : Option ℕ} {p : ℕ} (kstack : ℕ)
    (hf : elf = none ∨ p = 0) : sysExecve s elf p kstack = (s, -1) := by
  have hres : procCreateFromElf s elf p kstack = (s, 0) := by
    rcases hf with rfl | rfl
    · rfl
    · cases elf with
      | none => rfl
      | some entry => simp only [procCreateFromElf, if_true]
  simp only [sysExecve, hres, if_true]

end Tail

theorem leave_sched (r : ExecRun) (rsp : ℕ) (x : Sched × Option ℕ) :
    (r.leave rsp x).sched = x.1 := by
  unfold ExecRun.leave
  split <;> rfl

theorem exec_reachable {r : ExecRun} (hr : execSystem.Reachable r) : TailInv r.sched := by
  apply hr.invariant (I := fun r => TailInv r.sched)
  · rintro r ⟨s, kstack, idleEntry, hh, ht, h0, rfl⟩
    exact ⟨Or.inl ⟨hh, ht⟩, h0, h0⟩
  · intro r op r' hi hs
    cases hs with
    | create h0 hf => exact (hi.create h0 _ _).1
    | tick =>
      rw [leave_sched]
      exact (hi.saveRsp _).schedule
    | exit =>
      rw [leave_sched]
      exact (hi.saveRsp _).sysExit
    | @execve rsp p kstack elf hf =>
      rw [leave_sched]
      by_cases hfail : elf = none ∨ p = 0
      · rw [sysExecve_fails _ _ hfail]
        exact hi.saveRsp rsp
      · obtain ⟨he, h0⟩ := not_or.mp hfail
        obtain ⟨entry, rfl⟩ := Option.ne_none_iff_exists'.mp he
        exact ((hi.saveRsp rsp).execve h0 entry kstack).2.1

/-- After every successful `execve` the new process is both current and on the ready queue, and
it runs on from the frame of the process it replaced; so the scheduler is never left sound. -/
theorem execve_never_sound {r r' : ExecRun} (hr : execSystem.Reachable r) {rsp p kstack : ℕ}
    {elf : Option ℕ} (hs : execSystem.step r (.execve rsp elf p kstack) r')
    (hok : (sysExecve (saveRsp r.sched rsp) elf p kstack).2 = 0) :
    r'.sched.currentProc = p ∧ Chained r'.sched.next 0 r'.sched.readyQueueHead p ∧
      r'.resumes = r.resumes ++ [(p, rsp)] ∧ ∀ frame, ¬ ExecveSound r' p frame := by
  have hi := (exec_reachable hr).saveRsp rsp
  cases hs with
  | execve hf =>
    by_cases hfail : elf = none ∨ p = 0
    · rw [sysExecve_fails _ _ hfail] at hok
      cases hok
    obtain ⟨he, h0⟩ := not_or.mp hfail
    obtain ⟨entry, rfl⟩ := Option.ne_none_iff_exists'.mp he
    obtain ⟨-, -, hc, hchain⟩ := hi.execve h0 entry kstack
    refine ⟨hc, hchain, ?_, ?_⟩
    · change r.resumes ++ [(_, rsp)] = _
      rw [hc]
    · intro frame hsound
      obtain ⟨⟨q, hq⟩, -⟩ := hsound [] _ (.nil _) (by simp)
      have hm := hchain.mem hq.queue.linked h0
      apply hq.current
      change (sysExecve (saveRsp r.sched rsp) (some entry) p kstack).1.currentProc ∈ q
      rw [hc]
      exact hm

/-- One process was created and started by a tick of the idle process. -/
def oneRunning : ExecRun :=
  let r : ExecRun :=
    { sched := (procCreateFromElf (schedulerInit (staticSched 0x1000) 0x10000 0x2000)
        (some 0x400000) 0x5000 0x20000).1
      created := [0x5000], resumes := [] }
  r.leave 0x11000 (schedule (saveRsp r.sched 0x11000))

/-- That process calls `execve`; its frame is at 0x21000. -/
def oneReplaced : ExecRun :=
  { oneRunning with created := 0x6000 :: oneRunning.created }.leave 0x21000
    ((sysExecve (saveRsp oneRunning.sched 0x21000) (some 0x400000) 0x6000 0x30000).1, none)

theorem oneRunning_reachable : execSystem.Reachable oneRunning := by
  have h0 : execSystem.Reachable ⟨schedulerInit (staticSched 0x1000) 0x10000 0x2000, [], []⟩ :=
    .init ⟨staticSched 0x1000, _, _, rfl, rfl, by decide, rfl⟩
  have h1 : execSystem.Reachable
      ⟨(procCreateFromElf (schedulerInit (staticSched 0x1000) 0x10000 0x2000)
        (some 0x400000) 0x5000 0x20000).1, [0x5000], []⟩ :=
    .step (i := .create 0x5000 0x20000 0x400000) h0 (.create (by decide) (by decide))
  exact .step (i := .tick 0x11000) h1 .tick

theorem execve_never_sound_one_process :
    oneReplaced.sched.currentProc = 0x6000 ∧
      oneReplaced.resumes = oneRunning.resumes ++ [(0x6000, 0x21000)] ∧
      ∀ frame, ¬ ExecveSound oneReplaced 0x6000 frame := by
  have hs : execSystem.step oneRunning (.execve 0x21000 (some 0x400000) 0x6000 0x30000)
      oneReplaced := .execve (by decide)
  obtain ⟨hc, -, hr, hn⟩ := execve_never_sound oneRunning_reachable hs rfl
  exact ⟨hc, hr, hn⟩

/-- The new process waits behind the idle one and is current. -/
theorem execve_sound_fails :
    execSystem.Reachable oneRunning ∧
    execSystem.step oneRunning (.execve 0x21000 (some 0x400000) 0x6000 0x30000) oneReplaced ∧
      Queue oneReplaced.sched [0x1000, 0x6000] ∧ oneReplaced.sched.currentProc = 0x6000 ∧
      ¬ ExecveSound oneReplaced 0x6000 (stackTop 0x30000 - 22*8) := by
  have hq : Queue oneReplaced.sched [0x1000, 0x6000] :=
    ⟨⟨by decide, by decide, by decide, by decide,
      show oneReplaced.sched.next 0x6000 = 0 by decide⟩, by decide, by decide⟩
  have hc : oneReplaced.sched.currentProc = 0x6000 := by decide
  refine ⟨oneRunning_reachable, .execve (by decide), hq, hc, fun hsound => ?_⟩
  obtain ⟨⟨q, hs⟩, -⟩ := hsound [] _ (.nil _) (by simp)
  apply hs.current
  rw [hs.queue.linked.unique hq.linked, hc]
  decide

end SukiOS

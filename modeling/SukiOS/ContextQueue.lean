import SukiOS.ContextFrames

/-! The ready queue while the code of one process is inside `exit`, `enqueue` or
`switch_to_proc`: which processes wait, and what an interrupted `enqueue` may rely on. -/
namespace SukiOS
open ByteMemory LinkedList Transition

/-! ### What a stage holds -/

namespace Stage

/-- The value of `g_current_proc` while the code of `a` is at the stage. -/
def current (a : ℕ) : Stage → ℕ
  | .switching n => n
  | .running n => n
  | _ => a

/-- The process that `exit` has taken off the queue. -/
def held : Stage → Option ℕ
  | .unlinked n => some n
  | .picked n => some n
  | .switching n => some n
  | .running n => some n
  | _ => none

/-- The new process that is not queued yet. -/
def pending : Stage → Option ℕ
  | .prepared p => some p
  | .behind p _ => some p
  | .alone p => some p
  | .first p => some p
  | .restoring _ _ after => after.pending
  | _ => none

/-- A creation is under way. -/
def creates : Stage → Prop
  | .prepared _ => True
  | .behind _ _ => True
  | .linked _ => True
  | .alone _ => True
  | .first _ => True
  | .restoring _ _ after => after.creates
  | _ => False

variable {st : Stage}

theorem held_none (h : ¬ st.exits) : st.held = none := by
  cases st <;> first | rfl | exact absurd trivial h

theorem current_eq (a : ℕ) (h : ¬ st.halfSwitched) : st.current a = a := by
  cases st <;> first | rfl | exact absurd trivial h

theorem not_halfSwitched (h : ¬ st.exits) : ¬ st.halfSwitched := by
  cases st <;> first | exact id | exact absurd trivial h

end Stage

/-- The processes whose frames matter: those in the queue, the idle process, a new one, and the one
that `exit` has picked. -/
def Waits (m : Machine) (q : List ℕ) (p : ℕ) : Prop :=
  p ∈ q ∨ (p = m.sched.idleProc ∧ m.active ≠ m.sched.idleProc) ∨
    (m.stages m.sched.idleProc).pending = some p ∨ m.stage.held = some p

/-- `p` is a complete process that no link leads to. -/
structure Unqueued (m : Machine) (q : List ℕ) (loc : ℕ → StackId) (p : ℕ) : Prop where
  known : p ∈ m.run.procs
  ne_idle : p ≠ m.sched.idleProc
  not_mem : p ∉ q
  ne_active : p ≠ m.active
  last : m.sched.next p = 0
  stack : loc p = .kernel p

/-- What the boot code relies on when it goes on at the stage. -/
def Creating (m : Machine) (q : List ℕ) (loc : ℕ → StackId) : Stage → Prop
  | .prepared p => Unqueued m q loc p ∧ m.sched.readyQueueTail ≠ p
  | .behind p _ => Unqueued m q loc p ∧ m.sched.readyQueueTail ≠ p
  | .linked p => p ∈ m.run.procs
  -- with an empty queue no interrupt switches away from the boot code
  | .alone p => Unqueued m q loc p ∧ m.active = m.sched.idleProc ∧ q = []
  | .first p => Unqueued m q loc p ∧ (m.active = m.sched.idleProc ∧ q = []) ∧
      m.sched.readyQueueTail ≠ 0
  | .restoring _ _ after => Creating m q loc after
  | _ => True

/-- The queue `q` of the PCBs, the processes that may run, and the code that is under way. -/
structure QueueInv (m : Machine) (q : List ℕ) (loc : ℕ → StackId) : Prop where
  threaded : Threaded m.sched q
  ready : m.sched.schedulerReady = true
  ne_null : ∀ p ∈ m.run.procs, p ≠ 0
  known : ∀ p ∈ q, p ∈ m.run.procs
  tail : m.sched.readyQueueTail = 0 ∨ m.sched.readyQueueTail ∈ m.run.procs
  active : m.active ∈ m.run.procs
  active_not_mem : m.active ∉ q
  curr : m.curr = m.stage.current m.active
  held : ∀ n, m.stage.held = some n → n ∈ m.run.procs ∧ n ≠ m.active ∧ n ∉ q ∧
    (m.stages m.sched.idleProc).pending ≠ some n
  exits : m.stage.exits → m.sched.state m.active ≠ .running
  boot : ¬ (m.stages m.sched.idleProc).exits
  creates : ∀ p, p = m.active ∨ Waits m q p → p ≠ m.sched.idleProc → ¬ (m.stages p).creates
  creating : Creating m q loc (m.stages m.sched.idleProc)

section Creating
variable {m m' : Machine} {q q' : List ℕ} {loc loc' : ℕ → StackId} {st : Stage} {p : ℕ}

theorem Creating.unqueued (h : Creating m q loc st) (hp : st.pending = some p) :
    Unqueued m q loc p := by
  induction st with
  | restoring _ _ after ih => exact ih h hp
  | prepared r => exact Option.some.inj hp ▸ h.1
  | behind r t => exact Option.some.inj hp ▸ h.1
  | alone r => exact Option.some.inj hp ▸ h.1
  | first r => exact Option.some.inj hp ▸ h.1
  | _ => cases hp

/-- The other processes may change the queue as long as they leave the new process alone. -/
theorem Creating.congr (h : Creating m q loc st) (hprocs : ∀ p ∈ m.run.procs, p ∈ m'.run.procs)
    (hun : ∀ p, st.pending = some p → Unqueued m q loc p →
      m.sched.readyQueueTail ≠ p ∨ m.active = m.sched.idleProc ∧ q = [] →
      Unqueued m' q' loc' p)
    (htail : ∀ p, Unqueued m q loc p → m.sched.readyQueueTail ≠ p →
      m'.sched.readyQueueTail ≠ p)
    (hend : m.active = m.sched.idleProc → q = [] → (m'.active = m'.sched.idleProc ∧ q' = []) ∧
      m'.sched.readyQueueTail = m.sched.readyQueueTail) :
    Creating m' q' loc' st := by
  induction st with
  | restoring _ _ after ih => exact ih h hun
  | prepared p => exact ⟨hun p rfl h.1 (Or.inl h.2), htail p h.1 h.2⟩
  | behind p t => exact ⟨hun p rfl h.1 (Or.inl h.2), htail p h.1 h.2⟩
  | linked p => exact hprocs p h
  | alone p => exact ⟨hun p rfl h.1 (Or.inr h.2), (hend h.2.1 h.2.2).1⟩
  | first p =>
    obtain ⟨hends, htail⟩ := hend h.2.1.1 h.2.1.2
    exact ⟨hun p rfl h.1 (Or.inr h.2.1), hends, fun h0 => h.2.2 (htail.symm.trans h0)⟩
  | _ => trivial

end Creating

section Queue
variable {m m' : Machine} {q q' : List ℕ} {loc loc' : ℕ → StackId} {p n : ℕ}

theorem QueueInv.onQueue_iff (hq : QueueInv m q loc) : OnQueue m p ↔ p ∈ q := by
  constructor
  · rintro ⟨h0, hc⟩
    exact hc.mem hq.threaded.linked h0
  · intro hp
    exact ⟨hq.threaded.linked.ne_null hp, hq.threaded.linked.chained hp⟩

theorem QueueInv.not_waits (hq : QueueInv m q loc) : ¬ Waits m q m.active := by
  rintro (h | ⟨h, h'⟩ | h | h)
  · exact hq.active_not_mem h
  · exact h' h
  · exact (hq.creating.unqueued h).ne_active rfl
  · exact (hq.held _ h).2.1 rfl

theorem QueueInv.waits_known (hq : QueueInv m q loc) (hp : Waits m q p) : p ∈ m.run.procs := by
  rcases hp with h | ⟨rfl, -⟩ | h | h
  · exact hq.known p h
  · exact List.mem_cons_self
  · exact (hq.creating.unqueued h).known
  · exact (hq.held p h).1

/-- The links, the running process and the stages are the same. -/
structure SameLinks (m m' : Machine) : Prop where
  head : m'.sched.readyQueueHead = m.sched.readyQueueHead
  tail : m'.sched.readyQueueTail = m.sched.readyQueueTail
  curr : m'.curr = m.curr
  idleProc : m'.sched.idleProc = m.sched.idleProc
  ready : m'.sched.schedulerReady = m.sched.schedulerReady
  links : ∀ p, m'.sched.next p = m.sched.next p ∧ m'.sched.state p = m.sched.state p
  created : m'.run.created = m.run.created
  active : m'.active = m.active
  stages : m'.stages = m.stages

theorem SameLinks.procs (h : SameLinks m m') : m'.run.procs = m.run.procs := by
  have hid : m'.run.sched.idleProc = m.run.sched.idleProc := h.idleProc
  simp only [SchedRun.procs, hid, h.created]

theorem SameLinks.stage (h : SameLinks m m') : m'.stage = m.stage := by
  rw [Machine.stage, Machine.stage, h.stages, h.active]

theorem SameLinks.waits_iff (h : SameLinks m m') : Waits m' q p ↔ Waits m q p := by
  unfold Waits
  rw [h.idleProc, h.active, h.stages, h.stage]

theorem QueueInv.congr (hq : QueueInv m q loc) (h : SameLinks m m') : QueueInv m' q loc := by
  have hprocs := h.procs
  have hstage := h.stage
  refine { threaded := hq.threaded.congr h.head h.tail (fun r _ => (h.links r).1)
           ready := h.ready.trans hq.ready, ne_null := hprocs ▸ hq.ne_null
           known := hprocs ▸ hq.known, tail := ?_, active := ?_, active_not_mem := ?_, curr := ?_
           held := ?_, exits := ?_, boot := ?_, creates := ?_, creating := ?_ }
  · rw [h.tail, hprocs]
    exact hq.tail
  · rw [h.active, hprocs]
    exact hq.active
  · rw [h.active]
    exact hq.active_not_mem
  · rw [h.curr, hstage, h.active]
    exact hq.curr
  · rw [hstage, hprocs, h.active, h.stages, h.idleProc]
    exact hq.held
  · rw [hstage, (h.links _).2, h.active]
    exact hq.exits
  · rw [h.stages, h.idleProc]
    exact hq.boot
  · intro r hr hne
    rw [h.active, h.waits_iff] at hr
    rw [h.stages]
    exact hq.creates r hr (h.idleProc ▸ hne)
  · rw [h.stages, h.idleProc]
    refine hq.creating.congr (fun r hr => hprocs ▸ hr) (fun r _ hr _ => ?_) (fun r _ hr => ?_)
      (fun h1 h2 => ⟨⟨h.active.trans (h1.trans h.idleProc.symm), h2⟩, h.tail⟩)
    · exact ⟨hprocs ▸ hr.known, h.idleProc ▸ hr.ne_idle, hr.not_mem, h.active ▸ hr.ne_active,
        (h.links r).1.trans hr.last, hr.stack⟩
    · rw [h.tail]
      exact hr

end Queue

end SukiOS

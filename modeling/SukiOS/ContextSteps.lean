import SukiOS.ContextEntry
import SukiOS.ContextQueue

/-! The invariant of the machine, and the steps of user code, kernel code, interrupts and system
calls that keep it. -/
namespace SukiOS
open ByteMemory LinkedList Transition

/-- `loc p` is the stack on which the process `p` waits, and the active one uses `S` in ring 0. -/
structure MachineInv (m : Machine) (q : List ℕ) (loc : ℕ → StackId) (S : StackId) : Prop where
  queue : QueueInv m q loc
  contexts : Contexts m (Waits m q) loc S

/-! ### Writes, interrupts and system calls -/

section Steps
variable {m m' : Machine} {q : List ℕ} {loc : ℕ → StackId} {S : StackId}

/-- A stack pointer in use tells the stack. -/
theorem Contexts.runsOn_eq {W : ℕ → Prop} (hi : Contexts m W loc S) (h0 : m.cs % 4 = 0)
    {T : StackId} (hT : m.Known T) (hr : m.RunsOn T m.rsp) : T = S :=
  hi.layout.stack_unique hT (hi.here h0).known ⟨hr.1, hr.2.trans (m.top_le_hi T)⟩
    (hi.here h0).runs.bounds

/-- The code of a system call is not the boot code. -/
theorem Contexts.ne_idle {W : ℕ → Prop} (hi : Contexts m W loc S) (h0 : m.cs % 4 = 0)
    (hr : m.RunsOn .interrupt m.rsp) : m.active ≠ m.sched.idleProc := by
  intro hidle
  have hS : .interrupt = S := hi.runsOn_eq h0 (T := .interrupt) trivial hr
  rw [(hi.boot.active hidle).2] at hS
  cases hS

/-- Writes that miss the stacks of the waiting processes. -/
theorem MachineInv.write (hi : MachineInv m q loc S) {mem : Mem} (rsp : ℕ)
    (hmem : ∀ p, Waits m q p → ∀ x, m.frame p ≤ x → x < m.hi (loc p) → mem x = m.mem x)
    (hout : ∀ x, m.rsp0 - frameSize + 8*18 ≤ x → x < m.rsp0 - frameSize + 8*18 + 8 →
      mem x = m.mem x)
    (hr : m.cs % 4 = 0 → ∀ m', SameStacks m m' → m'.mem = mem → Runs m' S m.stage rsp) :
    MachineInv { m.withSched { m.sched with mem := mem } with rsp := rsp } q loc S := by
  let m' : Machine := { m.withSched { m.sched with mem := mem } with rsp := rsp }
  have hstacks : SameStacks m m' := ⟨⟨rfl, rfl, fun _ _ => rfl, fun _ h => h⟩, fun _ h => h⟩
  have hsame : outerCs m' = outerCs m := outerCs_congr rfl hout
  have hc := hi.contexts
  refine ⟨hi.queue.congr ⟨rfl, rfl, rfl, rfl, rfl, fun _ => ⟨rfl, rfl⟩, rfl, rfl, rfl⟩,
    hstacks.layout hc.layout, ?_, fun h0 => ?_, hc.ring3,
    ⟨hc.boot.stage, hc.boot.active, hc.boot.waits⟩, hc.popped⟩
  · exact hc.waiting.congr hstacks.toKeepsStacks (fun _ _ => rfl) (fun _ _ => rfl)
      (fun _ _ => rfl) hmem (fun _ _ _ => hsame)
  · have hh := hc.here h0
    refine ⟨hstacks.known hh.known, hr h0 m' hstacks rfl, hh.free, fun h => ?_⟩
    rw [hsame]
    exact hh.outer h

theorem MachineInv.user (hi : MachineInv m q loc S) (h3 : m.cs % 4 ≠ 0) {a : ℕ} (b : Byte)
    (ha : a < 2^47) :
    MachineInv (m.withSched { m.sched with mem := Function.update m.mem a b }) q loc S := by
  have hc := hi.contexts
  apply hi.write m.rsp
  · intro p hp x h1 _
    have hlow := (hc.layout.high _ (hc.waiting.known p hp)).1
    have hlo := (hc.waiting.frames p hp).lo
    exact Function.update_of_ne (by omega) _ _
  · intro x h1 _
    have hlow := hc.layout.rsp0_lower
    simp only [frameSize, interruptStackSize] at h1 hlow
    exact Function.update_of_ne (by omega) _ _
  · exact fun h0 => absurd h0 h3

theorem MachineInv.kernel (hi : MachineInv m q loc S) {T : StackId} {rsp a : ℕ} (b : Byte)
    (h0 : m.cs % 4 = 0) (hk : m.Known T)
    (hst : ∀ due got after, m.stage ≠ .restoring due got after) (hr : m.RunsOn T m.rsp)
    (hr' : m.RunsOn T rsp) (hother : ∀ U, m.Known U → U ≠ T → ¬ (m.lo U ≤ a ∧ a < m.hi U))
    (hframe : T = .interrupt → m.rsp0 - frameSize ≤ a → a < m.rsp0 →
      m.rsp0 - frameSize + 8*14 ≤ a ∧ a < m.rsp0 - frameSize + 8*15) :
    MachineInv { m.withSched { m.sched with mem := Function.update m.mem a b } with rsp := rsp }
      q loc S := by
  have hc := hi.contexts
  have hS := hc.runsOn_eq h0 hk hr
  apply hi.write
  · intro p hp x h1 h2
    have hlo := (hc.waiting.frames p hp).lo
    have hne : loc p ≠ T := by
      rw [hS]
      exact (hc.here h0).free p hp
    have hout := hother (loc p) (hc.waiting.known p hp) hne
    exact Function.update_of_ne (by omega) _ _
  · intro x h1 h2
    have hlow := hc.layout.rsp0_lower
    simp only [frameSize, interruptStackSize] at h1 h2 hlow hframe
    apply Function.update_of_ne
    rintro rfl
    by_cases hTi : T = .interrupt
    · have := hframe hTi (by omega) (by omega)
      omega
    · refine hother .interrupt trivial (Ne.symm hTi) ⟨?_, ?_⟩
      · simp only [Machine.lo, interruptStackSize]
        omega
      · simp only [Machine.hi]
        omega
  · intro _ m' hs _
    rw [← hS]
    exact (runs_iff_runsOn hst).mpr ((hs.runsOn hk rsp).mpr hr')

/-- From ring 3 nobody has a frame on the interrupt stack. -/
theorem MachineInv.interrupt_free (hi : MachineInv m q loc S) (hfree : InterruptStackFree m)
    (h3 : m.cs % 4 ≠ 0) (p : ℕ) (hp : Waits m q p) : loc p ≠ .interrupt := by
  have hc := hi.contexts
  rcases hp with h | ⟨rfl, h⟩ | h | h
  · intro hloc
    have hf := hc.waiting.frames p (Or.inl h)
    rw [hloc] at hf
    have hlo := hf.lo
    have hhi := hf.hi
    simp only [frameSize] at hhi
    exact hfree p (hi.queue.onQueue_iff.mpr h) ⟨hlo.le, by omega⟩
  · rw [(hc.boot.waits h).1]
    simp
  · rw [(hi.queue.creating.unqueued h).stack]
    simp
  · rw [hc.ring3 h3] at h
    cases h

theorem MachineInv.entry (hi : MachineInv m q loc S) (hroom : m.HasRoom)
    (hfree : m.cs % 4 ≠ 0 → InterruptStackFree m) :
    Entry m (Waits m q) loc (entryStack m S) :=
  hi.contexts.entry hroom (fun h3 => hi.interrupt_free (hfree h3) h3)

theorem QueueInv.curr_eq (hq : QueueInv m q loc) (hst : ¬ m.stage.halfSwitched) :
    m.curr = m.active :=
  hq.curr.trans (Stage.current_eq _ hst)

theorem entered_sameLinks (m : Machine) (mem : Mem) :
    SameLinks m (m.withSched (m.entered mem)) := by
  obtain ⟨hh, ht, hc, hid, hr, hl⟩ := saveRsp_links { m.sched with mem := mem } m.frameAddr
  exact ⟨hh, ht, hc, hid, hr, hl, rfl, rfl, rfl⟩

/-- An interrupt that returns to the process it came from. -/
theorem MachineInv.irq (hi : MachineInv m q loc S) (hroom : m.HasRoom)
    (hfree : m.cs % 4 ≠ 0 → InterruptStackFree m) (hst : ¬ m.stage.halfSwitched) {ws : List ℕ}
    {mem : Mem} (hw : m.Pushed ws)
    (hs : SameOff (m.Below m.frameAddr) (storeWords m.mem m.frameAddr ws) mem) :
    MachineInv (m.withSched (m.entered mem)) q loc S := by
  have hlinks := entered_sameLinks m mem
  refine ⟨hi.queue.congr hlinks, ?_⟩
  have h := hi.contexts.interrupted (hi.entry hroom hfree) hi.queue.not_waits
    (hi.queue.curr_eq hst) hw hs
  have hw : Waits (m.withSched (m.entered mem)) q = Waits m q :=
    funext fun p => propext hlinks.waits_iff
  rwa [hw]

theorem MachineInv.syscall (hi : MachineInv m q loc S) (hfree : InterruptStackFree m)
    {ws : List ℕ} (h3 : m.cs % 4 ≠ 0) (hw : m.Pushed ws) :
    MachineInv
      { m.withSched (m.entered (storeWords m.mem m.frameAddr ws))
        with cs := gdtSelectorKernelCs, rsp := m.frameAddr } q loc .interrupt := by
  have hc := hi.contexts
  have hstage := hc.ring3 h3
  have hhalf : ¬ m.stage.halfSwitched := by
    rw [hstage]
    exact id
  have hroom : m.HasRoom := fun h0 => absurd h0 h3
  have he := hi.entry hroom (fun _ => hfree)
  obtain ⟨hS, hf, -⟩ := he.ring3 h3
  have hin := hi.irq hroom (fun _ => hfree) hhalf hw SameOff.rfl
  let mi := m.withSched (m.entered (storeWords m.mem m.frameAddr ws))
  let m' : Machine := { mi with cs := gdtSelectorKernelCs, rsp := m.frameAddr }
  have hstacks : SameStacks mi m' := ⟨⟨rfl, rfl, fun _ _ => rfl, fun _ h => h⟩, fun _ h => h⟩
  have hidle : m.active ≠ m.sched.idleProc := fun h => h3 (hc.boot.active h).1
  have hid : mi.sched.idleProc = m.sched.idleProc := (entered_data m _).2.1
  have hci := hin.contexts
  refine ⟨hin.queue.congr ⟨rfl, rfl, rfl, rfl, rfl, fun _ => ⟨rfl, rfl⟩, rfl, rfl, rfl⟩,
    hstacks.layout hci.layout, ?_, fun _ => ⟨trivial, ?_, fun p hp => ?_, fun _ => ?_⟩,
    fun h => absurd (rfl : gdtSelectorKernelCs % 4 = 0) h,
    ⟨hci.boot.stage, fun h => ?_, hci.boot.waits⟩, hci.popped⟩
  · exact hci.waiting.congr hstacks.toKeepsStacks (fun _ _ => rfl) (fun _ _ => rfl)
      (fun _ _ => rfl) (fun _ _ _ _ _ => rfl) (fun _ _ _ => rfl)
  · -- the code of the system call runs below the frame
    have hlow := hc.layout.rsp0_lower
    simp only [interruptStackSize] at hlow
    change Runs m' .interrupt m.stage m.frameAddr
    rw [hstage, hf]
    constructor
    · simp only [m', mi, Machine.withSched, Machine.lo, frameSize, interruptStackSize]
      omega
    · exact le_rfl
  · have hp' : Waits m q p := (entered_sameLinks m _).waits_iff.mp hp
    exact hi.interrupt_free hfree h3 p hp'
  · have h := he.outer hc.layout hw SameOff.rfl hS
    exact h
  · exact absurd (h.trans hid) hidle

theorem MachineInv.sysret (hi : MachineInv m q loc S) (h0 : m.cs % 4 = 0)
    (hr : m.RunsOn .interrupt m.rsp) (hst : m.stage = .outside) :
    MachineInv
      { m with cs := frameCs (loadWords m.mem (m.rsp0 - frameSize) 22)
               rsp := frameRsp (loadWords m.mem (m.rsp0 - frameSize) 22) } q loc S := by
  have hc := hi.contexts
  have hS : .interrupt = S := hc.runsOn_eq h0 (T := .interrupt) trivial hr
  have hout := (hc.here h0).outer hS.symm
  have hcs : frameCs (loadWords m.mem (m.rsp0 - frameSize) 22) % 4 ≠ 0 := by
    rw [frameCs_eq]
    exact hout
  let m' : Machine := { m with cs := frameCs (loadWords m.mem (m.rsp0 - frameSize) 22)
                               rsp := frameRsp (loadWords m.mem (m.rsp0 - frameSize) 22) }
  have hstacks : SameStacks m m' := ⟨⟨rfl, rfl, fun _ _ => rfl, fun _ h => h⟩, fun _ h => h⟩
  refine ⟨hi.queue.congr ⟨rfl, rfl, rfl, rfl, rfl, fun _ => ⟨rfl, rfl⟩, rfl, rfl, rfl⟩,
    hstacks.layout hc.layout, ?_, fun h => absurd h hcs, fun _ => hst,
    ⟨hc.boot.stage, fun h => ?_, hc.boot.waits⟩, hc.popped⟩
  · exact hc.waiting.congr hstacks.toKeepsStacks (fun _ _ => rfl) (fun _ _ => rfl)
      (fun _ _ => rfl) (fun _ _ _ _ _ => rfl) (fun _ _ _ => rfl)
  · exact absurd h (hc.ne_idle h0 hr)

end Steps

/-! ### A timer interrupt that switches -/

section Timer
variable {m : Machine} {q : List ℕ} {loc : ℕ → StackId} {S : StackId}

/-- The queue after a switch to the process `n`. -/
theorem QueueInv.switched {m' : Machine} {q' : List ℕ} {loc' : ℕ → StackId} {n : ℕ}
    (hq : QueueInv m q loc) (hcurr : m.curr = m.active) {s' : Sched} {mem : Mem}
    (hr : Rescheduled (m.entered mem) q s' q') (hn : pick (m.entered mem) = n)
    (hne : n ≠ m.active) (hs : m'.sched = s') (hid : s'.idleProc = m.sched.idleProc)
    (hact : m'.active = n) (hcreated : m'.run.created = m.run.created)
    (hstages : m'.stages = m.stages) (hexits : ¬ (m.stages n).exits)
    (hwn : Waits m q n) (hloc : ∀ p, p ≠ m.active → loc' p = loc p) :
    QueueInv m' q' loc' ∧ ∀ p, Waits m' q' p →
      (Waits m q p ∨ p = m.active ∧ ¬ m.stage.exits) ∧ p ≠ n := by
  have hlinks := entered_sameLinks m mem
  have hec : (m.entered mem).currentProc = m.active := hlinks.curr.trans hcurr
  have hid' : m'.sched.idleProc = m.sched.idleProc := hs ▸ hid
  have hprocs : m'.run.procs = m.run.procs := by
    have h : m'.run.sched.idleProc = m.run.sched.idleProc := hid'
    simp only [SchedRun.procs, h, hcreated]
  have hstage : m'.stage = m.stages n := by rw [Machine.stage, hact, hstages]
  have hheld : m'.stage.held = none := by
    rw [hstage]
    exact Stage.held_none hexits
  have hnprocs : n ∈ m.run.procs := hq.waits_known hwn
  -- the process that ran waits only if it was not on its way out
  have hq' (x : ℕ) (hx : x ∈ q') : Waits m q x ∨ x = m.active ∧ ¬ m.stage.exits := by
    rcases hr.waited x hx with h | ⟨h, hrun⟩
    · exact Or.inl (Or.inl h)
    · rw [hec] at h hrun
      refine Or.inr ⟨h, fun hex => hq.exits hex ?_⟩
      rw [← (hlinks.links m.active).2]
      exact hrun
  have hnq' : n ∉ q' := hn ▸ hr.picked
  have hwaits (p : ℕ) (hp : Waits m' q' p) :
      (Waits m q p ∨ p = m.active ∧ ¬ m.stage.exits) ∧ p ≠ n := by
    rcases hp with h | ⟨h, h'⟩ | h | h
    · exact ⟨hq' p h, fun hpn => hnq' (hpn ▸ h)⟩
    · rw [hid'] at h h'
      refine ⟨?_, fun hpn => h' (hact.trans (hpn.symm.trans h))⟩
      by_cases hidle : m.active = m.sched.idleProc
      · refine Or.inr ⟨h.trans hidle.symm, ?_⟩
        have hboot := hq.boot
        rwa [← hidle] at hboot
      · exact Or.inl (Or.inr (Or.inl ⟨h, hidle⟩))
    · rw [hid', hstages] at h
      refine ⟨Or.inl (Or.inr (Or.inr (Or.inl h))), ?_⟩
      rintro rfl
      have hun := hq.creating.unqueued h
      -- a process that is not queued yet is not picked
      rcases pick_cases (m.entered mem) with hp | ⟨hh, hp⟩
      · exact hun.ne_idle (hn.symm.trans (hp.trans hlinks.idleProc))
      · have hthr : Threaded (m.entered mem) q := (hq.congr hlinks).threaded
        exact hun.not_mem (hn.symm.trans hp ▸ hthr.head_mem hh)
    · rw [hheld] at h
      cases h
  refine ⟨?_, hwaits⟩
  refine { threaded := hs ▸ hr.threaded, ready := hs ▸ hr.ready, ne_null := hprocs ▸ hq.ne_null
           known := ?_, tail := ?_, active := ?_, active_not_mem := ?_, curr := ?_, held := ?_
           exits := ?_, boot := ?_, creates := ?_, creating := ?_ }
  · intro x hx
    rw [hprocs]
    rcases hq' x hx with h | ⟨rfl, -⟩
    · exact hq.waits_known h
    · exact hq.active
  · rw [hs, hprocs]
    rcases hr.tail with h | h | h
    · have ht : (m.entered mem).readyQueueTail = m.sched.readyQueueTail := hlinks.tail
      rw [h, ht]
      exact hq.tail
    · exact Or.inl h
    · rw [h, hec]
      exact Or.inr hq.active
  · rw [hact, hprocs]
    exact hnprocs
  · rw [hact]
    exact hnq'
  · have hc : m'.curr = n := by
      change m'.sched.currentProc = n
      rw [hs, hr.current, hn]
    rw [hc, hstage, Stage.current_eq _ (Stage.not_halfSwitched hexits), hact]
  · intro x hx
    rw [hheld] at hx
    cases hx
  · rw [hstage]
    exact fun h => absurd h hexits
  · rw [hid', hstages]
    exact hq.boot
  · intro p hp hpi
    rw [hid'] at hpi
    rw [hstages]
    rcases hp with rfl | hp
    · rw [hact] at hpi ⊢
      exact hq.creates n (Or.inr hwn) hpi
    · rcases (hwaits p hp).1 with h | ⟨h, -⟩
      · exact hq.creates p (Or.inr h) hpi
      · exact hq.creates p (Or.inl h) hpi
  · -- with an empty queue the boot code would have been picked again
    have hno : ¬ (m.active = m.sched.idleProc ∧ q = []) := by
      rintro ⟨hidle, rfl⟩
      have hhead : (m.entered mem).readyQueueHead = 0 := (hq.congr hlinks).threaded.linked
      have hp : pick (m.entered mem) = (m.entered mem).idleProc := if_pos hhead
      exact hne (hn.symm.trans (hp.trans (hlinks.idleProc.trans hidle.symm)))
    have ht : (m.entered mem).readyQueueTail = m.sched.readyQueueTail := hlinks.tail
    rw [hid', hstages]
    refine hq.creating.congr (fun p hp => hprocs ▸ hp) (fun p hpend hun hend => ?_)
      (fun p hun htail => ?_) (fun hidle hnil => absurd ⟨hidle, hnil⟩ hno)
    · have hpc : p ≠ (m.entered mem).currentProc := hec.symm ▸ hun.ne_active
      have hpn : p ≠ n := by
        refine (hwaits p (Or.inr (Or.inr (Or.inl ?_)))).2
        rw [hid', hstages]
        exact hpend
      refine ⟨hprocs ▸ hun.known, hid' ▸ hun.ne_idle, fun hpq => ?_, hact ▸ hpn, ?_,
        (hloc p hun.ne_active).trans hun.stack⟩
      · rcases hr.waited p hpq with h | ⟨h, -⟩
        · exact hun.not_mem h
        · exact hpc h
      · have hnext := hr.next p hpc (fun h => hend.resolve_right hno (ht.symm.trans h.symm))
          (hq.ne_null p hun.known)
        rw [hs, hnext]
        exact (hlinks.links p).1.trans hun.last
    · rw [hs]
      rcases hr.tail with h | h | h
      · rw [h, ht]
        exact htail
      · rw [h]
        exact (hq.ne_null p hun.known).symm
      · rw [h, hec]
        exact hun.ne_active.symm

theorem MachineInv.timer (hi : MachineInv m q loc S) (hroom : m.HasRoom)
    (hfree : m.cs % 4 ≠ 0 → InterruptStackFree m) (hst : ¬ m.stage.halfSwitched) {ws : List ℕ}
    {mem : Mem} (hw : m.Pushed ws)
    (hs : SameOff (m.Below m.frameAddr) (storeWords m.mem m.frameAddr ws) mem) :
    ∃ q' loc' S', MachineInv (m.timer ws mem) q' loc' S' := by
  have hq := hi.queue
  have hcurr := hq.curr_eq hst
  have hlinks := entered_sameLinks m mem
  have hec : (m.entered mem).currentProc = m.active := hlinks.curr.trans hcurr
  have hthr : Threaded (m.entered mem) q := (hq.congr hlinks).threaded
  have hready : (m.entered mem).schedulerReady = true := (hq.congr hlinks).ready
  have hidle : (m.entered mem).idleProc = m.sched.idleProc := hlinks.idleProc
  have hcq : (m.entered mem).currentProc ∉ q := hec.symm ▸ hq.active_not_mem
  have hne0 : m.active ≠ 0 := hq.ne_null _ hq.active
  unfold Machine.timer
  by_cases hpick : (m.entered mem).currentProc = pick (m.entered mem)
  · -- nobody waits, so the interrupt returns to the process it came from
    rw [hthr.not_scheduled hcq hpick]
    exact ⟨q, loc, S, hi.irq hroom hfree hst hw hs⟩
  · obtain ⟨s', q', hsch, hr⟩ := hthr.scheduled hready hcq (hec.symm ▸ hne0) hpick
    have hd : SameData (m.entered mem) s' := by
      have h := sameData_schedule (m.entered mem)
      rwa [hsch] at h
    rw [hsch]
    generalize hn : pick (m.entered mem) = n at hpick
    have hne : n ≠ m.active := fun h => hpick (hec.trans h.symm)
    have hwn : Waits m q n := by
      rcases hthr.pick_mem with h | h
      · have hni : n = m.sched.idleProc := hn.symm.trans (h.trans hidle)
        exact Or.inr (Or.inl ⟨hni, fun hact => hne (hni.trans hact.symm)⟩)
      · exact Or.inl (hn ▸ h)
    -- the frame of `n` is there, and so is the one that was pushed
    obtain ⟨hwait, hboot⟩ := hi.contexts.preempt (hi.entry hroom hfree) hq.not_waits hcurr hne0 hw
      hs
    have hexits : ¬ (m.stages n).exits := (hi.contexts.waiting.frames n hwn).2.1
    have hid : s'.idleProc = m.sched.idleProc := hd.idleProc.trans hidle
    let m' := (preempted m mem ws).resume s' n
    let loc' := Function.update loc m.active (entryStack m S)
    have hloc (p : ℕ) (hp : p ≠ m.active) : loc' p = loc p := Function.update_of_ne hp _ _
    obtain ⟨hq', hsub⟩ : QueueInv m' q' loc' ∧ _ :=
      hq.switched hcurr hr hn hne rfl hid rfl rfl rfl hexits hwn hloc
    have hres : Contexts m' (Waits m' q') loc' (loc' n) :=
      hwait.resume ((preempted_sameStacks m mem ws).layout hi.contexts.layout) hboot hd
        (Or.inl hwn) hsub
    exact ⟨q', loc', loc' n, hq', hres⟩

end Timer

end SukiOS

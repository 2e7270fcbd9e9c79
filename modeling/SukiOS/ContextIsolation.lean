import SukiOS.ContextStages
import SukiOS.Execve

/-! Saved frames survive as long as no process enters the kernel from ring 3 while another one
has its frame on the single interrupt stack, and no interrupt comes between the two halves of a
switch. -/
namespace SukiOS
open ByteMemory LinkedList Transition

/-! ### Runs -/

section Runs
variable {m m' : Machine} {q : List ℕ} {loc : ℕ → StackId} {S : StackId}

theorem MachineInv.init (h : machineSystem.init m) :
    MachineInv m [] (fun _ => .boot) .boot := by
  obtain ⟨s, kstack, idleEntry, hh, ht, hid, hrun, hl, hcs, hr, hact, hst, hsaved, hpop⟩ := h
  have hs : m.sched = schedulerInit s kstack idleEntry := congrArg SchedRun.sched hrun
  have hprocs : m.run.procs = [s.idleProc] := by rw [hrun]; rfl
  have hidle : m.sched.idleProc = s.idleProc := by rw [hs]; rfl
  have hactive : m.active = m.sched.idleProc := hact.trans hidle.symm
  have hstage : m.stage = .outside := hst _
  have hboot : m.stages m.sched.idleProc = .outside := hst _
  have hno (p : ℕ) : ¬ Waits m [] p := by
    rintro (h | ⟨-, h⟩ | h | h)
    · cases h
    · exact h hactive
    · rw [hboot] at h
      cases h
    · rw [hstage] at h
      cases h
  refine ⟨{ threaded := ?_, ready := ?_, ne_null := fun p hp => ?_, known := fun _ h => ?_
            tail := ?_, active := ?_, active_not_mem := List.not_mem_nil, curr := ?_
            held := fun n h => ?_, exits := ?_, boot := ?_, creates := fun p _ _ => ?_
            creating := ?_ },
    hl, ⟨fun p hp => absurd hp (hno p), fun p hp => absurd hp (hno p),
      fun p hp => absurd hp (hno p), fun p hp => absurd hp (hno p)⟩,
    fun _ => ⟨trivial, ?_, fun p hp => absurd hp (hno p), by simp⟩, fun _ => hstage,
    ⟨?_, fun _ => ⟨?_, rfl⟩, fun h => absurd hactive h⟩, fun p ws due h => ?_⟩
  · rw [hs]
    exact ⟨hh, List.nodup_nil, fun _ => rfl⟩
  · rw [hs]
    rfl
  · rw [hprocs, List.mem_singleton] at hp
    exact hp ▸ hid
  · cases h
  · rw [hs]
    exact Or.inl ht
  · rw [hprocs, hact]
    exact List.mem_cons_self
  · rw [hstage, hact]
    exact congrArg Sched.currentProc hs
  · rw [hstage] at h
    cases h
  · rw [hstage]
    exact fun h => absurd h id
  · rw [hboot]
    exact id
  · rw [hst p]
    exact id
  · rw [hboot]
    trivial
  · rw [hstage]
    exact hr
  · rw [hboot]
    trivial
  · rw [hcs]
    rfl
  · rw [hpop] at h
    cases h

/-- A call of `schedule` that finds nothing to switch to. -/
theorem MachineInv.start (hi : MachineInv m q loc S) (hst : m.stage = .outside)
    (hno : NoSwitch m.sched) : m.afterSchedule (schedule m.sched) = m := by
  have hq := hi.queue
  have hhalf : ¬ m.stage.halfSwitched := by
    rw [hst]
    exact id
  have hcq : m.curr ∉ q := by
    rw [hq.curr_eq hhalf]
    exact hq.active_not_mem
  have hpick : m.sched.currentProc = pick m.sched :=
    hno.resolve_left (by simp [hq.ready])
  rw [hq.threaded.not_scheduled hcq hpick]
  rfl

theorem machine_step (hi : MachineInv m q loc S) {op : MachineOp} (hc : KeepsFrames m op)
    (hs : Machine.Step m op m') : ∃ q' loc' S', MachineInv m' q' loc' S' := by
  cases hs with
  | user h3 ha => exact ⟨_, _, _, hi.user h3 _ ha⟩
  | kernel h0 hk hst hr hr' hother hframe =>
    exact ⟨_, _, _, hi.kernel _ h0 hk hst hr hr' hother hframe⟩
  | irq hw hroom hs => exact ⟨_, _, _, hi.irq hroom hc.1 hc.2 hw hs⟩
  | timer hw hroom hs => exact hi.timer hroom hc.1 hc.2 hw hs
  | syscall h3 hw => exact ⟨_, _, _, hi.syscall hc h3 hw⟩
  | sysret h0 hr hst => exact ⟨_, _, _, hi.sysret h0 hr hst⟩
  | exit h0 hr hst => exact ⟨_, _, _, hi.exit h0 hr hst⟩
  | advance hst =>
    obtain ⟨q', S', h⟩ := hi.advance hst
    exact ⟨q', loc, S', h⟩
  | @execve elf p kstack h0 hr hst hf hk =>
    rw [sysExecve_fails m.sched kstack hc]
    exact ⟨q, loc, S, hi⟩
  | create h0 hidle hst hp hf hk he => exact ⟨_, _, _, hi.create h0 hidle hst hp hf hk hc he⟩
  | start h0 hidle hst =>
    rw [hi.start hst hc]
    exact ⟨q, loc, S, hi⟩

theorem MachineInv.framesIntact (hi : MachineInv m q loc S) : FramesIntact m := by
  have hc := hi.contexts
  have hw (p : ℕ) (hp : OnQueue m p) : Waits m q p := Or.inl (hi.queue.onQueue_iff.mp hp)
  refine ⟨fun p hp => ?_, fun p hp => ?_, hc.popped⟩
  · have hf := hc.waiting.frames p (hw p hp)
    exact ⟨hf.length, hf.words⟩
  · have hf := hc.waiting.frames p (hw p hp)
    have hk := hc.waiting.known p (hw p hp)
    refine ⟨loc p, hk, hf.lo.le, hf.hi, fun p' hp' hne hin => ?_, fun h0 hin => ?_⟩
    · have hf' := hc.waiting.frames p' (hw p' hp')
      have hlo := hf'.lo
      have hhi := hf'.hi
      simp only [frameSize] at hhi
      rcases hc.layout.apart _ _ (hc.waiting.known p' (hw p' hp')) hk
        (hc.waiting.apart p' (hw p' hp') p (hw p hp) hne) with h | h
      · omega
      · omega
    · have hh := hc.here h0
      exact hh.free p (hw p hp) (hc.layout.stack_unique hk hh.known hin hh.runs.bounds)

/-- Two waiting processes have different frames. -/
theorem FramesIntact.frame_ne (h : FramesIntact m) {p p' : ℕ} (hp : OnQueue m p)
    (hp' : OnQueue m p') (hne : p' ≠ p) : m.frame p ≠ m.frame p' := by
  intro heq
  obtain ⟨T, -, hlo, hhi, hother, -⟩ := h.isolated p hp
  simp only [frameSize] at hhi
  rw [heq] at hlo hhi
  exact hother p' hp' hne ⟨hlo, by omega⟩

theorem machine_reachable (hr : (machineSystem.restrict KeepsFrames).Reachable m) :
    ∃ q loc S, MachineInv m q loc S := by
  apply hr.restrict_invariant (I := fun m => ∃ q loc S, MachineInv m q loc S)
  · intro m hm
    exact ⟨_, _, _, MachineInv.init hm⟩
  · rintro m op m' ⟨q, loc, S, hi⟩ hc hs
    exact machine_step hi hc hs

/-- As long as no process enters the kernel from ring 3 while another one has its frame on the
stack of RSP0, no interrupt comes between the two halves of a switch in `exit`, and the creations,
`execve` and `scheduler_start` do not spoil the queue, every waiting process keeps its frame and
every switch resumes the words saved. -/
theorem frames_intact (hr : (machineSystem.restrict KeepsFrames).Reachable m) :
    FramesIntact m := by
  obtain ⟨q, loc, S, hi⟩ := machine_reachable hr
  exact hi.framesIntact

end Runs

/-! ### Two user processes -/

/-- The boot code after `scheduler_init`. -/
def bootMachine : Machine :=
  { run := ⟨schedulerInit (staticSched 0x1000) 0xFFFF900000000000 0x2000, [], []⟩
    rsp0 := 0xFFFFFFFF80200000, bootStack := (0xFFFFFFFF80300000, 0xFFFFFFFF80304000)
    cs := gdtSelectorKernelCs, rsp := 0xFFFFFFFF80303000, active := 0x1000
    stages := fun _ => .outside, saved := fun _ => idleFrame 0x2000, popped := none }

def advances (n : ℕ) (m : Machine) : Machine := Machine.advance^[n] m

def interruptFrame (cs rsp : ℕ) : List ℕ :=
  List.replicate 15 0 ++ [0x20, 0, 0x400010, cs, 0x202, rsp, 0]

/-- The memory after an entry whose handler writes nothing. -/
def entryMem (m : Machine) : Mem := storeWords m.mem m.frameAddr (interruptFrame m.cs m.rsp)

def tick (m : Machine) : Machine := m.timer (interruptFrame m.cs m.rsp) (entryMem m)

/-- An interrupt of another device. -/
def press (m : Machine) : Machine := m.withSched (m.entered (entryMem m))

/-- `int 0x80` with the number of `exit`. -/
def callExit (m : Machine) : Machine :=
  Machine.exit { m.withSched (m.entered (entryMem m)) with cs := gdtSelectorKernelCs
                                                           rsp := m.frameAddr }

section Steps
variable {m : Machine}

theorem interruptFrame_pushed (hcs : m.cs < 2^64) (hrsp : m.rsp < 2^64) :
    m.Pushed (interruptFrame m.cs m.rsp) := by
  refine ⟨rfl, frame_lt (fun w hw => ?_), rfl, fun _ => rfl⟩
  simp only [List.mem_cons, List.not_mem_nil, or_false] at hw
  rcases hw with rfl | rfl | rfl | rfl | rfl | rfl | rfl
  · decide
  · decide
  · decide
  · exact hcs
  · decide
  · exact hrsp
  · decide

theorem advances_reachable (hr : (machineSystem.restrict KeepsFrames).Reachable m) (n : ℕ)
    (h : ∀ k < n, (advances k m).stage ≠ .outside) :
    (machineSystem.restrict KeepsFrames).Reachable (advances n m) := by
  induction n with
  | zero => exact hr
  | succ n ih =>
    have hn := ih (fun k hk => h k (Nat.lt_succ_of_lt hk))
    have hadv : advances (n + 1) m = (advances n m).advance :=
      Function.iterate_succ_apply' _ _ _
    rw [hadv]
    exact .step (i := .advance) hn ⟨trivial, .advance (h n (Nat.lt_succ_self n))⟩

/-- An interrupt of the code on the stack `S` can push its frame. -/
def Machine.Interruptible (m : Machine) (S : StackId) : Prop :=
  m.cs < 2^64 ∧ m.rsp < 2^64 ∧
    (m.cs % 4 = 0 → m.lo S < m.rsp ∧ m.rsp ≤ m.hi S ∧ m.lo S < m.frameAddr)

instance (S : StackId) : Decidable (m.Interruptible S) :=
  inferInstanceAs (Decidable (_ ∧ _))

theorem hasRoom_ring3 (h3 : m.cs % 4 ≠ 0) : m.HasRoom := fun h0 => absurd h0 h3

/-- It is enough to know one stack that the code runs on. -/
theorem Machine.Interruptible.hasRoom {S : StackId} (h : m.Interruptible S)
    (hr : (machineSystem.restrict KeepsFrames).Reachable m) (hS : m.Known S) : m.HasRoom := by
  obtain ⟨q, loc, T, hi⟩ := machine_reachable hr
  intro h0 U hU h3 h4
  obtain ⟨h1, h2, hlo⟩ := h.2.2 h0
  rw [hi.contexts.layout.stack_unique hU hS ⟨h3, h4⟩ ⟨h1, h2⟩]
  exact hlo

/-- The frames of the processes in a given queue lie elsewhere. -/
theorem interruptStackFree_of_linked {q : List ℕ}
    (hl : Linked m.sched.next 0 m.sched.readyQueueHead q)
    (h : ∀ p ∈ q, ¬ (m.lo .interrupt ≤ m.frame p ∧ m.frame p < m.hi .interrupt)) :
    InterruptStackFree m :=
  fun p hp => h p (hp.2.mem hl hp.1)

theorem tick_step {S : StackId} (h : m.Interruptible S) (hroom : m.HasRoom) :
    machineSystem.step m (.timer (interruptFrame m.cs m.rsp) (entryMem m)) (tick m) :=
  .timer (interruptFrame_pushed h.1 h.2.1) hroom SameOff.rfl

/-- A timer interrupt of the code of ring 0. -/
theorem tick_reachable {S : StackId} (hr : (machineSystem.restrict KeepsFrames).Reachable m)
    (h : m.Interruptible S) (h0 : m.cs % 4 = 0) (hS : m.Known S) (hst : m.stage = .outside) :
    (machineSystem.restrict KeepsFrames).Reachable (tick m) := by
  refine .step (i := .timer (interruptFrame m.cs m.rsp) (entryMem m)) hr
    ⟨⟨fun h3 => absurd h0 h3, ?_⟩, tick_step h (h.hasRoom hr hS)⟩
  rw [hst]
  exact id

/-- An interrupt between two pops of `switch_to_proc`. -/
theorem press_reachable {S : StackId} (hr : (machineSystem.restrict KeepsFrames).Reachable m)
    (h : m.Interruptible S) (h0 : m.cs % 4 = 0) (hS : m.Known S) {due got : List ℕ}
    (hst : m.stage = .restoring due got .outside) :
    (machineSystem.restrict KeepsFrames).Reachable (press m) := by
  refine .step (i := .irq (interruptFrame m.cs m.rsp) (entryMem m)) hr
    ⟨⟨fun h3 => absurd h0 h3, ?_⟩,
      .irq (interruptFrame_pushed h.1 h.2.1) (h.hasRoom hr hS) SameOff.rfl⟩
  rw [hst]
  exact id

theorem callExit_reachable {S : StackId}
    (hr : (machineSystem.restrict KeepsFrames).Reachable m) (h : m.Interruptible S)
    (h3 : m.cs % 4 ≠ 0) (hfree : InterruptStackFree m) (hst : m.stage = .outside)
    (hruns : m.RunsOn .interrupt m.frameAddr) :
    (machineSystem.restrict KeepsFrames).Reachable (callExit m) := by
  have hcall : (machineSystem.restrict KeepsFrames).Reachable
      { m.withSched (m.entered (entryMem m)) with cs := gdtSelectorKernelCs
                                                  rsp := m.frameAddr } :=
    .step (i := .syscall (interruptFrame m.cs m.rsp)) hr
      ⟨hfree, .syscall h3 (interruptFrame_pushed h.1 h.2.1)⟩
  have h0 : gdtSelectorKernelCs % 4 = 0 := rfl
  exact .step (i := .exit) hcall ⟨trivial, .exit h0 hruns hst⟩

end Steps

/-- One process with the PCB 0x5000, and the creation of a second one with the PCB 0x6000. -/
def oneCreated : Machine := advances 3 (bootMachine.create 0x5000 0xFFFF900000010000 0x400000)
def nextCreated : Machine := oneCreated.create 0x6000 0xFFFF900000020000 0x400000
def twoCreated : Machine := advances 3 nextCreated

/-- What the two creations come to. -/
theorem twoCreated_values :
    (∀ k < 3, (advances k (bootMachine.create 0x5000 0xFFFF900000010000 0x400000)).stage ≠
      .outside) ∧
    oneCreated.run.procs = [0x1000, 0x5000] ∧ oneCreated.cs % 4 = 0 ∧
    oneCreated.active = oneCreated.sched.idleProc ∧ oneCreated.stage = .outside ∧
    (∀ S ∈ [StackId.interrupt, .boot, .kernel 0x1000, .kernel 0x5000],
      0xFFFF900000020000 + kernelStackSize ≤ oneCreated.lo S ∨
        oneCreated.hi S ≤ 0xFFFF900000020000) ∧
    (∀ k < 3, (advances k nextCreated).stage ≠ .outside) ∧ twoCreated.Interruptible .boot ∧
    twoCreated.cs % 4 = 0 ∧ twoCreated.stage = .outside := by
  decide +kernel

theorem bootMachine_known {S : StackId} (hS : bootMachine.Known S) :
    S = .interrupt ∨ S = .boot ∨ S = .kernel 0x1000 := by
  cases S with
  | interrupt => exact Or.inl rfl
  | boot => exact Or.inr (Or.inl rfl)
  | kernel p =>
    have hp : p = 0x1000 := List.mem_singleton.mp hS
    exact Or.inr (Or.inr (congrArg StackId.kernel hp))

theorem bootMachine_init : machineSystem.init bootMachine := by
  refine ⟨staticSched 0x1000, 0xFFFF900000000000, 0x2000, rfl, rfl, by decide, rfl, ?_, rfl, ?_,
    rfl, fun _ => rfl, rfl, rfl⟩
  · refine ⟨by decide, fun S hS => ?_, fun S T hS hT hne => ?_⟩
    · rcases bootMachine_known hS with rfl | rfl | rfl <;> exact ⟨by decide, by decide⟩
    · rcases bootMachine_known hS with rfl | rfl | rfl <;>
        rcases bootMachine_known hT with rfl | rfl | rfl
      all_goals first | exact absurd rfl hne | decide
  · exact ⟨by decide, by decide⟩

theorem oneCreated_reachable : (machineSystem.restrict KeepsFrames).Reachable oneCreated := by
  have hk : KeepsFrames bootMachine (.create 0x5000 0xFFFF900000010000 0x400000) := by
    change (0xFFFF900000010000 : ℕ) ≠ 0
    decide
  refine advances_reachable (.step (.init bootMachine_init) ⟨hk, .create rfl rfl rfl (by decide)
    (by decide) (fun _ => ⟨by decide, by decide, by decide, fun S hS => ?_⟩) (by decide)⟩) 3
    twoCreated_values.1
  rcases bootMachine_known hS with rfl | rfl | rfl <;> decide

theorem nextCreated_reachable :
    (machineSystem.restrict KeepsFrames).Reachable nextCreated := by
  have hk : KeepsFrames oneCreated (.create 0x6000 0xFFFF900000020000 0x400000) := by
    change (0xFFFF900000020000 : ℕ) ≠ 0
    decide
  obtain ⟨-, hprocs, h0, hidle, hst, hfree, -⟩ := twoCreated_values
  have hnew : 0x6000 ∉ oneCreated.run.procs := by
    rw [hprocs]
    decide
  refine .step oneCreated_reachable ⟨hk, .create h0 hidle hst (by decide) hnew
    (fun _ => ⟨by decide, by decide, by decide, fun S hS => hfree S ?_⟩) (by decide)⟩
  cases S with
  | interrupt => decide
  | boot => decide
  | kernel p =>
    have hp : p ∈ oneCreated.run.procs := hS
    rw [hprocs] at hp
    rcases List.mem_cons.mp hp with rfl | hp
    · decide
    · rw [List.mem_singleton.mp hp]
      decide

/-- The first process runs. -/
theorem firstRuns_reachable :
    (machineSystem.restrict KeepsFrames).Reachable (tick twoCreated) := by
  obtain ⟨-, -, -, -, -, -, hadv, hi, h0, hst⟩ := twoCreated_values
  exact tick_reachable (advances_reachable nextCreated_reachable 3 hadv) hi h0 trivial hst

/-- The first process in ring 3, and after one and two more interrupts. -/
theorem firstRuns_values :
    (tick twoCreated).Interruptible .interrupt ∧ (tick twoCreated).cs % 4 ≠ 0 ∧
    (tick twoCreated).stage = .outside ∧
    ((tick twoCreated).lo .interrupt < (tick twoCreated).frameAddr ∧
      (tick twoCreated).frameAddr ≤ (tick twoCreated).top .interrupt) ∧
    (tick twoCreated).sched.readyQueueHead = 0x6000 ∧
    (tick twoCreated).sched.next 0x6000 = 0x1000 ∧ (tick twoCreated).sched.next 0x1000 = 0 ∧
    (∀ p ∈ [0x6000, 0x1000], ¬ ((tick twoCreated).lo .interrupt ≤ (tick twoCreated).frame p ∧
      (tick twoCreated).frame p < (tick twoCreated).hi .interrupt)) ∧
    (tick (tick twoCreated)).Interruptible .interrupt ∧ (tick (tick twoCreated)).cs % 4 ≠ 0 ∧
    (tick (tick (tick twoCreated))).sched.readyQueueHead = 0x5000 ∧
    (tick (tick (tick twoCreated))).sched.next 0x5000 = 0x6000 ∧
    (tick (tick (tick twoCreated))).frame 0x5000 =
      (tick (tick (tick twoCreated))).frame 0x6000 := by
  decide +kernel

/-- The first process exits. -/
def firstExits : Machine := callExit (tick twoCreated)

theorem firstExits_reachable : (machineSystem.restrict KeepsFrames).Reachable firstExits := by
  obtain ⟨hi, h3, hst, hruns, hhead, hnext, hlast, hfree, -⟩ := firstRuns_values
  refine callExit_reachable firstRuns_reachable hi h3
    (interruptStackFree_of_linked (q := [0x6000, 0x1000]) ?_ hfree) hst hruns
  exact ⟨hhead, by decide, hnext, by decide, hlast⟩

/-- `switch_to_proc` pops the frame of the second process, an interrupt comes after five words,
and the process runs in the end. -/
def secondRuns : Machine := advances 13 (press (advances 10 firstExits))

/-- `exit` with an interrupt after four stores, and with one after ten. -/
theorem firstExits_values :
    (∀ k < 10, (advances k firstExits).stage ≠ .outside) ∧
    (advances 4 firstExits).Interruptible .interrupt ∧
    (tick (advances 4 firstExits)).sched.readyQueueHead = 0x6000 ∧
    loadWords (tick (advances 4 firstExits)).mem ((tick (advances 4 firstExits)).frame 0x6000) 22 ≠
      (tick (advances 4 firstExits)).saved 0x6000 ∧
    (advances 10 firstExits).Interruptible (.kernel 0x6000) ∧
    (advances 10 firstExits).cs % 4 = 0 ∧ 0x6000 ∈ (advances 10 firstExits).run.procs ∧
    (advances 10 firstExits).stage =
      .restoring (userFrame 0x400000 userStackTop) (List.replicate 5 0) .outside ∧
    (∀ k < 13, (advances k (press (advances 10 firstExits))).stage ≠ .outside) ∧
    secondRuns.active = 0x6000 ∧ secondRuns.cs = gdtSelectorUserCs ||| 3 := by
  decide +kernel

theorem secondRuns_reachable : (machineSystem.restrict KeepsFrames).Reachable secondRuns := by
  obtain ⟨hadv, -, -, -, hi, h0, hproc, hst, hpops, -⟩ := firstExits_values
  have hr : (machineSystem.restrict KeepsFrames).Reachable (advances 10 firstExits) :=
    advances_reachable firstExits_reachable 10 hadv
  exact advances_reachable (press_reachable hr hi h0 hproc hst) 13 hpops

theorem frames_intact_second_runs : FramesIntact secondRuns ∧ secondRuns.active = 0x6000 ∧
    secondRuns.cs = gdtSelectorUserCs ||| 3 := by
  obtain ⟨-, -, -, -, -, -, -, -, -, hactive, hcs⟩ := firstExits_values
  exact ⟨frames_intact secondRuns_reachable, hactive, hcs⟩

/-- The first process is interrupted in ring 3, then the second one: its frame is pushed where the
frame of the first one is. -/
theorem frames_intact_fails :
    machineSystem.Reachable (tick (tick (tick twoCreated))) ∧
      OnQueue (tick (tick (tick twoCreated))) 0x5000 ∧
      OnQueue (tick (tick (tick twoCreated))) 0x6000 ∧
      (tick (tick (tick twoCreated))).frame 0x5000 = (tick (tick (tick twoCreated))).frame 0x6000 ∧
      ¬ FramesIntact (tick (tick (tick twoCreated))) := by
  obtain ⟨hi1, h31, -, -, -, -, -, -, hi2, h32, hhead, hnext, hframe⟩ := firstRuns_values
  have h2 : machineSystem.Reachable (tick (tick twoCreated)) :=
    .step firstRuns_reachable.of_restrict (tick_step hi1 (hasRoom_ring3 h31))
  have h3 : machineSystem.Reachable (tick (tick (tick twoCreated))) :=
    .step h2 (tick_step hi2 (hasRoom_ring3 h32))
  have hfirst : OnQueue (tick (tick (tick twoCreated))) 0x5000 := by
    refine ⟨by decide, ?_⟩
    rw [hhead]
    exact .here _
  have hsecond : OnQueue (tick (tick (tick twoCreated))) 0x6000 := by
    refine ⟨by decide, ?_⟩
    rw [hhead]
    refine .next (by decide) ?_
    rw [hnext]
    exact .here _
  exact ⟨h3, hfirst, hsecond, hframe, fun h => h.frame_ne hfirst hsecond (by decide) hframe⟩

/-- A timer interrupt between `g_current_proc = next` and `switch_to_proc`: the second process is
queued with a frame of the first one on the interrupt stack. -/
theorem half_switch_loses_frame :
    machineSystem.Reachable (tick (advances 4 firstExits)) ∧
      ¬ FramesIntact (tick (advances 4 firstExits)) := by
  obtain ⟨hadv, hi, hhead, hwords, -⟩ := firstExits_values
  have hr : (machineSystem.restrict KeepsFrames).Reachable (advances 4 firstExits) :=
    advances_reachable firstExits_reachable 4 (fun k hk => hadv k (by omega))
  have hqueued : OnQueue (tick (advances 4 firstExits)) 0x6000 := by
    refine ⟨by decide, ?_⟩
    rw [hhead]
    exact .here _
  exact ⟨.step hr.of_restrict (tick_step hi (hi.hasRoom hr trivial)),
    fun h => hwords (h.complete 0x6000 hqueued).2⟩

end SukiOS

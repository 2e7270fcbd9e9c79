import SukiOS.Context

/-! Frames on stacks: what the saved frame of a waiting process must hold for it to go on, and
which writes keep it. -/
namespace SukiOS
open ByteMemory LinkedList MachineWord Transition

/-! ### What the scheduler does not touch -/

/-- Memory, saved stack pointers and kernel stacks are the same. -/
structure SameData (s s' : Sched) : Prop where
  mem : s'.mem = s.mem
  idleProc : s'.idleProc = s.idleProc
  rsp : ∀ p, (s'.pcb p).rsp = (s.pcb p).rsp
  kernelStack : ∀ p, (s'.pcb p).kernelStack = (s.pcb p).kernelStack

section Data
variable {s s' s'' : Sched}

theorem SameData.rfl : SameData s s :=
  ⟨Eq.refl _, Eq.refl _, fun _ => Eq.refl _, fun _ => Eq.refl _⟩

theorem SameData.trans (h : SameData s s') (h' : SameData s' s'') : SameData s s'' :=
  ⟨h'.mem.trans h.mem, h'.idleProc.trans h.idleProc, fun p => (h'.rsp p).trans (h.rsp p),
    fun p => (h'.kernelStack p).trans (h.kernelStack p)⟩

theorem sameData_update (s : Sched) (p : ℕ) (f : Pcb → Pcb) (h1 : ∀ c, (f c).rsp = c.rsp)
    (h2 : ∀ c, (f c).kernelStack = c.kernelStack) : SameData s (s.update p f) := by
  refine ⟨rfl, rfl, fun r => ?_, fun r => ?_⟩
  · rw [Sched.update_pcb]
    split
    · rename_i h
      rw [h, h1]
    · rfl
  · rw [Sched.update_pcb]
    split
    · rename_i h
      rw [h, h2]
    · rfl

theorem sameData_setState (s : Sched) (p : ℕ) (st : ProcState) : SameData s (s.setState p st) :=
  sameData_update s p _ (fun _ => rfl) (fun _ => rfl)

theorem sameData_setNext (s : Sched) (p n : ℕ) : SameData s (s.setNext p n) :=
  sameData_update s p _ (fun _ => rfl) (fun _ => rfl)

theorem sameData_enqueue (s : Sched) (p : ℕ) : SameData s (enqueue s p) := by
  have h := (sameData_setNext s p 0).trans (sameData_setState _ p .ready)
  by_cases ht : s.readyQueueTail = 0
  · rw [enqueue_empty s p ht]
    exact ⟨h.mem, h.idleProc, h.rsp, h.kernelStack⟩
  · rw [enqueue_nonempty s p ht]
    have h' := h.trans (sameData_setNext _ s.readyQueueTail p)
    exact ⟨h'.mem, h'.idleProc, h'.rsp, h'.kernelStack⟩

theorem sameData_dequeue (s : Sched) : SameData s (dequeue s).1 := by
  unfold dequeue
  split
  · exact SameData.rfl
  · exact ⟨rfl, rfl, fun _ => rfl, fun _ => rfl⟩

theorem sameData_schedule (s : Sched) : SameData s (schedule s).1 := by
  have hreq : SameData s (requeued s) := by
    unfold requeued
    split
    · exact (sameData_dequeue s).trans ((sameData_enqueue _ _).trans (sameData_setState _ _ _))
    · exact sameData_dequeue s
  rw [schedule_eq]
  by_cases hr : s.schedulerReady = false
  · rw [if_pos hr]
    exact SameData.rfl
  rw [if_neg hr]
  by_cases hp : s.currentProc = pick s
  · rw [if_pos hp]
    exact sameData_dequeue s
  · rw [if_neg hp]
    have h := sameData_setState { requeued s with currentProc := pick s } (pick s) .running
    exact ⟨h.mem.trans hreq.mem, h.idleProc.trans hreq.idleProc,
      fun p => (h.rsp p).trans (hreq.rsp p),
      fun p => (h.kernelStack p).trans (hreq.kernelStack p)⟩

theorem saveRsp_mem (s : Sched) (rsp : ℕ) : (saveRsp s rsp).mem = s.mem := by
  unfold saveRsp
  split <;> rfl

theorem saveRsp_rsp (s : Sched) (rsp p : ℕ) (hc : s.currentProc ≠ 0) :
    ((saveRsp s rsp).pcb p).rsp = if p = s.currentProc then rsp else (s.pcb p).rsp := by
  rw [saveRsp, if_pos hc, Sched.update_pcb]
  split <;> rfl

theorem saveRsp_rsp_of_ne (s : Sched) (rsp : ℕ) {p : ℕ} (hp : p ≠ s.currentProc) :
    ((saveRsp s rsp).pcb p).rsp = (s.pcb p).rsp := by
  unfold saveRsp
  split
  · rw [Sched.update_pcb, if_neg hp]
  · rfl

theorem saveRsp_kernelStack (s : Sched) (rsp p : ℕ) :
    ((saveRsp s rsp).pcb p).kernelStack = (s.pcb p).kernelStack := by
  unfold saveRsp
  split
  · rw [Sched.update_pcb]
    split
    · rename_i h
      rw [h]
    · rfl
  · rfl

/-- What the preparation of a frame writes: the kernel stack and the PCB of the process. -/
theorem prepareUserStack_data (s : Sched) {p kstack : ℕ} (entry top : ℕ) (hk : kstack ≠ 0) :
    let s' := prepareUserStack s p kstack entry top
    s'.mem = storeWords s.mem (stackTop kstack - 22*8) (userFrame entry top) ∧
      s'.idleProc = s.idleProc ∧
      (∀ r, r ≠ p → (s'.pcb r).rsp = (s.pcb r).rsp ∧
        (s'.pcb r).kernelStack = (s.pcb r).kernelStack) ∧
      (s'.pcb p).rsp = stackTop kstack - 22*8 ∧ (s'.pcb p).kernelStack = kstack := by
  intro s'
  have hs' : s' = prepareUserStack s p kstack entry top := rfl
  simp only [prepareUserStack, if_neg hk] at hs'
  rw [hs']
  refine ⟨rfl, rfl, fun r hr => ?_, ?_, ?_⟩
  · simp only [Sched.update_pcb, if_neg hr, and_self]
  · simp only [Sched.update_pcb, if_true]
  · simp only [Sched.update_pcb, if_true]

/-- What a creation writes besides the queue. -/
theorem prepareProc_data (s : Sched) {p kstack : ℕ} (entry : ℕ) (hk : kstack ≠ 0) :
    let s' := prepareProc s p kstack entry
    s'.mem = storeWords s.mem (stackTop kstack - 22*8) (userFrame entry userStackTop) ∧
      s'.idleProc = s.idleProc ∧
      (∀ r, r ≠ p → (s'.pcb r).rsp = (s.pcb r).rsp ∧
        (s'.pcb r).kernelStack = (s.pcb r).kernelStack) ∧
      (s'.pcb p).rsp = stackTop kstack - 22*8 ∧ (s'.pcb p).kernelStack = kstack := by
  intro s'
  let s1 := { s with nextPid := s.nextPid + 1 }.update p (fun c =>
    { c with fds := fun i => if i < maxFd then 0 else c.fds i, pid := s.nextPid, state := .ready
             next := 0, userStack := userStackTop, entryPoint := entry, cr3 := 0 })
  obtain ⟨hmem, hid, hother, hrsp, hstack⟩ :=
    prepareUserStack_data s1 (p := p) entry userStackTop hk
  have hd : SameData (prepareUserStack s1 p kstack entry userStackTop) s' :=
    (sameData_setNext _ p 0).trans (sameData_setState _ p .ready)
  refine ⟨hd.mem.trans hmem, hd.idleProc.trans hid, fun r hr => ?_, (hd.rsp p).trans hrsp,
    (hd.kernelStack p).trans hstack⟩
  have hs1 : (s1.pcb r).rsp = (s.pcb r).rsp ∧ (s1.pcb r).kernelStack = (s.pcb r).kernelStack := by
    simp only [s1, Sched.update_pcb, if_neg hr, and_self]
  exact ⟨(hd.rsp r).trans ((hother r hr).1.trans hs1.1),
    (hd.kernelStack r).trans ((hother r hr).2.trans hs1.2)⟩

/-- The creation with its `enqueue` writes the same. -/
theorem procCreateFromElf_data (s : Sched) {p kstack : ℕ} (entry : ℕ) (h0 : p ≠ 0)
    (hk : kstack ≠ 0) :
    let s' := (procCreateFromElf s (some entry) p kstack).1
    s'.mem = storeWords s.mem (stackTop kstack - 22*8) (userFrame entry userStackTop) ∧
      s'.idleProc = s.idleProc ∧
      (∀ r, r ≠ p → (s'.pcb r).rsp = (s.pcb r).rsp ∧
        (s'.pcb r).kernelStack = (s.pcb r).kernelStack) ∧
      (s'.pcb p).rsp = stackTop kstack - 22*8 ∧ (s'.pcb p).kernelStack = kstack := by
  intro s'
  obtain ⟨hmem, hid, hother, hrsp, hstack⟩ := prepareProc_data s (p := p) entry hk
  have hd : SameData (prepareProc s p kstack entry) s' := by
    simp only [s', procCreateFromElf_stores s kstack entry h0]
    split
    · have h := sameData_setNext (prepareProc s p kstack entry)
        (prepareProc s p kstack entry).readyQueueTail p
      exact ⟨h.mem, h.idleProc, h.rsp, h.kernelStack⟩
    · exact ⟨rfl, rfl, fun _ => rfl, fun _ => rfl⟩
  exact ⟨hd.mem.trans hmem, hd.idleProc.trans hid, fun r hr => ⟨(hd.rsp r).trans (hother r hr).1,
    (hd.kernelStack r).trans (hother r hr).2⟩, (hd.rsp p).trans hrsp,
    (hd.kernelStack p).trans hstack⟩

end Data

/-! ### Frames and stacks -/

/-- The stacks in use in `m` are in use in `m'`, at the same place. -/
structure KeepsStacks (m m' : Machine) : Prop where
  rsp0 : m'.rsp0 = m.rsp0
  boot : m'.bootStack = m.bootStack
  kernel : ∀ p ∈ m.run.procs, (m'.run.sched.pcb p).kernelStack = (m.run.sched.pcb p).kernelStack
  procs : ∀ p ∈ m.run.procs, p ∈ m'.run.procs

/-- No other stacks are in use in `m'`. -/
structure SameStacks (m m' : Machine) : Prop extends KeepsStacks m m' where
  old : ∀ p ∈ m'.run.procs, p ∈ m.run.procs

section Stacks
variable {m m' : Machine} {S : StackId}

theorem KeepsStacks.lo (h : KeepsStacks m m') (hS : m.Known S) : m'.lo S = m.lo S := by
  cases S with
  | interrupt => simp only [Machine.lo, h.rsp0]
  | boot => simp only [Machine.lo, h.boot]
  | kernel p => exact h.kernel p hS

theorem KeepsStacks.hi (h : KeepsStacks m m') (hS : m.Known S) : m'.hi S = m.hi S := by
  cases S with
  | interrupt => simp only [Machine.hi, h.rsp0]
  | boot => simp only [Machine.hi, h.boot]
  | kernel p => simp only [Machine.hi, h.kernel p hS]

theorem KeepsStacks.top (h : KeepsStacks m m') (hS : m.Known S) : m'.top S = m.top S := by
  cases S with
  | interrupt => simp only [Machine.top, h.rsp0]
  | boot => simp only [Machine.top, h.boot]
  | kernel p => simp only [Machine.top, h.kernel p hS]

theorem KeepsStacks.known (h : KeepsStacks m m') (hS : m.Known S) : m'.Known S := by
  cases S with
  | interrupt => trivial
  | boot => trivial
  | kernel p => exact h.procs p hS

theorem KeepsStacks.runsOn (h : KeepsStacks m m') (hS : m.Known S) (rsp : ℕ) :
    m'.RunsOn S rsp ↔ m.RunsOn S rsp := by
  simp only [Machine.RunsOn, h.lo hS, h.top hS]

theorem SameStacks.of_data (h0 : m'.rsp0 = m.rsp0) (hb : m'.bootStack = m.bootStack)
    (hd : SameData m.sched m'.sched) (hc : m'.run.created = m.run.created) : SameStacks m m' := by
  have hid : m'.run.sched.idleProc = m.run.sched.idleProc := hd.idleProc
  have hprocs : m'.run.procs = m.run.procs := by simp only [SchedRun.procs, hid, hc]
  exact ⟨⟨h0, hb, fun p _ => hd.kernelStack p, fun _ h => hprocs ▸ h⟩, fun _ h => hprocs ▸ h⟩

theorem SameStacks.old_known (h : SameStacks m m') (hS : m'.Known S) : m.Known S := by
  cases S with
  | interrupt => trivial
  | boot => trivial
  | kernel p => exact h.old p hS

theorem SameStacks.layout (h : SameStacks m m') (hl : Layout m) : Layout m' := by
  have hk := h.toKeepsStacks
  refine ⟨h.rsp0 ▸ hl.align, fun S hS => ?_, fun S T hS hT hne => ?_⟩
  · have hS' := h.old_known hS
    rw [hk.lo hS', hk.hi hS']
    exact hl.high S hS'
  · have hS' := h.old_known hS
    have hT' := h.old_known hT
    rw [hk.lo hS', hk.hi hS', hk.lo hT', hk.hi hT']
    exact hl.apart S T hS' hT' hne

theorem Machine.top_le_hi (m : Machine) (S : StackId) : m.top S ≤ m.hi S := by
  cases S with
  | interrupt => exact Nat.sub_le _ _
  | boot => exact le_rfl
  | kernel p => exact le_rfl

/-- A stack pointer tells the stack it is on. -/
theorem Layout.stack_unique (hl : Layout m) {S T : StackId} {rsp : ℕ} (hS : m.Known S)
    (hT : m.Known T) (h : m.lo S < rsp ∧ rsp ≤ m.hi S) (h' : m.lo T < rsp ∧ rsp ≤ m.hi T) :
    S = T := by
  by_contra hne
  rcases hl.apart S T hS hT hne with h | h
  · omega
  · omega

end Stacks

/-! ### Code on its stack -/

/-- The stretch of `exit` in which the process is a zombie. -/
def Stage.exits : Stage → Prop
  | .exiting => True
  | .unlinked _ => True
  | .picked _ => True
  | .switching _ => True
  | .running _ => True
  | _ => False

/-- No interrupted `switch_to_proc` on the way returns to ring 3. -/
def Stage.ring0 : Stage → Prop
  | .restoring due _ after => frameCs due % 4 = 0 ∧ after.ring0
  | _ => True

/-- The words left to pop are those of `due`. -/
structure Restores (m : Machine) (S : StackId) (due got : List ℕ) (rsp : ℕ) : Prop where
  length : due.length = 22
  popped : due.take got.length = got
  count : got.length ≤ 17
  words : loadWords m.mem rsp (22 - got.length) = due.drop got.length
  lo : m.lo S < rsp
  hi : rsp + 8*(22 - got.length) ≤ m.hi S

/-- Ring-0 code at the stage `st` can go on on the stack `S`: the words that it pops and the
frames further up are there. -/
def Runs (m : Machine) (S : StackId) : Stage → ℕ → Prop
  | .restoring due got after, rsp =>
    Restores m S due got rsp ∧ ¬ after.exits ∧ (frameCs due % 4 ≠ 0 → after = .outside) ∧
      (frameCs due % 4 = 0 → rsp + 8*(22 - got.length) ≤ frameRsp due ∧
        Runs m S after (frameRsp due))
  | _, rsp => m.RunsOn S rsp

/-- The frame of `p` is complete and lies on the stack `S`, on which the process goes on. -/
def FrameAt (m : Machine) (p : ℕ) (S : StackId) : Prop :=
  Runs m S (.restoring (m.saved p) [] (m.stages p)) (m.frame p)

section Runs
variable {m m' : Machine} {S : StackId} {st : Stage} {rsp p : ℕ} {due got : List ℕ}

theorem runs_iff_runsOn (hst : ∀ due got after, st ≠ .restoring due got after) :
    Runs m S st rsp ↔ m.RunsOn S rsp := by
  cases st with
  | restoring due got after => exact absurd rfl (hst due got after)
  | _ => exact Iff.rfl

theorem Restores.congr (h : Restores m S due got rsp) (hs : KeepsStacks m m') (hk : m.Known S)
    (hmem : ∀ x, rsp ≤ x → x < m.hi S → m'.mem x = m.mem x) : Restores m' S due got rsp := by
  refine ⟨h.length, h.popped, h.count, ?_, ?_, ?_⟩
  · rw [← h.words]
    apply loadWords_congr
    intro x h1 h2
    exact hmem x h1 (h2.trans_le h.hi)
  · rw [hs.lo hk]
    exact h.lo
  · rw [hs.hi hk]
    exact h.hi

/-- Only the stack from `rsp` on matters. -/
theorem Runs.congr (h : Runs m S st rsp) (hs : KeepsStacks m m') (hk : m.Known S)
    (hmem : ∀ x, rsp ≤ x → x < m.hi S → m'.mem x = m.mem x) : Runs m' S st rsp := by
  induction st generalizing rsp with
  | restoring due got after ih =>
    obtain ⟨hr, hexits, h3, h0⟩ := h
    refine ⟨hr.congr hs hk hmem, hexits, h3, fun hcs => ?_⟩
    obtain ⟨hle, hafter⟩ := h0 hcs
    exact ⟨hle, ih hafter (fun x h1 h2 => hmem x (by omega) h2)⟩
  | _ => exact (hs.runsOn hk rsp).mpr h

theorem Runs.bounds (h : Runs m S st rsp) : m.lo S < rsp ∧ rsp ≤ m.hi S := by
  cases st with
  | restoring due got after =>
    have hhi := h.1.hi
    exact ⟨h.1.lo, by omega⟩
  | _ => exact ⟨h.1, h.2.trans (m.top_le_hi S)⟩

/-- On the interrupt stack code runs below the CS word of the frame at the top. -/
theorem Runs.below_outer (h : Runs m .interrupt st rsp) : rsp + 40 ≤ m.rsp0 := by
  cases st with
  | restoring due got after =>
    have hhi : rsp + 8*(22 - got.length) ≤ m.rsp0 := h.1.hi
    have hcount := h.1.count
    omega
  | _ =>
    have htop : rsp ≤ m.rsp0 - frameSize := h.2
    have hlo : m.rsp0 - interruptStackSize < rsp := h.1
    simp only [frameSize] at htop
    omega

theorem FrameAt.length (h : FrameAt m p S) : (m.saved p).length = 22 := h.1.length

theorem FrameAt.words (h : FrameAt m p S) : loadWords m.mem (m.frame p) 22 = m.saved p :=
  h.1.words

theorem FrameAt.lo (h : FrameAt m p S) : m.lo S < m.frame p := h.1.lo

theorem FrameAt.hi (h : FrameAt m p S) : m.frame p + frameSize ≤ m.hi S := h.1.hi

theorem FrameAt.congr (h : FrameAt m p S) (hs : KeepsStacks m m') (hk : m.Known S)
    (hsaved : m'.saved p = m.saved p) (hstage : m'.stages p = m.stages p)
    (hframe : m'.frame p = m.frame p)
    (hmem : ∀ x, m.frame p ≤ x → x < m.hi S → m'.mem x = m.mem x) : FrameAt m' p S := by
  unfold FrameAt
  rw [hsaved, hstage, hframe]
  exact Runs.congr h hs hk hmem

/-- The next word of `switch_to_proc`. -/
theorem Runs.pop {after : Stage} (h : Runs m S (.restoring due got after) rsp)
    (hlt : got.length < 17) :
    Runs m S (.restoring due (got ++ [load64 m.mem rsp]) after) (rsp + 8) := by
  obtain ⟨hr, hexits, h3, h0⟩ := h
  have hlen : (got ++ [load64 m.mem rsp]).length = got.length + 1 := by simp
  have hcount : 22 - got.length = (22 - (got.length + 1)) + 1 := by omega
  have hin : got.length < due.length := by
    rw [hr.length]
    omega
  have hwords := hr.words
  rw [hcount, List.drop_eq_getElem_cons hin] at hwords
  obtain ⟨hword, hrest⟩ := List.cons.inj hwords
  have hlo := hr.lo
  have hhi := hr.hi
  refine ⟨⟨hr.length, ?_, ?_, ?_, ?_, ?_⟩, hexits, h3, fun hcs => ?_⟩
  · rw [hlen, List.take_add_one, hr.popped, List.getElem?_eq_getElem hin, hword]
    rfl
  · omega
  · rw [hlen]
    exact hrest
  · omega
  · rw [hlen]
    omega
  · rw [hlen]
    obtain ⟨hle, hafter⟩ := h0 hcs
    exact ⟨by omega, hafter⟩

/-- The words of `iretq` complete the frame. -/
theorem Runs.popped {after : Stage} (h : Runs m S (.restoring due got after) rsp)
    (hge : ¬ got.length < 17) : got ++ loadWords m.mem rsp 5 = due := by
  have hcount : got.length = 17 := by
    have := h.1.count
    omega
  have hwords := h.1.words
  have hpop := h.1.popped
  rw [hcount] at hwords hpop
  calc got ++ loadWords m.mem rsp 5 = due.take 17 ++ due.drop 17 := by rw [hpop, hwords]
    _ = due := List.take_append_drop 17 due

end Runs

/-! ### All stacks -/

/-- The CS word of the frame at the top of the interrupt stack. -/
def outerCs (m : Machine) : ℕ := load64 m.mem (m.rsp0 - frameSize + 8*18)

/-- The processes of `W` wait, each on a stack `loc p` of its own. A frame on the interrupt stack
lies at or below one of ring 3. -/
structure Waiting (m : Machine) (W : ℕ → Prop) (loc : ℕ → StackId) : Prop where
  known : ∀ p, W p → m.Known (loc p)
  frames : ∀ p, W p → FrameAt m p (loc p)
  apart : ∀ p, W p → ∀ p', W p' → p ≠ p' → loc p ≠ loc p'
  outer : ∀ p, W p → loc p = .interrupt → outerCs m % 4 ≠ 0

/-- In ring 0 the active process runs on a stack of its own as well. -/
structure Here (m : Machine) (W : ℕ → Prop) (loc : ℕ → StackId) (S : StackId) : Prop where
  known : m.Known S
  runs : Runs m S m.stage m.rsp
  free : ∀ p, W p → loc p ≠ S
  outer : S = .interrupt → outerCs m % 4 ≠ 0

/-- The idle process is the boot code: it stays in ring 0 and on its stack. -/
structure BootCode (m : Machine) (loc : ℕ → StackId) (S : StackId) : Prop where
  stage : (m.stages m.sched.idleProc).ring0
  active : m.active = m.sched.idleProc → m.cs % 4 = 0 ∧ S = .boot
  waits : m.active ≠ m.sched.idleProc →
    loc m.sched.idleProc = .boot ∧ frameCs (m.saved m.sched.idleProc) % 4 = 0

/-- The stacks of the processes: `W` wait, and the active one uses `S` in ring 0. -/
structure Contexts (m : Machine) (W : ℕ → Prop) (loc : ℕ → StackId) (S : StackId) : Prop where
  layout : Layout m
  waiting : Waiting m W loc
  here : m.cs % 4 = 0 → Here m W loc S
  ring3 : m.cs % 4 ≠ 0 → m.stage = .outside
  boot : BootCode m loc S
  popped : ∀ p ws due, m.popped = some (p, ws, due) → ws.length = 22 ∧ ws = due

section Frames
variable {m m' : Machine} {W W' : ℕ → Prop} {loc : ℕ → StackId} {p : ℕ} {S : StackId}

/-- The stack `S` below `e`, and memory that is no stack. -/
def Machine.Own (m : Machine) (S : StackId) (e : ℕ) : Set ℕ :=
  {x | ∀ T, m.Known T → m.lo T ≤ x → x < m.hi T → T = S ∧ x < e}

/-- Writes to the own stack keep the other ones. -/
theorem Machine.Own.apart {T : StackId} (hT : m.Known T) (hne : T ≠ S) {e : ℕ} {mem : Mem}
    (hoff : SameOff (m.Own S e) m.mem mem) (x : ℕ) (h1 : m.lo T ≤ x) (h2 : x < m.hi T) :
    mem x = m.mem x :=
  hoff x (fun hx => hne (hx T hT h1 h2).1)

/-- And what is above `e`. -/
theorem Machine.Own.above (hS : m.Known S) {e : ℕ} {mem : Mem}
    (hoff : SameOff (m.Own S e) m.mem mem) (x : ℕ) (h1 : m.lo S ≤ x) (h2 : x < m.hi S)
    (he : e ≤ x) : mem x = m.mem x :=
  hoff x (fun hx => absurd (hx S hS h1 h2).2 (by omega))

theorem outerCs_congr (hr : m'.rsp0 = m.rsp0)
    (h : ∀ x, m.rsp0 - frameSize + 8*18 ≤ x → x < m.rsp0 - frameSize + 8*18 + 8 →
      m'.mem x = m.mem x) : outerCs m' = outerCs m := by
  rw [outerCs, outerCs, hr]
  exact load64_congr m.mem m'.mem _ h

theorem Layout.rsp0_lower (hl : Layout m) : 2^47 + interruptStackSize ≤ m.rsp0 := by
  have h : 2^47 ≤ m.rsp0 - interruptStackSize := (hl.high .interrupt trivial).1
  omega

/-- Writes below `e` on a stack keep the CS word at the top of the interrupt stack. -/
theorem outerCs_of_sameOff (hl : Layout m) {e : ℕ} (hint : S = .interrupt → e + 32 ≤ m.rsp0)
    (hr : m'.rsp0 = m.rsp0) (hoff : SameOff (m.Own S e) m.mem m'.mem) :
    outerCs m' = outerCs m := by
  have hlow := hl.rsp0_lower
  simp only [interruptStackSize] at hlow
  apply outerCs_congr hr
  intro x h1 h2
  simp only [frameSize] at h1 h2
  have hlo : m.lo .interrupt ≤ x := by
    simp only [Machine.lo, interruptStackSize]
    omega
  have hhi : x < m.hi .interrupt := by
    simp only [Machine.hi]
    omega
  apply hoff
  intro hx
  obtain ⟨hS, he⟩ := hx .interrupt trivial hlo hhi
  have hle := hint hS.symm
  omega

theorem Waiting.mono (hw : Waiting m W loc) (h : ∀ p, W' p → W p) : Waiting m W' loc :=
  ⟨fun p hp => hw.known p (h p hp), fun p hp => hw.frames p (h p hp),
    fun p hp p' hp' => hw.apart p (h p hp) p' (h p' hp'), fun p hp => hw.outer p (h p hp)⟩

/-- One more process may wait, on a stack that the others do not use. -/
theorem Waiting.add {ok : Prop} (hw : Waiting m W loc) (hp : ¬ W p) (hS : m.Known S)
    (hf : ok → FrameAt m p S) (hfree : ∀ r, W r → loc r ≠ S)
    (hout : S = .interrupt → outerCs m % 4 ≠ 0) :
    Waiting m (fun r => W r ∨ r = p ∧ ok) (Function.update loc p S) := by
  have hself : Function.update loc p S p = S := Function.update_self _ _ _
  have hother (r : ℕ) (hr : W r) : Function.update loc p S r = loc r :=
    Function.update_of_ne (fun (h : r = p) => hp (h ▸ hr)) _ _
  refine ⟨fun r hr => ?_, fun r hr => ?_, fun r hr r' hr' hne => ?_, fun r hr h1 => ?_⟩
  · rcases hr with hr | ⟨rfl, -⟩
    · rw [hother r hr]
      exact hw.known r hr
    · rwa [hself]
  · rcases hr with hr | ⟨rfl, hok⟩
    · rw [hother r hr]
      exact hw.frames r hr
    · rw [hself]
      exact hf hok
  · rcases hr with hr | ⟨rfl, -⟩
    · rcases hr' with hr' | ⟨rfl, -⟩
      · rw [hother r hr, hother r' hr']
        exact hw.apart r hr r' hr' hne
      · rw [hself, hother r hr]
        exact hfree r hr
    · rcases hr' with hr' | ⟨rfl, -⟩
      · rw [hself, hother r' hr']
        exact (hfree r' hr').symm
      · exact absurd rfl hne
  · rcases hr with hr | ⟨rfl, -⟩
    · rw [hother r hr] at h1
      exact hw.outer r hr h1
    · rw [hself] at h1
      exact hout h1

theorem Waiting.congr (hw : Waiting m W loc) (hs : KeepsStacks m m')
    (hsaved : ∀ p, W p → m'.saved p = m.saved p) (hstage : ∀ p, W p → m'.stages p = m.stages p)
    (hframe : ∀ p, W p → m'.frame p = m.frame p)
    (hmem : ∀ p, W p → ∀ x, m.frame p ≤ x → x < m.hi (loc p) → m'.mem x = m.mem x)
    (hout : ∀ p, W p → loc p = .interrupt → outerCs m' = outerCs m) : Waiting m' W loc := by
  refine ⟨fun p hp => hs.known (hw.known p hp), fun p hp => ?_, hw.apart, fun p hp h1 => ?_⟩
  · exact (hw.frames p hp).congr hs (hw.known p hp) (hsaved p hp) (hstage p hp) (hframe p hp)
      (hmem p hp)
  · rw [hout p hp h1]
    exact hw.outer p hp h1

end Frames

theorem align16 (x : ℕ) (hx : x < 2^64) : x &&& (2^64 - 16) = x/16*16 :=
  land_align_down x 4 (by decide) hx

theorem frameCs_eq (mem : Mem) (a : ℕ) : frameCs (loadWords mem a 22) = load64 mem (a + 8*18) :=
  loadWords_getD mem a 22 18 (by decide)

end SukiOS

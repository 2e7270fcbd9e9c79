import SukiOS.ContextFrames

/-! What entering the kernel adds to the stacks, and what `switch_to_proc` takes from them. -/
namespace SukiOS
open ByteMemory LinkedList MachineWord Transition

/-! ### Entering the kernel -/

/-- The stack on which an interrupt pushes its frame. -/
def entryStack (m : Machine) (S : StackId) : StackId :=
  if m.cs % 4 ≠ 0 then .interrupt else S

/-- The frame fits on the stack `S`, which no waiting process uses. -/
structure Entry (m : Machine) (W : ℕ → Prop) (loc : ℕ → StackId) (S : StackId) : Prop where
  known : m.Known S
  free : ∀ p, W p → loc p ≠ S
  lo : m.lo S < m.frameAddr
  hi : m.frameAddr + frameSize ≤ m.hi S
  ring0 : m.cs % 4 = 0 → Runs m S m.stage m.rsp ∧ m.frameAddr + frameSize ≤ m.rsp ∧
    (S = .interrupt → outerCs m % 4 ≠ 0)
  ring3 : m.cs % 4 ≠ 0 → S = .interrupt ∧ m.frameAddr = m.rsp0 - frameSize ∧ m.stage = .outside

/-- The machine in which the interrupted process waits as well. -/
def preempted (m : Machine) (mem : Mem) (ws : List ℕ) : Machine :=
  { m.withSched (m.entered mem) with saved := Function.update m.saved m.active ws }

section Entry
variable {m : Machine} {W : ℕ → Prop} {loc : ℕ → StackId} {S : StackId}

theorem Contexts.entry (hi : Contexts m W loc S) (hroom : m.HasRoom)
    (hfree : m.cs % 4 ≠ 0 → ∀ p, W p → loc p ≠ .interrupt) : Entry m W loc (entryStack m S) := by
  by_cases h0 : m.cs % 4 = 0
  · -- from ring 0 the frame goes to the stack that is in use
    have hS : entryStack m S = S := if_neg (not_not.mpr h0)
    obtain ⟨hk, hruns, hfr, hout⟩ := hi.here h0
    obtain ⟨hr1, hr2⟩ := hruns.bounds
    have h64 := (hi.layout.high _ hk).2
    have hlo := hroom h0 S hk hr1 hr2
    have hf : m.frameAddr = m.rsp/16*16 - frameSize := by
      rw [Machine.frameAddr, if_neg (not_not.mpr h0), align16 _ (by omega)]
    have hfit : m.frameAddr + frameSize ≤ m.rsp := by
      rw [hf, frameSize] at hlo ⊢
      omega
    rw [hS]
    exact ⟨hk, hfr, hlo, hfit.trans hr2, fun _ => ⟨hruns, hfit, hout⟩, fun h => absurd h0 h⟩
  · -- from ring 3 the frame goes to the top of the interrupt stack, where no frame may wait
    have hS : entryStack m S = .interrupt := if_pos h0
    have hlow := hi.layout.rsp0_lower
    have h64 : m.rsp0 < 2^64 := (hi.layout.high .interrupt trivial).2
    have hal := hi.layout.align
    simp only [interruptStackSize] at hlow
    have hf : m.frameAddr = m.rsp0 - frameSize := by
      rw [Machine.frameAddr, if_pos h0, align16 _ h64]
      omega
    rw [hS]
    refine ⟨trivial, hfree h0, ?_, ?_, fun h => absurd h h0, fun _ => ⟨rfl, hf, hi.ring3 h0⟩⟩
    · rw [hf]
      simp only [Machine.lo, frameSize, interruptStackSize]
      omega
    · rw [hf]
      simp only [Machine.hi, frameSize]
      omega

/-- The memory after the frame was pushed and the handler ran. -/
theorem Entry.memory (he : Entry m W loc S) (hl : Layout m) {ws : List ℕ} (hw : m.Pushed ws)
    {mem : Mem} (hs : SameOff (m.Below m.frameAddr) (storeWords m.mem m.frameAddr ws) mem) :
    SameOff (m.Own S (m.frameAddr + frameSize)) m.mem mem ∧
      loadWords mem m.frameAddr 22 = ws := by
  have hlo := he.lo
  have hhi := he.hi
  simp only [frameSize] at hhi
  constructor
  · refine SameOff.trans ((storeWords_sameOff _ _ _).mono ?_) (hs.mono ?_)
    · intro x hx T hT h1 h2
      have hx1 := hx.1
      have hx2 := hx.2
      rw [hw.length] at hx2
      have hin : m.lo T < x + 1 ∧ x + 1 ≤ m.hi T := ⟨by omega, h2⟩
      exact ⟨hl.stack_unique hT he.known hin ⟨by omega, by omega⟩, hx2⟩
    · intro x hx T hT h1 h2
      obtain ⟨hx1, hx2⟩ := hx T hT h1 h2
      refine ⟨hl.stack_unique hT he.known ⟨by omega, hx2⟩ ⟨hlo, by omega⟩, ?_⟩
      simp only [frameSize]
      omega
  · rw [loadWords_congr (storeWords m.mem m.frameAddr ws) mem _ _
      (fun x h1 h2 => hs x (fun hx => ?_))]
    · have h := loadWords_storeWords m.mem m.frameAddr ws hw.word
      rwa [hw.length] at h
    · have h3 := (hx S he.known (by omega) (by omega)).1
      omega

theorem entered_data (m : Machine) (mem : Mem) : (m.entered mem).mem = mem ∧
    (m.entered mem).idleProc = m.sched.idleProc ∧
    ∀ p, ((m.entered mem).pcb p).kernelStack = (m.sched.pcb p).kernelStack :=
  ⟨saveRsp_mem _ _, (saveRsp_links _ _).2.2.2.1, fun p => saveRsp_kernelStack _ _ p⟩

theorem entered_sameStacks (m : Machine) (mem : Mem) :
    SameStacks m (m.withSched (m.entered mem)) := by
  obtain ⟨-, hid, hk⟩ := entered_data m mem
  have hprocs : (m.withSched (m.entered mem)).run.procs = m.run.procs := by
    simp only [Machine.withSched, SchedRun.procs, hid]
    rfl
  exact ⟨⟨rfl, rfl, fun p _ => hk p, fun _ h => hprocs ▸ h⟩, fun _ h => hprocs ▸ h⟩

theorem preempted_sameStacks (m : Machine) (mem : Mem) (ws : List ℕ) :
    SameStacks m (preempted m mem ws) :=
  have h := entered_sameStacks m mem
  ⟨⟨h.rsp0, h.boot, h.kernel, h.procs⟩, h.old⟩

/-- The CS word at the top of the interrupt stack stays, or it is the one of the new frame. -/
theorem Entry.outer (he : Entry m W loc S) (hl : Layout m) {ws : List ℕ} (hw : m.Pushed ws)
    {mem : Mem} (hs : SameOff (m.Below m.frameAddr) (storeWords m.mem m.frameAddr ws) mem)
    (hS : S = .interrupt) : outerCs (m.withSched (m.entered mem)) % 4 ≠ 0 := by
  obtain ⟨hoff, hload⟩ := he.memory hl hw hs
  have hmem : (m.withSched (m.entered mem)).mem = mem := (entered_data m mem).1
  by_cases h0 : m.cs % 4 = 0
  · obtain ⟨hruns, hfit, hout⟩ := he.ring0 h0
    have hsame : outerCs (m.withSched (m.entered mem)) = outerCs m := by
      refine outerCs_of_sameOff hl (fun h => ?_) rfl (by rwa [hmem])
      rw [h] at hruns
      have hbelow := hruns.below_outer
      omega
    rw [hsame]
    exact hout hS
  · obtain ⟨-, hf, -⟩ := he.ring3 h0
    have hcs : outerCs (m.withSched (m.entered mem)) = frameCs (loadWords mem m.frameAddr 22) := by
      rw [frameCs_eq, hf, outerCs, hmem]
      rfl
    rw [hcs, hload, hw.cs]
    exact h0

/-- Pushing a frame keeps the waiting processes. -/
theorem Entry.keep (he : Entry m W loc S) (hl : Layout m) (hwait : Waiting m W loc)
    (hact : ¬ W m.active) (hcurr : m.curr = m.active) {ws : List ℕ} (hw : m.Pushed ws)
    {mem : Mem} (hs : SameOff (m.Below m.frameAddr) (storeWords m.mem m.frameAddr ws) mem) :
    Waiting (m.withSched (m.entered mem)) W loc := by
  obtain ⟨hoff, -⟩ := he.memory hl hw hs
  have hmem : (m.withSched (m.entered mem)).mem = mem := (entered_data m mem).1
  apply hwait.congr (entered_sameStacks m mem).toKeepsStacks
  · exact fun _ _ => rfl
  · exact fun _ _ => rfl
  · intro p hp
    have hpc : p ≠ m.curr := fun h => hact (hcurr ▸ h ▸ hp)
    exact saveRsp_rsp_of_ne { m.sched with mem := mem } _ hpc
  · intro p hp x h1 h2
    rw [hmem]
    have hlo := (hwait.frames p hp).lo
    exact Machine.Own.apart (hwait.known p hp) (he.free p hp) hoff x (by omega) h2
  · intro p hp hloc
    refine outerCs_of_sameOff hl (fun h => ?_) rfl (by rwa [hmem])
    exact absurd (hloc.trans h.symm) (he.free p hp)

/-- The frame of the process that was interrupted. -/
theorem Entry.frameAt (he : Entry m W loc S) (hl : Layout m) (hcurr : m.curr = m.active)
    (hne : m.active ≠ 0) (hexits : ¬ m.stage.exits) {ws : List ℕ} (hw : m.Pushed ws) {mem : Mem}
    (hs : SameOff (m.Below m.frameAddr) (storeWords m.mem m.frameAddr ws) mem) :
    FrameAt (preempted m mem ws) m.active S := by
  obtain ⟨hoff, hload⟩ := he.memory hl hw hs
  have hstacks := (preempted_sameStacks m mem ws).toKeepsStacks
  have hmem : (preempted m mem ws).mem = mem := (entered_data m mem).1
  have hframe : (preempted m mem ws).frame m.active = m.frameAddr :=
    (saveRsp_rsp { m.sched with mem := mem } m.frameAddr m.active
      (fun h => hne (hcurr.symm.trans h))).trans (if_pos hcurr.symm)
  have hself : (preempted m mem ws).saved m.active = ws := Function.update_self _ _ _
  unfold FrameAt
  rw [hself, hframe]
  refine ⟨⟨hw.length, rfl, by simp, ?_, ?_, ?_⟩, hexits, fun h3 => ?_, fun h0 => ?_⟩
  · rw [hmem]
    exact hload
  · rw [hstacks.lo he.known]
    exact he.lo
  · rw [hstacks.hi he.known]
    exact he.hi
  · exact (he.ring3 (hw.cs ▸ h3)).2.2
  · rw [hw.cs] at h0
    obtain ⟨hruns, hfit, -⟩ := he.ring0 h0
    rw [hw.rsp h0]
    -- the new frame lies below everything that the code still needs
    have hlo := hruns.bounds.1
    refine ⟨hfit, hruns.congr hstacks he.known (fun x h1 h2 => ?_)⟩
    rw [hmem]
    exact Machine.Own.above he.known hoff x (by omega) h2 (by omega)

theorem Contexts.interrupted (hi : Contexts m W loc S) (he : Entry m W loc (entryStack m S))
    (hact : ¬ W m.active) (hcurr : m.curr = m.active) {ws : List ℕ} (hw : m.Pushed ws)
    {mem : Mem} (hs : SameOff (m.Below m.frameAddr) (storeWords m.mem m.frameAddr ws) mem) :
    Contexts (m.withSched (m.entered mem)) W loc S := by
  have hstacks := entered_sameStacks m mem
  have hid : (m.withSched (m.entered mem)).sched.idleProc = m.sched.idleProc :=
    (entered_data m mem).2.1
  refine ⟨hstacks.layout hi.layout, he.keep hi.layout hi.waiting hact hcurr hw hs, fun h0 => ?_,
    hi.ring3, ⟨?_, ?_, ?_⟩, hi.popped⟩
  · have hh := hi.here h0
    have hS : entryStack m S = S := if_neg (not_not.mpr h0)
    rw [hS] at he
    refine ⟨hstacks.known hh.known, ?_, hh.free, fun h => he.outer hi.layout hw hs h⟩
    have hlo := hh.runs.bounds.1
    refine hh.runs.congr hstacks.toKeepsStacks hh.known (fun x h1 h2 => ?_)
    have hmem : (m.withSched (m.entered mem)).mem = mem := (entered_data m mem).1
    have hfit := (he.ring0 h0).2.1
    rw [hmem]
    exact Machine.Own.above hh.known (he.memory hi.layout hw hs).1 x (by omega) h2 (by omega)
  · rw [hid]
    exact hi.boot.stage
  · rw [hid]
    exact hi.boot.active
  · rw [hid]
    exact hi.boot.waits

/-- The idle process has its frame on its stack. -/
structure BootWaits (m : Machine) (loc : ℕ → StackId) : Prop where
  stage : (m.stages m.sched.idleProc).ring0
  loc : loc m.sched.idleProc = .boot
  cs : frameCs (m.saved m.sched.idleProc) % 4 = 0

/-- A process that is not on its way out may wait after an interrupt. -/
theorem Contexts.preempt (hi : Contexts m W loc S) (he : Entry m W loc (entryStack m S))
    (hact : ¬ W m.active) (hcurr : m.curr = m.active) (hne : m.active ≠ 0) {ws : List ℕ}
    (hw : m.Pushed ws) {mem : Mem}
    (hs : SameOff (m.Below m.frameAddr) (storeWords m.mem m.frameAddr ws) mem) :
    Waiting (preempted m mem ws) (fun r => W r ∨ r = m.active ∧ ¬ m.stage.exits)
        (Function.update loc m.active (entryStack m S)) ∧
      BootWaits (preempted m mem ws) (Function.update loc m.active (entryStack m S)) := by
  have hstacks := preempted_sameStacks m mem ws
  have hid : (preempted m mem ws).sched.idleProc = m.sched.idleProc := (entered_data m mem).2.1
  constructor
  · have hk : KeepsStacks (m.withSched (m.entered mem)) (preempted m mem ws) :=
      ⟨rfl, rfl, fun _ _ => rfl, fun _ h => h⟩
    have hkeep : Waiting (preempted m mem ws) W loc := by
      apply (he.keep hi.layout hi.waiting hact hcurr hw hs).congr hk
      · exact fun p hp => Function.update_of_ne (fun (h : p = m.active) => hact (h ▸ hp)) _ _
      · exact fun _ _ => rfl
      · exact fun _ _ => rfl
      · exact fun _ _ _ _ _ => rfl
      · exact fun _ _ _ => rfl
    exact hkeep.add hact (hstacks.known he.known)
      (fun hexits => he.frameAt hi.layout hcurr hne hexits hw hs) he.free
      (fun h => he.outer hi.layout hw hs h)
  · by_cases hidle : m.active = m.sched.idleProc
    · obtain ⟨h0, hS⟩ := hi.boot.active hidle
      refine ⟨?_, ?_, ?_⟩
      · rw [hid]
        exact hi.boot.stage
      · rw [hid, ← hidle, Function.update_self, entryStack, if_neg (not_not.mpr h0), hS]
      · rw [hid, ← hidle]
        have hself : (preempted m mem ws).saved m.active = ws := Function.update_self _ _ _
        rw [hself, hw.cs]
        exact h0
    · obtain ⟨hloc, hcs⟩ := hi.boot.waits hidle
      refine ⟨?_, ?_, ?_⟩
      · rw [hid]
        exact hi.boot.stage
      · rw [hid, Function.update_of_ne (Ne.symm hidle)]
        exact hloc
      · have hsame : (preempted m mem ws).saved m.sched.idleProc = m.saved m.sched.idleProc :=
          Function.update_of_ne (Ne.symm hidle) _ _
        rw [hid, hsame]
        exact hcs

end Entry

/-! ### Steps that write no stack -/

section Control
variable {m m' : Machine} {W W' : ℕ → Prop} {loc : ℕ → StackId} {S : StackId} {n : ℕ}

/-- Stacks, memory and saved frames are the same. -/
structure SameMemory (m m' : Machine) : Prop extends SameStacks m m' where
  mem : m'.mem = m.mem
  saved : m'.saved = m.saved
  frame : ∀ p, m'.frame p = m.frame p
  idleProc : m'.sched.idleProc = m.sched.idleProc

theorem SameMemory.of_data (h0 : m'.rsp0 = m.rsp0) (hb : m'.bootStack = m.bootStack)
    (hd : SameData m.sched m'.sched) (hc : m'.run.created = m.run.created)
    (hsaved : m'.saved = m.saved) : SameMemory m m' :=
  ⟨SameStacks.of_data h0 hb hd hc, hd.mem, hsaved, hd.rsp, hd.idleProc⟩

theorem SameMemory.outerCs (h : SameMemory m m') : outerCs m' = outerCs m :=
  outerCs_congr h.rsp0 (fun x _ _ => congrFun h.mem x)

theorem SameMemory.waiting (h : SameMemory m m') (hw : Waiting m W loc)
    (hstage : ∀ p, W' p → m'.stages p = m.stages p) (hsub : ∀ p, W' p → W p) :
    Waiting m' W' loc :=
  (hw.mono hsub).congr h.toKeepsStacks (fun p _ => congrFun h.saved p) hstage
    (fun p _ => h.frame p) (fun _ _ x _ _ => congrFun h.mem x) (fun _ _ _ => h.outerCs)

theorem SameMemory.runs (h : SameMemory m m') {st : Stage} {rsp : ℕ} (hS : m.Known S)
    (hr : Runs m S st rsp) : Runs m' S st rsp :=
  hr.congr h.toKeepsStacks hS (fun x _ _ => congrFun h.mem x)

/-- `switch_to_proc` resumes a process that waits. -/
theorem Waiting.resume {s' : Sched} (hw : Waiting m W loc) (hl : Layout m)
    (hboot : BootWaits m loc) (hd : SameData m.sched s') (hn : W n)
    (hsub : ∀ p, W' p → W p ∧ p ≠ n) : Contexts (m.resume s' n) W' loc (loc n) := by
  have hsame : SameMemory m (m.resume s' n) := SameMemory.of_data rfl rfl hd rfl rfl
  have hfn := hw.frames n hn
  have hws : loadWords s'.mem (s'.pcb n).rsp 22 = m.saved n := by
    rw [hd.mem, hd.rsp]
    exact hfn.words
  have hcs : (m.resume s' n).cs = frameCs (m.saved n) := congrArg frameCs hws
  have hrsp : (m.resume s' n).rsp = frameRsp (m.saved n) := congrArg frameRsp hws
  obtain ⟨-, -, h3, h0⟩ := hfn
  refine ⟨hsame.layout hl, hsame.waiting hw (fun _ _ => rfl) (fun p hp => (hsub p hp).1),
    fun hc => ⟨hsame.known (hw.known n hn), ?_, fun p hp => ?_, fun h => ?_⟩, fun hc => ?_,
    ⟨?_, fun hact => ?_, fun _ => ?_⟩, fun p ws due hp => ?_⟩
  · rw [hrsp]
    exact hsame.runs (hw.known n hn) (h0 (hcs ▸ hc)).2
  · exact hw.apart p (hsub p hp).1 n hn (hsub p hp).2
  · rw [hsame.outerCs]
    exact hw.outer n hn h
  · exact h3 (hcs ▸ hc)
  · rw [hsame.idleProc]
    exact hboot.stage
  · have hni : n = m.sched.idleProc := hact.trans hsame.idleProc
    rw [hcs, hni]
    exact ⟨hboot.cs, hboot.loc⟩
  · rw [hsame.idleProc]
    exact ⟨hboot.loc, hboot.cs⟩
  · obtain ⟨-, hwords⟩ := Prod.mk.inj (Option.some.inj hp)
    obtain ⟨rfl, rfl⟩ := Prod.mk.inj hwords
    rw [hws]
    exact ⟨hw.frames n hn |>.length, rfl⟩

/-- A store of `exit` or `enqueue`. -/
theorem Contexts.restage {r : SchedRun} {st : Stage} (hi : Contexts m W loc S)
    (hact : ¬ W m.active) (h0 : m.cs % 4 = 0) (hd : SameData m.sched r.sched)
    (hc : r.created = m.run.created) (hold : ∀ due got after, m.stage ≠ .restoring due got after)
    (hnew : ∀ due got after, st ≠ .restoring due got after) (hsub : ∀ p, W' p → W p) :
    Contexts ({ m with run := r }.atStage st) W' loc S := by
  let m' : Machine := { m with run := r }.atStage st
  have hsame : SameMemory m m' := SameMemory.of_data rfl rfl hd hc rfl
  have hstage : m'.stage = st := Function.update_self _ _ _
  have hother (p : ℕ) (hp : p ≠ m.active) : m'.stages p = m.stages p :=
    Function.update_of_ne hp _ _
  have hh := hi.here h0
  refine ⟨hsame.layout hi.layout, hsame.waiting hi.waiting (fun p hp => ?_) hsub, fun _ => ?_,
    fun h3 => absurd h0 h3, ⟨?_, ?_, ?_⟩, hi.popped⟩
  · exact hother p (fun h => hact (h ▸ hsub p hp))
  · refine ⟨hsame.known hh.known, ?_, fun p hp => hh.free p (hsub p hp), fun h => ?_⟩
    · apply hsame.runs hh.known
      rw [hstage]
      exact (runs_iff_runsOn hnew).mpr ((runs_iff_runsOn hold).mp hh.runs)
    · rw [hsame.outerCs]
      exact hh.outer h
  · rw [hsame.idleProc]
    by_cases hidle : m.sched.idleProc = m.active
    · rw [hidle]
      change m'.stage.ring0
      rw [hstage]
      cases st with
      | restoring due got after => exact absurd rfl (hnew due got after)
      | _ => trivial
    · rw [hother _ hidle]
      exact hi.boot.stage
  · rw [hsame.idleProc]
    exact hi.boot.active
  · rw [hsame.idleProc]
    exact hi.boot.waits

/-- `switch_to_proc` takes the stack pointer of a waiting process. -/
theorem Contexts.switch (hi : Contexts m W loc S) (hidle : m.active ≠ m.sched.idleProc)
    (h0 : m.cs % 4 = 0) (hn : W n) (hsub : ∀ p, W' p → W p ∧ p ≠ n) :
    Contexts ({ m with rsp := m.frame n, active := n }.atStage
      (.restoring (m.saved n) [] (m.stages n))) W' loc (loc n) := by
  let m' : Machine := { m with rsp := m.frame n, active := n }.atStage
    (.restoring (m.saved n) [] (m.stages n))
  have hsame : SameMemory m m' := SameMemory.of_data rfl rfl SameData.rfl rfl rfl
  have hstage : m'.stage = .restoring (m.saved n) [] (m.stages n) := Function.update_self _ _ _
  have hother (p : ℕ) (hp : p ≠ n) : m'.stages p = m.stages p := Function.update_of_ne hp _ _
  have hk := hi.waiting.known n hn
  obtain ⟨hloc, hcs⟩ := hi.boot.waits hidle
  refine ⟨hsame.layout hi.layout, hsame.waiting hi.waiting (fun p hp => hother p (hsub p hp).2)
    (fun p hp => (hsub p hp).1), fun _ => ⟨hsame.known hk, ?_, fun p hp => ?_, fun h => ?_⟩,
    fun h3 => absurd h0 h3, ⟨?_, fun hact => ?_, fun _ => ⟨hloc, hcs⟩⟩, hi.popped⟩
  · apply hsame.runs hk
    rw [hstage]
    exact hi.waiting.frames n hn
  · exact hi.waiting.apart p (hsub p hp).1 n hn (hsub p hp).2
  · rw [hsame.outerCs]
    exact hi.waiting.outer n hn h
  · change (m'.stages m.sched.idleProc).ring0
    by_cases hni : m.sched.idleProc = n
    · rw [hni]
      change m'.stage.ring0
      rw [hstage, ← hni]
      exact ⟨hcs, hi.boot.stage⟩
    · rw [hother _ hni]
      exact hi.boot.stage
  · have hni : n = m.sched.idleProc := hact
    rw [hni]
    exact ⟨h0, hloc⟩

/-- The next `pop` of `switch_to_proc`. -/
theorem Contexts.pop {due got : List ℕ} {after : Stage} (hi : Contexts m W loc S)
    (hact : ¬ W m.active) (hst : m.stage = .restoring due got after) (h0 : m.cs % 4 = 0)
    (hlt : got.length < 17) :
    Contexts ({ m with rsp := m.rsp + 8 }.atStage
      (.restoring due (got ++ [load64 m.mem m.rsp]) after)) W loc S := by
  let m' : Machine := { m with rsp := m.rsp + 8 }.atStage
    (.restoring due (got ++ [load64 m.mem m.rsp]) after)
  have hsame : SameMemory m m' := SameMemory.of_data rfl rfl SameData.rfl rfl rfl
  have hstage : m'.stage = .restoring due (got ++ [load64 m.mem m.rsp]) after :=
    Function.update_self _ _ _
  have hother (p : ℕ) (hp : p ≠ m.active) : m'.stages p = m.stages p :=
    Function.update_of_ne hp _ _
  have hh := hi.here h0
  refine ⟨hsame.layout hi.layout, hsame.waiting hi.waiting (fun p hp => ?_) (fun _ h => h),
    fun _ => ⟨hsame.known hh.known, ?_, hh.free, fun h => ?_⟩, fun h3 => absurd h0 h3,
    ⟨?_, hi.boot.active, hi.boot.waits⟩, hi.popped⟩
  · exact hother p (fun h => hact (h ▸ hp))
  · apply hsame.runs hh.known
    have hruns := hh.runs
    rw [hst] at hruns
    rw [hstage]
    exact hruns.pop hlt
  · rw [hsame.outerCs]
    exact hh.outer h
  · change (m'.stages m.sched.idleProc).ring0
    by_cases hidle : m.sched.idleProc = m.active
    · have hring := hi.boot.stage
      rw [hidle] at hring ⊢
      change m.stage.ring0 at hring
      change m'.stage.ring0
      rw [hst] at hring
      rw [hstage]
      exact hring
    · rw [hother _ hidle]
      exact hi.boot.stage

/-- The `iretq` of `switch_to_proc`. -/
theorem Contexts.iret {due got : List ℕ} {after : Stage} (hi : Contexts m W loc S)
    (hact : ¬ W m.active) (hst : m.stage = .restoring due got after) (h0 : m.cs % 4 = 0)
    (hge : ¬ got.length < 17) :
    Contexts ({ m with cs := frameCs (got ++ loadWords m.mem m.rsp 5)
                       rsp := frameRsp (got ++ loadWords m.mem m.rsp 5)
                       popped := some (m.active, got ++ loadWords m.mem m.rsp 5, due) }.atStage
      after) W loc S := by
  have hh := hi.here h0
  have hruns := hh.runs
  rw [hst] at hruns
  rw [hruns.popped hge]
  let m' : Machine := { m with cs := frameCs due, rsp := frameRsp due
                               popped := some (m.active, due, due) }.atStage after
  have hsame : SameMemory m m' := SameMemory.of_data rfl rfl SameData.rfl rfl rfl
  have hstage : m'.stage = after := Function.update_self _ _ _
  have hother (p : ℕ) (hp : p ≠ m.active) : m'.stages p = m.stages p :=
    Function.update_of_ne hp _ _
  obtain ⟨hr, -, h3, h0'⟩ := hruns
  refine ⟨hsame.layout hi.layout, hsame.waiting hi.waiting (fun p hp => ?_) (fun _ h => h),
    fun hc => ⟨hsame.known hh.known, ?_, hh.free, fun h => ?_⟩, fun hc => ?_,
    ⟨?_, fun hidle => ?_, hi.boot.waits⟩, fun p ws due' hp => ?_⟩
  · exact hother p (fun h => hact (h ▸ hp))
  · apply hsame.runs hh.known
    rw [hstage]
    exact (h0' hc).2
  · rw [hsame.outerCs]
    exact hh.outer h
  · rw [hstage]
    exact h3 hc
  · change (m'.stages m.sched.idleProc).ring0
    by_cases hidle : m.sched.idleProc = m.active
    · have hring := hi.boot.stage
      rw [hidle] at hring ⊢
      change m.stage.ring0 at hring
      change m'.stage.ring0
      rw [hst] at hring
      rw [hstage]
      exact hring.2
    · rw [hother _ hidle]
      exact hi.boot.stage
  · -- the boot code was interrupted in ring 0
    have hidle' : m.active = m.sched.idleProc := hidle
    have hring := hi.boot.stage
    rw [← hidle'] at hring
    change m.stage.ring0 at hring
    rw [hst] at hring
    exact ⟨hring.1, (hi.boot.active hidle').2⟩
  · obtain ⟨-, hwords⟩ := Prod.mk.inj (Option.some.inj hp)
    obtain ⟨rfl, rfl⟩ := Prod.mk.inj hwords
    exact ⟨hr.length, rfl⟩

end Control

end SukiOS

import SukiOS.ContextSteps

/-! The code that interrupts divide: `exit` with its `schedule`, the creation of a process with its
`enqueue`, and `switch_to_proc`. -/
namespace SukiOS
open ByteMemory LinkedList Transition

/-! ### Without interrupts -/

theorem atStage_stage (m : Machine) (st : Stage) : (m.atStage st).stage = st :=
  Function.update_self _ _ _

section Undisturbed
variable {m : Machine} {n p t : ℕ}

theorem advance_exiting (h : m.stage = .exiting) (hr : m.sched.schedulerReady = true) :
    m.advance = if m.sched.readyQueueHead = 0 then m.atStage (.picked m.sched.idleProc)
      else (m.withSched (unlinkHead m.sched)).atStage (.unlinked m.sched.readyQueueHead) := by
  unfold Machine.advance
  rw [h]
  exact if_neg (by simp [hr])

theorem advance_unlinked (h : m.stage = .unlinked n) :
    m.advance = (m.withSched (clearTail m.sched)).atStage (.picked n) := by
  unfold Machine.advance
  rw [h]

theorem advance_picked (h : m.stage = .picked n) (hn : m.sched.currentProc ≠ n) :
    m.advance = (m.withSched { requeue m.sched with currentProc := n }).atStage
      (.switching n) := by
  unfold Machine.advance
  rw [h]
  exact if_neg hn

theorem advance_switching (h : m.stage = .switching n) :
    m.advance = (m.withSched (m.sched.setState n .running)).atStage (.running n) := by
  unfold Machine.advance
  rw [h]

theorem picked_undisturbed (h : m.stage = .picked n) (hn : m.sched.currentProc ≠ n) :
    m.advance.advance.stage = .running n ∧ m.advance.advance.sched =
      { requeue m.sched with currentProc := n }.setState n .running := by
  have h1 := advance_picked h hn
  have h2 : m.advance.stage = .switching n := by
    rw [h1]
    exact atStage_stage _ _
  rw [advance_switching h2, h1]
  exact ⟨atStage_stage _ _, rfl⟩

/-- The steps of `exit` up to `switch_to_proc` do what the system call does. -/
theorem exit_undisturbed (hcurr : m.curr ≠ 0) (hr : m.sched.schedulerReady = true)
    (hn : m.curr ≠ pick m.sched) :
    ∃ k, (Machine.advance^[k] m.exit).stage = .running (pick m.sched) ∧
      sysExit m.sched = ((Machine.advance^[k] m.exit).sched, some (pick m.sched)) := by
  let s := m.sched.setState m.curr .zombie
  have hs : m.exit.sched = s := if_pos hcurr
  have hst : m.exit.stage = .exiting := atStage_stage _ _
  have hexit : sysExit m.sched = schedule s := congrArg schedule (if_pos hcurr)
  have hadv := advance_exiting hst (by rw [hs]; exact hr)
  rw [hs] at hadv
  have hcp : s.currentProc ≠ pick s := hn
  rw [hexit, schedule_stores s hr hcp, dequeue_stores]
  by_cases hh : s.readyQueueHead = 0
  · have hidle : pick m.sched = s.idleProc := if_pos hh
    rw [if_pos hh] at hadv
    have h1 : m.exit.advance.stage = .picked (pick m.sched) := by
      rw [hadv, hidle]
      exact atStage_stage _ _
    have h2 : m.exit.advance.sched = s := by
      rw [hadv]
      exact hs
    obtain ⟨h3, h4⟩ := picked_undisturbed h1 (by rw [h2]; exact hn)
    refine ⟨3, h3, ?_⟩
    rw [if_pos hh]
    exact Prod.ext (by rw [h2] at h4; exact h4.symm) rfl
  · have hhead : pick m.sched = s.readyQueueHead := if_neg hh
    rw [if_neg hh] at hadv
    have h1 : m.exit.advance.stage = .unlinked (pick m.sched) := by
      rw [hadv, hhead]
      exact atStage_stage _ _
    have h2 := advance_unlinked h1
    have h3 : m.exit.advance.advance.stage = .picked (pick m.sched) := by
      rw [h2]
      exact atStage_stage _ _
    have h4 : m.exit.advance.advance.sched = clearTail (unlinkHead s) := by
      rw [h2, hadv]
      rfl
    have hc : (clearTail (unlinkHead s)).currentProc = m.curr := by
      obtain ⟨t, -, ht⟩ := clearTail_eq (unlinkHead s)
      rw [ht]
      rfl
    obtain ⟨h5, h6⟩ := picked_undisturbed h3 (by rw [h4, hc]; exact hn)
    refine ⟨4, h5, ?_⟩
    rw [if_neg hh]
    exact Prod.ext (by rw [h4] at h6; exact h6.symm) rfl

theorem advance_prepared (h : m.stage = .prepared p) :
    m.advance = m.atStage (if m.sched.readyQueueTail ≠ 0 then .behind p m.sched.readyQueueTail
      else .alone p) := by
  unfold Machine.advance
  rw [h]

theorem advance_behind (h : m.stage = .behind p t) :
    m.advance = (m.withSched (m.sched.setNext t p)).atStage (.linked p) := by
  unfold Machine.advance
  rw [h]

theorem advance_linked (h : m.stage = .linked p) :
    m.advance = (m.withSched { m.sched with readyQueueTail := p }).atStage .outside := by
  unfold Machine.advance
  rw [h]

theorem advance_alone (h : m.stage = .alone p) :
    m.advance = (m.withSched { m.sched with readyQueueTail := p }).atStage (.first p) := by
  unfold Machine.advance
  rw [h]

theorem advance_first (h : m.stage = .first p) :
    m.advance = (m.withSched { m.sched with readyQueueHead := p }).atStage .outside := by
  unfold Machine.advance
  rw [h]

/-- The steps of a creation do what `proc_create_from_elf` does. -/
theorem create_undisturbed {kstack entry : ℕ} (hp : p ≠ 0) :
    (Machine.advance^[3] (m.create p kstack entry)).stage = .outside ∧
      procCreateFromElf m.sched (some entry) p kstack =
        ((Machine.advance^[3] (m.create p kstack entry)).sched, p) := by
  let m1 := m.create p kstack entry
  have h1 := advance_prepared (m := m1) (p := p) (atStage_stage _ _)
  have hs : prepareProc m.sched p kstack entry = m1.sched := rfl
  rw [procCreateFromElf_stores m.sched kstack entry hp, hs]
  change m1.advance.advance.advance.stage = .outside ∧ _ = (m1.advance.advance.advance.sched, p)
  by_cases ht : m1.sched.readyQueueTail = 0
  · have hst : m1.advance.stage = .alone p := by
      rw [h1, if_neg (not_not.mpr ht)]
      exact atStage_stage _ _
    have h2 := advance_alone hst
    have h3 := advance_first (m := m1.advance.advance) (p := p) (by
      rw [h2]
      exact atStage_stage _ _)
    rw [h3]
    refine ⟨atStage_stage _ _, ?_⟩
    rw [h2, h1]
    simp only [ht, ne_eq, not_true_eq_false, if_false]
    rfl
  · have hst : m1.advance.stage = .behind p m1.sched.readyQueueTail := by
      rw [h1, if_pos ht]
      exact atStage_stage _ _
    have h2 := advance_behind hst
    have h3 := advance_linked (m := m1.advance.advance) (p := p) (by
      rw [h2]
      exact atStage_stage _ _)
    rw [h3]
    refine ⟨atStage_stage _ _, ?_⟩
    rw [h2, h1]
    simp only [ht, ne_eq, not_false_eq_true, if_true]
    rfl

end Undisturbed

/-- The rest of `switch_to_proc` pops the rest of the frame. -/
theorem pops_undisturbed {m : Machine} {due got : List ℕ} {after : Stage} (j : ℕ)
    (hst : m.stage = .restoring due got after) (hj : got.length + j = 17) :
    let ws := got ++ loadWords m.mem m.rsp (22 - got.length)
    Machine.advance^[j+1] m =
      { m with cs := frameCs ws, rsp := frameRsp ws, popped := some (m.active, ws, due)
               stages := Function.update m.stages m.active after } := by
  induction j generalizing m got with
  | zero =>
    have hlt : ¬ got.length < 17 := by omega
    have hlen : 22 - got.length = 5 := by omega
    rw [hlen]
    change m.advance = _
    unfold Machine.advance
    rw [hst]
    exact if_neg hlt
  | succ j ih =>
    have hlt : got.length < 17 := by omega
    let m1 : Machine := { m with rsp := m.rsp + 8 }.atStage
      (.restoring due (got ++ [load64 m.mem m.rsp]) after)
    have hadv : m.advance = m1 := by
      unfold Machine.advance
      rw [hst]
      exact if_pos hlt
    have h1 : m1.stage = .restoring due (got ++ [load64 m.mem m.rsp]) after := atStage_stage _ _
    have hlen : (got ++ [load64 m.mem m.rsp]).length = got.length + 1 := by simp
    have h2 := ih h1 (by omega)
    have hwords : got ++ [load64 m.mem m.rsp] ++ loadWords m.mem (m.rsp + 8)
        (22 - (got.length + 1)) = got ++ loadWords m.mem m.rsp (22 - got.length) := by
      have hcount : 22 - got.length = (22 - (got.length + 1)) + 1 := by omega
      rw [hcount, List.append_assoc]
      rfl
    rw [Function.iterate_succ_apply, hadv, h2, hlen]
    have hstages : Function.update m1.stages m1.active after =
        Function.update m.stages m.active after := Function.update_idem _ _ _
    rw [hstages]
    simp only [← hwords]
    rfl

/-- All of `switch_to_proc`, as after the interrupt of the timer. -/
theorem switch_undisturbed {m : Machine} {n : ℕ} (hst : m.stage = .running n) :
    Machine.advance^[19] m = m.resume m.sched n := by
  let m1 : Machine := { m with rsp := m.frame n, active := n }.atStage
    (.restoring (m.saved n) [] (m.stages n))
  have hadv : m.advance = m1 := by
    unfold Machine.advance
    rw [hst]
  have h1 : m1.stage = .restoring (m.saved n) [] (m.stages n) := atStage_stage _ _
  have hstages : Function.update m1.stages m1.active (m.stages n) = m.stages := by
    have h2 : Function.update m1.stages m1.active (m.stages n) =
        Function.update m.stages n (m.stages n) := Function.update_idem _ _ _
    rw [h2, Function.update_eq_self]
  rw [Function.iterate_succ_apply, hadv, pops_undisturbed 17 h1 rfl, hstages]
  rfl

/-! ### The stores of `exit` -/

/-- What a store of `exit` does to the scheduler, and the stage and queue after it. -/
structure ExitStore (m : Machine) (q : List ℕ) (s : Sched) (st : Stage) (q' : List ℕ) :
    Prop where
  data : SameData m.sched s
  threaded : Threaded s q'
  sub : ∀ x ∈ q', x ∈ q
  ready : s.schedulerReady = m.sched.schedulerReady
  tail : s.readyQueueTail = m.sched.readyQueueTail ∨ s.readyQueueTail = 0
  current : s.currentProc = st.current m.active
  next : ∀ p, s.next p = m.sched.next p
  zombie : st.exits → s.state m.active ≠ .running
  plain : ∀ due got after, st ≠ .restoring due got after
  creates : ¬ st.creates
  held : ∀ n, st.held = some n →
    n ∉ q' ∧ (n ∈ q ∨ n = m.sched.idleProc ∨ m.stage.held = some n)

section Exit
variable {m : Machine} {q q' : List ℕ} {loc : ℕ → StackId} {S : StackId} {st : Stage}

theorem MachineInv.exitStore {r : SchedRun} (hi : MachineInv m q loc S)
    (hidle : m.active ≠ m.sched.idleProc) (h0 : m.cs % 4 = 0)
    (hold : ∀ due got after, m.stage ≠ .restoring due got after)
    (hc : r.created = m.run.created) (h : ExitStore m q r.sched st q') :
    MachineInv ({ m with run := r }.atStage st) q' loc S := by
  have hq := hi.queue
  let m' : Machine := { m with run := r }.atStage st
  have hid : m'.sched.idleProc = m.sched.idleProc := h.data.idleProc
  have hprocs : m'.run.procs = m.run.procs := by
    have h : m'.run.sched.idleProc = m.run.sched.idleProc := hid
    have hc' : m'.run.created = m.run.created := hc
    simp only [SchedRun.procs, h, hc']
  have hstage : m'.stage = st := Function.update_self _ _ _
  have hother (p : ℕ) (hp : p ≠ m.active) : m'.stages p = m.stages p :=
    Function.update_of_ne hp _ _
  have hboot : m'.stages m'.sched.idleProc = m.stages m.sched.idleProc := by
    rw [hid]
    exact hother _ hidle.symm
  have hsub (p : ℕ) (hp : Waits m' q' p) : Waits m q p := by
    rcases hp with hp | ⟨hp, -⟩ | hp | hp
    · exact Or.inl (h.sub p hp)
    · exact Or.inr (Or.inl ⟨hp.trans hid, hidle⟩)
    · rw [hboot] at hp
      exact Or.inr (Or.inr (Or.inl hp))
    · rw [hstage] at hp
      rcases (h.held p hp).2 with hp | hp | hp
      · exact Or.inl hp
      · exact Or.inr (Or.inl ⟨hp, hidle⟩)
      · exact Or.inr (Or.inr (Or.inr hp))
  refine ⟨?_, hi.contexts.restage hq.not_waits h0 h.data hc hold h.plain hsub⟩
  refine { threaded := h.threaded, ready := h.ready.trans hq.ready, ne_null := hprocs ▸ hq.ne_null
           known := ?_, tail := ?_, active := hprocs ▸ hq.active
           active_not_mem := fun ha => hq.active_not_mem (h.sub _ ha), curr := ?_, held := ?_
           exits := ?_, boot := hboot ▸ hq.boot, creates := ?_, creating := ?_ }
  · intro x hx
    rw [hprocs]
    exact hq.known x (h.sub x hx)
  · rw [hprocs]
    rcases h.tail with ht | ht
    · exact ht.symm ▸ hq.tail
    · exact Or.inl ht
  · rw [hstage]
    exact h.current
  · intro n hn
    have hn' : st.held = some n := hstage ▸ hn
    obtain ⟨hnq, hfrom⟩ := h.held n hn'
    rw [hprocs, hboot]
    rcases hfrom with hn | rfl | hn
    · refine ⟨hq.known n hn, fun h => hq.active_not_mem (h ▸ hn), hnq, fun hp => ?_⟩
      exact (hq.creating.unqueued hp).not_mem hn
    · refine ⟨List.mem_cons_self, hidle.symm, hnq, fun hp => ?_⟩
      exact (hq.creating.unqueued hp).ne_idle rfl
    · obtain ⟨h1, h2, -, h4⟩ := hq.held n hn
      exact ⟨h1, h2, hnq, h4⟩
  · rw [hstage]
    exact h.zombie
  · intro p hp hpi
    by_cases hpa : p = m.active
    · rw [hpa]
      change ¬ m'.stage.creates
      rw [hstage]
      exact h.creates
    · rw [hother p hpa]
      refine hq.creates p (hp.imp id (hsub p)) (hid ▸ hpi)
  · rw [hboot]
    refine hq.creating.congr (fun p hp => hprocs ▸ hp) (fun p _ hun _ => ?_) (fun p hun ht => ?_)
      (fun ha => absurd ha hidle)
    · exact ⟨hprocs ▸ hun.known, hid ▸ hun.ne_idle, fun hp => hun.not_mem (h.sub p hp),
        hun.ne_active, (h.next p).trans hun.last, hun.stack⟩
    · rcases h.tail with ht' | ht'
      · exact ht'.symm ▸ ht
      · exact ht'.symm ▸ (hq.ne_null p hun.known).symm

theorem MachineInv.exit (hi : MachineInv m q loc S) (h0 : m.cs % 4 = 0)
    (hr : m.RunsOn .interrupt m.rsp) (hst : m.stage = .outside) :
    MachineInv m.exit q loc S := by
  have hq := hi.queue
  have hcurr : m.curr = m.active := hq.curr.trans (by rw [hst]; rfl)
  have hne : m.curr ≠ 0 := hcurr ▸ hq.ne_null _ hq.active
  have hs : (if m.curr ≠ 0 then m.sched.setState m.curr .zombie else m.sched) =
      m.sched.setState m.active .zombie := by
    rw [if_pos hne, hcurr]
  unfold Machine.exit
  rw [hs]
  refine hi.exitStore (hi.contexts.ne_idle h0 hr) h0 (fun _ _ _ h => ?_) rfl
    { data := sameData_setState _ _ _
      threaded := hq.threaded.congr rfl rfl (fun _ _ => Sched.setState_next _ _ _ _)
      sub := fun _ h => h, ready := rfl, tail := Or.inl rfl, current := hcurr
      next := fun _ => Sched.setState_next _ _ _ _, zombie := fun _ => ?_
      plain := by simp, creates := id
      held := by simp [Stage.held] }
  · rw [hst] at h
    cases h
  · change (m.sched.setState m.active .zombie).state m.active ≠ .running
    rw [Sched.setState_state, if_pos rfl]
    decide

/-- The process that ends runs in ring 0 and is not the idle process. -/
structure InExit (m : Machine) : Prop where
  ne_idle : m.active ≠ m.sched.idleProc
  ring0 : m.cs % 4 = 0
  zombie : m.sched.state m.active ≠ .running
  plain : ∀ due got after, m.stage ≠ .restoring due got after

theorem MachineInv.inExit (hi : MachineInv m q loc S) (hex : m.stage.exits) : InExit m := by
  refine ⟨fun h => ?_, ?_, hi.queue.exits hex, fun due got after h => ?_⟩
  · have hboot := hi.queue.boot
    rw [← h] at hboot
    exact hboot hex
  · by_contra h3
    rw [hi.contexts.ring3 h3] at hex
    exact hex
  · rw [h] at hex
    exact hex

/-- `dequeue` finds nobody, or takes the head off the queue. -/
theorem MachineInv.exiting_advance (hi : MachineInv m q loc S) (hst : m.stage = .exiting) :
    ∃ q', MachineInv m.advance q' loc S := by
  have hq := hi.queue
  have he := hi.inExit (hst ▸ trivial)
  have hcurr := hq.curr
  rw [hst] at hcurr
  rw [advance_exiting hst hq.ready]
  by_cases hh : m.sched.readyQueueHead = 0
  · -- nobody waits, so `next` is the idle process
    rw [if_pos hh]
    refine ⟨q, hi.exitStore he.ne_idle he.ring0 he.plain rfl
      { data := SameData.rfl, threaded := hq.threaded, sub := fun _ h => h, ready := rfl
        tail := Or.inl rfl, current := hcurr, next := fun _ => rfl, zombie := fun _ => he.zombie
        plain := by simp, creates := id, held := fun n hn => ?_ }⟩
    obtain rfl := Option.some.inj hn
    rw [hq.threaded.head_null hh]
    exact ⟨List.not_mem_nil, Or.inr (Or.inl rfl)⟩
  · rw [if_neg hh]
    obtain ⟨q', rfl, hl, hnq, hn⟩ := hq.threaded.head_unlinked hh
    refine ⟨q', hi.exitStore he.ne_idle he.ring0 he.plain rfl
      { data := ⟨rfl, rfl, fun _ => rfl, fun _ => rfl⟩
        threaded := ⟨hl, hn, fun ht => absurd (hq.threaded.tail ht) (by simp)⟩
        sub := fun x hx => List.mem_cons_of_mem _ hx, ready := rfl, tail := Or.inl rfl
        current := hcurr, next := fun _ => rfl, zombie := fun _ => he.zombie
        plain := by simp, creates := id, held := fun n hn => ?_ }⟩
    obtain rfl := Option.some.inj hn
    exact ⟨hnq, Or.inl List.mem_cons_self⟩

/-- `dequeue` resets the tail of an empty queue. -/
theorem MachineInv.unlinked_advance {n : ℕ} (hi : MachineInv m q loc S)
    (hst : m.stage = .unlinked n) : MachineInv m.advance q loc S := by
  have hq := hi.queue
  have he := hi.inExit (hst ▸ trivial)
  have hcurr := hq.curr
  rw [hst] at hcurr
  have hheld : m.stage.held = some n := by rw [hst]; rfl
  rw [advance_unlinked hst]
  obtain ⟨t, ht, hs⟩ := clearTail_eq m.sched
  have hthr := hq.threaded.tail_cleared
  rw [hs] at hthr ⊢
  refine hi.exitStore he.ne_idle he.ring0 he.plain rfl
    { data := ⟨rfl, rfl, fun _ => rfl, fun _ => rfl⟩, threaded := hthr, sub := fun _ h => h
      ready := rfl, tail := ht, current := hcurr, next := fun _ => rfl
      zombie := fun _ => he.zombie, plain := by simp, creates := id, held := fun x hx => ?_ }
  obtain rfl := Option.some.inj hx
  exact ⟨(hq.held _ hheld).2.2.1, Or.inr (Or.inr hheld)⟩

/-- `schedule` does not put the process back and sets `g_current_proc`. -/
theorem MachineInv.picked_advance {n : ℕ} (hi : MachineInv m q loc S)
    (hst : m.stage = .picked n) : MachineInv m.advance q loc S := by
  have hq := hi.queue
  have he := hi.inExit (hst ▸ trivial)
  have hheld : m.stage.held = some n := by rw [hst]; rfl
  have hcurr : m.sched.currentProc = m.active := hq.curr_eq (by rw [hst]; exact id)
  have hne : m.sched.currentProc ≠ n := fun h => (hq.held n hheld).2.1 (h.symm.trans hcurr)
  have hreq : requeue m.sched = m.sched := if_neg (hcurr ▸ he.zombie)
  rw [advance_picked hst hne, hreq]
  refine hi.exitStore he.ne_idle he.ring0 he.plain rfl
    { data := ⟨rfl, rfl, fun _ => rfl, fun _ => rfl⟩
      threaded := hq.threaded.congr rfl rfl (fun _ _ => rfl), sub := fun _ h => h, ready := rfl
      tail := Or.inl rfl, current := rfl, next := fun _ => rfl, zombie := fun _ => he.zombie
      plain := by simp, creates := id, held := fun x hx => ?_ }
  obtain rfl := Option.some.inj hx
  exact ⟨(hq.held _ hheld).2.2.1, Or.inr (Or.inr hheld)⟩

/-- The next process becomes `PROC_RUNNING`. -/
theorem MachineInv.switching_advance {n : ℕ} (hi : MachineInv m q loc S)
    (hst : m.stage = .switching n) : MachineInv m.advance q loc S := by
  have hq := hi.queue
  have he := hi.inExit (hst ▸ trivial)
  have hcurr := hq.curr
  rw [hst] at hcurr
  have hheld : m.stage.held = some n := by rw [hst]; rfl
  have hna := (hq.held n hheld).2.1
  rw [advance_switching hst]
  refine hi.exitStore he.ne_idle he.ring0 he.plain rfl
    { data := sameData_setState _ _ _
      threaded := hq.threaded.congr rfl rfl (fun _ _ => Sched.setState_next _ _ _ _)
      sub := fun _ h => h, ready := rfl, tail := Or.inl rfl, current := hcurr
      next := fun _ => Sched.setState_next _ _ _ _, zombie := fun _ => ?_
      plain := by simp, creates := id, held := fun x hx => ?_ }
  · change (m.sched.setState n .running).state m.active ≠ .running
    rw [Sched.setState_state, if_neg hna.symm]
    exact he.zombie
  · obtain rfl := Option.some.inj hx
    exact ⟨(hq.held _ hheld).2.2.1, Or.inr (Or.inr hheld)⟩

end Exit

/-! ### The stores of `enqueue` -/

/-- What a store of `enqueue` in the boot code does, and the stage and queue after it. -/
structure EnqueueStore (m : Machine) (q : List ℕ) (loc : ℕ → StackId) (s : Sched) (st : Stage)
    (q' : List ℕ) : Prop where
  data : SameData m.sched s
  threaded : Threaded s q'
  sub : ∀ x ∈ q', x ∈ q ∨ m.stage.pending = some x
  ready : s.schedulerReady = m.sched.schedulerReady
  tail : s.readyQueueTail = 0 ∨ s.readyQueueTail ∈ m.run.procs
  current : s.currentProc = m.sched.currentProc
  plain : ∀ due got after, st ≠ .restoring due got after
  exits : ¬ st.exits
  pending : ∀ p, st.pending = some p → m.stage.pending = some p
  creating : Creating ((m.withSched s).atStage st) q' loc st

section Enqueue
variable {m : Machine} {q q' : List ℕ} {loc : ℕ → StackId} {S : StackId} {st : Stage}

theorem MachineInv.enqueueStore {s : Sched} (hi : MachineInv m q loc S)
    (hidle : m.active = m.sched.idleProc)
    (hold : ∀ due got after, m.stage ≠ .restoring due got after) (hex : ¬ m.stage.exits)
    (h : EnqueueStore m q loc s st q') :
    MachineInv ((m.withSched s).atStage st) q' loc S := by
  have hq := hi.queue
  let m' : Machine := (m.withSched s).atStage st
  have hid : m'.sched.idleProc = m.sched.idleProc := h.data.idleProc
  have hprocs : m'.run.procs = m.run.procs := by
    have h : m'.run.sched.idleProc = m.run.sched.idleProc := hid
    have hc : m'.run.created = m.run.created := rfl
    simp only [SchedRun.procs, h, hc]
  have hstage : m'.stage = st := Function.update_self _ _ _
  have hother (p : ℕ) (hp : p ≠ m.active) : m'.stages p = m.stages p :=
    Function.update_of_ne hp _ _
  have hboot : m'.stages m'.sched.idleProc = st := by
    rw [hid, ← hidle]
    exact hstage
  have hpend (p : ℕ) (hp : m.stage.pending = some p) : Unqueued m q loc p := by
    have hc := hq.creating
    rw [← hidle] at hc
    exact hc.unqueued hp
  have hsub (p : ℕ) (hp : Waits m' q' p) : Waits m q p := by
    have hfrom (hp : m.stage.pending = some p) : Waits m q p := by
      refine Or.inr (Or.inr (Or.inl ?_))
      rw [← hidle]
      exact hp
    rcases hp with hp | ⟨-, hp⟩ | hp | hp
    · exact (h.sub p hp).elim Or.inl hfrom
    · exact absurd (hidle.trans hid.symm) hp
    · rw [hboot] at hp
      exact hfrom (h.pending p hp)
    · rw [hstage, Stage.held_none h.exits] at hp
      cases hp
  refine ⟨?_, hi.contexts.restage hq.not_waits (hi.contexts.boot.active hidle).1 h.data rfl hold
    h.plain hsub⟩
  refine { threaded := h.threaded, ready := h.ready.trans hq.ready, ne_null := hprocs ▸ hq.ne_null
           known := ?_, tail := hprocs ▸ h.tail, active := hprocs ▸ hq.active
           active_not_mem := ?_, curr := ?_, held := ?_, exits := ?_, boot := ?_, creates := ?_
           creating := ?_ }
  · intro x hx
    rw [hprocs]
    rcases h.sub x hx with hx | hx
    · exact hq.known x hx
    · exact (hpend x hx).known
  · intro ha
    rcases h.sub _ ha with ha | ha
    · exact hq.active_not_mem ha
    · exact (hpend _ ha).ne_active rfl
  · rw [hstage, Stage.current_eq _ (Stage.not_halfSwitched h.exits)]
    exact h.current.trans (hq.curr_eq (Stage.not_halfSwitched hex))
  · intro n hn
    rw [hstage, Stage.held_none h.exits] at hn
    cases hn
  · rw [hstage]
    exact fun hex => absurd hex h.exits
  · rw [hboot]
    exact h.exits
  · intro p hp hpi
    have hpi' : p ≠ m.sched.idleProc := fun h => hpi (h.trans hid.symm)
    have hpa : p ≠ m.active := fun h => hpi' (h.trans hidle)
    rw [hother p hpa]
    exact hq.creates p (hp.imp id (hsub p)) hpi'
  · rw [hboot]
    exact h.creating

/-- The boot code is in `enqueue`. -/
theorem MachineInv.inEnqueue (hi : MachineInv m q loc S) (hcr : m.stage.creates) :
    m.active = m.sched.idleProc ∧ Creating m q loc m.stage := by
  have hidle : m.active = m.sched.idleProc := by
    by_contra h
    exact hi.queue.creates m.active (Or.inl rfl) h hcr
  have hcreating := hi.queue.creating
  rw [← hidle] at hcreating
  exact ⟨hidle, hcreating⟩

/-- A store elsewhere leaves the new process alone. -/
theorem Unqueued.store {p : ℕ} {s : Sched} (h : Unqueued m q loc p)
    (hid : s.idleProc = m.sched.idleProc) (hn : s.next p = m.sched.next p) :
    Unqueued ((m.withSched s).atStage st) q loc p := by
  have hprocs : ((m.withSched s).atStage st).run.procs = m.run.procs := by
    simp only [Machine.atStage, Machine.withSched, SchedRun.procs, hid]
    rfl
  exact ⟨hprocs ▸ h.known, fun hp => h.ne_idle (hp.trans hid), h.not_mem, h.ne_active,
    hn.trans h.last, h.stack⟩

/-- `enqueue` reads the tail. -/
theorem MachineInv.prepared_advance {p : ℕ} (hi : MachineInv m q loc S)
    (hst : m.stage = .prepared p) : MachineInv m.advance q loc S := by
  have hq := hi.queue
  obtain ⟨hidle, hcreating⟩ := hi.inEnqueue (hst ▸ trivial)
  rw [hst] at hcreating
  obtain ⟨hun, htail⟩ := hcreating
  rw [advance_prepared hst]
  refine hi.enqueueStore (s := m.sched) hidle (by simp [hst]) (by simp [hst, Stage.exits])
    { data := SameData.rfl, threaded := hq.threaded, sub := fun _ h => Or.inl h, ready := rfl
      tail := hq.tail, current := rfl, plain := ?_, exits := ?_, pending := ?_, creating := ?_ }
  · intro due got after
    split <;> simp
  · split <;> exact id
  · intro x hx
    rw [hst]
    split at hx <;> exact hx
  · by_cases ht : m.sched.readyQueueTail = 0
    · rw [if_neg (not_not.mpr ht)]
      exact ⟨hun.store rfl rfl, hidle, hq.threaded.tail ht⟩
    · rw [if_pos ht]
      exact ⟨hun.store rfl rfl, htail⟩

/-- The process is linked behind what was the tail. -/
theorem MachineInv.behind_advance {p t : ℕ} (hi : MachineInv m q loc S)
    (hst : m.stage = .behind p t) : ∃ q', MachineInv m.advance q' loc S := by
  have hq := hi.queue
  obtain ⟨hidle, hcreating⟩ := hi.inEnqueue (hst ▸ trivial)
  rw [hst] at hcreating
  obtain ⟨hun, -⟩ := hcreating
  rw [advance_behind hst]
  obtain ⟨q', hthr, hmem⟩ := hq.threaded.setNext hun.not_mem (hq.ne_null p hun.known) hun.last t
  refine ⟨q', hi.enqueueStore hidle (by simp [hst]) (by simp [hst, Stage.exits])
    { data := sameData_setNext _ _ _, threaded := hthr, sub := fun x hx => ?_, ready := rfl
      tail := hq.tail, current := rfl, plain := by simp, exits := id
      pending := by simp [Stage.pending], creating := hun.known }⟩
  rw [hst]
  exact (hmem x hx).imp id (fun (h : x = p) => congrArg some h.symm)

/-- The process becomes the tail, wherever it is now. -/
theorem MachineInv.linked_advance {p : ℕ} (hi : MachineInv m q loc S)
    (hst : m.stage = .linked p) : MachineInv m.advance q loc S := by
  have hq := hi.queue
  obtain ⟨hidle, hcreating⟩ := hi.inEnqueue (hst ▸ trivial)
  rw [hst] at hcreating
  have hp0 := hq.ne_null p hcreating
  rw [advance_linked hst]
  exact hi.enqueueStore hidle (by simp [hst]) (by simp [hst, Stage.exits])
    { data := ⟨rfl, rfl, fun _ => rfl, fun _ => rfl⟩
      threaded := ⟨hq.threaded.linked, hq.threaded.nodup, fun h => absurd h hp0⟩
      sub := fun _ h => Or.inl h, ready := rfl, tail := Or.inr hcreating, current := rfl
      plain := by simp, exits := id, pending := by simp [Stage.pending]
      creating := trivial }

/-- The process becomes the tail of an empty queue. -/
theorem MachineInv.alone_advance {p : ℕ} (hi : MachineInv m q loc S)
    (hst : m.stage = .alone p) : MachineInv m.advance q loc S := by
  have hq := hi.queue
  obtain ⟨hidle, hcreating⟩ := hi.inEnqueue (hst ▸ trivial)
  rw [hst] at hcreating
  obtain ⟨hun, -, hnil⟩ := hcreating
  have hp0 := hq.ne_null p hun.known
  rw [advance_alone hst]
  refine hi.enqueueStore hidle (by simp [hst]) (by simp [hst, Stage.exits])
    { data := ⟨rfl, rfl, fun _ => rfl, fun _ => rfl⟩
      threaded := ⟨hq.threaded.linked, hq.threaded.nodup, fun h => absurd h hp0⟩
      sub := fun _ h => Or.inl h, ready := rfl, tail := Or.inr hun.known, current := rfl
      plain := by simp, exits := id, pending := fun x hx => ?_
      creating := ⟨hun.store rfl rfl, ⟨hidle, hnil⟩, hp0⟩ }
  rw [hst]
  exact hx

/-- And its head. -/
theorem MachineInv.first_advance {p : ℕ} (hi : MachineInv m q loc S)
    (hst : m.stage = .first p) : MachineInv m.advance [p] loc S := by
  have hq := hi.queue
  obtain ⟨hidle, hcreating⟩ := hi.inEnqueue (hst ▸ trivial)
  rw [hst] at hcreating
  obtain ⟨hun, -, htail⟩ := hcreating
  have hp0 := hq.ne_null p hun.known
  rw [advance_first hst]
  refine hi.enqueueStore hidle (by simp [hst]) (by simp [hst, Stage.exits])
    { data := ⟨rfl, rfl, fun _ => rfl, fun _ => rfl⟩
      threaded := ⟨⟨rfl, hp0, hun.last⟩, List.nodup_singleton p, fun h => absurd h htail⟩
      sub := fun x hx => Or.inr ?_, ready := rfl, tail := hq.tail, current := rfl
      plain := by simp, exits := id, pending := by simp [Stage.pending]
      creating := trivial }
  rw [hst, List.mem_singleton.mp hx]
  rfl

end Enqueue

/-! ### The pops of `switch_to_proc` -/

section Restore
variable {m m' : Machine} {q : List ℕ} {loc : ℕ → StackId} {S : StackId} {st after : Stage}
  {due got : List ℕ}

/-- The stage of a process that is being resumed becomes one that holds the same. -/
theorem QueueInv.restored (hq : QueueInv m q loc) (hst : m.stage = .restoring due got after)
    (hrun : m'.run = m.run) (hact : m'.active = m.active)
    (hstages : m'.stages = Function.update m.stages m.active st)
    (hpend : st.pending = after.pending) (hcr : st.creates → after.creates) (hex : ¬ st.exits)
    (hcreating : ∀ n, Creating n q loc after → Creating n q loc st) :
    QueueInv m' q loc ∧ Waits m' q = Waits m q := by
  have hs : m'.sched = m.sched := congrArg SchedRun.sched hrun
  have hstage : m'.stage = st := by
    rw [Machine.stage, hact, hstages]
    exact Function.update_self _ _ _
  have hother (p : ℕ) (hp : p ≠ m.active) : m'.stages p = m.stages p := by
    rw [hstages]
    exact Function.update_of_ne hp _ _
  have hself : m'.stages m.active = st := by
    rw [hstages]
    exact Function.update_self _ _ _
  have hheld : m.stage.held = none := by rw [hst]; rfl
  have hidle (hp : m.sched.idleProc = m.active) :
      m'.stages m.sched.idleProc = st ∧
        m.stages m.sched.idleProc = .restoring due got after := by
    rw [hp]
    exact ⟨hself, hst⟩
  have hp' : (m'.stages m.sched.idleProc).pending = (m.stages m.sched.idleProc).pending := by
    by_cases hp : m.sched.idleProc = m.active
    · obtain ⟨h1, h2⟩ := hidle hp
      rw [h1, h2]
      exact hpend
    · rw [hother _ hp]
  have hwaits : Waits m' q = Waits m q := by
    unfold Waits
    rw [hs, hact, hp', hstage, Stage.held_none hex, hheld]
  refine ⟨?_, hwaits⟩
  refine { threaded := hs ▸ hq.threaded, ready := hs ▸ hq.ready, ne_null := hrun ▸ hq.ne_null
           known := hrun ▸ hq.known, tail := hs ▸ hrun ▸ hq.tail, active := hact ▸ hrun ▸ hq.active
           active_not_mem := hact ▸ hq.active_not_mem, curr := ?_, held := ?_, exits := ?_
           boot := ?_, creates := ?_, creating := ?_ }
  · have hhalf : ¬ m.stage.halfSwitched := by
      rw [hst]
      exact id
    have hc : m'.curr = m.curr := congrArg Sched.currentProc hs
    rw [hc, hstage, Stage.current_eq _ (Stage.not_halfSwitched hex), hact]
    exact hq.curr_eq hhalf
  · intro n hn
    rw [hstage, Stage.held_none hex] at hn
    cases hn
  · rw [hstage]
    exact fun h => absurd h hex
  · rw [hs]
    by_cases hp : m.sched.idleProc = m.active
    · rw [(hidle hp).1]
      exact hex
    · rw [hother _ hp]
      exact hq.boot
  · intro p hp hpi
    rw [hact, hwaits] at hp
    rw [hs] at hpi
    have hold := hq.creates p hp hpi
    by_cases hpa : p = m.active
    · rw [hpa] at hold ⊢
      change ¬ m.stage.creates at hold
      rw [hst] at hold
      rw [hself]
      exact fun h => hold (hcr h)
    · rw [hother p hpa]
      exact hold
  · have hkeep (st' : Stage) (hc : Creating m q loc st') : Creating m' q loc st' := by
      refine hc.congr (fun p hp => hrun ▸ hp) (fun p _ hun _ => ?_) (fun p _ ht => hs ▸ ht)
        (fun h1 h2 => ⟨⟨hact.trans (hs ▸ h1), h2⟩, hs ▸ rfl⟩)
      exact ⟨hrun ▸ hun.known, hs ▸ hun.ne_idle, hun.not_mem, hact ▸ hun.ne_active,
        hs ▸ hun.last, hun.stack⟩
    rw [hs]
    have hcm := hq.creating
    by_cases hp : m.sched.idleProc = m.active
    · obtain ⟨h1, h2⟩ := hidle hp
      rw [h2] at hcm
      rw [h1]
      exact hkeep st (hcreating m hcm)
    · rw [hother _ hp]
      exact hkeep _ hcm

/-- A step of `switch_to_proc`. -/
theorem MachineInv.restore_advance (hi : MachineInv m q loc S)
    (hst : m.stage = .restoring due got after) : MachineInv m.advance q loc S := by
  have hq := hi.queue
  have hc := hi.contexts
  have h0 : m.cs % 4 = 0 := by
    by_contra h3
    rw [hc.ring3 h3] at hst
    cases hst
  have hruns := (hc.here h0).runs
  rw [hst] at hruns
  have hadv : m.advance = if got.length < 17 then
      { m with rsp := m.rsp + 8 }.atStage (.restoring due (got ++ [load64 m.mem m.rsp]) after)
      else
        { m with cs := frameCs (got ++ loadWords m.mem m.rsp 5)
                 rsp := frameRsp (got ++ loadWords m.mem m.rsp 5)
                 popped := some (m.active, got ++ loadWords m.mem m.rsp 5, due) }.atStage
          after := by
    unfold Machine.advance
    rw [hst]
  rw [hadv]
  by_cases hlt : got.length < 17
  · rw [if_pos hlt]
    let m' : Machine := { m with rsp := m.rsp + 8 }.atStage
      (.restoring due (got ++ [load64 m.mem m.rsp]) after)
    obtain ⟨hq', hw⟩ : QueueInv m' q loc ∧ Waits m' q = Waits m q :=
      hq.restored hst rfl rfl rfl rfl id id (fun _ h => h)
    have hpop : Contexts m' (Waits m q) loc S := hc.pop hq.not_waits hst h0 hlt
    exact ⟨hq', hw ▸ hpop⟩
  · rw [if_neg hlt]
    let m' : Machine :=
      { m with cs := frameCs (got ++ loadWords m.mem m.rsp 5)
               rsp := frameRsp (got ++ loadWords m.mem m.rsp 5)
               popped := some (m.active, got ++ loadWords m.mem m.rsp 5, due) }.atStage after
    obtain ⟨hq', hw⟩ : QueueInv m' q loc ∧ Waits m' q = Waits m q :=
      hq.restored hst rfl rfl rfl rfl id hruns.2.1 (fun _ h => h)
    have hret : Contexts m' (Waits m q) loc S := hc.iret hq.not_waits hst h0 hlt
    exact ⟨hq', hw ▸ hret⟩

/-- `switch_to_proc(n)` leaves the stack of the process that ends. -/
theorem MachineInv.switch_advance {n : ℕ} (hi : MachineInv m q loc S)
    (hst : m.stage = .running n) : MachineInv m.advance q loc (loc n) := by
  have hq := hi.queue
  have he := hi.inExit (hst ▸ trivial)
  have hidle := he.ne_idle
  have hheld : m.stage.held = some n := by rw [hst]; rfl
  obtain ⟨hnp, hna, hnq, hpend⟩ := hq.held n hheld
  have hwn : Waits m q n := Or.inr (Or.inr (Or.inr hheld))
  let m' : Machine := { m with rsp := m.frame n, active := n }.atStage
    (.restoring (m.saved n) [] (m.stages n))
  have hadv : m.advance = m' := by
    unfold Machine.advance
    rw [hst]
  have hstage : m'.stage = .restoring (m.saved n) [] (m.stages n) := Function.update_self _ _ _
  have hother (p : ℕ) (hp : p ≠ n) : m'.stages p = m.stages p := Function.update_of_ne hp _ _
  have hself : m'.stages n = .restoring (m.saved n) [] (m.stages n) := hstage
  have hp' : (m'.stages m.sched.idleProc).pending = (m.stages m.sched.idleProc).pending := by
    by_cases hp : m.sched.idleProc = n
    · rw [hp, hself]
      rfl
    · rw [hother _ hp]
  have hsub (p : ℕ) (hp : Waits m' q p) : Waits m q p ∧ p ≠ n := by
    rcases hp with hp | ⟨hp, hp2⟩ | hp | hp
    · exact ⟨Or.inl hp, fun h => hnq (h ▸ hp)⟩
    · exact ⟨Or.inr (Or.inl ⟨hp, hidle⟩), fun h => hp2 (h.symm.trans hp)⟩
    · have hp : (m.stages m.sched.idleProc).pending = some p := hp'.symm.trans hp
      exact ⟨Or.inr (Or.inr (Or.inl hp)), fun h => hpend (h ▸ hp)⟩
    · rw [hstage] at hp
      cases hp
  rw [hadv]
  refine ⟨?_, hi.contexts.switch hidle he.ring0 hwn hsub⟩
  refine { threaded := hq.threaded, ready := hq.ready, ne_null := hq.ne_null, known := hq.known
           tail := hq.tail, active := hnp, active_not_mem := hnq, curr := ?_, held := ?_
           exits := ?_, boot := ?_, creates := ?_, creating := ?_ }
  · rw [hstage]
    have hc := hq.curr
    rw [hst] at hc
    exact hc
  · intro x hx
    rw [hstage] at hx
    cases hx
  · rw [hstage]
    exact fun h => absurd h id
  · change ¬ (m'.stages m.sched.idleProc).exits
    by_cases hp : m.sched.idleProc = n
    · rw [hp, hself]
      exact id
    · rw [hother _ hp]
      exact hq.boot
  · intro p hp hpi
    by_cases hpn : p = n
    · rw [hpn] at hpi ⊢
      rw [hself]
      exact hq.creates n (Or.inr hwn) hpi
    · rw [hother p hpn]
      exact hq.creates p (hp.elim (fun h => absurd h hpn) (fun h => Or.inr (hsub p h).1)) hpi
  · have hc : Creating m' q loc (m.stages m.sched.idleProc) := by
      refine hq.creating.congr (fun _ h => h) (fun p hp hun _ => ?_) (fun _ _ h => h)
        (fun h => absurd h hidle)
      exact ⟨hun.known, hun.ne_idle, hun.not_mem, fun (h : p = n) => hpend (h ▸ hp), hun.last,
        hun.stack⟩
    change Creating m' q loc (m'.stages m.sched.idleProc)
    by_cases hp : m.sched.idleProc = n
    · rw [hp, hself]
      rw [hp] at hc
      exact hc
    · rw [hother _ hp]
      exact hc

/-- Every step of the code that interrupts divide. -/
theorem MachineInv.advance (hi : MachineInv m q loc S) (hst : m.stage ≠ .outside) :
    ∃ q' S', MachineInv m.advance q' loc S' := by
  cases hs : m.stage with
  | outside => exact absurd hs hst
  | exiting =>
    obtain ⟨q', h⟩ := hi.exiting_advance hs
    exact ⟨q', S, h⟩
  | unlinked n => exact ⟨q, S, hi.unlinked_advance hs⟩
  | picked n => exact ⟨q, S, hi.picked_advance hs⟩
  | switching n => exact ⟨q, S, hi.switching_advance hs⟩
  | running n => exact ⟨q, loc n, hi.switch_advance hs⟩
  | restoring due got after => exact ⟨q, S, hi.restore_advance hs⟩
  | prepared p => exact ⟨q, S, hi.prepared_advance hs⟩
  | behind p t =>
    obtain ⟨q', h⟩ := hi.behind_advance hs
    exact ⟨q', S, h⟩
  | linked p => exact ⟨q, S, hi.linked_advance hs⟩
  | alone p => exact ⟨q, S, hi.alone_advance hs⟩
  | first p => exact ⟨[p], S, hi.first_advance hs⟩

end Restore

/-! ### A creation -/

theorem userFrame_length (entry top : ℕ) : (userFrame entry top).length = 22 := rfl

/-- A frame whose registers are zero holds 64-bit words if what the processor pushed does. -/
theorem frame_lt {l : List ℕ} (h : ∀ w ∈ l, w < 2^64) : ∀ w ∈ List.replicate 15 0 ++
    l, w < 2^64 := by
  intro w hw
  rcases List.mem_append.mp hw with hr | hl
  · rw [List.eq_of_mem_replicate hr]
    exact Nat.two_pow_pos 64
  · exact h w hl

theorem userFrame_lt {entry : ℕ} (he : entry < 2^64) :
    ∀ w ∈ userFrame entry userStackTop, w < 2^64 := by
  apply frame_lt
  intro w hw
  simp only [List.mem_cons, List.not_mem_nil, or_false] at hw
  rcases hw with rfl | rfl | rfl | rfl | rfl | rfl | rfl
  · decide
  · decide
  · exact he
  all_goals decide

theorem userFrame_cs (entry top : ℕ) : frameCs (userFrame entry top) % 4 = 3 := by
  change (gdtSelectorUserCs ||| 3) % 4 = 3
  decide

section Create
variable {m : Machine} {q : List ℕ} {loc : ℕ → StackId} {S : StackId} {p kstack entry : ℕ}

theorem create_procs (hk0 : kstack ≠ 0) (r : ℕ) :
    r ∈ (m.create p kstack entry).run.procs ↔ r = p ∨ r ∈ m.run.procs := by
  have hid : (m.create p kstack entry).run.sched.idleProc = m.run.sched.idleProc :=
    (prepareProc_data m.sched entry hk0).2.1
  have hc : (m.create p kstack entry).run.created = p :: m.run.created := rfl
  simp only [SchedRun.procs, hid, hc, List.mem_cons]
  exact or_left_comm

theorem create_keepsStacks (hf : p ∉ m.run.procs) (hk0 : kstack ≠ 0) :
    KeepsStacks m (m.create p kstack entry) := by
  refine ⟨rfl, rfl, fun r hr => ?_, fun r hr => (create_procs hk0 r).mpr (Or.inr hr)⟩
  have hrp : r ≠ p := fun h => hf (h ▸ hr)
  exact ((prepareProc_data m.sched entry hk0).2.2.1 r hrp).2

theorem Machine.FreshStack.stackTop (hk : m.FreshStack kstack) (hk0 : kstack ≠ 0) :
    stackTop kstack = kstack + kernelStackSize := by
  obtain ⟨hal, -, h64, -⟩ := hk hk0
  rw [SukiOS.stackTop, align16 _ h64, kernelStackSize]
  omega

/-- Only the block of the new kernel stack is written. -/
theorem create_sameOff (hk : m.FreshStack kstack) (hk0 : kstack ≠ 0) :
    SameOff {x | kstack ≤ x ∧ x < kstack + kernelStackSize} m.mem
      (m.create p kstack entry).mem := by
  have htop := hk.stackTop hk0
  have hoff := storeWords_sameOff m.mem (stackTop kstack - 22*8) (userFrame entry userStackTop)
  have hmem : (m.create p kstack entry).mem = storeWords m.mem (stackTop kstack - 22*8)
      (userFrame entry userStackTop) := (prepareProc_data m.sched entry hk0).1
  rw [hmem]
  apply hoff.mono
  intro x hx
  have h1 := hx.1
  have h2 := hx.2
  rw [userFrame_length, htop] at h2
  rw [htop] at h1
  simp only [kernelStackSize] at h1 h2 ⊢
  exact ⟨by omega, by omega⟩

/-- The stacks in use keep their bytes. -/
theorem create_mem (hk : m.FreshStack kstack) (hk0 : kstack ≠ 0) {T : StackId} (hT : m.Known T)
    (x : ℕ) (h1 : m.lo T ≤ x) (h2 : x < m.hi T) : (m.create p kstack entry).mem x = m.mem x := by
  apply create_sameOff hk hk0
  intro hx
  have h3 := hx.1
  have h4 := hx.2
  rcases (hk hk0).2.2.2 T hT with h | h
  · omega
  · omega

theorem create_layout (hl : Layout m) (hf : p ∉ m.run.procs) (hk : m.FreshStack kstack)
    (hk0 : kstack ≠ 0) : Layout (m.create p kstack entry) := by
  obtain ⟨-, hlow, h64, hfresh⟩ := hk hk0
  have hkeeps : KeepsStacks m (m.create p kstack entry) := create_keepsStacks hf hk0
  have hlo : (m.create p kstack entry).lo (.kernel p) = kstack :=
    (prepareProc_data m.sched entry hk0).2.2.2.2
  have hhi : (m.create p kstack entry).hi (.kernel p) = kstack + kernelStackSize :=
    congrArg (· + kernelStackSize) hlo
  have hnew (T : StackId) (hT : (m.create p kstack entry).Known T) : T = .kernel p ∨
      m.Known T := by
    cases T with
    | interrupt => exact Or.inr trivial
    | boot => exact Or.inr trivial
    | kernel r =>
      rcases (create_procs hk0 r).mp hT with rfl | hr
      · exact Or.inl rfl
      · exact Or.inr hr
  refine ⟨hl.align, fun T hT => ?_, fun T U hT hU hTU => ?_⟩
  · rcases hnew T hT with rfl | hT
    · rw [hlo, hhi]
      exact ⟨hlow, h64⟩
    · rw [hkeeps.lo hT, hkeeps.hi hT]
      exact hl.high T hT
  · rcases hnew T hT with rfl | hT
    · have hU' := (hnew U hU).resolve_left hTU.symm
      rw [hlo, hhi, hkeeps.lo hU', hkeeps.hi hU']
      exact hfresh U hU'
    · rcases hnew U hU with rfl | hU
      · rw [hlo, hhi, hkeeps.lo hT, hkeeps.hi hT]
        exact (hfresh T hT).symm
      · rw [hkeeps.lo hT, hkeeps.hi hT, hkeeps.lo hU, hkeeps.hi hU]
        exact hl.apart T U hT hU hTU

/-- The prepared frame fills the top of the new stack. -/
theorem create_frameAt (hk : m.FreshStack kstack) (hk0 : kstack ≠ 0) (hpa : p ≠ m.active)
    (he : entry < 2^64) : FrameAt (m.create p kstack entry) p (.kernel p) := by
  obtain ⟨hmem, -, -, hrsp, hstack⟩ := prepareProc_data m.sched entry hk0
  have htop := hk.stackTop hk0
  have hsaved : (m.create p kstack entry).saved p = userFrame entry userStackTop :=
    Function.update_self _ _ _
  have hstage : (m.create p kstack entry).stages p = .outside :=
    (Function.update_of_ne hpa _ _).trans (Function.update_self _ _ _)
  have hframe : (m.create p kstack entry).frame p = stackTop kstack - 22*8 := hrsp
  have hlo : (m.create p kstack entry).lo (.kernel p) = kstack := hstack
  have hhi : (m.create p kstack entry).hi (.kernel p) = kstack + kernelStackSize :=
    congrArg (· + kernelStackSize) hstack
  have hmem' : (m.create p kstack entry).mem = storeWords m.mem (stackTop kstack - 22*8)
      (userFrame entry userStackTop) := hmem
  unfold FrameAt
  rw [hsaved, hstage, hframe]
  refine ⟨⟨rfl, rfl, by decide, ?_, ?_, ?_⟩, id, fun _ => rfl, fun h => ?_⟩
  · rw [hmem']
    exact loadWords_storeWords m.mem _ _ (userFrame_lt he)
  · rw [hlo, htop]
    simp only [kernelStackSize]
    omega
  · rw [hhi, htop]
    simp only [kernelStackSize, List.length_nil]
    omega
  · rw [userFrame_cs] at h
    cases h

/-- A creation on a stack of its own, up to the call of `enqueue`. -/
theorem MachineInv.create (hi : MachineInv m q loc S) (h0 : m.cs % 4 = 0)
    (hidle : m.active = m.sched.idleProc) (hst : m.stage = .outside) (hp : p ≠ 0)
    (hf : p ∉ m.run.procs) (hk : m.FreshStack kstack) (hk0 : kstack ≠ 0) (he : entry < 2^64) :
    MachineInv (m.create p kstack entry) q (Function.update loc p (.kernel p)) S := by
  have hq := hi.queue
  have hc := hi.contexts
  let m' := m.create p kstack entry
  obtain ⟨hh, ht, hcu, hid, hr, hn, hs⟩ := prepareProc_links m.sched p kstack entry
  have hid' : m'.sched.idleProc = m.sched.idleProc := hid
  have hkeeps : KeepsStacks m m' := create_keepsStacks hf hk0
  have hne (r : ℕ) (hr : r ∈ m.run.procs) : r ≠ p := fun h => hf (h ▸ hr)
  have hpa : p ≠ m.active := (hne _ hq.active).symm
  have hpq : p ∉ q := fun h => hf (hq.known p h)
  have hstage : m'.stage = .prepared p := Function.update_self _ _ _
  have hother (r : ℕ) (hr : r ≠ m.active) (hrp : r ≠ p) : m'.stages r = m.stages r :=
    (Function.update_of_ne hr _ _).trans (Function.update_of_ne hrp _ _)
  have hboot : m'.stages m'.sched.idleProc = .prepared p := by
    rw [hid', ← hidle]
    exact hstage
  have hbootp : (m.stages m.sched.idleProc).pending = none := by
    rw [← hidle]
    change m.stage.pending = none
    rw [hst]
    rfl
  have hsub (r : ℕ) (hr : Waits m' q r) : Waits m q r ∨ r = p ∧ True := by
    rcases hr with hr | ⟨-, hr⟩ | hr | hr
    · exact Or.inl (Or.inl hr)
    · exact absurd (hidle.trans hid'.symm) hr
    · rw [hboot] at hr
      exact Or.inr ⟨(Option.some.inj hr).symm, trivial⟩
    · rw [hstage] at hr
      cases hr
  have hnot {T : StackId} (hT : m.Known T) : T ≠ .kernel p := by
    rintro rfl
    exact hf hT
  have hun : Unqueued m' q (Function.update loc p (.kernel p)) p :=
    ⟨(create_procs hk0 p).mpr (Or.inl rfl),
      fun h => hpa (h.trans (hid'.trans hidle.symm)), hpq, hpa, (hn p).trans (if_pos rfl),
      Function.update_self _ _ _⟩
  have hout : outerCs m' = outerCs m := by
    apply outerCs_congr hkeeps.rsp0
    intro x h1 h2
    have hlow := hc.layout.rsp0_lower
    simp only [frameSize, interruptStackSize] at h1 h2 hlow
    apply create_mem hk hk0 (T := .interrupt) trivial
    · simp only [Machine.lo, interruptStackSize]
      omega
    · simp only [Machine.hi]
      omega
  have hhere := hc.here h0
  refine ⟨?_, create_layout hc.layout hf hk hk0, ?_, fun _ => ⟨hkeeps.known hhere.known, ?_,
    fun r hr => ?_, fun h => ?_⟩, fun h => absurd h0 h, ⟨?_, hid' ▸ hc.boot.active, fun h => ?_⟩,
    hc.popped⟩
  · refine { threaded := hq.threaded.congr hh ht (fun r hr => (hn r).trans (if_neg ?_))
             ready := hr.trans hq.ready, ne_null := fun r hr => ?_
             known := fun r hr => (create_procs hk0 r).mpr (Or.inr (hq.known r hr)), tail := ?_
             active := (create_procs hk0 _).mpr (Or.inr hq.active)
             active_not_mem := hq.active_not_mem, curr := ?_, held := fun n hn => ?_
             exits := ?_, boot := ?_, creates := fun r hr hri => ?_, creating := ?_ }
    · exact hne r (hq.known r hr)
    · rcases (create_procs hk0 r).mp hr with rfl | hr
      · exact hp
      · exact hq.ne_null r hr
    · have ht' : m'.sched.readyQueueTail = m.sched.readyQueueTail := ht
      rw [ht']
      exact hq.tail.imp id (fun h => (create_procs hk0 _).mpr (Or.inr h))
    · have hcm := hq.curr
      rw [hst] at hcm
      rw [hstage]
      exact hcu.trans hcm
    · rw [hstage] at hn
      cases hn
    · rw [hstage]
      exact fun h => absurd h id
    · rw [hboot]
      exact id
    · have hri' : r ≠ m.active := fun h => hri (h.trans (hidle.trans hid'.symm))
      rcases hr with hr | hr
      · exact absurd hr hri'
      · rcases hsub r hr with hr | ⟨rfl, -⟩
        · rw [hother r hri' (hne r (hq.waits_known hr))]
          exact hq.creates r (Or.inr hr) (fun h => hri (h.trans hid'.symm))
        · have hsp : m'.stages r = .outside :=
            (Function.update_of_ne hri' _ _).trans (Function.update_self _ _ _)
          rw [hsp]
          exact id
    · rw [hboot]
      refine ⟨hun, fun h => ?_⟩
      have ht' : m.sched.readyQueueTail = p := ht.symm.trans h
      rcases hq.tail with h0 | h0
      · exact hp (ht'.symm.trans h0)
      · exact hf (ht' ▸ h0)
  · -- the new frame is written to a fresh stack, away from all frames that wait
    have hold : Waiting m' (Waits m q) loc := by
      apply hc.waiting.congr hkeeps
      · exact fun r hr => Function.update_of_ne (hne r (hq.waits_known hr)) _ _
      · intro r hr
        exact hother r (fun h => hq.not_waits (h ▸ hr)) (hne r (hq.waits_known hr))
      · intro r hr
        exact ((prepareProc_data m.sched entry hk0).2.2.1 r (hne r (hq.waits_known hr))).1
      · intro r hr x h1 h2
        have hlo := (hc.waiting.frames r hr).lo
        exact create_mem hk hk0 (hc.waiting.known r hr) x (by omega) h2
      · exact fun _ _ _ => hout
    have hadd : Waiting m' (fun r => Waits m q r ∨ r = p ∧ True)
        (Function.update loc p (.kernel p)) :=
      hold.add (fun h => hf (hq.waits_known h)) ((create_procs hk0 p).mpr (Or.inl rfl))
        (fun _ => create_frameAt hk hk0 hpa he) (fun r hr => hnot (hc.waiting.known r hr))
        (by simp)
    exact hadd.mono hsub
  · rw [hstage]
    have hruns := hhere.runs
    rw [hst] at hruns
    exact (hkeeps.runsOn hhere.known _).mpr hruns
  · rcases hsub r hr with hr | ⟨rfl, -⟩
    · rw [Function.update_of_ne (hne r (hq.waits_known hr))]
      exact hhere.free r hr
    · rw [Function.update_self]
      exact (hnot hhere.known).symm
  · rw [hout]
    exact hhere.outer h
  · rw [hboot]
    trivial
  · exact absurd (hidle.trans hid'.symm) h

end Create

end SukiOS

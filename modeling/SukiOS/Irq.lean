import SukiOS.SchedQueue

/-! Hardware interrupts: delivery by the LAPIC, the handlers of `idt.c`, and the two ways the
CPU leaves an interrupt. -/
namespace SukiOS
open Transition

/-- The CPU between two interrupts. `inService` holds the vectors of the in-service register,
the one of highest priority first. -/
structure IrqCpu where
  sched : Sched
  apicLapicBase : ℕ
  inService : List ℕ
  timerTicks : ℕ

inductive Irq
  | timer
  | keyboard
deriving DecidableEq, Repr

/-- The vectors of the LVT timer register and of the keyboard's redirection entry. -/
def Irq.vector : Irq → ℕ
  | .timer => 0x20
  | .keyboard => 0x21

namespace IrqCpu

/-- The LAPIC delivers a vector whose priority class is above every vector in service. -/
def delivers (c : IrqCpu) (i : Irq) : Prop := ∀ v ∈ c.inService, v / 16 < i.vector / 16

/-- `lapic_write(LAPIC_EOI, 0)` clears the in-service bit of highest priority. -/
def lapicWriteEoi (c : IrqCpu) : IrqCpu := { c with inService := c.inService.tail }

end IrqCpu

/-- The keyboard callback changes nothing here. -/
def apicTimerIrqHandler (c : IrqCpu) : IrqCpu × Option ℕ :=
  let r := schedule c.sched
  ({ c with timerTicks := c.timerTicks + 1, sched := r.1 }, r.2)

/-- The table `irq_handlers` as `init_kernel` fills it; the keyboard handler changes nothing
here. -/
def irqHandlers (irqNum : ℕ) (c : IrqCpu) : IrqCpu × Option ℕ :=
  if irqNum = 0 then apicTimerIrqHandler c else (c, none)

/-- How the CPU leaves an interrupt: the writes of `LAPIC_EOI` since its entry, and the stack
pointer from which it pops the context it resumes. -/
structure IrqExit where
  cpu : IrqCpu
  eois : ℕ
  rsp : ℕ

/-- `irq_handler`, for a frame at `rsp`. A handler that switches the process leaves through
`switch_to_proc`, and what follows its call is not executed. -/
def irqHandler (c : IrqCpu) (intNo rsp : ℕ) : IrqExit :=
  let irqNum := (intNo + (256 - 0x20)) % 256
  let r := irqHandlers irqNum c
  match r.2 with
  | some next => ⟨r.1, 0, (r.1.sched.pcb next).rsp⟩
  | none => if r.1.apicLapicBase ≠ 0 then ⟨r.1.lapicWriteEoi, 1, rsp⟩ else ⟨r.1, 0, rsp⟩

/-- Delivery of a vector and `irq_common_stub`. -/
def takeIrq (c : IrqCpu) (i : Irq) (rsp : ℕ) : IrqExit :=
  irqHandler { c with inService := i.vector :: c.inService, sched := saveRsp c.sched rsp }
    i.vector rsp

/-- Interrupts over any queue content and any current process, after `apic_init`. -/
def irqSystem : System IrqCpu (Irq × ℕ) where
  init c := c.apicLapicBase ≠ 0 ∧ c.inService = []
  step c i c' := c.delivers i.1 ∧ c' = (takeIrq c i.1 i.2).cpu

/-- The EOI register was written exactly once before the CPU resumes a process, and the vector
is not in service any more. -/
def Acknowledged (i : Irq) (e : IrqExit) : Prop := e.eois = 1 ∧ i.vector ∉ e.cpu.inService

/-- The interrupts after which `irq_handler` reaches its acknowledgement. -/
def Returns (c : IrqCpu) (i : Irq × ℕ) : Prop := i.1 = .timer → NoSwitch c.sched

section Take
variable {c : IrqCpu}

/-- Saving the stack pointer does not change what `schedule` picks. -/
theorem noSwitch_saveRsp (s : Sched) (rsp : ℕ) : NoSwitch (saveRsp s rsp) ↔ NoSwitch s := by
  unfold saveRsp
  split <;> exact Iff.rfl

theorem takeIrq_cases (hl : c.apicLapicBase ≠ 0) (i : Irq) (rsp : ℕ) :
    (takeIrq c i rsp).cpu.apicLapicBase = c.apicLapicBase ∧
    ((Returns c (i, rsp) ∧ (takeIrq c i rsp).eois = 1 ∧
        (takeIrq c i rsp).cpu.inService = c.inService) ∨
      (¬ Returns c (i, rsp) ∧ (takeIrq c i rsp).eois = 0 ∧
        (takeIrq c i rsp).cpu.inService = i.vector :: c.inService)) := by
  let s := saveRsp c.sched rsp
  cases i with
  | keyboard =>
    have ht : takeIrq c .keyboard rsp =
        ⟨IrqCpu.lapicWriteEoi
          { c with inService := Irq.keyboard.vector :: c.inService, sched := s }, 1, rsp⟩ :=
      if_pos hl
    rw [ht]
    exact ⟨rfl, Or.inl ⟨fun h => (by cases h), rfl, rfl⟩⟩
  | timer =>
    have hret : Returns c (.timer, rsp) ↔ (schedule s).2 = none := by
      rw [schedule_returns_iff, noSwitch_saveRsp]
      exact ⟨fun h => h rfl, fun h _ => h⟩
    let c1 : IrqCpu := { c with inService := Irq.timer.vector :: c.inService
                                timerTicks := c.timerTicks + 1, sched := (schedule s).1 }
    have ht : takeIrq c .timer rsp =
        match (schedule s).2 with
        | some next => ⟨c1, 0, (c1.sched.pcb next).rsp⟩
        | none => if c.apicLapicBase ≠ 0 then ⟨c1.lapicWriteEoi, 1, rsp⟩ else ⟨c1, 0, rsp⟩ := rfl
    rw [hret, ht]
    cases (schedule s).2 with
    | none =>
      rw [if_pos hl]
      exact ⟨rfl, Or.inl ⟨rfl, rfl, rfl⟩⟩
    | some next => exact ⟨rfl, Or.inr ⟨Option.some_ne_none next, rfl, rfl⟩⟩

end Take

theorem irq_reachable {c : IrqCpu} (hr : (irqSystem.restrict Returns).Reachable c) :
    c.apicLapicBase ≠ 0 ∧ c.inService = [] := by
  apply hr.restrict_invariant (I := fun c => c.apicLapicBase ≠ 0 ∧ c.inService = [])
  · exact fun c h => h
  · rintro c ⟨i, rsp⟩ c' ⟨hl, hs⟩ hret ⟨-, rfl⟩
    obtain ⟨hbase, ⟨-, -, hserv⟩ | ⟨hno, -⟩⟩ := takeIrq_cases hl i rsp
    · exact ⟨by rw [hbase]; exact hl, by rw [hserv]; exact hs⟩
    · exact absurd hret hno

/-- As long as no timer interrupt switches the process, nothing stays in service; and the next
interrupt is acknowledged before the CPU resumes a process exactly when it does not switch. -/
theorem irq_acknowledged_iff {c : IrqCpu} (hr : (irqSystem.restrict Returns).Reachable c) :
    c.inService = [] ∧ ∀ i rsp, c.delivers i ∧
      (Acknowledged i (takeIrq c i rsp) ↔ Returns c (i, rsp)) := by
  obtain ⟨hl, hs⟩ := irq_reachable hr
  refine ⟨hs, fun i rsp => ⟨?_, ?_⟩⟩
  · rw [IrqCpu.delivers, hs]
    simp
  · obtain ⟨-, ⟨hret, heoi, hserv⟩ | ⟨hno, heoi, -⟩⟩ := takeIrq_cases hl i rsp
    · refine iff_of_true ⟨heoi, ?_⟩ hret
      rw [hserv, hs]
      exact List.not_mem_nil
    · exact iff_of_false (fun h => absurd (heoi.symm.trans h.1) (by decide)) hno

/-- The idle process runs after `scheduler_init`, and the process at 0x5000 waits. -/
def oneWaiting : IrqCpu :=
  { sched := (procCreateFromElf (schedulerInit (staticSched 0x1000) 0x10000 0x2000)
      (some 0x400000) 0x5000 0x20000).1
    apicLapicBase := 0xFEE00000, inService := [], timerTicks := 0 }

theorem irq_acknowledged_iff_keyboard :
    Acknowledged .keyboard (takeIrq oneWaiting .keyboard 0x11000) :=
  (((irq_acknowledged_iff (.init ⟨by decide, rfl⟩)).2 .keyboard 0x11000).2).mpr
    (fun h => (by cases h))

/-- The timer interrupt that starts the waiting process is never acknowledged, and keeps the
LAPIC from delivering any further one. -/
theorem irq_acknowledged_fails :
    irqSystem.Reachable oneWaiting ∧ oneWaiting.delivers .timer ∧
      ¬ Acknowledged .timer (takeIrq oneWaiting .timer 0x11000) ∧
      ∀ i, ¬ (takeIrq oneWaiting .timer 0x11000).cpu.delivers i := by
  have hno : ¬ Returns oneWaiting (.timer, 0x11000) := by
    intro h
    have hn : NoSwitch oneWaiting.sched := h rfl
    revert hn
    decide
  refine ⟨.init ⟨by decide, rfl⟩, fun v hv => absurd hv List.not_mem_nil, ?_, ?_⟩
  all_goals
    obtain ⟨-, ⟨hret, -⟩ | ⟨-, heoi, hserv⟩⟩ :=
      takeIrq_cases (c := oneWaiting) (by decide) .timer 0x11000
    · exact absurd hret hno
  · exact fun h => absurd (heoi.symm.trans h.1) (by decide)
  · intro i hd
    have hv := hd Irq.timer.vector (by rw [hserv]; exact List.mem_cons_self)
    revert hv
    cases i <;> decide

end SukiOS

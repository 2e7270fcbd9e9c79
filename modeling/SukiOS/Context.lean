import SukiOS.Lib.Word
import SukiOS.SchedLinks

/-! The CPU under the scheduler: where the interrupt stubs push the 22-word frame of a
process, what the kernel writes on its stacks, and how `switch_to_proc` resumes a process.

A system call and the boot code run with interrupts enabled, so `exit`, the creation of a process
and `switch_to_proc` take one step for each store that an interrupt handler can see. -/
namespace SukiOS
open ByteMemory LinkedList Transition

/-- The stack in the TSS, the stack of the boot code, and the one in each PCB. -/
inductive StackId
  | interrupt
  | boot
  | kernel (p : ℕ)
deriving DecidableEq

/-- Where the code of a process stands in `exit`, `enqueue` or `switch_to_proc`. -/
inductive Stage
  | outside
  /-- `exit` has marked the process and calls `schedule`. -/
  | exiting
  /-- `dequeue` has moved the head past `n`. -/
  | unlinked (n : ℕ)
  /-- `next` is `n`. -/
  | picked (n : ℕ)
  /-- `g_current_proc` is `n`. -/
  | switching (n : ℕ)
  /-- `n` is `PROC_RUNNING`, and `switch_to_proc(n)` follows. -/
  | running (n : ℕ)
  /-- `switch_to_proc` has popped the words `got` of the saved ones `due`, and the process goes on
  at `after`. -/
  | restoring (due got : List ℕ) (after : Stage)
  /-- The new process `p` is about to be queued. -/
  | prepared (p : ℕ)
  /-- `enqueue` has read the tail `t`, which is not `NULL`. -/
  | behind (p t : ℕ)
  /-- `t->next` is `p`. -/
  | linked (p : ℕ)
  /-- `enqueue` has read the tail `NULL`. -/
  | alone (p : ℕ)
  /-- The tail is `p`, the head is still `NULL`. -/
  | first (p : ℕ)
deriving DecidableEq

/-- `cs` and `rsp` are the CPU's, and `active` is the process whose code it executes. For each
process, `saved` is the frame pushed when it was last preempted or prepared when it was created.
`popped` is the process resumed last, with the words popped from its stack and those saved. -/
structure Machine where
  run : SchedRun
  rsp0 : ℕ
  bootStack : ℕ × ℕ
  cs : ℕ
  rsp : ℕ
  active : ℕ
  stages : ℕ → Stage
  saved : ℕ → List ℕ
  popped : Option (ℕ × List ℕ × List ℕ)

def frameSize : ℕ := 22*8
def interruptStackSize : ℕ := 16384

/-- The CS and RSP words of a frame. -/
def frameCs (ws : List ℕ) : ℕ := ws.getD 18 0
def frameRsp (ws : List ℕ) : ℕ := ws.getD 20 0

namespace Machine

def sched (m : Machine) : Sched := m.run.sched
def mem (m : Machine) : Mem := m.run.sched.mem
def curr (m : Machine) : ℕ := m.run.sched.currentProc
def stage (m : Machine) : Stage := m.stages m.active

/-- The stack pointer in the PCB. -/
def frame (m : Machine) (p : ℕ) : ℕ := (m.run.sched.pcb p).rsp

def withSched (m : Machine) (s : Sched) : Machine := { m with run := { m.run with sched := s } }

def atStage (m : Machine) (st : Stage) : Machine :=
  { m with stages := Function.update m.stages m.active st }

def lo (m : Machine) : StackId → ℕ
  | .interrupt => m.rsp0 - interruptStackSize
  | .boot => m.bootStack.1
  | .kernel p => (m.run.sched.pcb p).kernelStack

def hi (m : Machine) : StackId → ℕ
  | .interrupt => m.rsp0
  | .boot => m.bootStack.2
  | .kernel p => (m.run.sched.pcb p).kernelStack + kernelStackSize

/-- The highest stack pointer of kernel code: on the interrupt stack it runs below the frame of
its system call. -/
def top (m : Machine) : StackId → ℕ
  | .interrupt => m.rsp0 - frameSize
  | .boot => m.bootStack.2
  | .kernel p => (m.run.sched.pcb p).kernelStack + kernelStackSize

def Known (m : Machine) : StackId → Prop
  | .kernel p => p ∈ m.run.procs
  | _ => True

/-- Kernel code runs on the stack `S`. -/
def RunsOn (m : Machine) (S : StackId) (rsp : ℕ) : Prop :=
  m.lo S < rsp ∧ rsp ≤ m.top S

/-- Where an interrupt pushes its frame: below RSP0 from ring 3, below the aligned stack
pointer from ring 0. -/
def frameAddr (m : Machine) : ℕ :=
  ((if m.cs % 4 ≠ 0 then m.rsp0 else m.rsp) &&& (2^64 - 16)) - frameSize

/-- The stack in use has room for the frame of an interrupt. -/
def HasRoom (m : Machine) : Prop :=
  m.cs % 4 = 0 → ∀ S, m.Known S → m.lo S < m.rsp → m.rsp ≤ m.hi S → m.lo S < m.frameAddr

/-- The words the CPU and the stub push; the code of ring 3 may have moved its stack pointer. -/
structure Pushed (m : Machine) (ws : List ℕ) : Prop where
  length : ws.length = 22
  word : ∀ w ∈ ws, w < 2^64
  cs : frameCs ws = m.cs
  rsp : m.cs % 4 = 0 → frameRsp ws = m.rsp

/-- What a handler may write: below its frame at `f` on the same stack, and memory that is no
stack. -/
def Below (m : Machine) (f : ℕ) : Set ℕ :=
  {x | ∀ S, m.Known S → m.lo S ≤ x → x < m.hi S → x < f ∧ f ≤ m.hi S}

/-- The block that `kmalloc(KERNEL_STACK_SIZE)` returns is none of those in use. -/
def FreshStack (m : Machine) (kstack : ℕ) : Prop :=
  kstack ≠ 0 → kstack % 16 = 0 ∧ 2^47 ≤ kstack ∧ kstack + kernelStackSize < 2^64 ∧
    ∀ S, m.Known S → kstack + kernelStackSize ≤ m.lo S ∨ m.hi S ≤ kstack

/-! ### Interrupts, which run with interrupts disabled -/

/-- The handler has left the memory `mem`, and the stub has saved the stack pointer. -/
def entered (m : Machine) (mem : Mem) : Sched :=
  saveRsp { m.sched with mem := mem } m.frameAddr

/-- All of `switch_to_proc(next)`, in the state `s`. -/
def resume (m : Machine) (s : Sched) (next : ℕ) : Machine :=
  let ws := loadWords s.mem (s.pcb next).rsp 22
  { m.withSched s with cs := frameCs ws, rsp := frameRsp ws, active := next
                       popped := some (next, ws, m.saved next) }

/-- Where a call of `schedule` leads. -/
def afterSchedule (m : Machine) (r : Sched × Option ℕ) : Machine :=
  match r.2 with
  | some next => m.resume r.1 next
  | none => m.withSched r.1

/-- The timer: the handler calls `schedule`. -/
def timer (m : Machine) (ws : List ℕ) (mem : Mem) : Machine :=
  let r := schedule (m.entered mem)
  match r.2 with
  | some next => { m with saved := Function.update m.saved m.active ws }.resume r.1 next
  | none => m.withSched r.1

/-! ### Code that interrupts divide -/

/-- `exit` up to its call of `schedule`. -/
def exit (m : Machine) : Machine :=
  { m with run :=
    { m.run with sched := if m.curr ≠ 0 then m.sched.setState m.curr .zombie else m.sched
                 exited := m.curr :: m.run.exited } }.atStage .exiting

/-- The creation of a process up to its call of `enqueue`. -/
def create (m : Machine) (p kstack entry : ℕ) : Machine :=
  { m with run := { m.run with sched := prepareProc m.sched p kstack entry
                               created := p :: m.run.created }
           stages := Function.update m.stages p .outside
           saved := Function.update m.saved p (userFrame entry userStackTop) }.atStage (.prepared p)

/-- The next step of `exit`, `enqueue` or `switch_to_proc`. -/
def advance (m : Machine) : Machine :=
  let s := m.sched
  match m.stage with
  | .outside => m
  | .exiting =>
    if s.schedulerReady = false then m.atStage .outside
    else if s.readyQueueHead = 0 then m.atStage (.picked s.idleProc)
    else (m.withSched (unlinkHead s)).atStage (.unlinked s.readyQueueHead)
  | .unlinked n => (m.withSched (clearTail s)).atStage (.picked n)
  | .picked n =>
    if s.currentProc = n then m.atStage .outside
    else (m.withSched { requeue s with currentProc := n }).atStage (.switching n)
  | .switching n => (m.withSched (s.setState n .running)).atStage (.running n)
  | .running n =>
    { m with rsp := m.frame n, active := n }.atStage (.restoring (m.saved n) [] (m.stages n))
  | .restoring due got after =>
    -- 15 registers, `int_no` and `err_code`, then the five words of `iretq`
    if got.length < 17 then
      { m with rsp := m.rsp + 8 }.atStage (.restoring due (got ++ [load64 m.mem m.rsp]) after)
    else
      let ws := got ++ loadWords m.mem m.rsp 5
      { m with cs := frameCs ws, rsp := frameRsp ws, popped := some (m.active, ws, due) }.atStage
        after
  | .prepared p =>
    m.atStage (if s.readyQueueTail ≠ 0 then .behind p s.readyQueueTail else .alone p)
  | .behind p t => (m.withSched (s.setNext t p)).atStage (.linked p)
  | .linked p => (m.withSched { s with readyQueueTail := p }).atStage .outside
  | .alone p => (m.withSched { s with readyQueueTail := p }).atStage (.first p)
  | .first p => (m.withSched { s with readyQueueHead := p }).atStage .outside

end Machine

inductive MachineOp
  | user (a : ℕ) (b : Byte)
  | kernel (rsp a : ℕ) (b : Byte)
  | irq (ws : List ℕ) (mem : Mem)
  | timer (ws : List ℕ) (mem : Mem)
  | syscall (ws : List ℕ)
  | sysret
  | exit
  | advance
  | execve (elf : Option ℕ) (p kstack : ℕ)
  | create (p kstack entry : ℕ)
  | start

inductive Machine.Step (m : Machine) : MachineOp → Machine → Prop
  /-- Code of ring 3 writes user memory. -/
  | user {a : ℕ} {b : Byte} (h3 : m.cs % 4 ≠ 0) (ha : a < 2^47) :
      Step m (.user a b) (m.withSched { m.sched with mem := Function.update m.mem a b })
  /-- Code of ring 0 writes its own stack, memory that is no stack, or the `rax` word of the
  frame of its system call. -/
  | kernel {S : StackId} {rsp a : ℕ} {b : Byte} (h0 : m.cs % 4 = 0) (hk : m.Known S)
      (hst : ∀ due got after, m.stage ≠ .restoring due got after)
      (hr : m.RunsOn S m.rsp) (hr' : m.RunsOn S rsp)
      (hother : ∀ T, m.Known T → T ≠ S → ¬ (m.lo T ≤ a ∧ a < m.hi T))
      (hframe : S = .interrupt → m.rsp0 - frameSize ≤ a → a < m.rsp0 →
        m.rsp0 - frameSize + 8*14 ≤ a ∧ a < m.rsp0 - frameSize + 8*15) :
      Step m (.kernel rsp a b)
        { m.withSched { m.sched with mem := Function.update m.mem a b } with rsp := rsp }
  /-- An interrupt whose handler does not schedule. -/
  | irq {ws : List ℕ} {mem : Mem} (hw : m.Pushed ws) (hroom : m.HasRoom)
      (hs : SameOff (m.Below m.frameAddr) (storeWords m.mem m.frameAddr ws) mem) :
      Step m (.irq ws mem) (m.withSched (m.entered mem))
  | timer {ws : List ℕ} {mem : Mem} (hw : m.Pushed ws) (hroom : m.HasRoom)
      (hs : SameOff (m.Below m.frameAddr) (storeWords m.mem m.frameAddr ws) mem) :
      Step m (.timer ws mem) (m.timer ws mem)
  /-- `int 0x80` -/
  | syscall {ws : List ℕ} (h3 : m.cs % 4 ≠ 0) (hw : m.Pushed ws) :
      Step m (.syscall ws)
        { m.withSched (m.entered (storeWords m.mem m.frameAddr ws))
          with cs := gdtSelectorKernelCs, rsp := m.frameAddr }
  /-- The stub returns from a system call by the frame at the top of the interrupt stack. -/
  | sysret (h0 : m.cs % 4 = 0) (hr : m.RunsOn .interrupt m.rsp) (hst : m.stage = .outside) :
      Step m .sysret
        { m with cs := frameCs (loadWords m.mem (m.rsp0 - frameSize) 22)
                 rsp := frameRsp (loadWords m.mem (m.rsp0 - frameSize) 22) }
  | exit (h0 : m.cs % 4 = 0) (hr : m.RunsOn .interrupt m.rsp) (hst : m.stage = .outside) :
      Step m .exit m.exit
  | advance (hst : m.stage ≠ .outside) : Step m .advance m.advance
  | execve {elf : Option ℕ} {p kstack : ℕ} (h0 : m.cs % 4 = 0) (hr : m.RunsOn .interrupt m.rsp)
      (hst : m.stage = .outside) (hf : p ∉ m.run.procs) (hk : m.FreshStack kstack) :
      Step m (.execve elf p kstack)
        (let r := sysExecve m.sched elf p kstack
        if r.2 = 0 then
          { m with run := { m.run with sched := r.1, created := p :: m.run.created }
                   saved := Function.update m.saved p (userFrame (elf.getD 0) userStackTop) }
        else m.withSched r.1)
  /-- The boot code creates a process. -/
  | create {p kstack entry : ℕ} (h0 : m.cs % 4 = 0) (hi : m.active = m.sched.idleProc)
      (hst : m.stage = .outside) (hp : p ≠ 0) (hf : p ∉ m.run.procs) (hk : m.FreshStack kstack)
      (he : entry < 2^64) : Step m (.create p kstack entry) (m.create p kstack entry)
  /-- The call of `schedule` in `scheduler_start`, by the boot code. -/
  | start (h0 : m.cs % 4 = 0) (hi : m.active = m.sched.idleProc) (hst : m.stage = .outside) :
      Step m .start (m.afterSchedule (schedule m.sched))

/-- The stacks lie in the kernel half and share no byte. -/
structure Layout (m : Machine) : Prop where
  align : m.rsp0 % 16 = 0
  high : ∀ S, m.Known S → 2^47 ≤ m.lo S ∧ m.hi S < 2^64
  apart : ∀ S T, m.Known S → m.Known T → S ≠ T → m.hi S ≤ m.lo T ∨ m.hi T ≤ m.lo S

/-- The boot code right after `scheduler_init`. -/
def machineSystem : System Machine MachineOp where
  init m := ∃ s kstack idleEntry, s.readyQueueHead = 0 ∧ s.readyQueueTail = 0 ∧ s.idleProc ≠ 0 ∧
    m.run = ⟨schedulerInit s kstack idleEntry, [], []⟩ ∧ Layout m ∧
    m.cs = gdtSelectorKernelCs ∧ m.RunsOn .boot m.rsp ∧ m.active = s.idleProc ∧
    (∀ p, m.stages p = .outside) ∧ m.saved s.idleProc = idleFrame idleEntry ∧ m.popped = none
  step m op m' := Machine.Step m op m'

/-- `p` is in the ready queue. -/
def OnQueue (m : Machine) (p : ℕ) : Prop :=
  p ≠ 0 ∧ Chained m.sched.next 0 m.sched.readyQueueHead p

structure FramesIntact (m : Machine) : Prop where
  /-- The PCB of a waiting process points to its 22 saved words. -/
  complete : ∀ p, OnQueue m p →
    (m.saved p).length = 22 ∧ loadWords m.mem (m.frame p) 22 = m.saved p
  /-- They lie on a stack that no other process uses. -/
  isolated : ∀ p, OnQueue m p → ∃ S, m.Known S ∧ m.lo S ≤ m.frame p ∧
    m.frame p + frameSize ≤ m.hi S ∧
    (∀ p', OnQueue m p' → p' ≠ p → ¬ (m.lo S ≤ m.frame p' ∧ m.frame p' < m.hi S)) ∧
    (m.cs % 4 = 0 → ¬ (m.lo S < m.rsp ∧ m.rsp ≤ m.hi S))
  /-- The process resumed last got the words saved for it. -/
  resumed : ∀ p ws due, m.popped = some (p, ws, due) → ws.length = 22 ∧ ws = due

/-- No waiting process has its frame on the stack of RSP0. -/
def InterruptStackFree (m : Machine) : Prop :=
  ∀ p, OnQueue m p → ¬ (m.lo .interrupt ≤ m.frame p ∧ m.frame p < m.hi .interrupt)

/-- `schedule` has set `g_current_proc` to the next process, but the old one still runs. -/
def Stage.halfSwitched : Stage → Prop
  | .switching _ => True
  | .running _ => True
  | _ => False

/-- The steps that keep every saved frame. -/
def KeepsFrames (m : Machine) : MachineOp → Prop
  | .irq _ _ => (m.cs % 4 ≠ 0 → InterruptStackFree m) ∧ ¬ m.stage.halfSwitched
  | .timer _ _ => (m.cs % 4 ≠ 0 → InterruptStackFree m) ∧ ¬ m.stage.halfSwitched
  | .syscall _ => InterruptStackFree m
  | .create _ kstack _ => kstack ≠ 0
  | .execve elf p _ => elf = none ∨ p = 0
  | .start => NoSwitch m.sched
  | _ => True

end SukiOS

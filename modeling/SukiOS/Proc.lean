import SukiOS.Lib.Memory

/-! Processes and the round-robin scheduler of `proc.c`, with the parts of the system calls
that change them.

A `pcb_t *` is an address into the store `pcb`, and `NULL` is 0. `switch_to_proc` does not
return: a function that may call it returns the process it switches to. -/
namespace SukiOS
open ByteMemory

inductive ProcState
  | ready
  | running
  | blocked
  | zombie
deriving DecidableEq, Repr

def kernelStackSize : ℕ := 8192
def userStackSize : ℕ := 4*4096
def userStackTop : ℕ := 0x7FFFE000
def maxFd : ℕ := 16
def gdtSelectorKernelCs : ℕ := 0x08
def gdtSelectorUserCs : ℕ := 0x18
def gdtSelectorUserDs : ℕ := 0x20

structure Pcb where
  rsp : ℕ
  cr3 : ℕ
  pid : ℕ
  state : ProcState
  next : ℕ
  userStack : ℕ
  entryPoint : ℕ
  /-- The `vnode` pointers of the descriptor table. -/
  fds : ℕ → ℕ
  kernelStack : ℕ

/-- The variables of `proc.c`, and the memory that holds the kernel stacks. -/
structure Sched where
  mem : Mem
  pcb : ℕ → Pcb
  currentProc : ℕ
  readyQueueHead : ℕ
  readyQueueTail : ℕ
  nextPid : ℕ
  schedulerReady : Bool
  /-- The address of the static `idle_proc`. -/
  idleProc : ℕ

namespace Sched

def update (s : Sched) (p : ℕ) (f : Pcb → Pcb) : Sched :=
  { s with pcb := Function.update s.pcb p (f (s.pcb p)) }

def setState (s : Sched) (p : ℕ) (st : ProcState) : Sched :=
  s.update p (fun c => { c with state := st })

def setNext (s : Sched) (p n : ℕ) : Sched := s.update p (fun c => { c with next := n })

def next (s : Sched) (p : ℕ) : ℕ := (s.pcb p).next
def state (s : Sched) (p : ℕ) : ProcState := (s.pcb p).state

end Sched

/-! ### Ready queue -/

def enqueue (s : Sched) (p : ℕ) : Sched :=
  let s1 := (s.setNext p 0).setState p .ready
  if s1.readyQueueTail ≠ 0 then
    { s1.setNext s1.readyQueueTail p with readyQueueTail := p }
  else { s1 with readyQueueHead := p, readyQueueTail := p }

def dequeue (s : Sched) : Sched × ℕ :=
  if s.readyQueueHead = 0 then (s, 0)
  else
    let ret := s.readyQueueHead
    let head := s.next ret
    ({ s with readyQueueHead := head
              readyQueueTail := if head = 0 then 0 else s.readyQueueTail }, ret)

/-! ### Creation -/

/-- The 22 words `prepare_user_stack` leaves: fifteen registers, `int_no`, `err_code`, RIP, CS,
RFLAGS, RSP, SS. -/
def userFrame (entry userTop : ℕ) : List ℕ :=
  List.replicate 15 0 ++
    [0, 0, entry, gdtSelectorUserCs ||| 3, 0x202, userTop, gdtSelectorUserDs ||| 3]

/-- The 20 words `scheduler_init` leaves for the idle process. -/
def idleFrame (idleEntry : ℕ) : List ℕ :=
  List.replicate 15 0 ++ [0, 0, idleEntry, gdtSelectorKernelCs, 0x202]

/-- `(kstack + KERNEL_STACK_SIZE) & ~0xF` -/
def stackTop (kstack : ℕ) : ℕ := (kstack + kernelStackSize) &&& (2^64 - 16)

/-- `kstack` is what `kmalloc(KERNEL_STACK_SIZE)` returned. -/
def prepareUserStack (s : Sched) (proc kstack entry userTop : ℕ) : Sched :=
  if kstack = 0 then s
  else
    let sp := stackTop kstack - 22*8
    { s with mem := storeWords s.mem sp (userFrame entry userTop) }.update proc
      (fun c => { c with kernelStack := kstack, rsp := sp, cr3 := 0 })

/-- `elf` is the entry point when `elf64_load` succeeds, `p` and `kstack` are the results of the
two `kmalloc` calls. Returns the new process or `NULL`. -/
def procCreateFromElf (s : Sched) (elf : Option ℕ) (p kstack : ℕ) : Sched × ℕ :=
  match elf with
  | none => (s, 0)
  | some entry =>
    if p = 0 then (s, 0)
    else
      let s1 := { s with nextPid := s.nextPid + 1 }.update p (fun c =>
        { c with fds := fun i => if i < maxFd then 0 else c.fds i, pid := s.nextPid,
                 state := .ready, next := 0, userStack := userStackTop, entryPoint := entry,
                 cr3 := 0 })
      (enqueue (prepareUserStack s1 p kstack entry userStackTop) p, p)

/-! ### Scheduling -/

/-- The process passed to `switch_to_proc`, or `none` when `schedule` returns. -/
def schedule (s : Sched) : Sched × Option ℕ :=
  if s.schedulerReady = false then (s, none)
  else
    let prev := s.currentProc
    let r := dequeue s
    let next := if r.2 = 0 then s.idleProc else r.2
    if prev = next then (r.1, none)
    else
      let s2 := if r.1.state prev = .running then (enqueue r.1 prev).setState prev .ready else r.1
      ({ s2 with currentProc := next }.setState next .running, some next)

/-- `kstack` is the idle stack, which `kmalloc` provided. -/
def schedulerInit (s : Sched) (kstack idleEntry : ℕ) : Sched :=
  let sp := stackTop kstack - 20*8
  let s1 := { s with mem := storeWords s.mem sp (idleFrame idleEntry) }.update s.idleProc
    (fun c => { c with kernelStack := kstack, rsp := sp, pid := 0, state := .running, cr3 := 0,
                       entryPoint := 0, userStack := 0 })
  { s1 with currentProc := s1.idleProc, schedulerReady := true }

/-! ### Interrupt stubs and system calls -/

/-- `mov [g_current_proc], rsp`, which both interrupt stubs do after they have pushed the frame. -/
def saveRsp (s : Sched) (rsp : ℕ) : Sched :=
  if s.currentProc ≠ 0 then s.update s.currentProc (fun c => { c with rsp := rsp }) else s

/-- `exit(code)`, the printing apart. -/
def sysExit (s : Sched) : Sched × Option ℕ :=
  let curr := s.currentProc
  schedule (if curr ≠ 0 then s.setState curr .zombie else s)

/-- `execve` from the creation of the new process on; the file has been read. The second
component is the value of `rax`. The memory `kfree` gives back and the closed vnodes are
outside this state. -/
def sysExecve (s : Sched) (elf : Option ℕ) (p kstack : ℕ) : Sched × ℤ :=
  let curr := s.currentProc
  let r := procCreateFromElf s elf p kstack
  if r.2 = 0 then (r.1, -1)
  else
    let s1 := if curr ≠ 0 then
        r.1.update curr (fun c =>
          { c with state := .zombie, fds := fun i => if i < maxFd then 0 else c.fds i })
      else r.1
    ({ s1 with currentProc := r.2 }.setState r.2 .running, 0)

end SukiOS

import Mathlib.Algebra.Group.Nat.Defs
import SukiOS.ContextFrames
import SukiOS.Lib.Fields

/-! Interrupts on the CPU: the gates of `idt.c`, the stubs of `idt_stubs.asm` push by push, and
`switch_to_proc`, which resumes from the frame that a stub left. -/
namespace SukiOS.Stubs
open ByteMemory Fields

/-! ### The CPU -/

inductive Reg
  | rax | rbx | rcx | rdx | rsi | rdi | rbp | r8 | r9 | r10 | r11 | r12 | r13 | r14 | r15
deriving DecidableEq, Repr

structure Cpu where
  regs : Reg → ℕ
  rip : ℕ
  cs : ℕ
  rflags : ℕ
  rsp : ℕ
  ss : ℕ
  mem : Mem

namespace Cpu

def push (c : Cpu) (w : ℕ) : Cpu :=
  { c with rsp := c.rsp - 8, mem := store64 c.mem (c.rsp - 8) w }

def pop (c : Cpu) (r : Reg) : Cpu :=
  { c with regs := Function.update c.regs r (load64 c.mem c.rsp), rsp := c.rsp + 8 }

def iretq (c : Cpu) : Cpu :=
  { c with
    rip := load64 c.mem c.rsp
    cs := load64 c.mem (c.rsp + 8)
    rflags := load64 c.mem (c.rsp + 16)
    rsp := load64 c.mem (c.rsp + 24)
    ss := load64 c.mem (c.rsp + 32) }

/-- The bit 9 of `rflags` is IF. -/
def cli (c : Cpu) : Cpu := { c with rflags := c.rflags &&& (2^64 - 1 - 0x200) }

def sti (c : Cpu) : Cpu := { c with rflags := c.rflags ||| 0x200 }

end Cpu

/-! ### The gates -/

structure IdtEntry where
  offsetLow : ℕ
  selector : ℕ
  ist : ℕ
  typeAttr : ℕ
  offsetMid : ℕ
  offsetHigh : ℕ
  reserved : ℕ
deriving DecidableEq, Repr

def idtSetGate (handler selector typeAttr ist : ℕ) : IdtEntry where
  offsetLow := handler &&& 0xFFFF
  offsetMid := (handler >>> 16) &&& 0xFFFF
  offsetHigh := (handler >>> 32) &&& 0xFFFFFFFF
  selector := selector
  ist := ist
  typeAttr := typeAttr
  reserved := 0

/-- The labels of the stubs. -/
inductive Label
  | isr (n : ℕ)
  | irq (n : ℕ)
  | isr80
  | isrSpurious
deriving DecidableEq, Repr

def istNmi : ℕ := 2
def istDf : ℕ := 1
def istMc : ℕ := 3
def idtGateInterrupt : ℕ := 0x8E
def apicSpuriousVector : ℕ := 0xFF

/-- The `switch` in the first loop of `idt_init`. -/
def exceptionIst (n : ℕ) : ℕ :=
  if n = 2 then istNmi else if n = 8 then istDf else if n = 18 then istMc else 0

/-- `addr` is where the linker puts the stubs. A later write to an entry stands first. -/
def idtInit (addr : Label → ℕ) (n : ℕ) : IdtEntry :=
  if n = 0x80 then idtSetGate (addr .isr80) gdtSelectorKernelCs 0xEE 0
  else if 0x20 ≤ n ∧ n < 0x20 + 16 then
    idtSetGate (addr (.irq n)) gdtSelectorKernelCs idtGateInterrupt 0
  else if n = apicSpuriousVector then
    idtSetGate (addr .isrSpurious) gdtSelectorKernelCs idtGateInterrupt 0
  else if n < 32 then
    idtSetGate (addr (.isr n)) gdtSelectorKernelCs idtGateInterrupt (exceptionIst n)
  else ⟨0, 0, 0, 0, 0, 0, 0⟩

namespace IdtEntry

/-- What the CPU reads in a gate. -/
def offset (e : IdtEntry) : ℕ := e.offsetLow ||| e.offsetMid <<< 16 ||| e.offsetHigh <<< 32

def present (e : IdtEntry) : Bool := e.typeAttr.testBit 7

def dpl (e : IdtEntry) : ℕ := e.typeAttr / 32 % 4

end IdtEntry

/-! ### Delivery -/

/-- What makes the CPU take a gate: an exception or an NMI, an interrupt from the APIC, or the
instruction `int n`. -/
inductive Event
  | exception (v code : ℕ)
  | external (v : ℕ)
  | software (n : ℕ)

/-- The exceptions with an error code. -/
def errorCodes : List ℕ := [8, 10, 11, 12, 13, 14, 17, 21]

namespace Event

def vector : Event → ℕ
  | exception v _ => v
  | external v => v
  | software n => n

def code : Event → Option ℕ
  | exception v code => if v ∈ errorCodes then some code else none
  | external _ => none
  | software _ => none

end Event

/-- The stacks of the TSS. -/
structure Tss where
  rsp0 : ℕ
  ist : ℕ → ℕ

/-- The first address above the new frame. -/
def frameTop (tss : Tss) (e : IdtEntry) (c : Cpu) : ℕ :=
  (if e.ist ≠ 0 then tss.ist e.ist else if c.cs % 4 ≠ 0 then tss.rsp0 else c.rsp) / 16 * 16

/-- The words that the CPU pushes, the first one at the top. -/
def cpuWords (c : Cpu) (code : Option ℕ) : List ℕ :=
  [c.ss, c.rsp, c.rflags, c.cs, c.rip] ++ code.toList

/-- `int n` is refused where the gate asks for more privilege. -/
def refused (e : IdtEntry) (ev : Event) (c : Cpu) : Prop :=
  e.present = false ∨ (∃ n, ev = .software n) ∧ e.dpl < c.cs % 4

def deliver (tss : Tss) (e : IdtEntry) (ev : Event) (c : Cpu) : Cpu :=
  let c' := (cpuWords c ev.code).foldl Cpu.push { c with rsp := frameTop tss e c }
  { c'.cli with rip := e.offset, cs := e.selector, ss := if c.cs % 4 ≠ 0 then 0 else c.ss }

/-! ### The stubs -/

/-- The pushes of the three common stubs, and the pops that all of them and `switch_to_proc` end
with. -/
def saved : List Reg :=
  [.rax, .rbx, .rcx, .rdx, .rsi, .rdi, .rbp, .r8, .r9, .r10, .r11, .r12, .r13, .r14, .r15]

def restored : List Reg :=
  [.r15, .r14, .r13, .r12, .r11, .r10, .r9, .r8, .rbp, .rdi, .rsi, .rdx, .rcx, .rbx, .rax]

/-- The vectors with `ISR_ERRCODE`. -/
def isrErrCode : List ℕ := [8, 10, 11, 12, 13, 14, 17, 21]

/-- The number that the stub pushes. -/
def Label.number : Label → ℕ
  | .isr n => n
  | .irq n => n
  | .isr80 => 0x80
  | .isrSpurious => 255

def Label.hasErrCode : Label → Bool
  | .isr n => n ∈ isrErrCode
  | _ => false

/-- Up to the common stub. -/
def Label.enter (l : Label) (c : Cpu) : Cpu :=
  if l.hasErrCode then c.push l.number else (c.push 0).push l.number

def pushRegs (c : Cpu) : Cpu := saved.foldl (fun c r => c.push (c.regs r)) c

/-- `mov rax, [g_current_proc]; test rax, rax; jz .no_save; mov [rax], rsp` -/
def saveRsp (currentProc : ℕ) (c : Cpu) : Cpu :=
  let rax := load64 c.mem currentProc
  { c with
    regs := Function.update c.regs .rax rax
    mem := if rax = 0 then c.mem else store64 c.mem rax c.rsp }

/-- What the common stubs do between the pushes and the call. -/
def Label.keepRsp (currentProc : ℕ) (c : Cpu) : Label → Cpu
  | .isr _ => (saveRsp currentProc c).sti
  | .isr80 => (saveRsp currentProc c).sti
  | .irq _ => saveRsp currentProc c
  | .isrSpurious => c

/-- The three common stubs up to the call of the handler in C. -/
def Label.save (l : Label) (currentProc : ℕ) (c : Cpu) : Cpu :=
  let c := Label.keepRsp currentProc (pushRegs c) l
  { c with regs := Function.update c.regs .rdi c.rsp }

/-- From the return of the handler on. -/
def restore (c : Cpu) : Cpu :=
  let c := restored.foldl Cpu.pop c
  { c with rsp := c.rsp + 16 }.iretq

/-- `cli` stands in one of the stubs only. -/
def Label.leave : Label → Cpu → Cpu
  | .isr _, c => restore c.cli
  | .isr80, c => restore c.cli
  | .irq _, c => restore c
  | .isrSpurious, c => restore c

/-- `switch_to_proc(next)`; `rsp` is the first field of the process. -/
def switchToProc (next : ℕ) (c : Cpu) : Cpu := restore { c with rsp := load64 c.mem next }

/-! ### Pushing -/

/-- The memory after pushes from `a` down. -/
def pushWords (m : Mem) (a : ℕ) : List ℕ → Mem
  | [] => m
  | w::ws => pushWords (store64 m (a-8) w) (a-8) ws

def Cpu.pushes (c : Cpu) (ws : List ℕ) : Cpu :=
  { c with rsp := c.rsp - 8*ws.length, mem := pushWords c.mem c.rsp ws }

section Pushing
variable {c : Cpu} {m : Mem} {a : ℕ} {ws vs : List ℕ} {rs : List Reg}

theorem foldl_push (c : Cpu) (ws : List ℕ) : ws.foldl Cpu.push c = c.pushes ws := by
  induction ws generalizing c with
  | nil => rfl
  | cons w ws ih =>
    have hrsp : c.rsp - 8 - 8*ws.length = c.rsp - 8*(w::ws).length := by
      rw [List.length_cons]
      omega
    rw [List.foldl_cons, ih, Cpu.pushes, Cpu.pushes, ← hrsp]
    rfl

theorem foldl_pushReg (c : Cpu) (rs : List Reg) :
    rs.foldl (fun c r => c.push (c.regs r)) c = c.pushes (rs.map c.regs) := by
  induction rs generalizing c with
  | nil => rfl
  | cons r rs ih =>
    rw [List.foldl_cons, ih, List.map_cons, ← foldl_push, ← foldl_push]
    rfl

theorem pushWords_sameOff (h : 8*ws.length ≤ a) :
    SameOff {x | a - 8*ws.length ≤ x ∧ x < a} m (pushWords m a ws) := by
  induction ws generalizing m a with
  | nil => exact SameOff.rfl
  | cons w ws ih =>
    rw [List.length_cons] at h ⊢
    refine SameOff.trans ((store64_sameOff m (a-8) w).mono ?_) ((ih (by omega)).mono ?_)
    · intro x hx
      have h1 := hx.1
      have h2 := hx.2
      exact ⟨by omega, by omega⟩
    · intro x hx
      have h1 := hx.1
      have h2 := hx.2
      exact ⟨by omega, by omega⟩

theorem loadWords_add (m : Mem) (a n k : ℕ) :
    loadWords m a (n+k) = loadWords m a n ++ loadWords m (a + 8*n) k := by
  induction n generalizing a with
  | zero => rw [Nat.zero_add]; rfl
  | succ n ih =>
    have ha : a + 8*(n+1) = a + 8 + 8*n := by omega
    rw [Nat.succ_add, loadWords, loadWords, ih, ha]
    rfl

/-- The words that were pushed, from the stack pointer up. -/
theorem loadWords_pushWords (h : 8*ws.length ≤ a) (hw : ∀ w ∈ ws, w < 2^64) :
    loadWords (pushWords m a ws) (a - 8*ws.length) ws.length = ws.reverse := by
  induction ws generalizing m a with
  | nil => rfl
  | cons w ws ih =>
    rw [List.length_cons] at h ⊢
    have hlow : a - 8*(ws.length + 1) = a - 8 - 8*ws.length := by omega
    have hlast : a - 8 - 8*ws.length + 8*ws.length = a - 8 := by omega
    have hkept : load64 (pushWords (store64 m (a-8) w) (a-8) ws) (a-8) = w := by
      rw [load64_of_sameOff (pushWords_sameOff (by omega)) (a-8) (fun x h1 _ hx => by
        have h2 := hx.2
        omega)]
      exact load64_store64 m (a-8) w (hw w List.mem_cons_self)
    rw [loadWords_add, hlow, pushWords, ih (by omega) fun v hv => hw v (List.mem_cons_of_mem w hv),
      hlast, List.reverse_cons, loadWords, loadWords, hkept]

end Pushing

/-! ### Popping -/

section Popping
variable {c : Cpu} {f : Reg → ℕ}

theorem foldl_pop_rest (c : Cpu) (rs : List Reg) :
    rs.foldl Cpu.pop c =
      { c with regs := (rs.foldl Cpu.pop c).regs, rsp := c.rsp + 8*rs.length } := by
  induction rs generalizing c with
  | nil => rfl
  | cons r rs ih =>
    have hrsp : c.rsp + 8*(r::rs).length = c.rsp + 8 + 8*rs.length := by
      rw [List.length_cons]
      omega
    rw [List.foldl_cons, hrsp, ih]
    rfl

theorem foldl_pop_of_notMem {r : Reg} (rs : List Reg) (hr : r ∉ rs) :
    (rs.foldl Cpu.pop c).regs r = c.regs r := by
  induction rs generalizing c with
  | nil => rfl
  | cons q rs ih =>
    rw [List.foldl_cons, ih (fun h => hr (List.mem_cons_of_mem q h))]
    exact Function.update_of_ne (fun h => hr (List.mem_cons.mpr (Or.inl h))) _ _

/-- Pops in the order of the words give every register its word. -/
theorem foldl_pop_regs (rs : List Reg) (h : loadWords c.mem c.rsp rs.length = rs.map f) :
    ∀ r ∈ rs, (rs.foldl Cpu.pop c).regs r = f r := by
  induction rs generalizing c with
  | nil => exact fun r hr => absurd hr List.not_mem_nil
  | cons q rs ih =>
    intro r hr
    rw [List.length_cons, List.map_cons, loadWords, List.cons_eq_cons] at h
    obtain ⟨hq, hrest⟩ := h
    rw [List.foldl_cons]
    by_cases hmem : r ∈ rs
    · exact ih hrest r hmem
    · have hrq : r = q := (List.mem_cons.mp hr).resolve_right hmem
      rw [foldl_pop_of_notMem rs hmem, hrq]
      exact (Function.update_self _ _ _).trans hq

end Popping

/-! ### The frame -/

/-- `struct interrupt_frame`, from its first field on. -/
def frame (regs : Reg → ℕ) (number code : ℕ) (c : Cpu) : List ℕ :=
  restored.map regs ++ [number, code, c.rip, c.cs, c.rflags, c.rsp, c.ss]

theorem mem_restored (r : Reg) : r ∈ restored := by
  cases r <;> decide

/-- The end of the stubs and of `switch_to_proc` brings back what the frame says, whatever happened
to the CPU in between. -/
theorem restore_frame {k c : Cpu} {regs : Reg → ℕ} {number code : ℕ}
    (h : loadWords k.mem k.rsp 22 = frame regs number code c) :
    restore k = { c with regs := regs, mem := k.mem } := by
  have hsplit : loadWords k.mem k.rsp 22 =
      loadWords k.mem k.rsp 15 ++ loadWords k.mem (k.rsp + 120) 7 := loadWords_add k.mem k.rsp 15 7
  rw [hsplit] at h
  obtain ⟨hlow, hhigh⟩ := List.append_inj h rfl
  have hregs : (restored.foldl Cpu.pop k).regs = regs :=
    funext fun r => foldl_pop_regs restored hlow r (mem_restored r)
  simp only [loadWords, List.cons.injEq, and_true, Nat.add_assoc, Nat.reduceAdd] at hhigh
  obtain ⟨-, -, hrip, hcs, hrflags, hrsp, hss⟩ := hhigh
  unfold restore
  rw [foldl_pop_rest, hregs]
  have hlength : 8 * restored.length = 120 := rfl
  simp only [hlength, Cpu.iretq, Nat.add_assoc, Nat.reduceAdd]
  rw [hrip, hcs, hrflags, hrsp, hss]

theorem leave_eq (l : Label) (c : Cpu) :
    ∃ rflags, l.leave c = restore { c with rflags := rflags } := by
  cases l
  · exact ⟨_, rfl⟩
  · exact ⟨c.rflags, rfl⟩
  · exact ⟨_, rfl⟩
  · exact ⟨c.rflags, rfl⟩

/-! ### The way in -/

section Entry
variable {addr : Label → ℕ} {v : ℕ}

theorem offset_idtSetGate {handler : ℕ} (h : handler < 2^64) (selector typeAttr ist : ℕ) :
    (idtSetGate handler selector typeAttr ist).offset = handler := by
  have hlow : handler &&& 0xFFFF = handler % 2^16 := Nat.and_two_pow_sub_one_eq_mod _ 16
  have hmid : (handler >>> 16) &&& 0xFFFF = handler / 2^16 % 2^16 := by
    rw [Nat.shiftRight_eq_div_pow]
    exact Nat.and_two_pow_sub_one_eq_mod _ 16
  have hhigh : (handler >>> 32) &&& 0xFFFFFFFF = handler / 2^32 % 2^32 := by
    rw [Nat.shiftRight_eq_div_pow]
    exact Nat.and_two_pow_sub_one_eq_mod _ 32
  have hjoin := or_fields (x := handler % 2^16) (y := handler / 2^16 % 2^16) 16 16
    (handler / 2^32 % 2^32) (Nat.mod_lt _ (by decide)) (Nat.mod_lt _ (by decide))
  unfold IdtEntry.offset idtSetGate
  dsimp only
  rw [hlow, hmid, hhigh, hjoin]
  omega

theorem dpl_interrupt (handler selector ist : ℕ) :
    (idtSetGate handler selector idtGateInterrupt ist).dpl = 0 := by
  show idtGateInterrupt / 32 % 4 = 0
  decide

/-- Every gate of the table leads to the stub with its own number, with an error code where the stub
expects one; only `int 0x80` is open to ring 3. -/
theorem idtInit_gate (haddr : ∀ l, addr l < 2^64) (h : (idtInit addr v).present = true) :
    ∃ l, (idtInit addr v).offset = addr l ∧ l.number = v ∧ v < 256 ∧
      (l.hasErrCode = true ↔ v ∈ isrErrCode) ∧ (v ≠ 0x80 → (idtInit addr v).dpl = 0) := by
  have hlarge : 32 ≤ v → v ∉ isrErrCode := by
    intro hv hmem
    simp only [isrErrCode, List.mem_cons, List.not_mem_nil, or_false] at hmem
    omega
  unfold idtInit at h ⊢
  split_ifs at h ⊢ with h80 hirq hspurious hisr
  · exact ⟨.isr80, offset_idtSetGate (haddr _) _ _ _, h80.symm, by omega,
      iff_of_false Bool.false_ne_true (hlarge (by omega)), fun hne => absurd h80 hne⟩
  · exact ⟨.irq v, offset_idtSetGate (haddr _) _ _ _, rfl, by omega,
      iff_of_false Bool.false_ne_true (hlarge hirq.1), fun _ => dpl_interrupt _ _ _⟩
  · have hnumber : v = 255 := hspurious
    exact ⟨.isrSpurious, offset_idtSetGate (haddr _) _ _ _, hnumber.symm, by omega,
      iff_of_false Bool.false_ne_true (hlarge (by omega)), fun _ => dpl_interrupt _ _ _⟩
  · exact ⟨.isr v, offset_idtSetGate (haddr _) _ _ _, rfl, by omega, decide_eq_true_iff,
      fun _ => dpl_interrupt _ _ _⟩
  · exact absurd h (by decide)

/-- All that is pushed up to the call, from the top down. -/
def entryWords (l : Label) (ev : Event) (c : Cpu) : List ℕ :=
  cpuWords c ev.code ++ (if l.hasErrCode then [l.number] else [0, l.number]) ++ saved.map c.regs

/-- The CPU before the call, but for `rax`, `rdi` and the pointer in the process. -/
def pushed (tss : Tss) (e : IdtEntry) (l : Label) (ev : Event) (c : Cpu) : Cpu :=
  pushRegs (l.enter (deliver tss e ev c))

theorem entryWords_reverse {l : Label} {ev : Event} (c : Cpu)
    (h : l.hasErrCode = ev.code.isSome) :
    (entryWords l ev c).reverse = frame c.regs l.number (ev.code.getD 0) c := by
  unfold entryWords
  rw [h]
  cases ev.code <;> rfl

theorem entryWords_length {l : Label} {ev : Event} (c : Cpu)
    (h : l.hasErrCode = ev.code.isSome) : (entryWords l ev c).length = 22 := by
  have hlength := congrArg List.length (entryWords_reverse c h)
  rw [List.length_reverse] at hlength
  exact hlength

section Pushed
variable {tss : Tss} {e : IdtEntry} {l : Label} {ev : Event} {c : Cpu}

theorem pushed_mem :
    (pushed tss e l ev c).mem = pushWords c.mem (frameTop tss e c) (entryWords l ev c) := by
  unfold pushed pushRegs Label.enter deliver entryWords cpuWords
  cases ev.code <;> cases l.hasErrCode <;> rfl

theorem pushed_rsp (h : l.hasErrCode = ev.code.isSome) :
    (pushed tss e l ev c).rsp = frameTop tss e c - 176 := by
  have hsub : (pushed tss e l ev c).rsp = frameTop tss e c - 8*(entryWords l ev c).length := by
    unfold pushed pushRegs Label.enter deliver entryWords cpuWords
    rw [foldl_pushReg, foldl_push]
    cases ev.code <;> cases l.hasErrCode <;>
      simp only [Cpu.pushes, Cpu.push, Cpu.cli, saved, List.length_append, List.length_map,
        List.length_cons, List.length_nil, Option.toList, if_true, if_false, Bool.false_eq_true,
        Nat.sub_sub]
  rw [hsub, entryWords_length c h]

end Pushed

end Entry

/-! ### From the interrupt to the handler -/

structure Cpu.Words (c : Cpu) : Prop where
  regs : ∀ r, c.regs r < 2^64
  rip : c.rip < 2^64
  cs : c.cs < 2^64
  rflags : c.rflags < 2^64
  rsp : c.rsp < 2^64
  ss : c.ss < 2^64

/-- The events that the hardware has; what the kernel itself runs has no `int n`. -/
def Event.Real (c : Cpu) : Event → Prop
  | exception v code => v < 32 ∧ code < 2^64
  | external v => 32 ≤ v
  | software _ => c.cs % 4 = 3

/-- The frame below `top` has room, and holds neither `g_current_proc` nor the process. -/
structure FrameApart (c : Cpu) (currentProc top : ℕ) : Prop where
  room : 176 ≤ top
  word : top < 2^64
  current : currentProc + 8 ≤ top - 176 ∨ top ≤ currentProc
  process : load64 c.mem currentProc + 8 ≤ top - 176 ∨ top ≤ load64 c.mem currentProc

/-- The CPU when the stub calls the handler. -/
def called (tss : Tss) (e : IdtEntry) (currentProc : ℕ) (l : Label) (ev : Event) (c : Cpu) : Cpu :=
  l.save currentProc (l.enter (deliver tss e ev c))

section Handler
variable {tss : Tss} {e : IdtEntry} {currentProc : ℕ} {l : Label} {ev : Event} {c : Cpu}

/-- The stub expects an error code where the CPU pushes one. -/
theorem codes_agree {v : ℕ} (hv : ev.vector = v) (hreal : ev.Real c)
    (hl : l.hasErrCode = true ↔ v ∈ isrErrCode)
    (hring : ∀ n, ev = .software n → n = 0x80) : l.hasErrCode = ev.code.isSome := by
  have hlists : isrErrCode = errorCodes := rfl
  rw [Bool.eq_iff_iff, hl, hlists, ← hv]
  cases ev with
  | exception v code =>
    show v ∈ errorCodes ↔ (if v ∈ errorCodes then some code else none).isSome = true
    by_cases hmem : v ∈ errorCodes
    · rw [if_pos hmem]
      exact iff_of_true hmem rfl
    · rw [if_neg hmem]
      exact iff_of_false hmem Bool.false_ne_true
  | external v =>
    have hlarge : 32 ≤ v := hreal
    refine iff_of_false (fun hmem => ?_) Bool.false_ne_true
    simp only [errorCodes, Event.vector, List.mem_cons, List.not_mem_nil, or_false] at hmem
    omega
  | software n =>
    rw [hring n rfl]
    exact iff_of_false (by decide) Bool.false_ne_true

theorem entryWords_lt (hc : c.Words) (hreal : ev.Real c) (hl : l.number = ev.vector)
    (hvector : ev.vector < 2^64) : ∀ w ∈ entryWords l ev c, w < 2^64 := by
  have hcode : ∀ w ∈ ev.code.toList, w < 2^64 := by
    intro w hw
    rw [Option.mem_toList] at hw
    cases ev with
    | exception v code =>
      have hcode := hreal.2
      by_cases hmem : v ∈ errorCodes
      · rw [Event.code, if_pos hmem] at hw
        exact Option.some.inj hw ▸ hcode
      · rw [Event.code, if_neg hmem] at hw
        exact (Option.some_ne_none _ hw.symm).elim
    | external v => exact (Option.some_ne_none _ hw.symm).elim
    | software n => exact (Option.some_ne_none _ hw.symm).elim
  intro w hw
  unfold entryWords cpuWords at hw
  simp only [List.mem_append, List.mem_cons, List.not_mem_nil, or_false] at hw
  rcases hw with (((rfl | rfl | rfl | rfl | rfl) | hw) | hw) | hw
  · exact hc.ss
  · exact hc.rsp
  · exact hc.rflags
  · exact hc.cs
  · exact hc.rip
  · exact hcode w hw
  · have hnumber : w = 0 ∨ w = l.number := by
      split at hw
      · exact Or.inr (List.mem_singleton.mp hw)
      · simpa using hw
    rcases hnumber with rfl | rfl
    · decide
    · exact hl ▸ hvector
  · obtain ⟨r, -, rfl⟩ := List.mem_map.mp hw
    exact hc.regs r

theorem saveRsp_mem (currentProc : ℕ) (k : Cpu) :
    SameOff {x | load64 k.mem currentProc ≤ x ∧ x < load64 k.mem currentProc + 8} k.mem
      (saveRsp currentProc k).mem := by
  unfold saveRsp
  dsimp only
  split
  · exact SameOff.rfl
  · exact store64_sameOff _ _ _

theorem called_rsp : (called tss e currentProc l ev c).rsp = (pushed tss e l ev c).rsp := by
  unfold called Label.save
  cases l <;> rfl

theorem called_rdi :
    (called tss e currentProc l ev c).regs .rdi = (called tss e currentProc l ev c).rsp := by
  unfold called Label.save
  dsimp only
  exact Function.update_self _ _ _

theorem called_mem :
    SameOff {x | load64 (pushed tss e l ev c).mem currentProc ≤ x ∧
        x < load64 (pushed tss e l ev c).mem currentProc + 8}
      (pushed tss e l ev c).mem (called tss e currentProc l ev c).mem := by
  unfold called Label.save
  cases l
  · exact saveRsp_mem _ _
  · exact saveRsp_mem _ _
  · exact saveRsp_mem _ _
  · exact SameOff.rfl

/-- The process on the CPU knows where its frame is. -/
theorem called_process (hl : l ≠ .isrSpurious)
    (hp : load64 (pushed tss e l ev c).mem currentProc ≠ 0)
    (hrsp : (pushed tss e l ev c).rsp < 2^64) :
    load64 (called tss e currentProc l ev c).mem (load64 (pushed tss e l ev c).mem currentProc) =
      (pushed tss e l ev c).rsp := by
  have hstored : (called tss e currentProc l ev c).mem =
      (saveRsp currentProc (pushed tss e l ev c)).mem := by
    unfold called Label.save
    cases l
    · rfl
    · rfl
    · rfl
    · exact absurd rfl hl
  rw [hstored, saveRsp]
  dsimp only
  rw [if_neg hp]
  exact load64_store64 _ _ _ hrsp

/-- The frame in memory, and what else the way in has changed. -/
theorem called_frame (hcodes : l.hasErrCode = ev.code.isSome)
    (hwords : ∀ w ∈ entryWords l ev c, w < 2^64)
    (hapart : FrameApart c currentProc (frameTop tss e c)) :
    loadWords (called tss e currentProc l ev c).mem (frameTop tss e c - 176) 22 =
        frame c.regs l.number (ev.code.getD 0) c ∧
      load64 (pushed tss e l ev c).mem currentProc = load64 c.mem currentProc ∧
      ∀ x, (x < frameTop tss e c - 176 ∨ frameTop tss e c ≤ x) →
        (x < load64 c.mem currentProc ∨ load64 c.mem currentProc + 8 ≤ x) →
        (called tss e currentProc l ev c).mem x = c.mem x := by
  have hroom := hapart.room
  have hlength := entryWords_length c hcodes
  have hpush : SameOff {x | frameTop tss e c - 176 ≤ x ∧ x < frameTop tss e c} c.mem
      (pushed tss e l ev c).mem := by
    have hsame : SameOff {x | frameTop tss e c - 8*(entryWords l ev c).length ≤ x ∧
        x < frameTop tss e c} c.mem (pushWords c.mem (frameTop tss e c) (entryWords l ev c)) :=
      pushWords_sameOff (by omega)
    rw [hlength] at hsame
    rw [pushed_mem]
    exact hsame
  have hcurrent : load64 (pushed tss e l ev c).mem currentProc = load64 c.mem currentProc := by
    apply load64_of_sameOff hpush
    intro x h1 h2 hx
    have hlow := hx.1
    have hhigh := hx.2
    rcases hapart.current with h | h <;> omega
  refine ⟨?_, hcurrent, fun x hframe hproc => ?_⟩
  swap
  · refine (called_mem x (fun hx => ?_)).trans (hpush x (fun hx => ?_))
    · have hlow := hx.1
      have hhigh := hx.2
      rw [hcurrent] at hlow hhigh
      omega
    · have hlow := hx.1
      have hhigh := hx.2
      omega
  have hkept : loadWords (called tss e currentProc l ev c).mem (frameTop tss e c - 176) 22 =
      loadWords (pushed tss e l ev c).mem (frameTop tss e c - 176) 22 := by
    apply loadWords_congr
    intro x h1 h2
    refine called_mem x (fun hx => ?_)
    have hlow := hx.1
    have hhigh := hx.2
    rw [hcurrent] at hlow hhigh
    rcases hapart.process with h | h <;> omega
  have hloaded : loadWords (pushWords c.mem (frameTop tss e c) (entryWords l ev c))
      (frameTop tss e c - 8*(entryWords l ev c).length) (entryWords l ev c).length =
        (entryWords l ev c).reverse := loadWords_pushWords (by omega) hwords
  rw [hlength] at hloaded
  rw [hkept, pushed_mem, ← entryWords_reverse c hcodes]
  exact hloaded

end Handler

/-! ### A program that is interrupted -/

def sampleAddr (l : Label) : ℕ := 0x100000 + 16 * (l.number % 256)

def sampleTss : Tss where
  rsp0 := 0x9000
  ist i := 0x9000 + 0x4000 * i

/-- A program in ring 3; the word at 0x5000 is the pointer to its process. -/
def userCpu : Cpu where
  regs _ := 59
  rip := 0x400000
  cs := 0x1B
  rflags := 0x202
  rsp := 0x7FFFDFF8
  ss := 0x23
  mem := store64 (fun _ => 0#8) 0x5000 0x6000

theorem sampleAddr_lt (l : Label) : sampleAddr l < 2^64 := by
  unfold sampleAddr
  omega

theorem userCpu_words : userCpu.Words :=
  ⟨fun _ => (by decide : 59 < 2^64), by decide, by decide, by decide, by decide, by decide⟩

theorem userCpu_process : load64 userCpu.mem 0x5000 = 0x6000 :=
  load64_store64 _ _ _ (by decide)

theorem userCpu_apart : FrameApart userCpu 0x5000 0x9000 where
  room := by decide
  word := by decide
  current := Or.inl (by decide)
  process := by
    rw [userCpu_process]
    exact Or.inl (by decide)

/-! ### There and back -/

section RoundTrip
variable {tss : Tss} {addr : Label → ℕ} {currentProc : ℕ} {ev : Event} {c : Cpu}

/-- Of the `int n` of ring 3 the table lets through the system call, and no other. -/
theorem int_open_iff (haddr : ∀ l, addr l < 2^64) (hring : c.cs % 4 = 3) (n : ℕ) :
    ¬ refused (idtInit addr n) (.software n) c ↔ n = 0x80 := by
  constructor
  · intro hopen
    have hpresent : (idtInit addr n).present = true := by
      cases hp : (idtInit addr n).present
      · exact absurd (Or.inl hp) hopen
      · rfl
    obtain ⟨-, -, -, -, -, hdpl⟩ := idtInit_gate haddr hpresent
    by_contra hne
    exact hopen (Or.inr ⟨⟨n, rfl⟩, by rw [hdpl hne, hring]; decide⟩)
  · intro hn hrefused
    have hgate : idtInit addr n = idtSetGate (addr .isr80) gdtSelectorKernelCs 0xEE 0 := if_pos hn
    rw [hgate] at hrefused
    rcases hrefused with h | ⟨-, h⟩
    · have hpresent : (0xEE : ℕ).testBit 7 = false := h
      exact absurd hpresent (by decide)
    · have hdpl : 0xEE / 32 % 4 < c.cs % 4 := h
      omega

/-- The stub behind the gate of an event that is let through. -/
theorem stub_of_event (haddr : ∀ l, addr l < 2^64) (hreal : ev.Real c)
    (hopen : ¬ refused (idtInit addr ev.vector) ev c) :
    ∃ l, (idtInit addr ev.vector).offset = addr l ∧ l.number = ev.vector ∧ ev.vector < 2^64 ∧
      l.hasErrCode = ev.code.isSome := by
  have hpresent : (idtInit addr ev.vector).present = true := by
    cases hp : (idtInit addr ev.vector).present
    · exact absurd (Or.inl hp) hopen
    · rfl
  obtain ⟨l, hoffset, hnumber, hlt, hcodes, -⟩ := idtInit_gate haddr hpresent
  refine ⟨l, hoffset, hnumber, by omega, codes_agree rfl hreal hcodes ?_⟩
  -- the gate of an `int n` from ring 3 can only be the one of the system calls
  intro n hn
  subst hn
  exact (int_open_iff haddr hreal n).mp hopen

/-- Whatever the CPU takes through the table, the handler gets the frame of the state that was
interrupted, aligned to 16, and the end of the stub brings this state back, with the `rax` that the
handler left in the frame. Of what ring 3 asks for by `int n` this is the system call only. -/
theorem interrupt_round_trip (tss : Tss) (addr : Label → ℕ) (currentProc : ℕ) (ev : Event) (c : Cpu)
    (haddr : ∀ l, addr l < 2^64) (hc : c.Words) (hreal : ev.Real c)
    (hopen : ¬ refused (idtInit addr ev.vector) ev c)
    (hapart : FrameApart c currentProc (frameTop tss (idtInit addr ev.vector) c)) :
    (∀ n (u : Cpu), u.cs % 4 = 3 → (¬ refused (idtInit addr n) (.software n) u ↔ n = 0x80)) ∧
    ∃ l k, (deliver tss (idtInit addr ev.vector) ev c).rip = addr l ∧ l.number = ev.vector ∧
      k = called tss (idtInit addr ev.vector) currentProc l ev c ∧
      k.rsp = frameTop tss (idtInit addr ev.vector) c - 176 ∧ k.rsp % 16 = 0 ∧
      k.regs .rdi = k.rsp ∧
      loadWords k.mem k.rsp 22 = frame c.regs ev.vector (ev.code.getD 0) c ∧
      (∀ x, (x < k.rsp ∨ k.rsp + frameSize ≤ x) →
        (x < load64 c.mem currentProc ∨ load64 c.mem currentProc + 8 ≤ x) → k.mem x = c.mem x) ∧
      ∀ rax k', k'.rsp = k.rsp →
        loadWords k'.mem k.rsp 22 =
          frame (Function.update c.regs .rax rax) ev.vector (ev.code.getD 0) c →
        l.leave k' = { c with regs := Function.update c.regs .rax rax, mem := k'.mem } := by
  refine ⟨fun n u hring => int_open_iff haddr hring n, ?_⟩
  obtain ⟨l, hoffset, hnumber, hlt, hcodes⟩ := stub_of_event haddr hreal hopen
  obtain ⟨hframe, -, helse⟩ := called_frame hcodes (entryWords_lt hc hreal hnumber hlt) hapart
  rw [hnumber] at hframe
  have hrsp : (called tss (idtInit addr ev.vector) currentProc l ev c).rsp =
      frameTop tss (idtInit addr ev.vector) c - 176 := called_rsp.trans (pushed_rsp hcodes)
  have haligned : (frameTop tss (idtInit addr ev.vector) c - 176) % 16 = 0 := by
    have hroom := hapart.room
    unfold frameTop at hroom ⊢
    omega
  have hroom := hapart.room
  have hsize : frameSize = 176 := rfl
  refine ⟨l, _, hoffset, hnumber, rfl, hrsp, hrsp ▸ haligned, ?_, ?_, ?_, ?_⟩
  · exact called_rdi
  · rw [hrsp]
    exact hframe
  · intro x hx hproc
    rw [hrsp] at hx
    exact helse x (by omega) hproc
  · intro rax k' hk' hleft
    obtain ⟨rflags, hleave⟩ := leave_eq l k'
    rw [hleave]
    apply restore_frame
    show loadWords k'.mem k'.rsp 22 = _
    rw [hk']
    exact hleft

theorem interrupt_round_trip_syscall :
    (∀ n (u : Cpu), u.cs % 4 = 3 →
      (¬ refused (idtInit sampleAddr n) (.software n) u ↔ n = 0x80)) ∧
    ∃ l k, (deliver sampleTss (idtInit sampleAddr 0x80) (.software 0x80) userCpu).rip =
        sampleAddr l ∧ l.number = 0x80 ∧
      k = called sampleTss (idtInit sampleAddr 0x80) 0x5000 l (.software 0x80) userCpu ∧
      k.rsp = frameTop sampleTss (idtInit sampleAddr 0x80) userCpu - 176 ∧ k.rsp % 16 = 0 ∧
      k.regs .rdi = k.rsp ∧
      loadWords k.mem k.rsp 22 = frame userCpu.regs 0x80 0 userCpu ∧
      (∀ x, (x < k.rsp ∨ k.rsp + frameSize ≤ x) →
        (x < load64 userCpu.mem 0x5000 ∨ load64 userCpu.mem 0x5000 + 8 ≤ x) →
          k.mem x = userCpu.mem x) ∧
      ∀ rax k', k'.rsp = k.rsp →
        loadWords k'.mem k.rsp 22 = frame (Function.update userCpu.regs .rax rax) 0x80 0 userCpu →
        l.leave k' =
          { userCpu with regs := Function.update userCpu.regs .rax rax, mem := k'.mem } := by
  have hopen : ¬ refused (idtInit sampleAddr 0x80) (.software 0x80) userCpu := by
    rintro (h | ⟨-, h⟩)
    · exact absurd h (by decide)
    · exact absurd h (by decide)
  exact interrupt_round_trip sampleTss sampleAddr 0x5000 (.software 0x80) userCpu sampleAddr_lt
    userCpu_words (by show userCpu.cs % 4 = 3; decide) hopen userCpu_apart

/-- A process that an interrupt took off the CPU goes on where it was, with nothing changed but the
memory, whenever `switch_to_proc` finds its frame and its pointer to it as the stub left them. -/
theorem switch_resumes (tss : Tss) (addr : Label → ℕ) (currentProc : ℕ) (ev : Event) (c : Cpu)
    (haddr : ∀ l, addr l < 2^64) (hc : c.Words) (hreal : ev.Real c)
    (hopen : ¬ refused (idtInit addr ev.vector) ev c) (hspurious : ev.vector ≠ apicSpuriousVector)
    (hapart : FrameApart c currentProc (frameTop tss (idtInit addr ev.vector) c))
    (hproc : load64 c.mem currentProc ≠ 0) :
    ∃ l k, (deliver tss (idtInit addr ev.vector) ev c).rip = addr l ∧ l.number = ev.vector ∧
      k = called tss (idtInit addr ev.vector) currentProc l ev c ∧
      load64 k.mem (load64 c.mem currentProc) = k.rsp ∧
      ∀ k' : Cpu, (∀ x, load64 c.mem currentProc ≤ x → x < load64 c.mem currentProc + 8 →
          k'.mem x = k.mem x) →
        (∀ x, k.rsp ≤ x → x < k.rsp + frameSize → k'.mem x = k.mem x) →
        switchToProc (load64 c.mem currentProc) k' = { c with mem := k'.mem } := by
  obtain ⟨l, hoffset, hnumber, hlt, hcodes⟩ := stub_of_event haddr hreal hopen
  obtain ⟨hframe, hcurrent, -⟩ := called_frame hcodes (entryWords_lt hc hreal hnumber hlt) hapart
  have hl : l ≠ .isrSpurious := by
    intro h
    rw [h] at hnumber
    exact hspurious hnumber.symm
  have hpushed : (pushed tss (idtInit addr ev.vector) l ev c).rsp =
      frameTop tss (idtInit addr ev.vector) c - 176 := pushed_rsp hcodes
  have hbelow : (pushed tss (idtInit addr ev.vector) l ev c).rsp < 2^64 := by
    have hword := hapart.word
    omega
  have hkeeps := called_process hl (by rw [hcurrent]; exact hproc) hbelow
  rw [hcurrent, ← called_rsp] at hkeeps
  refine ⟨l, _, hoffset, hnumber, rfl, hkeeps, fun k' hpointer hkept => ?_⟩
  have hrsp : load64 k'.mem (load64 c.mem currentProc) =
      (called tss (idtInit addr ev.vector) currentProc l ev c).rsp :=
    (load64_congr _ _ _ hpointer).trans hkeeps
  have hwords : loadWords k'.mem
      (called tss (idtInit addr ev.vector) currentProc l ev c).rsp 22 =
        frame c.regs l.number (ev.code.getD 0) c := by
    rw [loadWords_congr _ k'.mem _ 22 (fun x h1 h2 => hkept x h1 h2), called_rsp, hpushed]
    exact hframe
  unfold switchToProc
  rw [hrsp]
  exact restore_frame hwords

theorem switch_resumes_timer :
    ∃ l k, (deliver sampleTss (idtInit sampleAddr 0x20) (.external 0x20) userCpu).rip =
        sampleAddr l ∧ l.number = 0x20 ∧
      k = called sampleTss (idtInit sampleAddr 0x20) 0x5000 l (.external 0x20) userCpu ∧
      load64 k.mem (load64 userCpu.mem 0x5000) = k.rsp ∧
      ∀ k' : Cpu, (∀ x, load64 userCpu.mem 0x5000 ≤ x → x < load64 userCpu.mem 0x5000 + 8 →
          k'.mem x = k.mem x) →
        (∀ x, k.rsp ≤ x → x < k.rsp + frameSize → k'.mem x = k.mem x) →
        switchToProc (load64 userCpu.mem 0x5000) k' = { userCpu with mem := k'.mem } := by
  have hopen : ¬ refused (idtInit sampleAddr 0x20) (.external 0x20) userCpu := by
    rintro (h | ⟨⟨n, hn⟩, -⟩)
    · exact absurd h (by decide)
    · cases hn
  have hproc : load64 userCpu.mem 0x5000 ≠ 0 := by
    rw [userCpu_process]
    decide
  exact switch_resumes sampleTss sampleAddr 0x5000 (.external 0x20) userCpu sampleAddr_lt
    userCpu_words (by show 32 ≤ 0x20; decide) hopen (by decide) userCpu_apart hproc

end RoundTrip

/-! ### The machine of the scheduler -/

section Machine
variable {tss : Tss} {addr : Label → ℕ} {currentProc : ℕ} {ev : Event} {c : Cpu}

/-- What the machine under the scheduler takes for granted of an interrupt, where its frame lies and
what is in it, is what the gates and the stubs do. -/
theorem stub_pushes (m : Machine) (hcs : m.cs = c.cs) (hrsp : m.rsp = c.rsp)
    (hrsp0 : m.rsp0 = tss.rsp0) (hlt : tss.rsp0 < 2^64) (haddr : ∀ l, addr l < 2^64)
    (hc : c.Words) (hreal : ev.Real c) (hopen : ¬ refused (idtInit addr ev.vector) ev c)
    (hist : (idtInit addr ev.vector).ist = 0)
    (hapart : FrameApart c currentProc (frameTop tss (idtInit addr ev.vector) c)) :
    ∃ l k, (deliver tss (idtInit addr ev.vector) ev c).rip = addr l ∧
      k = called tss (idtInit addr ev.vector) currentProc l ev c ∧
      m.frameAddr = k.rsp ∧ m.Pushed (loadWords k.mem k.rsp 22) := by
  obtain ⟨l, hoffset, hnumber, hvector, hcodes⟩ := stub_of_event haddr hreal hopen
  have hwords := entryWords_lt hc hreal hnumber hvector
  obtain ⟨hframe, -, -⟩ := called_frame hcodes hwords hapart
  have hkrsp : (called tss (idtInit addr ev.vector) currentProc l ev c).rsp =
      frameTop tss (idtInit addr ev.vector) c - 176 := called_rsp.trans (pushed_rsp hcodes)
  have hstack : (if m.cs % 4 ≠ 0 then m.rsp0 else m.rsp) < 2^64 := by
    split
    · rw [hrsp0]
      exact hlt
    · rw [hrsp]
      exact hc.rsp
  refine ⟨l, _, hoffset, rfl, ?_, ?_⟩
  · unfold Machine.frameAddr
    rw [align16 _ hstack, hkrsp, hcs, hrsp0, hrsp]
    unfold frameTop
    rw [if_neg (not_not.mpr hist)]
    rfl
  · rw [hkrsp, hframe]
    refine ⟨rfl, fun w hw => ?_, hcs.symm, fun _ => hrsp.symm⟩
    rw [← entryWords_reverse c hcodes] at hw
    exact hwords w (List.mem_reverse.mp hw)

end Machine

end SukiOS.Stubs

import SukiOS.ContextFrames
import SukiOS.ElfPages
import SukiOS.ExecveCall

/-! What `proc_create_from_elf` leaves when some of its allocations fail, or when the load
faults. -/
namespace SukiOS
open ByteMemory Traced

/-! ### The call -/

/-- The kernel that also notes whether `vmm_alloc_map` has failed. -/
def Kernel.watched {σ : Type} (K : Kernel σ) : Kernel (σ × Bool) where
  peek s o := K.peek s.1 o
  store s a b := (K.store s.1 a b).map (fun k => (k, s.2))
  vmmIsMapped s p := K.vmmIsMapped s.1 p
  vmmAllocMap s p perm := (K.vmmAllocMap s.1 p perm).map (fun x =>
    ((x.1, s.2 || decide (x.2 ≠ 0)), x.2))

/-- How the allocations of a call ended: `refused` when a page of the image was, `pcb` and `kstack`
are the blocks of the two `kmalloc` calls, 0 when they fail or are not reached, and `granted` are
the pages of the user stack for which `vmm_alloc_map` returned 0. -/
structure Allocations where
  refused : Bool
  pcb : ℕ
  granted : List ℕ
  kstack : ℕ

/-- What a call leaves and returns; `none` when it faults. -/
structure Created (σ : Type) where
  kernel : σ
  sched : Sched
  proc : Option ℕ
  allocations : Allocations

section Call
variable {σ : Type} (P : Platform σ) (sched : σ → Sched)

/-- The pages for which `vmm_alloc_map` succeeds in the loop over the user stack. -/
def stackGranted (K : Kernel σ) (va : ℕ) : ℕ → σ → List ℕ
  | 0, _ => []
  | n+1, k =>
    match K.vmmIsMapped k va with
    | some false =>
      match K.vmmAllocMap k va 7 with
      | some (k1, r) => if r = 0 then va :: stackGranted K (va + 4096) n k1
          else stackGranted K (va + 4096) n k1
      | none => []
    | some true => stackGranted K (va + 4096) n k
    | none => []

def stackStart : ℕ := userStackTop - userStackSize

/-- The number of pages of the user stack, and the address of one. -/
def stackPages : ℕ := userStackSize / 4096
def stackPage (j : ℕ) : ℕ := stackStart + 4096*j

/-- `proc_create_from_elf` on the file of the given size at `buf`. The variables of `proc.c` are in
the memory that `elf64_load` stores to, so they are looked at when they are used. -/
def procCreate (k : σ) (buf size : ℕ) : Created σ :=
  let r := elf64Load (P.loader buf).watched size ⟨(k, false), []⟩
  let k1 := r.state.kernel.1
  let refused := r.state.kernel.2
  match r.value with
  | .error .fault => ⟨k1, sched k1, none, ⟨refused, 0, [], 0⟩⟩
  | .error (.error _) =>
    let c := procCreateFromElf (sched k1) none 0 0
    ⟨k1, c.1, some c.2, ⟨refused, 0, [], 0⟩⟩
  | .ok elf =>
    let p := P.kmalloc k1 sizeofPcb
    if p.2 = 0 then
      let c := procCreateFromElf (sched p.1) (some elf.entryPoint) 0 0
      ⟨p.1, c.1, some c.2, ⟨refused, 0, [], 0⟩⟩
    else
      let granted := stackGranted (P.loader buf) stackStart stackPages p.1
      match mapStack (P.loader buf) stackStart stackPages p.1 with
      | none => ⟨p.1, sched p.1, none, ⟨refused, p.2, granted, 0⟩⟩
      | some k2 =>
        let kstack := P.kmalloc k2 kernelStackSize
        -- a kernel stack that was not allocated is not reported
        let c := procCreateFromElf (sched kstack.1) (some elf.entryPoint) p.2 kstack.2
        ⟨kstack.1, c.1, some c.2, ⟨refused, p.2, granted, kstack.2⟩⟩

end Call

/-! ### All or nothing -/

/-- `rsp` points to a complete frame in the kernel stack `kstack`: zeros for the registers, and the
words that `iretq` takes. -/
structure FrameReady (s : Sched) (p kstack entry : ℕ) : Prop where
  allocated : kstack ≠ 0
  own : (s.pcb p).kernelStack = kstack
  inside : kstack ≤ (s.pcb p).rsp ∧ (s.pcb p).rsp + 22*8 ≤ kstack + kernelStackSize
  frame : loadWords s.mem (s.pcb p).rsp 22 =
    List.replicate 15 0 ++ [0, 0, entry, 0x1B, 0x202, userStackTop, 0x23]

/-- The user stack is mapped for user mode to write. -/
def StackMapped (t : PageTables) : Prop :=
  ∀ a, stackStart ≤ a → a < userStackTop →
    ∃ r, t.rights a = some r ∧ r.user = true ∧ r.write = true

/-- Either the call returns `NULL` and the ready queue is still `q`, or the new process is at its
tail, with its frame and its user stack. -/
def AllOrNothing {σ : Type} (tables : σ → PageTables) (file : Mem) (q : List ℕ) (out : Created σ) :
    Prop :=
  (out.proc = some 0 ∧ Queue out.sched q) ∨
  ∃ p, p ≠ 0 ∧ out.proc = some p ∧ Queue out.sched (q ++ [p]) ∧
    FrameReady out.sched p out.allocations.kstack (load file eEntry 8) ∧
    StackMapped (tables out.kernel)

/-- The pages of the user stack that the loop maps. -/
def grantedVisits (l : List ℕ) : List (ℕ × Rights) := l.map (fun p => (p, ⟨true, true⟩))

/-- The pages of the user stack are opened: by the entries before the call, else by the image when a
segment comes to the page first, else because the page was granted. -/
def StackOpens (t : PageTables) (file : Mem) (granted : List ℕ) : Prop :=
  ∀ j, j < stackPages → t.Opens (visits file ++ grantedVisits granted) (stackPage j) True

/-- The image is refused or rejected; or it is loaded without an access to a page that is not
present, and there is no PCB, or a kernel stack and the whole user stack. -/
def WholeOrNone (t : PageTables) (file : Mem) (buf size : ℕ) (l : Allocations) : Prop :=
  l.refused = true ∨ ¬ Placed file size ∨
    (AccessesPresent file buf t ∧ (l.pcb = 0 ∨ (l.kstack ≠ 0 ∧ StackOpens t file l.granted)))

/-- No byte of a segment is stored over the kernel's own data. -/
def SparesData (file : Mem) (kernelData : Set ℕ) : Prop :=
  ∀ a, SegmentAddress file a → a ∉ kernelData

/-- `I` is an invariant of the machine, in which the ready queue is `q`. An image that spares the
kernel's data keeps the laws of the loader, and they hold for the user stack too; a `vmm_alloc_map`
that fails adds tables at most. `kmalloc` changes no table of the lower half, and its blocks are
none of the queue and end below the last address. -/
structure CreateKept {σ : Type} (P : Platform σ) (I : σ → Prop) (tables : σ → PageTables)
    (sched : σ → Sched) (file : Mem) (buf size : ℕ) (q : List ℕ) (kernelData : Set ℕ) : Prop where
  load : SparesData file kernelData →
    TablesKept (P.loader buf) I tables file buf (fileSpan file size)
  queue : ∀ k, I k → Queue (sched k) q
  refused : ∀ k x perm k1 r, I k → x ∈ visits file →
    (P.loader buf).vmmAllocMap k x.1 perm = some (k1, r) → r ≠ 0 → I k1
  stackQuery : ∀ k j, I k → j < stackPages →
    (P.loader buf).vmmIsMapped k (stackPage j) = some ((tables k).mapped (stackPage j))
  stackAlloc : ∀ k j, I k → j < stackPages → (tables k).mapped (stackPage j) = false →
    ∃ k1 r, (P.loader buf).vmmAllocMap k (stackPage j) 7 = some (k1, r) ∧ I k1 ∧
      (r = 0 → tables k1 = (tables k).setPage (stackPage j) ⟨true, true⟩) ∧
      (r ≠ 0 → (tables k).top.Extended (tables k1).top)
  kmalloc : ∀ k m, I k → I (P.kmalloc k m).1 ∧
    ∀ i : Fin 512, i.val < 256 → (tables (P.kmalloc k m).1).entries i = (tables k).entries i
  fresh : ∀ k, I k → (P.kmalloc k sizeofPcb).2 ∉ q
  block : ∀ k, I k → (P.kmalloc k kernelStackSize).2 + kernelStackSize < 2^64

/-- `prepare_user_stack` leaves a complete frame in the block. -/
theorem frameReady_create {s : Sched} {p kstack entry : ℕ} (h0 : p ≠ 0) (hk : kstack ≠ 0)
    (hblock : kstack + kernelStackSize < 2^64) (hentry : entry < 2^64) :
    FrameReady (procCreateFromElf s (some entry) p kstack).1 p kstack entry := by
  obtain ⟨hmem, -, -, hrsp, hstack⟩ := procCreateFromElf_data s entry h0 hk
  have htop : stackTop kstack = (kstack + kernelStackSize) / 16 * 16 := align16 _ hblock
  refine ⟨hk, hstack, ?_, ?_⟩
  · rw [hrsp, htop]
    unfold kernelStackSize
    omega
  · rw [hrsp, hmem]
    have hwords : ∀ w ∈ userFrame entry userStackTop, w < 2^64 := by
      intro w hw
      rcases List.mem_append.mp hw with hw | hw
      · rw [(List.mem_replicate.mp hw).2]
        decide
      · simp only [List.mem_cons, List.not_mem_nil, or_false] at hw
        rcases hw with rfl | rfl | rfl | rfl | rfl | rfl | rfl
        · decide
        · decide
        · exact hentry
        · decide
        · decide
        · decide
        · decide
    exact loadWords_storeWords s.mem (stackTop kstack - 22*8) (userFrame entry userStackTop) hwords

/-! ### The user stack -/

section Tables
variable {t t' : PageTables} {l : List (ℕ × Rights)} {v : ℕ} {w : Prop}

/-- The tables of the lower half decide about its pages. -/
theorem opens_congr (h : ∀ i : Fin 512, i.val < 256 → t'.entries i = t.entries i) (hv : v < 2^47) :
    t'.Opens l v w ↔ t.Opens l v w := by
  have hidx : vmmPml4Index v < 256 := by
    rw [vmmPml4Index_eq]
    omega
  unfold PageTables.Opens PageTables.top pagePath
  simp only [TableEntry.Opens]
  rw [h ⟨vmmPml4Index v, vmmPml4Index_lt v⟩ hidx]

theorem stackPage_lt {j : ℕ} (hj : j < stackPages) : stackPage j < 2^47 := by
  have hpages : stackPages = 4 := by decide
  have hstart : stackStart = 0x7FFFA000 := by decide
  unfold stackPage
  omega

/-- The addresses of the user stack are those of its pages. -/
theorem stackMapped_iff : StackMapped t ↔ ∀ j, j < stackPages → t.Opens [] (stackPage j) True := by
  have hstart : stackStart = 0x7FFFA000 := by decide
  have htop : userStackTop = 0x7FFFE000 := rfl
  have hpages : stackPages = 4 := by decide
  have hopens (v : ℕ) : t.Opens [] v True ↔
      ∃ r, t.rights v = some r ∧ r.user = true ∧ r.write = true := by
    rw [← PageTables.visits_allow, List.foldl_nil]
    unfold Rights.Allows
    simp only [forall_const]
  have hpage {a : ℕ} (ha : a < 2^47) : t.rights (a / 4096 * 4096) = t.rights a := by
    have hc : Canonical a := Or.inl ha
    have hc' : Canonical (a / 4096 * 4096) := Or.inl (by omega)
    unfold PageTables.rights
    rw [if_pos hc, if_pos hc', pagePath_page]
  simp only [hopens]
  unfold StackMapped stackPage
  rw [hstart, htop, hpages]
  constructor
  · intro h j hj
    exact h _ (by omega) (by omega)
  · intro h a h1 h2
    have hj := h ((a - 0x7FFFA000) / 4096) (by omega)
    rw [show 0x7FFFA000 + 4096*((a - 0x7FFFA000) / 4096) = a / 4096 * 4096 by omega,
      hpage (by omega)] at hj
    exact hj

end Tables

section Laws
variable {σ : Type} {P : Platform σ} {K : Kernel σ} {I : σ → Prop} {tables : σ → PageTables}
  {sched : σ → Sched} {file : Mem} {buf size n : ℕ} {q : List ℕ} {kernelData : Set ℕ}

/-- The loop over the user stack returns, and maps the pages that are granted. -/
theorem CreateKept.mapStack_opens (hc : CreateKept P I tables sched file buf size q kernelData)
    (n : ℕ) : ∀ j k, j + n = stackPages → I k →
      ∃ k', mapStack (P.loader buf) (stackPage j) n k = some k' ∧ I k' ∧
        ∀ l v w, (tables k').Opens l v w ↔ (tables k).Opens
          (grantedVisits (stackGranted (P.loader buf) (stackPage j) n k) ++ l) v w := by
  induction n with
  | zero => exact fun j k _ hI => ⟨k, rfl, hI, fun l v w => Iff.rfl⟩
  | succ n ih =>
    intro j k hj hI
    have hnext : stackPage j + 4096 = stackPage (j+1) := by
      unfold stackPage
      omega
    have hquery := hc.stackQuery k j hI (by omega)
    unfold mapStack stackGranted
    rw [hquery, hnext]
    cases hm : (tables k).mapped (stackPage j) with
    | true => exact ih (j+1) k (by omega) hI
    | false =>
      obtain ⟨k1, r, halloc, hI1, hset, hfail⟩ := hc.stackAlloc k j hI (by omega) hm
      obtain ⟨k', hk', hI', hopens⟩ := ih (j+1) k1 (by omega) hI1
      dsimp only [Option.bind_eq_bind, Option.bind_some]
      rw [halloc]
      refine ⟨k', hk', hI', fun l v w => ?_⟩
      dsimp only
      rw [hopens]
      by_cases hr : r = 0
      · have hvisit : tables k1 = (tables k).visit (stackPage j, ⟨true, true⟩) := by
          unfold PageTables.visit
          rw [hm, if_neg Bool.false_ne_true]
          exact hset hr
        rw [if_pos hr, hvisit, PageTables.visit_opens]
        exact Iff.rfl
      · -- nothing was mapped, and nobody is told
        rw [if_neg hr]
        exact PageTables.opens_of_extended (hfail hr)

/-! ### The load -/

/-- The laws hold as long as no page was refused. -/
theorem TablesKept.watched (hk : TablesKept K I tables file buf n) :
    TablesKept K.watched (fun s => I s.1 ∧ s.2 = false) (fun s => tables s.1) file buf n where
  peek s hs := hk.peek s.1 hs.1
  read s o hs := hk.read s.1 o hs.1
  write s a b hs ha := by
    change ((K.store s.1 a b).map _).isSome ↔ _
    rw [Option.isSome_map]
    exact hk.write s.1 a b hs.1 ha
  store s a b k hs ha h := by
    obtain ⟨k', hk', rfl⟩ := Option.map_eq_some_iff.mp h
    obtain ⟨hI, htables⟩ := hk.store s.1 a b k' hs.1 ha hk'
    exact ⟨⟨hI, hs.2⟩, htables⟩
  query s x hs := hk.query s.1 x hs.1
  alloc s x perm hs hx hperm hm := by
    obtain ⟨k, r, halloc, hset⟩ := hk.alloc s.1 x perm hs.1 hx hperm hm
    refine ⟨(k, s.2 || decide (r ≠ 0)), r, ?_, fun hr => ?_⟩
    · change (K.vmmAllocMap s.1 x.1 perm).map _ = _
      rw [halloc]
      rfl
    · obtain ⟨hI, htables⟩ := hset hr
      refine ⟨⟨hI, ?_⟩, htables⟩
      rw [hs.2, hr]
      rfl

/-- How the load of a call ends. -/
inductive LoadEnds (I : σ → Prop) (tables : σ → PageTables) (file : Mem) (buf size : ℕ)
    (t : PageTables) : Except LoadEnd ElfLoadResult → σ × Bool → Prop
  | null {text : String} {k : σ × Bool} (hI : I k.1) (h : k.2 = true ∨ ¬ Placed file size) :
      LoadEnds I tables file buf size t (.error (.error text)) k
  | fault {k : σ × Bool} (hflag : k.2 = false) (hp : Placed file size)
      (h : ¬ AccessesPresent file buf t) :
      LoadEnds I tables file buf size t (.error .fault) k
  | loaded {elf : ElfLoadResult} {k : σ × Bool} (hI : I k.1) (hflag : k.2 = false)
      (hp : Placed file size) (h : AccessesPresent file buf t)
      (hentry : elf.entryPoint = load file eEntry 8)
      (htables : tables k.1 = (visits file).foldl PageTables.visit t) :
      LoadEnds I tables file buf size t (.ok elf) k

theorem CreateKept.load_ends (hc : CreateKept P I tables sched file buf size q kernelData)
    (hspares : SparesData file kernelData) {k : σ} (hI : I k) :
    LoadEnds I tables file buf size (tables k)
      (elf64Load (P.loader buf).watched size ⟨(k, false), []⟩).value
      (elf64Load (P.loader buf).watched size ⟨(k, false), []⟩).state.kernel := by
  have hends : Ends (WithTables (fun s : σ × Bool => I s.1 ∧ s.2 = false) (fun s => tables s.1)
      (tables k)) (elf64Load (P.loader buf).watched size) _ _ := (hc.load hspares).watched.elf64Load
  obtain ⟨hvalue, hearly⟩ := hends ⟨(k, false), []⟩ ⟨⟨hI, rfl⟩, rfl⟩
  cases hv : (elf64Load (P.loader buf).watched size ⟨(k, false), []⟩).value with
  | ok elf =>
    obtain ⟨⟨hentry, hp, hpresent⟩, ⟨hI1, hflag⟩, htables⟩ := hvalue elf hv
    exact .loaded hI1 hflag hp hpresent hentry htables
  | error r =>
    have hstop := hearly r hv
    generalize (elf64Load (P.loader buf).watched size ⟨(k, false), []⟩).state.kernel = k1 at hstop
    cases hstop with
    | rejected hI1 h => exact .null hI1.1 (Or.inr h)
    | refused hs hx hr h =>
      obtain ⟨⟨k2, r'⟩, halloc, he⟩ := Option.map_eq_some_iff.mp h
      obtain ⟨rfl, rfl⟩ := Prod.mk.inj he
      refine .null (hc.refused _ _ _ _ _ hs.1 hx halloc hr) (Or.inl ?_)
      dsimp only
      rw [hs.2, decide_eq_true hr]
      rfl
    | fault hI1 hp h => exact .fault hI1.2 hp h

/-! ### The call -/

/-- A call that gets a PCB. -/
theorem CreateKept.created (hc : CreateKept P I tables sched file buf size q kernelData) {k k1 : σ}
    (hI : I k1) (htables : tables k1 = (visits file).foldl PageTables.visit (tables k))
    (h0 : (P.kmalloc k1 sizeofPcb).2 ≠ 0) {entry : ℕ} (hentry : entry < 2^64) :
    ∃ k2, mapStack (P.loader buf) stackStart stackPages (P.kmalloc k1 sizeofPcb).1 = some k2 ∧
      let c := procCreateFromElf (sched (P.kmalloc k2 kernelStackSize).1) (some entry)
        (P.kmalloc k1 sizeofPcb).2 (P.kmalloc k2 kernelStackSize).2
      c.2 = (P.kmalloc k1 sizeofPcb).2 ∧ Queue c.1 (q ++ [(P.kmalloc k1 sizeofPcb).2]) ∧
      (FrameReady c.1 (P.kmalloc k1 sizeofPcb).2 (P.kmalloc k2 kernelStackSize).2 entry ↔
        (P.kmalloc k2 kernelStackSize).2 ≠ 0) ∧
      (StackMapped (tables (P.kmalloc k2 kernelStackSize).1) ↔ StackOpens (tables k) file
        (stackGranted (P.loader buf) stackStart stackPages (P.kmalloc k1 sizeofPcb).1)) := by
  obtain ⟨hIp, hlow⟩ := hc.kmalloc k1 sizeofPcb hI
  obtain ⟨k2, hk2, hI2, hopens⟩ := hc.mapStack_opens stackPages 0 _ (Nat.zero_add _) hIp
  obtain ⟨hIs, hlow'⟩ := hc.kmalloc k2 kernelStackSize hI2
  refine ⟨k2, hk2, ?_⟩
  obtain ⟨s', hs', hqueue, -⟩ := procCreateFromElf_spec (hc.queue _ hIs) (hc.fresh k1 hI) h0 entry
    (P.kmalloc k2 kernelStackSize).2
  have hframe (hk : (P.kmalloc k2 kernelStackSize).2 ≠ 0) :
      FrameReady (procCreateFromElf (sched (P.kmalloc k2 kernelStackSize).1) (some entry)
        (P.kmalloc k1 sizeofPcb).2 (P.kmalloc k2 kernelStackSize).2).1 (P.kmalloc k1 sizeofPcb).2
        (P.kmalloc k2 kernelStackSize).2 entry :=
    frameReady_create h0 hk (hc.block k2 hI2) hentry
  rw [hs'] at hframe ⊢
  refine ⟨rfl, hqueue, ⟨FrameReady.allocated, hframe⟩, ?_⟩
  rw [stackMapped_iff]
  unfold StackOpens
  apply forall₂_congr
  intro j hj
  have hlt := stackPage_lt hj
  -- the two blocks change no table of the user stack
  rw [opens_congr hlow' hlt, hopens, List.append_nil, opens_congr hlow hlt, htables,
    PageTables.visits_opens]
  exact Iff.rfl

/-- A call on an image that spares the kernel's data creates a whole process or none exactly when
the image is refused or rejected, or is loaded without a fault and there is no PCB, or a kernel
stack and every page of the user stack. -/
theorem proc_create_iff (hc : CreateKept P I tables sched file buf size q kernelData)
    (hspares : SparesData file kernelData) {k : σ} (hI : I k) :
    AllOrNothing tables file q (procCreate P sched k buf size) ↔
      WholeOrNone (tables k) file buf size (procCreate P sched k buf size).allocations := by
  have hends := hc.load_ends hspares hI
  unfold procCreate AllOrNothing WholeOrNone
  dsimp only
  generalize (elf64Load (P.loader buf).watched size ⟨(k, false), []⟩).value = res at hends ⊢
  generalize (elf64Load (P.loader buf).watched size ⟨(k, false), []⟩).state.kernel = k1 at hends ⊢
  cases hends with
  | null hI1 h => exact iff_of_true (Or.inl ⟨rfl, hc.queue _ hI1⟩) (h.imp_right Or.inl)
  | fault hflag hp h =>
    refine iff_of_false (fun hall => ?_) (fun hwhole => ?_)
    · rcases hall with ⟨hnull, -⟩ | ⟨p, -, hproc, -⟩
      · cases hnull
      · cases hproc
    · rcases hwhole with hrefused | hno | ⟨hpresent, -⟩
      · exact absurd (hflag.symm.trans hrefused) Bool.false_ne_true
      · exact hno hp
      · exact h hpresent
  | @loaded elf k1 hI1 hflag hp hpresent hentry htables =>
    dsimp only
    have hiff {A B : Prop} (hAB : A ↔ B) :
        A ↔ k1.2 = true ∨ ¬ Placed file size ∨ AccessesPresent file buf (tables k) ∧ B := by
      rw [hflag, hAB]
      simp [hp, hpresent]
    by_cases h0 : (P.kmalloc k1.1 sizeofPcb).2 = 0
    · rw [if_pos h0]
      apply hiff
      exact iff_of_true (Or.inl ⟨rfl, hc.queue _ (hc.kmalloc _ _ hI1).1⟩) (Or.inl rfl)
    rw [if_neg h0]
    have hlt : elf.entryPoint < 2^64 := by
      rw [hentry]
      exact load_lt file eEntry 8
    obtain ⟨k2, hk2, hret, hqueue, hframe, hstack⟩ := hc.created hI1 htables h0 hlt
    rw [hk2]
    dsimp only
    apply hiff
    rw [← hentry]
    constructor
    · intro hall
      rcases hall with ⟨hnull, -⟩ | ⟨p, -, hproc, -, hready, hmapped⟩
      · exact absurd (hret.symm.trans (Option.some.inj hnull)) h0
      · obtain rfl := hret.symm.trans (Option.some.inj hproc)
        exact Or.inr ⟨hframe.mp hready, hstack.mp hmapped⟩
    · intro h
      obtain ⟨hk, hopens⟩ := h.resolve_left h0
      exact Or.inr ⟨_, h0, congrArg some hret, hqueue, hframe.mpr hk, hstack.mpr hopens⟩

end Laws

/-! ### A machine with the ready queue in its memory -/

/-- The address of `ready_queue_head`; `ready_queue_tail` is behind it. -/
def queueVars : ℕ := 0xFFFFFFFF80200000

def queueBytes : Set ℕ := {a | queueVars ≤ a ∧ a < queueVars + 16}

def schedIn (k : TableMemory) : Sched :=
  { staticSched 1 with readyQueueHead := load64 k.mem queueVars
                       readyQueueTail := load64 k.mem (queueVars + 8) }

/-- A heap with a PCB, and `kstack` for the kernel stack. -/
def tablePlatform (file : Mem) (kstack : ℕ) : Platform TableMemory where
  pathAt _ _ := none
  kmalloc k m := (k, if m = kernelStackSize then kstack else 0xFFFFFFFF90001000)
  kfree k _ := k
  fill k _ _ := k
  loader := tableMachine file

/-- The buffer is present and the ready queue is empty. -/
def NoneReady (buf n : ℕ) (k : TableMemory) : Prop := BufferPresent buf n k ∧ Queue (schedIn k) []

section Machine
variable {file : Mem} {buf size kstack n p : ℕ} {k : TableMemory}

theorem schedIn_congr {k' : TableMemory} (h : ∀ a ∈ queueBytes, k'.mem a = k.mem a) :
    schedIn k' = schedIn k := by
  have hword (o : ℕ) (ho : o + 8 ≤ 16) :
      load64 k'.mem (queueVars + o) = load64 k.mem (queueVars + o) := by
    rw [load64_eq, load64_eq]
    exact load_congr _ _ _ _ (fun x h1 h2 => h x ⟨by omega, by omega⟩)
  unfold schedIn
  rw [hword 8 (by decide)]
  exact congrArg (fun w => { staticSched 1 with
    readyQueueHead := w, readyQueueTail := load64 k.mem (queueVars + 8) }) (hword 0 (by decide))

theorem NoneReady.setPage (hk : NoneReady buf n k) (hm : k.tables.mapped p = false)
    (hp : p ≠ queueVars) (r : Rights) :
    NoneReady buf n ⟨k.tables.setPage p r, withPage k.mem p⟩ := by
  refine ⟨hk.1.setPage hm _ _, ?_⟩
  rw [schedIn_congr (k := k)]
  · exact hk.2
  · intro a ha
    refine if_neg (fun hpage => hp ?_)
    rw [← hpage]
    obtain ⟨h1, h2⟩ := ha
    unfold pageStart
    unfold queueVars at h1 h2 ⊢
    omega

theorem stackPage_ne {j : ℕ} (hj : j < stackPages) : stackPage j ≠ queueVars := by
  have hlt := stackPage_lt hj
  unfold queueVars
  omega

theorem tablePlatform_kept (hblock : kstack + kernelStackSize < 2^64)
    (hpages : ∀ x ∈ visits file, x.1 ≠ queueVars) (buf size : ℕ) :
    CreateKept (tablePlatform file kstack) (NoneReady buf (fileSpan file size)) TableMemory.tables
      schedIn file buf size [] queueBytes where
  load hspares :=
    have hk := tableMachine_kept file buf (fileSpan file size)
    { peek := fun s hs => hk.peek s hs.1
      read := fun s o hs => hk.read s o hs.1
      write := fun s a b hs => hk.write s a b hs.1
      store := by
        intro s a b k hs ha h
        obtain ⟨hbuffer, htables⟩ := hk.store s a b k hs.1 ha h
        refine ⟨⟨hbuffer, ?_⟩, htables⟩
        obtain ⟨-, hstored⟩ := Option.ite_none_right_eq_some.mp h
        obtain rfl := Option.some.inj hstored
        rw [schedIn_congr (k := s)]
        · exact hs.2
        · intro x hx
          have hne : x ≠ a := fun he => hspares a ha (he ▸ hx)
          exact Function.update_of_ne hne b s.mem
      query := fun s x hs => hk.query s x hs.1
      alloc := fun s x perm hs hx _ hm =>
        ⟨_, 0, rfl, fun _ => ⟨hs.setPage hm (hpages x hx) _, rfl⟩⟩ }
  queue k hk := hk.2
  refused k x perm k1 r _ _ h hr := by
    obtain ⟨-, rfl⟩ := Prod.mk.inj (Option.some.inj h)
    exact absurd rfl hr
  stackQuery k j _ _ := rfl
  stackAlloc k j hk hj hm :=
    ⟨_, 0, rfl, hk.setPage hm (stackPage_ne hj) _, fun _ => rfl, fun h => absurd rfl h⟩
  kmalloc k m hk := ⟨hk, fun _ _ => rfl⟩
  fresh k _ := List.not_mem_nil
  block k _ := hblock

end Machine

/-- The first 4 GB, and the kernel in the last 512 GB. -/
def kernelTables : PageTables where
  entries i := if i.val = 511 then .next ⟨false, true⟩ (fun _ => .next ⟨false, true⟩ (fun _ =>
      .next ⟨false, true⟩ (fun _ => .page ⟨false, true⟩)))
    else identityTables.entries i

def kernelStart : TableMemory := ⟨kernelTables, fun _ => 0#8⟩

theorem kernelTables_rights {a : ℕ} (ha : a < 2^32) :
    kernelTables.rights a = some ⟨true, true⟩ := by
  have hidx : vmmPml4Index a ≠ 511 := by
    rw [vmmPml4Index_eq]
    omega
  rw [← identityTables_rights ha]
  unfold PageTables.rights PageTables.top pagePath kernelTables
  simp only [TableEntry.rights, if_neg hidx]

/-- The image in the page at 4 MB, and the ready queue elsewhere. -/
theorem kernelStart_ready :
    NoneReady imageBuffer (fileSpan (oneInPage 0x400000) 120) kernelStart := by
  have hhead : (schedIn kernelStart).readyQueueHead = 0 := by decide +kernel
  have htail : (schedIn kernelStart).readyQueueTail = 0 := by decide +kernel
  refine ⟨?_, hhead, htail, List.nodup_nil⟩
  rw [inPage_start.span]
  intro o ho
  unfold kernelStart imageBuffer
  dsimp only
  rw [kernelTables_rights (by omega)]
  rfl

theorem inPage_spares : SparesData (oneInPage 0x400000) queueBytes := by
  obtain ⟨hvaddr, hmemsz, hfilesz, -⟩ := inPage_start.segment
  intro a ha hin
  obtain ⟨i, k, hi, hk, rfl⟩ := ha
  obtain rfl := oneInPage_loads inPage_start.headers hi
  rw [hfilesz, hmemsz] at hk
  have hle : queueVars ≤ _ := hin.1
  rw [hvaddr] at hle
  unfold queueVars at hle
  omega

theorem inPage_kept {kstack : ℕ} (hblock : kstack + kernelStackSize < 2^64) :
    CreateKept (tablePlatform (oneInPage 0x400000) kstack)
      (NoneReady imageBuffer (fileSpan (oneInPage 0x400000) 120)) TableMemory.tables schedIn
      (oneInPage 0x400000) imageBuffer 120 [] queueBytes := by
  have hvisits : visits (oneInPage 0x400000) = [(0x400000, ⟨true, true⟩)] := by decide
  apply tablePlatform_kept hblock
  intro x hx
  rw [hvisits] at hx
  rw [List.mem_singleton.mp hx]
  decide

/-- The call on the image in the page at 4 MB. -/
def createInPage (kstack : ℕ) : Created TableMemory :=
  procCreate (tablePlatform (oneInPage 0x400000) kstack) schedIn kernelStart imageBuffer 120

/-- A call that gets all it asks for. -/
theorem proc_create_iff_plain :
    (createInPage 0xFFFFFFFF90004000).proc = some 0xFFFFFFFF90001000 ∧
    (createInPage 0xFFFFFFFF90004000).allocations.kstack ≠ 0 ∧
    (AllOrNothing TableMemory.tables (oneInPage 0x400000) [] (createInPage 0xFFFFFFFF90004000) ↔
      WholeOrNone kernelTables (oneInPage 0x400000) imageBuffer 120
        (createInPage 0xFFFFFFFF90004000).allocations) :=
  ⟨by decide +kernel, by decide +kernel,
    proc_create_iff (inPage_kept (by decide)) inPage_spares kernelStart_ready⟩

/-- Without a kernel stack the process is put on the ready queue all the same. -/
theorem half_built_process : ¬ ∀ (σ : Type) (P : Platform σ) (I : σ → Prop)
    (tables : σ → PageTables) (sched : σ → Sched) (file : Mem) (buf size : ℕ) (q : List ℕ)
    (kernelData : Set ℕ) (k : σ),
    CreateKept P I tables sched file buf size q kernelData → SparesData file kernelData → I k →
    AllOrNothing tables file q (procCreate P sched k buf size) := by
  intro h
  have hproc : (createInPage 0).proc = some 0xFFFFFFFF90001000 := by decide +kernel
  have hstack : (createInPage 0).allocations.kstack = 0 := by decide +kernel
  have hkept : CreateKept (tablePlatform (oneInPage 0x400000) 0) _ _ _ _ imageBuffer 120 [] _ :=
    inPage_kept (by decide)
  rcases h _ _ _ _ _ _ imageBuffer 120 [] _ kernelStart hkept inPage_spares kernelStart_ready with
    ⟨hnull, -⟩ | ⟨p, -, -, -, hframe, -⟩
  · cases hproc.symm.trans hnull
  · exact hframe.allocated hstack

/-- An image with a segment over `ready_queue_tail`: the process is returned, and the queue is left
without a head. -/
theorem segment_over_queue : ¬ AllOrNothing TableMemory.tables (oneSegment 0 (queueVars + 8) 8 8) []
    (procCreate (tablePlatform (oneSegment 0 (queueVars + 8) 8 8) 0xFFFFFFFF90004000) schedIn
      kernelStart imageBuffer 120) := by
  have hproc : (procCreate (tablePlatform (oneSegment 0 (queueVars + 8) 8 8) 0xFFFFFFFF90004000)
      schedIn kernelStart imageBuffer 120).proc = some 0xFFFFFFFF90001000 := by decide +kernel
  have hhead : (procCreate (tablePlatform (oneSegment 0 (queueVars + 8) 8 8) 0xFFFFFFFF90004000)
      schedIn kernelStart imageBuffer 120).sched.readyQueueHead = 0 := by decide +kernel
  intro h
  rcases h with ⟨hnull, -⟩ | ⟨p, hp, -, hqueue, -⟩
  · cases hproc.symm.trans hnull
  · have hlinked : (procCreate _ schedIn kernelStart imageBuffer 120).sched.readyQueueHead = p :=
      hqueue.linked.1
    exact hp (hlinked.symm.trans hhead)

end SukiOS

import Mathlib.Tactic.Cases
import Mathlib.Tactic.Ring
import SukiOS.Elf

/-! What `elf64_load` may read and store, as the fields of the file decide it. -/
namespace SukiOS
open ByteMemory Traced

/-! ### The fields of a file -/

section Fields
variable (file : Mem)

def phoffOf : ℕ := load file ePhoff 8
def phnumOf : ℕ := load file ePhnum 2
def phentsizeOf : ℕ := load file ePhentsize 2

/-- The offset of the program header `i`. -/
def hdrOf (i : ℕ) : ℕ := phoffOf file + sizeofPhdr*i

def vaddrOf (i : ℕ) : ℕ := load file (hdrOf file i + pVaddr) 8
def memszOf (i : ℕ) : ℕ := load file (hdrOf file i + pMemsz) 8
def fileszOf (i : ℕ) : ℕ := load file (hdrOf file i + pFilesz) 8
def offsetOf (i : ℕ) : ℕ := load file (hdrOf file i + pOffset) 8

/-- The header `i` is that of a segment to load. -/
def Loads (i : ℕ) : Prop := i < phnumOf file ∧ load file (hdrOf file i + pType) 4 = ptLoad

instance (i : ℕ) : Decidable (Loads file i) := inferInstanceAs (Decidable (_ ∧ _))

/-- The ELF header passes the checks. -/
structure HeaderOk : Prop where
  mag0 : load file 0 1 = 0x7F
  mag1 : load file 1 1 = 0x45
  mag2 : load file 2 1 = 0x4C
  mag3 : load file 3 1 = 0x46
  cls : load file 4 1 = 2
  machine : load file eMachine 2 = 62

/-- The end of the program header table, as it is and as the code computes it. -/
def tableEnd : ℕ := phoffOf file + phentsizeOf file * phnumOf file
def checkedEnd : ℕ := headersEnd (phoffOf file) (phentsizeOf file) (phnumOf file)

/-- All checks before the first pass succeed. -/
structure Accepted (fileSize : ℕ) : Prop where
  size : sizeofEhdr ≤ fileSize
  header : HeaderOk file
  table : checkedEnd file ≤ fileSize

/-- The second pass is made. -/
structure Placed (fileSize : ℕ) : Prop where
  accepted : Accepted file fileSize
  segment : ∃ i, Loads file i ∧ vaddrOf file i < uint64Max

/-- The pages that the loop of step 4 goes over for the header `i`. -/
def PageOf (i p : ℕ) : Prop :=
  ∃ k, k < (segEnd (vaddrOf file i) (memszOf file i) - segStart (vaddrOf file i)) / 4096 ∧
    p = segStart (vaddrOf file i) + 4096*k

/-- The pages gone over up to the header `i`, without it. -/
def PagesBefore (i p : ℕ) : Prop := ∃ j, j < i ∧ Loads file j ∧ PageOf file j p

/-- What the loader may do, `present` being the pages that were present before. -/
inductive May (fileSize : ℕ) (present : ℕ → Prop) : LoadEvent → Prop
  | header {off len : ℕ} (hs : sizeofEhdr ≤ fileSize) (h : off + len ≤ sizeofEhdr) :
      May fileSize present (.read off len)
  | sum (hs : sizeofEhdr ≤ fileSize) (hh : HeaderOk file) :
      May fileSize present (.sum (tableEnd file) (checkedEnd file))
  | type {i : ℕ} (ha : Accepted file fileSize) (hi : i < phnumOf file) :
      May fileSize present (.read (hdrOf file i + pType) 4)
  | field {i off len : ℕ} (ha : Accepted file fileSize) (hi : Loads file i)
      (h : off + len ≤ pMemsz + 8) : May fileSize present (.read (hdrOf file i + off) len)
  | copy {i k : ℕ} (hp : Placed file fileSize) (hi : Loads file i) (hk : k < fileszOf file i) :
      May fileSize present (.read (offsetOf file i + k) 1)
  | store {i k : ℕ} {mine : Bool} (hp : Placed file fileSize) (hi : Loads file i)
      (hk : k < fileszOf file i ∨ k < memszOf file i)
      (hm : mine = false → PagesBefore file (i+1) ((vaddrOf file i + k) % 2^64 / 4096 * 4096) →
        present ((vaddrOf file i + k) % 2^64 / 4096 * 4096)) :
      May fileSize present (.store ((vaddrOf file i + k) % 2^64) mine)

end Fields

/-- The headers that are read lie below `n`. -/
structure TableBelow (file : Mem) (n : ℕ) : Prop where
  header : sizeofEhdr ≤ n
  type : ∀ i, i < phnumOf file → hdrOf file i + pType + 4 ≤ n
  fields : ∀ i, Loads file i → hdrOf file i + pMemsz + 8 ≤ n

/-- `I` is an invariant of the machine: below `n` the buffer holds `file`, a page that is found
mapped was present before or was mapped by the call, and the stores that `P` allows keep it. -/
structure Steady {σ : Type} (K : Kernel σ) (I : Loader σ → Prop) (file : Mem) (n : ℕ)
    (present : ℕ → Prop) (P : LoadEvent → Prop) : Prop where
  peek : ∀ s, I s → ∀ o, o < n → K.peek s.kernel o = some (file o)
  mapped : ∀ s p, I s → K.vmmIsMapped s.kernel p = some true → p ∈ s.mine ∨ present p
  store : ∀ s a b k, I s → P (.store a (s.mine.contains (a / 4096 * 4096))) →
    K.store s.kernel a b = some k → I { s with kernel := k }
  alloc : ∀ s va perm k r, I s → K.vmmAllocMap s.kernel va perm = some (k, r) →
    I ⟨k, if r = 0 then va :: s.mine else s.mine⟩

/-- The pages of `S` are mapped: by the call, or before it. -/
def Covers (σ : Type) (present : ℕ → Prop) (S : ℕ → Prop) (s : Loader σ) : Prop :=
  ∀ p, S p → p ∈ s.mine ∨ present p

section Triples
variable {σ : Type} {K : Kernel σ} {I : Loader σ → Prop} {file : Mem} {n fileSize : ℕ}
  {present S : ℕ → Prop} {P : LoadEvent → Prop}

theorem peekWord_eq {peek : ℕ → Option Byte} (len : ℕ) : ∀ off,
    (∀ o, o < off + len → peek o = some (file o)) →
      peekWord peek off len = some (load file off len) := by
  induction len with
  | zero => exact fun _ _ => rfl
  | succ len ih =>
    intro off h
    have hrest := ih (off+1) (fun o ho => h o (by omega))
    rw [peekWord, h off (by omega), Option.bind_some, hrest]
    rfl

/-- Reading keeps what is known of the state. -/
theorem readField_any {J : Loader σ → Prop} {off len : ℕ} (h : P (.read off len)) :
    Triple J P (readField K off len) (fun _ => J) := by
  apply Triple.bind (Triple.emit h)
  intro _
  apply Triple.attempt
  intro s v s' hs hv
  obtain ⟨w, -, he⟩ := Option.map_eq_some_iff.mp hv
  obtain ⟨-, rfl⟩ := Prod.mk.inj he
  exact hs

/-- Below `n` the value is that of the file. -/
theorem Steady.field (hst : Steady K I file n present P) {J : Loader σ → Prop}
    (hJ : ∀ s, J s → I s) {off len : ℕ} (hn : off + len ≤ n) (h : P (.read off len)) :
    Triple J P (readField K off len) (fun v s => v = load file off len ∧ J s) := by
  apply Triple.bind (Triple.emit h)
  intro _
  apply Triple.attempt
  intro s v s' hs hv
  rw [peekWord_eq len off (fun o ho => hst.peek s (hJ s hs) o (by omega))] at hv
  obtain ⟨rfl, rfl⟩ := Prod.mk.inj (Option.some.inj hv)
  exact ⟨rfl, hs⟩

/-- What is known of the state while the pages of `S` are mapped. -/
def During (σ : Type) (I : Loader σ → Prop) (present S : ℕ → Prop) (s : Loader σ) : Prop :=
  I s ∧ Covers σ present S s

theorem Steady.storeByte (hst : Steady K I file n present P) {addr : ℕ} {b : Byte}
    (h : ∀ mine, (mine = false → S (addr / 4096 * 4096) → present (addr / 4096 * 4096)) →
      P (.store addr mine)) :
    Triple (During σ I present S) P (storeByte K addr b) (fun _ => During σ I present S) := by
  intro s hs
  have hP : P (.store addr (s.mine.contains (addr / 4096 * 4096))) := by
    apply h
    intro hno hS
    rcases hs.2 _ hS with hm | hm
    · rw [List.contains_iff_mem.mpr hm] at hno
      cases hno
    · exact hm
  -- one state only: the event depends on it
  have hrun : Triple (fun t => t = s) P
      (Run.emit (.store addr (s.mine.contains (addr / 4096 * 4096))) >>= fun _ =>
        Run.attempt .fault (fun s => (K.store s.kernel addr b).map
          (fun k => ((), { s with kernel := k }))) : LoadM σ Unit)
      (fun _ => During σ I present S) := by
    apply Triple.bind (Triple.emit hP)
    intro _
    apply Triple.attempt
    intro t u t' ht hattempt
    obtain ⟨k, hk, he⟩ := Option.map_eq_some_iff.mp hattempt
    obtain ⟨-, rfl⟩ := Prod.mk.inj he
    rw [ht] at hk ⊢
    exact ⟨hst.store s addr b k hs.1 hP hk, hs.2⟩
  exact hrun s rfl

theorem Steady.copyChunk (hst : Steady K I file n present P) {dst src : ℕ} (m : ℕ) : ∀ j,
    (∀ k, j ≤ k → k < j + m → P (.read (src + k) 1) ∧ ∀ mine,
      (mine = false → S ((dst + k) % 2^64 / 4096 * 4096) →
        present ((dst + k) % 2^64 / 4096 * 4096)) →
      P (.store ((dst + k) % 2^64) mine)) →
    Triple (During σ I present S) P (copyChunk K dst src j m) (fun _ => During σ I present S) := by
  induction m with
  | zero => exact fun j _ => Triple.ret (fun _ h => h)
  | succ m ih =>
    intro j h
    obtain ⟨hread, hstore⟩ := h j le_rfl (by omega)
    apply Triple.bind (readField_any hread)
    intro b
    apply Triple.bind (hst.storeByte hstore)
    intro _
    exact ih (j+1) (fun k h1 h2 => h k (by omega) (by omega))

theorem Steady.zeroFrom (hst : Steady K I file n present P) {bss : ℕ} (m : ℕ) : ∀ j,
    (∀ k, j ≤ k → k < j + m → ∀ mine,
      (mine = false → S ((bss + k) % 2^64 / 4096 * 4096) →
        present ((bss + k) % 2^64 / 4096 * 4096)) →
      P (.store ((bss + k) % 2^64) mine)) →
    Triple (During σ I present S) P (zeroFrom K bss j m) (fun _ => During σ I present S) := by
  induction m with
  | zero => exact fun j _ => Triple.ret (fun _ h => h)
  | succ m ih =>
    intro j h
    apply Triple.bind (hst.storeByte (h j le_rfl (by omega)))
    intro _
    exact ih (j+1) (fun k h1 h2 => h k (by omega) (by omega))

theorem chunkSize_le (vaCopy offset left : ℕ) : chunkSize vaCopy offset left ≤ left := by
  unfold chunkSize
  dsimp only
  have h := Nat.mod_lt ((vaCopy + offset) % 2^64) (show 0 < 4096 by decide)
  split_ifs <;> omega

theorem chunkSize_pos {vaCopy offset left : ℕ} (h0 : left ≠ 0) :
    0 < chunkSize vaCopy offset left := by
  unfold chunkSize
  dsimp only
  have h := Nat.mod_lt ((vaCopy + offset) % 2^64) (show 0 < 4096 by decide)
  split_ifs <;> omega

/-- The address of a byte of a chunk. -/
theorem chunk_addr (vaCopy offset j : ℕ) :
    ((vaCopy + offset) % 2^64 + j) % 2^64 = (vaCopy + (offset + j)) % 2^64 := by
  rw [Nat.mod_add_mod, Nat.add_assoc]

theorem Steady.copyFrom (hst : Steady K I file n present P) {vaCopy src : ℕ} (m : ℕ) :
    ∀ offset left,
    (∀ k, offset ≤ k → k < offset + left → P (.read (src + k) 1) ∧ ∀ mine,
      (mine = false → S ((vaCopy + k) % 2^64 / 4096 * 4096) →
        present ((vaCopy + k) % 2^64 / 4096 * 4096)) → P (.store ((vaCopy + k) % 2^64) mine)) →
    Triple (During σ I present S) P (copyFrom K vaCopy src offset left m)
      (fun _ => During σ I present S) := by
  -- on the turns of the loop; a chunk lies in what is left
  induction m with
  | zero => exact fun _ _ _ => Triple.ret (fun _ h => h)
  | succ m ih =>
    intro offset left h
    unfold SukiOS.copyFrom
    by_cases h0 : left = 0
    · rw [if_pos h0]
      exact Triple.ret (fun _ h => h)
    rw [if_neg h0]
    have hle := chunkSize_le vaCopy offset left
    apply Triple.bind (hst.copyChunk _ 0 ?_)
    · intro _
      exact ih _ _ (fun k h1 h2 => h k (by omega) (by omega))
    · intro k _ hk
      rw [chunk_addr, Nat.add_assoc]
      exact h (offset + k) (by omega) (by omega)

theorem Covers.mono {S' : ℕ → Prop} {s : Loader σ} (h : Covers σ present S s)
    (hS : ∀ p, S' p → S p) : Covers σ present S' s := fun p hp => h p (hS p hp)

theorem During.reads (hst : Steady K I file n present P) {off len : ℕ} (hn : off + len ≤ n)
    (h : P (.read off len)) : Triple (During σ I present S) P (readField K off len)
      (fun v s => v = load file off len ∧ During σ I present S s) :=
  hst.field (fun _ hs => hs.1) hn h

/-- A page that is found mapped was so before, or was mapped by the call. -/
theorem Steady.isMapped (hst : Steady K I file n present P) (va : ℕ) :
    Triple (During σ I present S) P (isMapped K va)
      (fun b s => During σ I present S s ∧ (b = true → va ∈ s.mine ∨ present va)) := by
  apply Triple.attempt
  intro s b s' hs hb
  obtain ⟨c, hc, he⟩ := Option.map_eq_some_iff.mp hb
  obtain ⟨rfl, rfl⟩ := Prod.mk.inj he
  exact ⟨hs, fun hc' => hst.mapped s va hs.1 (hc' ▸ hc)⟩

/-- The page is the call's when `vmm_alloc_map` succeeds. -/
theorem Steady.allocMap (hst : Steady K I file n present P) (va perm : ℕ) :
    Triple (During σ I present S) P (allocMap K va perm)
      (fun r s => During σ I present S s ∧ (r = 0 → va ∈ s.mine)) := by
  apply Triple.attempt
  intro s r s' hs hr
  obtain ⟨⟨k, r'⟩, hk, he⟩ := Option.map_eq_some_iff.mp hr
  obtain ⟨rfl, rfl⟩ := Prod.mk.inj he
  refine ⟨⟨hst.alloc s va perm k r' hs.1 hk, fun p hp => ?_⟩, fun h0 => ?_⟩
  · refine (hs.2 p hp).imp_left (fun hm => ?_)
    dsimp only
    split
    · exact List.mem_cons_of_mem va hm
    · exact hm
  · dsimp only at h0 ⊢
    rw [if_pos h0]
    exact List.mem_cons_self

theorem pageFlags_any {J : Loader σ → Prop} {hdr vaddr va : ℕ} (h : P (.read (hdr + pFlags) 4)) :
    Triple J P (pageFlags K hdr vaddr va) (fun _ => J) := by
  unfold pageFlags
  by_cases hle : vaddr ≤ va
  · rw [if_pos hle]
    exact readField_any h
  · rw [if_neg hle]
    exact Triple.ret (fun _ h => h)

theorem Steady.mapPage (hst : Steady K I file n present P) {hdr va : ℕ} (hn : hdr + 24 ≤ n)
    (hread : ∀ off len, off + len ≤ 24 → P (.read (hdr + off) len)) :
    Triple (During σ I present S) P (mapPage K hdr va)
      (fun _ => During σ I present (fun p => S p ∨ p = va)) := by
  have hold {s : Loader σ} (hs : During σ I present S s) (hva : va ∈ s.mine ∨ present va) :
      During σ I present (fun p => S p ∨ p = va) s := by
    refine ⟨hs.1, fun p hp => ?_⟩
    rcases hp with hp | rfl
    · exact hs.2 p hp
    · exact hva
  apply Triple.bind (hst.isMapped va)
  intro b
  cases b with
  | true => exact Triple.ret (fun s hs => hold hs.1 (hs.2 rfl))
  | false =>
    apply Triple.weaken (I := During σ I present S) (Q := _) ?_ (fun s hs => hs.1) (fun _ _ h => h)
    apply Triple.bind_eq (During.reads hst (by unfold pVaddr; omega) (hread pVaddr 8 (by decide)))
    apply Triple.bind (pageFlags_any (hread pFlags 4 (by decide)))
    intro flags
    apply Triple.bind (hst.allocMap va _)
    intro r
    by_cases hr : r ≠ 0
    · rw [if_pos hr]
      exact Triple.stop
    · -- the only way on is a page that the call owns now
      rw [if_neg hr]
      exact Triple.ret (fun s hs => hold hs.1 (Or.inl (hs.2 (not_not.mp hr))))

theorem Steady.mapFrom (hst : Steady K I file n present P) {hdr : ℕ} (hn : hdr + 24 ≤ n)
    (hread : ∀ off len, off + len ≤ 24 → P (.read (hdr + off) len)) (m : ℕ) : ∀ va S,
    Triple (During σ I present S) P (mapFrom K hdr va m)
      (fun _ => During σ I present (fun p => S p ∨ ∃ k, k < m ∧ p = va + 4096*k)) := by
  induction m with
  | zero =>
    intro va S
    refine Triple.ret (fun s hs => ⟨hs.1, hs.2.mono (fun p hp => ?_)⟩)
    exact hp.resolve_right (fun ⟨k, hk, _⟩ => absurd hk (Nat.not_lt_zero k))
  | succ m ih =>
    intro va S
    apply Triple.bind (hst.mapPage hn hread)
    intro _
    apply (ih (va + 4096) (fun p => S p ∨ p = va)).weaken (fun _ h => h)
    intro _ s hs
    refine ⟨hs.1, hs.2.mono (fun p hp => ?_)⟩
    rcases hp with hp | ⟨k, hk, rfl⟩
    · exact Or.inl (Or.inl hp)
    · cases k with
      | zero => exact Or.inl (Or.inr rfl)
      | succ k => exact Or.inr ⟨k, by omega, by ring⟩

/-! ### The passes -/

/-- The body of the second pass, for the header `i`. -/
theorem Steady.loadSegment (hst : Steady K I file n present P) (htab : TableBelow file n) {i : ℕ}
    (hP : ∀ e, May file fileSize present e → P e) (hp : Placed file fileSize) (hi : Loads file i) :
    Triple (During σ I present (PagesBefore file i)) P (loadSegment K (hdrOf file i))
      (fun _ => During σ I present (PagesBefore file (i+1))) := by
  have hn : hdrOf file i + 48 ≤ n := htab.fields i hi
  have hread (off len : ℕ) (h : off + len ≤ 48) : P (.read (hdrOf file i + off) len) :=
    hP _ (.field hp.accepted hi h)
  have hfield (S : ℕ → Prop) (off : ℕ) (h : off + 8 ≤ 48) :
      Triple (During σ I present S) P (readField K (hdrOf file i + off) 8)
        (fun v s => v = load file (hdrOf file i + off) 8 ∧ During σ I present S s) :=
    During.reads hst (by omega) (hread off 8 h)
  have hstore (k : ℕ) (hk : k < fileszOf file i ∨ k < memszOf file i) (mine : Bool)
      (hm : mine = false → PagesBefore file (i+1) ((vaddrOf file i + k) % 2^64 / 4096 * 4096) →
        present ((vaddrOf file i + k) % 2^64 / 4096 * 4096)) :
      P (.store ((vaddrOf file i + k) % 2^64) mine) := hP _ (.store hp hi hk hm)
  unfold SukiOS.loadSegment
  apply Triple.bind_eq (hfield _ pVaddr (by decide))
  apply Triple.bind_eq (hfield _ pMemsz (by decide))
  have hmap := hst.mapFrom (S := PagesBefore file i) (by omega)
    (fun off len h => hread off len (by omega))
    ((segEnd (vaddrOf file i) (memszOf file i) - segStart (vaddrOf file i)) / 4096)
    (segStart (vaddrOf file i))
  apply Triple.bind (Q := fun _ => During σ I present (PagesBefore file (i+1)))
  · apply hmap.weaken (fun _ h => h)
    intro _ s hs
    refine ⟨hs.1, hs.2.mono (fun p hp => ?_)⟩
    obtain ⟨j, hj, hl, k, hk, rfl⟩ := hp
    by_cases hji : j = i
    · rw [hji] at hk ⊢
      exact Or.inr ⟨k, hk, rfl⟩
    · exact Or.inl ⟨j, by omega, hl, k, hk, rfl⟩
  intro _
  apply Triple.bind_eq (hfield _ pVaddr (by decide))
  apply Triple.bind_eq (hfield _ pFilesz (by decide))
  apply Triple.bind_eq (hfield _ pOffset (by decide))
  -- the bytes of the file, then the zeros behind them
  apply Triple.bind (hst.copyFrom _ 0 _ ?_)
  · intro _
    apply Triple.bind_eq (hfield _ pMemsz (by decide))
    apply Triple.bind_eq (hfield _ pFilesz (by decide))
    by_cases hbss : load file (hdrOf file i + pFilesz) 8 < load file (hdrOf file i + pMemsz) 8
    · rw [if_pos hbss]
      apply Triple.bind_eq (hfield _ pVaddr (by decide))
      apply hst.zeroFrom
      intro k _ hk mine hm
      rw [chunk_addr] at hm ⊢
      refine hstore _ (Or.inr ?_) mine hm
      change fileszOf file i + k < memszOf file i
      change fileszOf file i < memszOf file i at hbss
      change k < 0 + (memszOf file i - fileszOf file i) at hk
      omega
    · rw [if_neg hbss]
      exact Triple.ret (fun _ h => h)
  · intro k _ hk
    rw [Nat.zero_add] at hk
    exact ⟨hP _ (.copy hp hi hk), hstore k (Or.inl hk)⟩

theorem Steady.loadFrom (hst : Steady K I file n present P) (htab : TableBelow file n)
    (hP : ∀ e, May file fileSize present e → P e) (hp : Placed file fileSize) (m : ℕ) : ∀ i,
    Triple (During σ I present (PagesBefore file i)) P (loadFrom K (phoffOf file) i m)
      (fun _ => I) := by
  -- on the headers; the pages of the ones before are mapped
  have hphnum : P (.read ePhnum 2) := hP _ (.header hp.accepted.size (by decide))
  have hn : ePhnum + 2 ≤ n := le_trans (by decide) htab.header
  induction m with
  | zero => exact fun _ => Triple.ret (fun _ h => h.1)
  | succ m ih =>
    intro i
    unfold SukiOS.loadFrom
    apply Triple.bind_eq (During.reads hst hn hphnum)
    by_cases hi : i < load file ePhnum 2
    · rw [if_pos hi]
      apply Triple.bind_eq (During.reads hst (htab.type i hi) (hP _ (.type hp.accepted hi)))
      by_cases ht : load file (hdrOf file i + pType) 4 = ptLoad
      · rw [if_pos ht]
        apply Triple.bind (hst.loadSegment htab hP hp ⟨hi, ht⟩)
        exact fun _ => ih (i+1)
      · rw [if_neg ht]
        apply (ih (i+1)).weaken ?_ (fun _ _ h => h)
        intro s hs
        refine ⟨hs.1, hs.2.mono (fun p hp => ?_)⟩
        obtain ⟨j, hj, hl, hpage⟩ := hp
        have hji : j ≠ i := by
          rintro rfl
          exact ht hl.2
        exact ⟨j, by omega, hl, hpage⟩
    · rw [if_neg hi]
      exact Triple.ret (fun _ h => h.1)

/-- The first pass finds a lowest address only in a segment to load. -/
theorem Steady.spanFrom (hst : Steady K I file n present P) (htab : TableBelow file n)
    (hP : ∀ e, May file fileSize present e → P e) (ha : Accepted file fileSize) (m : ℕ) :
    ∀ i base maxAddr, (base ≠ uint64Max → ∃ j, Loads file j ∧ vaddrOf file j < uint64Max) →
      base ≤ uint64Max →
      Triple I P (spanFrom K (phoffOf file) i base maxAddr m)
        (fun r s => (r.1 ≠ uint64Max → ∃ j, Loads file j ∧ vaddrOf file j < uint64Max) ∧ I s) := by
  have hphnum : P (.read ePhnum 2) := hP _ (.header ha.size (by decide))
  have hn : ePhnum + 2 ≤ n := le_trans (by decide) htab.header
  have hI : ∀ s, I s → I s := fun _ h => h
  induction m with
  | zero => exact fun _ _ _ hb _ => Triple.ret (fun _ h => ⟨hb, h⟩)
  | succ m ih =>
    intro i base maxAddr hb hle
    unfold SukiOS.spanFrom
    apply Triple.bind_eq (hst.field hI hn hphnum)
    by_cases hi : i < load file ePhnum 2
    · rw [if_pos hi]
      apply Triple.bind_eq (hst.field hI (htab.type i hi) (hP _ (.type ha hi)))
      by_cases ht : load file (hdrOf file i + pType) 4 = ptLoad
      · have hl : Loads file i := ⟨hi, ht⟩
        have hfields := htab.fields i hl
        rw [if_pos ht]
        apply Triple.bind_eq (hst.field hI (le_trans (by unfold pVaddr pMemsz; omega) hfields)
          (hP _ (.field ha hl (by decide))))
        apply Triple.bind_eq (hst.field hI hfields (hP _ (.field ha hl (by decide))))
        change Triple I P (SukiOS.spanFrom K (phoffOf file) (i+1)
          (if vaddrOf file i < base then vaddrOf file i else base) _ m) _
        by_cases hlt : vaddrOf file i < base
        · rw [if_pos hlt]
          exact ih _ _ _ (fun _ => ⟨i, hl, lt_of_lt_of_le hlt hle⟩) (hlt.le.trans hle)
        · rw [if_neg hlt]
          exact ih _ _ _ hb hle
      · rw [if_neg ht]
        exact ih _ _ _ hb hle
    · rw [if_neg hi]
      exact Triple.ret (fun _ h => ⟨hb, h⟩)

theorem Steady.expect (hst : Steady K I file n present P) {off len want : ℕ} {text : String}
    (hn : off + len ≤ n) (h : P (.read off len)) :
    Triple I P (expect K off len want text) (fun _ s => load file off len = want ∧ I s) := by
  apply Triple.bind_eq (hst.field (fun _ h => h) hn h)
  by_cases hv : load file off len ≠ want
  · rw [if_pos hv]
    exact Triple.stop
  · rw [if_neg hv]
    exact Triple.ret (fun _ h => ⟨not_not.mp hv, h⟩)

theorem Steady.checkHeader (hst : Steady K I file n present P) (hn : sizeofEhdr ≤ n)
    (hread : ∀ off len, off + len ≤ sizeofEhdr → P (.read off len)) :
    Triple I P (checkHeader K) (fun _ s => HeaderOk file ∧ I s) := by
  have hone (off len want : ℕ) (text : String) (h : off + len ≤ sizeofEhdr) :
      Triple I P (SukiOS.expect K off len want text) (fun _ s => load file off len = want ∧ I s) :=
    hst.expect (h.trans hn) (hread off len h)
  apply Triple.bind_and (hone 0 1 0x7F _ (by decide))
  intro _ h0
  apply Triple.bind_and (hone 1 1 0x45 _ (by decide))
  intro _ h1
  apply Triple.bind_and (hone 2 1 0x4C _ (by decide))
  intro _ h2
  apply Triple.bind_and (hone 3 1 0x46 _ (by decide))
  intro _ h3
  apply Triple.bind_and (hone 4 1 2 _ (by decide))
  intro _ h4
  exact (hone eMachine 2 62 _ (by decide)).weaken (fun _ h => h)
    (fun _ _ h => ⟨⟨h0, h1, h2, h3, h4, h.1⟩, h.2⟩)

theorem Steady.checkTable (hst : Steady K I file n present P) (hn : sizeofEhdr ≤ n)
    (hread : ∀ off len, off + len ≤ sizeofEhdr → P (.read off len))
    (hsum : P (.sum (tableEnd file) (checkedEnd file))) : Triple I P (checkTable K fileSize)
      (fun v s => (v = phoffOf file ∧ checkedEnd file ≤ fileSize) ∧ I s) := by
  have hone (off len : ℕ) (h : off + len ≤ sizeofEhdr) :
      Triple I P (readField K off len) (fun v s => v = load file off len ∧ I s) :=
    hst.field (fun _ h => h) (h.trans hn) (hread off len h)
  apply Triple.bind_eq (hone ePhoff 8 (by decide))
  apply Triple.bind_eq (hone ePhentsize 2 (by decide))
  apply Triple.bind_eq (hone ePhnum 2 (by decide))
  apply Triple.bind (Triple.emit hsum)
  intro _
  by_cases h : fileSize < checkedEnd file
  · unfold checkedEnd phoffOf phentsizeOf phnumOf at h
    rw [if_pos h]
    exact Triple.stop
  · have h' := h
    unfold checkedEnd phoffOf phentsizeOf phnumOf at h'
    rw [if_neg h']
    exact Triple.ret (fun _ hs => ⟨⟨rfl, not_lt.mp h⟩, hs⟩)

/-- Every event of `elf64_load` is one of those that the file allows. -/
theorem Steady.elf64Load (hst : Steady K I file n present P)
    (hP : ∀ e, May file fileSize present e → P e) (hn : sizeofEhdr ≤ fileSize → sizeofEhdr ≤ n)
    (htab : Accepted file fileSize → TableBelow file n) {s : Loader σ} (hs : I s) :
    ∀ e ∈ (elf64Load K fileSize s).trace, P e := by
  suffices h : Triple I P (SukiOS.elf64Load K fileSize) (fun _ _ => True) from (h s hs).1
  unfold SukiOS.elf64Load
  by_cases hsize : fileSize < sizeofEhdr
  · rw [if_pos hsize]
    exact Triple.stop
  rw [if_neg hsize]
  -- from here on the ELF header lies in the file
  have h64 := not_lt.mp hsize
  have hread (off len : ℕ) (h : off + len ≤ sizeofEhdr) : P (.read off len) := hP _ (.header h64 h)
  apply Triple.bind_and (hst.checkHeader (hn h64) hread)
  intro _ hok
  have htable : Triple I P (SukiOS.checkTable K fileSize)
      (fun v s => (v = phoffOf file ∧ checkedEnd file ≤ fileSize) ∧ I s) :=
    hst.checkTable (hn h64) hread (hP _ (.sum h64 hok))
  apply Triple.bind_and htable
  rintro phoff ⟨rfl, hend⟩
  have ha : Accepted file fileSize := ⟨h64, hok, hend⟩
  have hspan := hst.spanFrom (htab ha) hP ha maxHeaders 0 uint64Max 0 (fun h => absurd rfl h) le_rfl
  apply Triple.bind_and hspan
  intro span hspan
  by_cases hbase : span.1 = uint64Max
  · rw [if_pos hbase]
    exact Triple.stop
  rw [if_neg hbase]
  have hload := hst.loadFrom (htab ha) hP ⟨ha, hspan hbase⟩ maxHeaders 0
  apply Triple.bind (hload.weaken (fun s hs => ⟨hs, ?_⟩) (fun _ _ h => h))
  · intro _
    apply Triple.bind (readField_any (hread eEntry 8 (by decide)))
    exact fun _ => Triple.ret (fun _ _ => trivial)
  · rintro p ⟨j, hj, -⟩
    exact absurd hj (Nat.not_lt_zero j)

end Triples

end SukiOS

import SukiOS.ElfExact
import SukiOS.PageRights

/-! The rights that `elf64_load` gives to the pages of its segments. The first segment whose loop
comes to an unmapped page decides, and the tables above the page are as they were, or closed. -/
namespace SukiOS
open ByteMemory Traced

/-! ### The visits of the loader -/

section Image
variable (file : Mem)

def flagsOf (i : ℕ) : ℕ := load file (hdrOf file i + pFlags) 4

/-- The header `i` is that of a writable segment. -/
def Writable (i : ℕ) : Prop := flagsOf file i &&& pfW ≠ 0

instance (i : ℕ) : Decidable (Writable file i) := inferInstanceAs (Decidable (_ ≠ _))

/-- The rights for the page `p` in the loop of step 4 for the header `i`. -/
def pageRights (i p : ℕ) : Rights := ⟨true, decide (vaddrOf file i ≤ p ∧ Writable file i)⟩

def loopVisits (hdr va m : ℕ) : List (ℕ × Rights) :=
  (List.range m).map (fun k => (va + 4096*k, pageRights file hdr (va + 4096*k)))

/-- The pages of the header `i`, in the order of the loop. -/
def segmentVisits (i : ℕ) : List (ℕ × Rights) :=
  loopVisits file i (segStart (vaddrOf file i))
    ((segEnd (vaddrOf file i) (memszOf file i) - segStart (vaddrOf file i)) / 4096)

/-- The visits for the headers before `i`. -/
def visitsBefore : ℕ → List (ℕ × Rights)
  | 0 => []
  | i+1 => visitsBefore i ++ if Loads file i then segmentVisits file i else []

/-- The pages that the load pass comes to, in order. -/
def visits : List (ℕ × Rights) := visitsBefore file (phnumOf file)

/-- An offset in the file that the loader copies from. -/
def SegmentOffset (off : ℕ) : Prop :=
  ∃ i k, Loads file i ∧ k < fileszOf file i ∧ off = offsetOf file i + k

/-- An address that the loader stores to. -/
def SegmentAddress (a : ℕ) : Prop :=
  ∃ i k, Loads file i ∧ (k < fileszOf file i ∨ k < memszOf file i) ∧ a = (vaddrOf file i + k) % 2^64

end Image

section Visits
variable {file : Mem} {i : ℕ}

/-- The flags of step 4 as rights. -/
theorem rightsOf_flags (p : ℕ) :
    rightsOf (if (if vaddrOf file i ≤ p then flagsOf file i else 0) &&& pfW ≠ 0 then 7 else 5) =
      pageRights file i p := by
  unfold pageRights Writable
  by_cases hle : vaddrOf file i ≤ p
  · rw [if_pos hle]
    by_cases hw : flagsOf file i &&& pfW ≠ 0
    · rw [if_pos hw, decide_eq_true ⟨hle, hw⟩]
      decide
    · rw [if_neg hw, decide_eq_false (fun h => hw h.2)]
      decide
  · rw [if_neg hle, decide_eq_false (fun h => hle h.1), Nat.zero_and]
    decide

theorem loopVisits_succ (hdr va m : ℕ) : loopVisits file hdr va (m+1) =
    (va, pageRights file hdr va) :: loopVisits file hdr (va + 4096) m := by
  unfold loopVisits
  rw [List.range_succ_eq_map, List.map_cons, List.map_map]
  congr 1
  apply List.map_congr_left
  intro k _
  simp only [Function.comp_apply]
  rw [show va + 4096*(k+1) = va + 4096 + 4096*k by ring]

theorem visitsBefore_segment (hi : Loads file i) :
    visitsBefore file (i+1) = visitsBefore file i ++ segmentVisits file i := by
  rw [visitsBefore, if_pos hi]

theorem visitsBefore_skip (hi : ¬ Loads file i) : visitsBefore file (i+1) =
    visitsBefore file i := by
  rw [visitsBefore, if_neg hi, List.append_nil]

/-- The visits for one header are among those of the load. -/
theorem segmentVisits_visits (hi : Loads file i) : ∀ x ∈ segmentVisits file i, x ∈ visits file := by
  have hmono (d : ℕ) : ∀ x ∈ segmentVisits file i, x ∈ visitsBefore file (i + 1 + d) := by
    induction d with
    | zero =>
      intro x hx
      rw [Nat.add_zero, visitsBefore_segment hi]
      exact List.mem_append_right _ hx
    | succ d ih => exact fun x hx => List.mem_append_left _ (ih x hx)
  obtain ⟨d, hd⟩ := Nat.exists_eq_add_of_le (show i + 1 ≤ phnumOf file from hi.1)
  unfold visits
  rw [hd]
  exact hmono d

end Visits

/-! ### The machine -/

/-- `I` is an invariant of the machine. The buffer is at `buf` and holds `file` below `n`; a byte of
a segment is read or stored when its page is present in `tables`; for the pages of the segments
`vmm_is_mapped` looks for an entry there, and `vmm_alloc_map` sets one when it succeeds. The stores
to the segments change neither the tables nor the buffer. -/
structure TablesKept {σ : Type} (K : Kernel σ) (I : σ → Prop) (tables : σ → PageTables) (file : Mem)
    (buf n : ℕ) : Prop where
  peek : ∀ s, I s → ∀ o, o < n → K.peek s o = some (file o)
  read : ∀ s o, I s → SegmentOffset file o →
    ((K.peek s o).isSome ↔ ((tables s).rights ((buf + o) % 2^64)).isSome)
  write : ∀ s a b, I s → SegmentAddress file a →
    ((K.store s a b).isSome ↔ ((tables s).rights a).isSome)
  store : ∀ s a b k, I s → SegmentAddress file a → K.store s a b = some k →
    I k ∧ tables k = tables s
  query : ∀ s x, I s → x ∈ visits file → K.vmmIsMapped s x.1 = some ((tables s).mapped x.1)
  alloc : ∀ s x perm, I s → x ∈ visits file → perm &&& vmmPresent ≠ 0 →
    (tables s).mapped x.1 = false → ∃ k r, K.vmmAllocMap s x.1 perm = some (k, r) ∧
      (r = 0 → I k ∧ tables k = (tables s).setPage x.1 (rightsOf perm))

/-- The tables are those of `t`. -/
def WithTables {σ : Type} (I : σ → Prop) (tables : σ → PageTables) (t : PageTables) (s : Loader σ) :
    Prop := I s.kernel ∧ tables s.kernel = t

/-- The page of `a` is present when the segment of the header `i` is copied. -/
def PresentAt (file : Mem) (t : PageTables) (i a : ℕ) : Prop :=
  (t.rights a).isSome ∨ Canonical a ∧ ∃ x ∈ visitsBefore file (i+1), pagePath x.1 = pagePath a

/-- Every byte that the loader copies or clears for the header `i` can be accessed. -/
structure SegmentPresent (file : Mem) (buf : ℕ) (t : PageTables) (i : ℕ) : Prop where
  reads : ∀ k, k < fileszOf file i → PresentAt file t i ((buf + (offsetOf file i + k)) % 2^64)
  stores : ∀ k, k < fileszOf file i ∨ k < memszOf file i →
    PresentAt file t i ((vaddrOf file i + k) % 2^64)

/-- The load makes no access to a page that is not present. -/
def AccessesPresent (file : Mem) (buf : ℕ) (t : PageTables) : Prop :=
  ∀ i, Loads file i → SegmentPresent file buf t i

/-- How a load ends early: the image is rejected, a page is refused, or an access faults. -/
inductive Stopped {σ : Type} (K : Kernel σ) (I : σ → Prop) (file : Mem) (fileSize buf : ℕ)
    (t : PageTables) : LoadEnd → σ → Prop
  | rejected {text : String} {k : σ} (hI : I k) (h : ¬ Placed file fileSize) :
      Stopped K I file fileSize buf t (.error text) k
  | refused {text : String} {s k : σ} {x : ℕ × Rights} {perm : ℕ} {r : ℤ} (hI : I s)
      (hx : x ∈ visits file) (hr : r ≠ 0) (h : K.vmmAllocMap s x.1 perm = some (k, r)) :
      Stopped K I file fileSize buf t (.error text) k
  | fault {k : σ} (hI : I k) (hp : Placed file fileSize) (h : ¬ AccessesPresent file buf t) :
      Stopped K I file fileSize buf t .fault k

section Load
variable {σ : Type} {K : Kernel σ} {I : σ → Prop} {tables : σ → PageTables} {file : Mem}
  {buf n fileSize i : ℕ} {t : PageTables} {E : LoadEnd → Loader σ → Prop}

/-! ### Accesses -/

theorem TablesKept.field (hk : TablesKept K I tables file buf n) {off len : ℕ}
    (hn : off + len ≤ n) :
    Ends (WithTables I tables t) (readField K off len)
      (fun v s => v = load file off len ∧ WithTables I tables t s) E := by
  have hword (s : Loader σ) (hs : WithTables I tables t s) :
      peekWord (K.peek s.kernel) off len = some (load file off len) :=
    peekWord_eq len off (fun o ho => hk.peek s.kernel hs.1 o (by omega))
  apply Ends.bind Ends.emit
  intro _
  apply Ends.attempt
  · intro s v s' hs hv
    rw [hword s hs] at hv
    obtain ⟨rfl, rfl⟩ := Prod.mk.inj (Option.some.inj hv)
    exact ⟨rfl, hs⟩
  · intro s hs hnone
    rw [hword s hs] at hnone
    cases hnone

/-- A byte that may lie outside of the file. -/
theorem TablesKept.readByte (hk : TablesKept K I tables file buf n) {off : ℕ}
    (ho : SegmentOffset file off)
    (hE : ¬ (t.rights ((buf + off) % 2^64)).isSome → ∀ s, WithTables I tables t s → E .fault s) :
    Ends (WithTables I tables t) (readField K off 1)
      (fun _ s => (t.rights ((buf + off) % 2^64)).isSome ∧ WithTables I tables t s) E := by
  have hsome (s : Loader σ) (hs : WithTables I tables t s) :
      (peekWord (K.peek s.kernel) off 1).isSome ↔ (t.rights ((buf + off) % 2^64)).isSome := by
    rw [← hs.2, ← hk.read s.kernel off hs.1 ho]
    unfold peekWord
    cases K.peek s.kernel off <;> rfl
  apply Ends.bind Ends.emit
  intro _
  apply Ends.attempt
  · intro s v s' hs hv
    obtain ⟨w, hw, he⟩ := Option.map_eq_some_iff.mp hv
    obtain ⟨-, rfl⟩ := Prod.mk.inj he
    exact ⟨(hsome s hs).mp (Option.isSome_of_eq_some hw), hs⟩
  · intro s hs hnone
    refine hE (fun hp => ?_) s hs
    have hnot := (hsome s hs).mpr hp
    rw [Option.map_eq_none_iff.mp hnone] at hnot
    cases hnot

theorem TablesKept.storeByte (hk : TablesKept K I tables file buf n) {a : ℕ} {b : Byte}
    (ha : SegmentAddress file a)
    (hE : ¬ (t.rights a).isSome → ∀ s, WithTables I tables t s → E .fault s) :
    Ends (WithTables I tables t) (storeByte K a b)
      (fun _ s => (t.rights a).isSome ∧ WithTables I tables t s) E := by
  intro s hs
  -- the event depends on the state, and no more does
  have hrun : Ends (WithTables I tables t)
      (Run.emit (.store a (s.mine.contains (a / 4096 * 4096))) >>= fun _ =>
        Run.attempt .fault (fun s => (K.store s.kernel a b).map
          (fun k => ((), { s with kernel := k }))) : LoadM σ Unit)
      (fun _ s => (t.rights a).isSome ∧ WithTables I tables t s) E := by
    apply Ends.bind Ends.emit
    intro _
    apply Ends.attempt
    · intro s u s' hs hstore
      obtain ⟨k, hkernel, he⟩ := Option.map_eq_some_iff.mp hstore
      obtain ⟨-, rfl⟩ := Prod.mk.inj he
      have hsome := (hk.write s.kernel a b hs.1 ha).mp (Option.isSome_of_eq_some hkernel)
      rw [hs.2] at hsome
      obtain ⟨hI, htables⟩ := hk.store s.kernel a b k hs.1 ha hkernel
      exact ⟨hsome, hI, htables.trans hs.2⟩
    · intro s hs hnone
      refine hE (fun hp => ?_) s hs
      rw [← hs.2, ← hk.write s.kernel a b hs.1 ha, Option.map_eq_none_iff.mp hnone] at hp
      cases hp
  exact hrun s hs

/-- The byte `k` can be read at one end and stored at the other. -/
def CopyPresent (t : PageTables) (src dst k : ℕ) : Prop :=
  (t.rights ((src + k) % 2^64)).isSome ∧ (t.rights ((dst + k) % 2^64)).isSome

theorem TablesKept.copyChunk (hk : TablesKept K I tables file buf n) {dst src : ℕ} (m : ℕ) : ∀ j,
    (∀ k, j ≤ k → k < j + m → SegmentOffset file (src + k) ∧
      SegmentAddress file ((dst + k) % 2^64) ∧
      (¬ CopyPresent t (buf + src) dst k → ∀ s, WithTables I tables t s → E .fault s)) →
    Ends (WithTables I tables t) (copyChunk K dst src j m)
      (fun _ s => (∀ k, j ≤ k → k < j + m → CopyPresent t (buf + src) dst k) ∧
        WithTables I tables t s) E := by
  induction m with
  | zero =>
    intro j _
    exact Ends.ret (fun s hs => ⟨fun k h1 h2 => absurd h2 (not_lt.mpr h1), hs⟩)
  | succ m ih =>
    intro j h
    obtain ⟨hoff, haddr, hE⟩ := h j le_rfl (by omega)
    unfold CopyPresent at hE
    rw [Nat.add_assoc] at hE
    apply Ends.bind_and (hk.readByte hoff (fun hn => hE (fun hp => hn hp.1)))
    intro b hread
    apply Ends.bind_and (hk.storeByte haddr (fun hn => hE (fun hp => hn hp.2)))
    intro _ hstore
    apply (ih (j+1) (fun k h1 h2 => h k (by omega) (by omega))).weaken (fun _ hs => hs) ?_
      (fun _ _ he => he)
    intro _ s hs
    refine ⟨fun k h1 h2 => ?_, hs.2⟩
    by_cases hkj : k = j
    · rw [hkj]
      unfold CopyPresent
      rw [Nat.add_assoc]
      exact ⟨hread, hstore⟩
    · exact hs.1 k (by omega) (by omega)

theorem TablesKept.copyFrom (hk : TablesKept K I tables file buf n) {va src : ℕ} (m : ℕ) :
    ∀ offset left, left ≤ m →
    (∀ k, offset ≤ k → k < offset + left → SegmentOffset file (src + k) ∧
      SegmentAddress file ((va + k) % 2^64) ∧
      (¬ CopyPresent t (buf + src) va k → ∀ s, WithTables I tables t s → E .fault s)) →
    Ends (WithTables I tables t) (copyFrom K va src offset left m)
      (fun _ s => (∀ k, offset ≤ k → k < offset + left → CopyPresent t (buf + src) va k) ∧
        WithTables I tables t s) E := by
  -- on the turns of the loop; every chunk has a byte
  induction m with
  | zero =>
    intro offset left hm _
    exact Ends.ret (fun s hs => ⟨fun k h1 h2 => by omega, hs⟩)
  | succ m ih =>
    intro offset left hm h
    unfold SukiOS.copyFrom
    by_cases h0 : left = 0
    · rw [if_pos h0]
      exact Ends.ret (fun s hs => ⟨fun k h1 h2 => by omega, hs⟩)
    rw [if_neg h0]
    have hle := chunkSize_le va offset left
    have hpos : 0 < chunkSize va offset left := chunkSize_pos h0
    generalize chunkSize va offset left = c at hle hpos ⊢
    have hbyte (k : ℕ) : CopyPresent t (buf + (src + offset)) ((va + offset) % 2^64) k ↔
        CopyPresent t (buf + src) va (offset + k) := by
      unfold CopyPresent
      rw [chunk_addr, ← Nat.add_assoc buf src offset, Nat.add_assoc (buf + src)]
    have hchunk : Ends (WithTables I tables t)
        (SukiOS.copyChunk K ((va + offset) % 2^64) (src + offset) 0 c) _ E :=
      hk.copyChunk c 0 (fun k _ hkc => by
        rw [chunk_addr, hbyte, Nat.add_assoc]
        exact h (offset + k) (by omega) (by omega))
    apply Ends.bind_and hchunk
    intro _ hcopied
    have hrest := ih (offset + c) (left - c) (by omega) (fun k h1 h2 => h k (by omega) (by omega))
    apply hrest.weaken (fun _ hs => hs) ?_ (fun _ _ he => he)
    intro _ s hs
    refine ⟨fun k h1 h2 => ?_, hs.2⟩
    by_cases hkc : k < offset + c
    · have hk' := (hbyte (k - offset)).mp (hcopied (k - offset) (Nat.zero_le _) (by omega))
      rwa [Nat.add_sub_cancel' h1] at hk'
    · exact hs.1 k (by omega) (by omega)

theorem TablesKept.zeroFrom (hk : TablesKept K I tables file buf n) {bss : ℕ} (m : ℕ) : ∀ j,
    (∀ k, j ≤ k → k < j + m → SegmentAddress file ((bss + k) % 2^64) ∧
      (¬ (t.rights ((bss + k) % 2^64)).isSome → ∀ s, WithTables I tables t s → E .fault s)) →
    Ends (WithTables I tables t) (zeroFrom K bss j m)
      (fun _ s => (∀ k, j ≤ k → k < j + m → (t.rights ((bss + k) % 2^64)).isSome) ∧
        WithTables I tables t s) E := by
  induction m with
  | zero =>
    intro j _
    exact Ends.ret (fun s hs => ⟨fun k h1 h2 => absurd h2 (not_lt.mpr h1), hs⟩)
  | succ m ih =>
    intro j h
    obtain ⟨haddr, hE⟩ := h j le_rfl (by omega)
    apply Ends.bind_and (hk.storeByte haddr hE)
    intro _ hstore
    apply (ih (j+1) (fun k h1 h2 => h k (by omega) (by omega))).weaken (fun _ hs => hs) ?_
      (fun _ _ he => he)
    intro _ s hs
    refine ⟨fun k h1 h2 => ?_, hs.2⟩
    by_cases hkj : k = j
    · rw [hkj]
      exact hstore
    · exact hs.1 k (by omega) (by omega)

/-! ### Mapping -/

/-- A page is refused to the load. -/
def Refused (K : Kernel σ) (I : σ → Prop) (file : Mem) (E : LoadEnd → Loader σ → Prop) : Prop :=
  ∀ text s k x perm r, I s → x ∈ visits file → r ≠ 0 → K.vmmAllocMap s x.1 perm = some (k, r) →
    ∀ s' : Loader σ, s'.kernel = k → E (.error text) s'

theorem TablesKept.isMapped (hk : TablesKept K I tables file buf n) {x : ℕ × Rights}
    (hx : x ∈ visits file) :
    Ends (WithTables I tables t) (isMapped K x.1)
      (fun b s => b = t.mapped x.1 ∧ WithTables I tables t s) E := by
  apply Ends.attempt
  · intro s b s' hs hb
    rw [hk.query s.kernel x hs.1 hx] at hb
    obtain ⟨rfl, rfl⟩ := Prod.mk.inj (Option.some.inj hb)
    exact ⟨by rw [hs.2], hs⟩
  · intro s hs hnone
    rw [hk.query s.kernel x hs.1 hx] at hnone
    cases hnone

theorem TablesKept.pageFlags (hk : TablesKept K I tables file buf n) {hdr vaddr va : ℕ}
    (hn : hdr + pFlags + 4 ≤ n) :
    Ends (WithTables I tables t) (pageFlags K hdr vaddr va)
      (fun v s => v = (if vaddr ≤ va then load file (hdr + pFlags) 4 else 0) ∧
        WithTables I tables t s) E := by
  unfold SukiOS.pageFlags
  by_cases hle : vaddr ≤ va
  · rw [if_pos hle, if_pos hle]
    exact hk.field hn
  · rw [if_neg hle, if_neg hle]
    exact Ends.ret (fun _ hs => ⟨rfl, hs⟩)

/-- `vmm_alloc_map` for a page of the image, and what comes of its result. -/
theorem TablesKept.allocMap (hk : TablesKept K I tables file buf n) (hE : Refused K I file E)
    {x : ℕ × Rights} (hx : x ∈ visits file) {perm : ℕ} (hperm : perm &&& vmmPresent ≠ 0)
    (hp : t.mapped x.1 = false) :
    Ends (WithTables I tables t)
      (allocMap K x.1 perm >>= fun r =>
        if r ≠ 0 then Run.stop (.error "Failed to map page") else pure () : LoadM σ Unit)
      (fun _ => WithTables I tables (t.setPage x.1 (rightsOf perm))) E := by
  apply Ends.bind (Q := fun r s => (r = 0 → WithTables I tables (t.setPage x.1 (rightsOf perm)) s) ∧
    (r ≠ 0 → ∀ text, E (.error text) s))
  · apply Ends.attempt
    · intro s r s' hs hr
      rw [← hs.2] at hp ⊢
      obtain ⟨k, r', halloc, hset⟩ := hk.alloc s.kernel x perm hs.1 hx hperm hp
      rw [halloc] at hr
      obtain ⟨rfl, rfl⟩ := Prod.mk.inj (Option.some.inj hr)
      exact ⟨hset, fun h0 text => hE text _ _ x perm r' hs.1 hx h0 halloc _ rfl⟩
    · intro s hs hnone
      rw [← hs.2] at hp
      obtain ⟨k, r', halloc, -⟩ := hk.alloc s.kernel x perm hs.1 hx hperm hp
      rw [halloc] at hnone
      cases hnone
  · intro r
    by_cases hr : r ≠ 0
    · rw [if_pos hr]
      exact Ends.stop (fun s hs => hs.2 hr _)
    · rw [if_neg hr]
      exact Ends.ret (fun s hs => hs.1 (not_not.mp hr))

theorem TablesKept.mapPage (hk : TablesKept K I tables file buf n) (hE : Refused K I file E)
    (hn : hdrOf file i + 24 ≤ n) {p : ℕ} (hp : (p, pageRights file i p) ∈ visits file) :
    Ends (WithTables I tables t) (mapPage K (hdrOf file i) p)
      (fun _ => WithTables I tables (t.visit (p, pageRights file i p))) E := by
  apply Ends.bind_and (hk.isMapped hp)
  intro b hb
  unfold PageTables.visit
  rw [← hb]
  cases b with
  | true => exact Ends.ret (fun _ hs => hs)
  | false =>
    apply Ends.bind_eq (hk.field (by unfold pVaddr; omega))
    apply Ends.bind_eq (hk.pageFlags (by unfold pFlags; omega))
    have hperm (c : Prop) [Decidable c] : (if c then 7 else 5) &&& vmmPresent ≠ 0 := by
      by_cases hc : c
      · rw [if_pos hc]
        decide
      · rw [if_neg hc]
        decide
    have halloc := hk.allocMap hE hp
      (hperm ((if vaddrOf file i ≤ p then flagsOf file i else 0) &&& pfW ≠ 0)) hb.symm
    rw [rightsOf_flags] at halloc
    exact halloc

theorem TablesKept.mapFrom (hk : TablesKept K I tables file buf n) (hE : Refused K I file E)
    (hn : hdrOf file i + 24 ≤ n) (m : ℕ) : ∀ va t, (∀ x ∈ loopVisits file i va m, x ∈ visits file) →
    Ends (WithTables I tables t) (mapFrom K (hdrOf file i) va m)
      (fun _ => WithTables I tables ((loopVisits file i va m).foldl PageTables.visit t)) E := by
  induction m with
  | zero => exact fun va t _ => Ends.ret (fun _ hs => hs)
  | succ m ih =>
    intro va t hin
    rw [loopVisits_succ] at hin ⊢
    apply Ends.bind (hk.mapPage hE hn (hin _ List.mem_cons_self))
    intro _
    exact ih (va + 4096) _ (fun x hx => hin x (List.mem_cons_of_mem _ hx))

/-! ### The passes -/

/-- The tables when the segments of the headers before `i` are mapped. -/
def tablesBefore (file : Mem) (t : PageTables) (i : ℕ) : PageTables :=
  (visitsBefore file i).foldl PageTables.visit t

theorem presentAt_iff {a : ℕ} :
    ((tablesBefore file t (i+1)).rights a).isSome ↔ PresentAt file t i a :=
  PageTables.visits_present _ t

/-- What is left to say of an early end in the load pass. -/
structure EndsLoad (K : Kernel σ) (I : σ → Prop) (file : Mem) (buf : ℕ) (t : PageTables)
    (E : LoadEnd → Loader σ → Prop) : Prop where
  refused : Refused K I file E
  fault : ∀ s : Loader σ, I s.kernel → ¬ AccessesPresent file buf t → E .fault s

theorem TablesKept.loadSegment (hk : TablesKept K I tables file buf n)
    (hE : EndsLoad K I file buf t E) (hi : Loads file i) (hn : hdrOf file i + 48 ≤ n) :
    Ends (WithTables I tables (tablesBefore file t i)) (loadSegment K (hdrOf file i))
      (fun _ s => SegmentPresent file buf t i ∧ WithTables I tables (tablesBefore file t (i+1)) s)
      E := by
  have hfield (t : PageTables) (off : ℕ) (h : off + 8 ≤ 48) :
      Ends (WithTables I tables t) (readField K (hdrOf file i + off) 8)
        (fun v s => v = load file (hdrOf file i + off) 8 ∧ WithTables I tables t s) E :=
    hk.field (by omega)
  have hnext : tablesBefore file t (i+1) =
      (segmentVisits file i).foldl PageTables.visit (tablesBefore file t i) := by
    unfold tablesBefore
    rw [visitsBefore_segment hi, List.foldl_append]
  -- a byte that is not there is a fault
  have hfault {C : Prop} (hC : AccessesPresent file buf t → C) (hno : ¬ C) (s : Loader σ)
      (hs : WithTables I tables (tablesBefore file t (i+1)) s) : E .fault s :=
    hE.fault s hs.1 (fun hp => hno (hC hp))
  have hcopy : Ends (WithTables I tables (tablesBefore file t (i+1)))
      (SukiOS.copyFrom K (vaddrOf file i) (offsetOf file i) 0 (fileszOf file i) (fileszOf file i))
      (fun _ s => (∀ k, 0 ≤ k → k < 0 + fileszOf file i → CopyPresent (tablesBefore file t (i+1))
        (buf + offsetOf file i) (vaddrOf file i) k) ∧
          WithTables I tables (tablesBefore file t (i+1)) s) E := by
    apply hk.copyFrom _ _ _ le_rfl
    intro k _ hlt
    rw [Nat.zero_add] at hlt
    refine ⟨⟨i, k, hi, hlt, rfl⟩, ⟨i, k, hi, Or.inl hlt, rfl⟩, hfault (fun hp => ⟨?_, ?_⟩)⟩
    · rw [presentAt_iff, Nat.add_assoc]
      exact (hp i hi).reads k hlt
    · rw [presentAt_iff]
      exact (hp i hi).stores k (Or.inl hlt)
  have hzero : Ends (WithTables I tables (tablesBefore file t (i+1)))
      (SukiOS.zeroFrom K ((vaddrOf file i + fileszOf file i) % 2^64) 0
        (memszOf file i - fileszOf file i))
      (fun _ s => (∀ k, 0 ≤ k → k < 0 + (memszOf file i - fileszOf file i) →
        ((tablesBefore file t (i+1)).rights
          (((vaddrOf file i + fileszOf file i) % 2^64 + k) % 2^64)).isSome) ∧
        WithTables I tables (tablesBefore file t (i+1)) s) E := by
    apply hk.zeroFrom
    intro k _ hlt
    rw [chunk_addr]
    refine ⟨⟨i, _, hi, Or.inr (by omega), rfl⟩, hfault (fun hp => ?_)⟩
    rw [presentAt_iff]
    exact (hp i hi).stores _ (Or.inr (by omega))
  unfold SukiOS.loadSegment
  apply Ends.bind_eq (hfield _ pVaddr (by decide))
  apply Ends.bind_eq (hfield _ pMemsz (by decide))
  apply Ends.bind (hk.mapFrom hE.refused (by omega) _ _ _ (segmentVisits_visits hi))
  intro _
  change Ends (WithTables I tables ((segmentVisits file i).foldl PageTables.visit
    (tablesBefore file t i))) _ _ _
  rw [← hnext]
  apply Ends.bind_eq (hfield _ pVaddr (by decide))
  apply Ends.bind_eq (hfield _ pFilesz (by decide))
  apply Ends.bind_eq (hfield _ pOffset (by decide))
  apply Ends.bind_and hcopy
  intro _ hcopied
  have hbyte (k : ℕ) (hlt : k < fileszOf file i) := hcopied k (Nat.zero_le k) (by omega)
  have hread (k : ℕ) (hlt : k < fileszOf file i) :
      PresentAt file t i ((buf + (offsetOf file i + k)) % 2^64) := by
    rw [← presentAt_iff, ← Nat.add_assoc]
    exact (hbyte k hlt).1
  apply Ends.bind_eq (hfield _ pMemsz (by decide))
  apply Ends.bind_eq (hfield _ pFilesz (by decide))
  change Ends _ (if fileszOf file i < memszOf file i then _ else _) _ _
  by_cases hbss : fileszOf file i < memszOf file i
  · rw [if_pos hbss]
    apply Ends.bind_eq (hfield _ pVaddr (by decide))
    apply hzero.weaken (fun _ hs => hs) ?_ (fun _ _ he => he)
    intro _ s hs
    refine ⟨⟨hread, fun k hlt => ?_⟩, hs.2⟩
    rw [← presentAt_iff]
    by_cases hlow : k < fileszOf file i
    · exact (hbyte k hlow).2
    · have hcleared := hs.1 (k - fileszOf file i) (Nat.zero_le _) (by omega)
      rwa [chunk_addr, Nat.add_sub_cancel' (not_lt.mp hlow)] at hcleared
  · rw [if_neg hbss]
    refine Ends.ret (fun s hs => ⟨⟨hread, fun k hlt => ?_⟩, hs⟩)
    rw [← presentAt_iff]
    exact (hbyte k (by omega)).2

theorem TablesKept.loadFrom (hk : TablesKept K I tables file buf n)
    (hE : EndsLoad K I file buf t E) (htab : TableBelow file n) (m : ℕ) :
    ∀ i, i ≤ phnumOf file → phnumOf file < i + m →
    Ends (WithTables I tables (tablesBefore file t i)) (loadFrom K (phoffOf file) i m)
      (fun _ s => (∀ j, i ≤ j → Loads file j → SegmentPresent file buf t j) ∧
        WithTables I tables ((visits file).foldl PageTables.visit t) s) E := by
  have hphnum : ePhnum + 2 ≤ n := le_trans (by decide) htab.header
  -- on the headers; the visits for those before `i` were made
  induction m with
  | zero =>
    intro i hle hm
    omega
  | succ m ih =>
    intro i hle hm
    unfold SukiOS.loadFrom
    apply Ends.bind_eq (hk.field hphnum)
    by_cases hi : i < phnumOf file
    · rw [if_pos (show i < load file ePhnum 2 from hi)]
      apply Ends.bind_eq (hk.field (htab.type i hi))
      have hnext := ih (i+1) hi (by omega)
      by_cases ht : load file (hdrOf file i + pType) 4 = ptLoad
      · have hl : Loads file i := ⟨hi, ht⟩
        rw [if_pos ht]
        apply Ends.bind_and (hk.loadSegment hE hl (htab.fields i hl))
        intro _ hseg
        apply hnext.weaken (fun _ hs => hs) ?_ (fun _ _ he => he)
        intro _ s hs
        refine ⟨fun j hij hj => ?_, hs.2⟩
        by_cases hji : j = i
        · rw [hji]
          exact hseg
        · exact hs.1 j (by omega) hj
      · have hskip : ¬ Loads file i := fun hl => ht hl.2
        unfold tablesBefore at hnext ⊢
        rw [visitsBefore_skip hskip] at hnext
        rw [if_neg ht]
        apply hnext.weaken (fun _ hs => hs) ?_ (fun _ _ he => he)
        intro _ s hs
        refine ⟨fun j hij hj => hs.1 j ?_ hj, hs.2⟩
        have hne : j ≠ i := fun h => hskip (h ▸ hj)
        omega
    · have hlast : i = phnumOf file := by omega
      rw [if_neg (show ¬ i < load file ePhnum 2 from hi)]
      apply Ends.ret
      intro s hs
      rw [hlast] at hs
      refine ⟨fun j hij hj => ?_, hs⟩
      have hlt : j < phnumOf file := hj.1
      omega

/-! ### The checks -/

theorem TablesKept.expect (hk : TablesKept K I tables file buf n) {off len want : ℕ} {text : String}
    (hn : off + len ≤ n)
    (hE : load file off len ≠ want → ∀ s, WithTables I tables t s → E (.error text) s) :
    Ends (WithTables I tables t) (expect K off len want text)
      (fun _ s => load file off len = want ∧ WithTables I tables t s) E := by
  apply Ends.bind_eq (hk.field hn)
  by_cases hv : load file off len ≠ want
  · rw [if_pos hv]
    exact Ends.stop (hE hv)
  · rw [if_neg hv]
    exact Ends.ret (fun _ hs => ⟨not_not.mp hv, hs⟩)

theorem TablesKept.checkHeader (hk : TablesKept K I tables file buf n) (hn : sizeofEhdr ≤ n)
    (hE : ¬ HeaderOk file → ∀ text s, WithTables I tables t s → E (.error text) s) :
    Ends (WithTables I tables t) (checkHeader K)
      (fun _ s => HeaderOk file ∧ WithTables I tables t s) E := by
  have hone (off len want : ℕ) (text : String) (h : off + len ≤ sizeofEhdr)
      (hok : HeaderOk file → load file off len = want) :
      Ends (WithTables I tables t) (SukiOS.expect K off len want text)
        (fun _ s => load file off len = want ∧ WithTables I tables t s) E :=
    hk.expect (h.trans hn) (fun hne => hE (fun h => hne (hok h)) text)
  apply Ends.bind_and (hone 0 1 0x7F _ (by decide) HeaderOk.mag0)
  intro _ h0
  apply Ends.bind_and (hone 1 1 0x45 _ (by decide) HeaderOk.mag1)
  intro _ h1
  apply Ends.bind_and (hone 2 1 0x4C _ (by decide) HeaderOk.mag2)
  intro _ h2
  apply Ends.bind_and (hone 3 1 0x46 _ (by decide) HeaderOk.mag3)
  intro _ h3
  apply Ends.bind_and (hone 4 1 2 _ (by decide) HeaderOk.cls)
  intro _ h4
  exact (hone eMachine 2 62 _ (by decide) HeaderOk.machine).weaken (fun _ h => h)
    (fun _ _ h => ⟨⟨h0, h1, h2, h3, h4, h.1⟩, h.2⟩) (fun _ _ h => h)

theorem TablesKept.checkTable (hk : TablesKept K I tables file buf n) (hn : sizeofEhdr ≤ n)
    (hE : ¬ checkedEnd file ≤ fileSize → ∀ text s, WithTables I tables t s → E (.error text) s) :
    Ends (WithTables I tables t) (checkTable K fileSize)
      (fun v s => (v = phoffOf file ∧ checkedEnd file ≤ fileSize) ∧ WithTables I tables t s) E := by
  have hone (off len : ℕ) (h : off + len ≤ sizeofEhdr) :
      Ends (WithTables I tables t) (readField K off len)
        (fun v s => v = load file off len ∧ WithTables I tables t s) E := hk.field (h.trans hn)
  apply Ends.bind_eq (hone ePhoff 8 (by decide))
  apply Ends.bind_eq (hone ePhentsize 2 (by decide))
  apply Ends.bind_eq (hone ePhnum 2 (by decide))
  apply Ends.bind Ends.emit
  intro _
  change Ends _ (if fileSize < checkedEnd file then _ else _) _ _
  by_cases h : fileSize < checkedEnd file
  · rw [if_pos h]
    exact Ends.stop (hE (not_le.mpr h) _)
  · rw [if_neg h]
    exact Ends.ret (fun _ hs => ⟨⟨rfl, not_lt.mp h⟩, hs⟩)

/-- The first pass finds a lowest address exactly when there is a segment to load. -/
theorem TablesKept.spanFrom (hk : TablesKept K I tables file buf n) (htab : TableBelow file n)
    (m : ℕ) : ∀ i base maxAddr, base ≤ uint64Max → phnumOf file < i + m →
    Ends (WithTables I tables t) (spanFrom K (phoffOf file) i base maxAddr m)
      (fun r s => (r.1 ≠ uint64Max ↔
        base ≠ uint64Max ∨ ∃ j, i ≤ j ∧ Loads file j ∧ vaddrOf file j < uint64Max) ∧
          WithTables I tables t s) E := by
  have hphnum : ePhnum + 2 ≤ n := le_trans (by decide) htab.header
  induction m with
  | zero =>
    intro i base maxAddr _ hm
    refine Ends.ret (fun s hs => ⟨(or_iff_left ?_).symm, hs⟩)
    intro h
    obtain ⟨j, hij, hj, -⟩ := h
    have hlt : j < phnumOf file := hj.1
    omega
  | succ m ih =>
    intro i base maxAddr hle hm
    have hlater (h : ¬ Loads file i) : (∃ j, i ≤ j ∧ Loads file j ∧ vaddrOf file j < uint64Max) ↔
        ∃ j, i + 1 ≤ j ∧ Loads file j ∧ vaddrOf file j < uint64Max := by
      apply exists_congr
      intro j
      constructor
      · intro hj
        have hne : j ≠ i := fun hji => h (hji ▸ hj.2.1)
        exact ⟨by omega, hj.2⟩
      · exact fun hj => ⟨by omega, hj.2⟩
    unfold SukiOS.spanFrom
    apply Ends.bind_eq (hk.field hphnum)
    by_cases hi : i < phnumOf file
    · rw [if_pos (show i < load file ePhnum 2 from hi)]
      apply Ends.bind_eq (hk.field (htab.type i hi))
      by_cases ht : load file (hdrOf file i + pType) 4 = ptLoad
      · have hl : Loads file i := ⟨hi, ht⟩
        have hfields := htab.fields i hl
        rw [if_pos ht]
        have hvaddr : hdrOf file i + pVaddr + 8 ≤ n :=
          le_trans (by unfold pVaddr pMemsz; omega) hfields
        apply Ends.bind_eq (hk.field hvaddr)
        apply Ends.bind_eq (hk.field hfields)
        change Ends _ (SukiOS.spanFrom K (phoffOf file) (i+1)
          (if vaddrOf file i < base then vaddrOf file i else base) _ m) _ _
        have hmin : (if vaddrOf file i < base then vaddrOf file i else base) ≤ uint64Max := by
          split_ifs <;> omega
        apply (ih (i+1) _ _ hmin (by omega)).weaken (fun _ hs => hs) ?_ (fun _ _ he => he)
        intro r s hs
        refine ⟨hs.1.trans ?_, hs.2⟩
        -- the segment itself, or a later one
        constructor
        · intro h
          rcases h with h | ⟨j, hij, hj⟩
          · by_cases hlt : vaddrOf file i < base
            · exact Or.inr ⟨i, le_rfl, hl, by omega⟩
            · rw [if_neg hlt] at h
              exact Or.inl h
          · exact Or.inr ⟨j, by omega, hj⟩
        · intro h
          rcases h with h | ⟨j, hij, hj, hlt⟩
          · refine Or.inl ?_
            split_ifs <;> omega
          · by_cases hji : j = i
            · rw [hji] at hlt
              refine Or.inl ?_
              split_ifs <;> omega
            · exact Or.inr ⟨j, by omega, hj, hlt⟩
      · rw [if_neg ht, hlater (fun hl => ht hl.2)]
        exact ih (i+1) _ _ hle (by omega)
    · rw [if_neg (show ¬ i < load file ePhnum 2 from hi)]
      refine Ends.ret (fun s hs => ⟨(or_iff_left ?_).symm, hs⟩)
      intro h
      obtain ⟨j, hij, hj, -⟩ := h
      have hlt : j < phnumOf file := hj.1
      omega

/-! ### The load -/

/-- A load that succeeds has made every access and the visits of the image. -/
theorem TablesKept.elf64Load (hk : TablesKept K I tables file buf (fileSpan file fileSize)) :
    Ends (WithTables I tables t) (elf64Load K fileSize)
      (fun res s => (res.entryPoint = load file eEntry 8 ∧ Placed file fileSize ∧
        AccessesPresent file buf t) ∧ WithTables I tables
          ((visits file).foldl PageTables.visit t) s)
      (fun r s => Stopped K I file fileSize buf t r s.kernel) := by
  -- an image that fails a check is not placed
  have hrejected {C : Prop} (hC : Placed file fileSize → C) (hno : ¬ C) (text : String)
      (s : Loader σ) (hs : WithTables I tables t s) :
      Stopped K I file fileSize buf t (.error text) s.kernel :=
    .rejected hs.1 (fun hp => hno (hC hp))
  unfold SukiOS.elf64Load
  by_cases hsize : fileSize < sizeofEhdr
  · rw [if_pos hsize]
    exact Ends.stop (hrejected (fun hp => hp.accepted.size) (not_le.mpr hsize) _)
  rw [if_neg hsize]
  have h64 : sizeofEhdr ≤ fileSize := not_lt.mp hsize
  have htab : TableBelow file (fileSpan file fileSize) := tableBelow_fileSpan h64
  apply Ends.bind_and (hk.checkHeader htab.header (hrejected (fun hp => hp.accepted.header)))
  intro _ hok
  apply Ends.bind_and (hk.checkTable htab.header (hrejected (fun hp => hp.accepted.table)))
  intro phoff hphoff
  have ha : Accepted file fileSize := ⟨h64, hok, hphoff.2⟩
  rw [hphoff.1]
  have hfuel : phnumOf file < 0 + maxHeaders := by
    rw [Nat.zero_add]
    exact phnumOf_lt file
  apply Ends.bind_and (hk.spanFrom htab maxHeaders 0 uint64Max 0 le_rfl hfuel)
  intro span hspan
  have hsegment : span.1 ≠ uint64Max ↔ ∃ j, Loads file j ∧ vaddrOf file j < uint64Max := by
    simpa using hspan
  by_cases hbase : span.1 = uint64Max
  · rw [if_pos hbase]
    exact Ends.stop (hrejected (fun hp => hsegment.mpr hp.segment) (not_not.mpr hbase) _)
  rw [if_neg hbase]
  have hp : Placed file fileSize := ⟨ha, hsegment.mp hbase⟩
  have hE : EndsLoad K I file buf t (fun r s => Stopped K I file fileSize buf t r s.kernel) := by
    refine ⟨?_, fun s hs hno => .fault hs hp hno⟩
    intro text s k x perm r hs hx hr halloc s' hs'
    rw [hs']
    exact .refused hs hx hr halloc
  apply Ends.bind_and (hk.loadFrom hE htab maxHeaders 0 (Nat.zero_le _) hfuel)
  intro _ hpresent
  have hentry : eEntry + 8 ≤ fileSpan file fileSize := le_trans (by decide) htab.header
  apply Ends.bind_eq (hk.field hentry)
  exact Ends.ret (fun _ hs => ⟨⟨rfl, hp, fun j hj => hpresent j (Nat.zero_le j) hj⟩, hs⟩)

/-- An image whose accesses are all present is loaded when no page is refused. -/
theorem TablesKept.elf64Load_ok (hk : TablesKept K I tables file buf (fileSpan file fileSize))
    (hall : ∀ s x perm k r, x ∈ visits file → K.vmmAllocMap s x.1 perm = some (k, r) → r = 0)
    (hp : Placed file fileSize) {s : Loader σ} (hs : I s.kernel)
    (hpresent : AccessesPresent file buf (tables s.kernel)) :
    ∃ res, (SukiOS.elf64Load K fileSize s).value = .ok res := by
  have hends : Ends (WithTables I tables (tables s.kernel)) (SukiOS.elf64Load K fileSize) _ _ :=
    hk.elf64Load
  cases hvalue : (SukiOS.elf64Load K fileSize s).value with
  | ok res => exact ⟨res, rfl⟩
  | error r =>
    have hstop := (hends s ⟨hs, rfl⟩).2 r hvalue
    generalize (SukiOS.elf64Load K fileSize s).state.kernel = k at hstop
    cases hstop with
    | rejected _ h => exact absurd hp h
    | refused _ hx hr h => exact absurd (hall _ _ _ _ _ hx h) hr
    | fault _ _ h => exact absurd hpresent h

/-! ### Permissions -/

/-- Every byte of a segment lies on a page that is present and that user mode may read, and write
when the segment is writable. -/
def SegmentsOpen (file : Mem) (t : PageTables) : Prop :=
  ∀ i k, Loads file i → k < memszOf file i →
    ∃ r, t.rights ((vaddrOf file i + k) % 2^64) = some r ∧ r.Allows (Writable file i)

/-- What decides about the segments before the load: the entries that are there, and the first visit
to a page. -/
def OpensSegments (file : Mem) (t : PageTables) : Prop :=
  ∀ i k, Loads file i → k < memszOf file i →
    t.Opens (visits file) ((vaddrOf file i + k) % 2^64) (Writable file i)

/-- A load that succeeds gives the segments their rights exactly when for each of their pages every
entry that is there before the load lets them through, and the tables above the page are there. -/
theorem elf_permissions_iff (hk : TablesKept K I tables file buf (fileSpan file fileSize))
    {s : Loader σ} (hs : I s.kernel) {res : ElfLoadResult}
    (hok : (elf64Load K fileSize s).value = .ok res) :
    SegmentsOpen file (tables (elf64Load K fileSize s).state.kernel) ↔
      OpensSegments file (tables s.kernel) := by
  have hends : Ends (WithTables I tables (tables s.kernel)) (SukiOS.elf64Load K fileSize) _ _ :=
    hk.elf64Load
  obtain ⟨-, -, hfinal⟩ := (hends s ⟨hs, rfl⟩).1 res hok
  rw [hfinal]
  unfold SegmentsOpen OpensSegments
  simp only [PageTables.visits_allow]

end Load

/-! ### A machine of page tables -/

structure TableMemory where
  tables : PageTables
  mem : Mem

/-- A machine with frames for every table and page; the buffer is read-only. -/
def tableMachine (file : Mem) (buf : ℕ) : Kernel TableMemory where
  peek s o := if (s.tables.rights ((buf + o) % 2^64)).isSome then some (file o) else none
  store s a b := if (s.tables.rights a).isSome then
    some { s with mem := Function.update s.mem a b } else none
  vmmIsMapped s p := some (s.tables.mapped p)
  vmmAllocMap s p perm := some (⟨s.tables.setPage p (rightsOf perm), withPage s.mem p⟩, 0)

/-- The pages of the buffer are present. -/
def BufferPresent (buf n : ℕ) (s : TableMemory) : Prop :=
  ∀ o, o < n → (s.tables.rights ((buf + o) % 2^64)).isSome

/-- A new page takes no other away. -/
theorem BufferPresent.setPage {buf n p : ℕ} {s : TableMemory} (hs : BufferPresent buf n s)
    (hp : s.tables.mapped p = false) (r : Rights) (m : Mem) :
    BufferPresent buf n ⟨s.tables.setPage p r, m⟩ := by
  have hvisit : s.tables.setPage p r = [(p, r)].foldl PageTables.visit s.tables := by
    rw [List.foldl_cons, List.foldl_nil]
    unfold PageTables.visit
    rw [hp, if_neg Bool.false_ne_true]
  intro o ho
  dsimp only
  rw [hvisit, PageTables.visits_present]
  exact Or.inl (hs o ho)

theorem tableMachine_kept (file : Mem) (buf n : ℕ) :
    TablesKept (tableMachine file buf) (BufferPresent buf n) TableMemory.tables file buf n where
  peek s hs o ho := if_pos (hs o ho)
  read s o _ _ := by
    change (if _ then some (file o) else none).isSome ↔ _
    by_cases h : (s.tables.rights ((buf + o) % 2^64)).isSome
    · rw [if_pos h]
      exact iff_of_true rfl h
    · rw [if_neg h]
      exact iff_of_false Bool.false_ne_true h
  write s a b _ _ := by
    change (if _ then some { s with mem := Function.update s.mem a b } else none).isSome ↔ _
    by_cases h : (s.tables.rights a).isSome
    · rw [if_pos h]
      exact iff_of_true rfl h
    · rw [if_neg h]
      exact iff_of_false Bool.false_ne_true h
  store s a b k hs _ h := by
    obtain ⟨-, hk⟩ := Option.ite_none_right_eq_some.mp h
    obtain rfl := Option.some.inj hk
    exact ⟨hs, rfl⟩
  query s x _ _ := rfl
  alloc s x perm hs _ _ hx := ⟨_, 0, rfl, fun _ => ⟨hs.setPage hx _ _, rfl⟩⟩

/-- The first 4 GB as `vmm_init` maps them. -/
def identityTables : PageTables where
  entries i := if i = 0 then .next ⟨true, true⟩ (fun j =>
      if j < 4 then .next ⟨true, true⟩ (fun _ => .page ⟨true, true⟩) else .absent)
    else .absent

theorem identityTables_rights {a : ℕ} (ha : a < 2^32) :
    identityTables.rights a = some ⟨true, true⟩ := by
  have hcanonical : Canonical a := Or.inl (ha.trans (by decide))
  have h4 : (⟨vmmPml4Index a, vmmPml4Index_lt a⟩ : Fin 512) = 0 := by
    apply Fin.ext
    change vmmPml4Index a = 0
    rw [vmmPml4Index_eq]
    omega
  have h3 : (⟨vmmPdpteIndex a, vmmPdpteIndex_lt a⟩ : Fin 512) < 4 := by
    rw [Fin.lt_def]
    change vmmPdpteIndex a < 4
    rw [vmmPdpteIndex_eq]
    omega
  unfold PageTables.rights PageTables.top pagePath identityTables
  rw [if_pos hcanonical]
  simp only [TableEntry.rights, if_pos h4, if_pos h3]
  rfl

/-! ### A writable segment that begins inside a page -/

/-- One writable segment of 16 bytes in the page at 4 MB. -/
def oneInPage (vaddr : ℕ) : Mem := oneSegment 0 vaddr 8 16

/-- The machine before the load. -/
def identityStart : TableMemory := ⟨identityTables, fun _ => 0#8⟩

/-- The buffer of the image. -/
def imageBuffer : ℕ := 0x300000

theorem oneInPage_loads {vaddr i : ℕ} (hnum : phnumOf (oneInPage vaddr) = 1)
    (h : Loads (oneInPage vaddr) i) : i = 0 := by
  have hi := h.1
  rw [hnum] at hi
  omega

/-- What the theorems below need of the image. -/
structure InPage (vaddr : ℕ) : Prop where
  page : vaddr / 4096 = 0x400
  offset : vaddr % 4096 + 16 ≤ 4096
  span : fileSpan (oneInPage vaddr) 120 = 120
  headers : phnumOf (oneInPage vaddr) = 1
  segment : vaddrOf (oneInPage vaddr) 0 = vaddr ∧ memszOf (oneInPage vaddr) 0 = 16 ∧
    fileszOf (oneInPage vaddr) 0 = 8 ∧ offsetOf (oneInPage vaddr) 0 = 0
  placed : Placed (oneInPage vaddr) 120

theorem inPage_start : InPage 0x400000 where
  page := by decide
  offset := by decide
  span := by decide
  headers := by decide
  segment := by decide
  placed := ⟨⟨by decide, ⟨by decide, by decide, by decide, by decide, by decide, by decide⟩,
    by decide⟩, 0, by decide, by decide⟩

theorem inPage_middle : InPage 0x400100 where
  page := by decide
  offset := by decide
  span := by decide
  headers := by decide
  segment := by decide
  placed := ⟨⟨by decide, ⟨by decide, by decide, by decide, by decide, by decide, by decide⟩,
    by decide⟩, 0, by decide, by decide⟩

section InPage
variable {vaddr : ℕ}

theorem InPage.buffer (h : InPage vaddr) :
    BufferPresent imageBuffer (fileSpan (oneInPage vaddr) 120) identityStart := by
  rw [h.span]
  intro o ho
  unfold identityStart imageBuffer
  dsimp only
  rw [identityTables_rights (by omega)]
  rfl

theorem InPage.accesses (h : InPage vaddr) :
    AccessesPresent (oneInPage vaddr) imageBuffer identityTables := by
  have hlow {i a : ℕ} (ha : a < 2^32) : PresentAt (oneInPage vaddr) identityTables i a := by
    unfold PresentAt
    rw [identityTables_rights ha]
    exact Or.inl rfl
  have hpage := h.page
  obtain ⟨hvaddr, hmemsz, hfilesz, hoffset⟩ := h.segment
  intro i hi
  rw [oneInPage_loads h.headers hi]
  refine ⟨fun k hk => hlow ?_, fun k hk => hlow ?_⟩
  · rw [hfilesz] at hk
    rw [hoffset]
    unfold imageBuffer
    omega
  · rw [hfilesz, hmemsz] at hk
    rw [hvaddr]
    omega

/-- The machine loads the image. -/
theorem InPage.succeeds (h : InPage vaddr) : ∃ res,
    (elf64Load (tableMachine (oneInPage vaddr) imageBuffer) 120 ⟨identityStart, []⟩).value =
      .ok res := by
  apply (tableMachine_kept (oneInPage vaddr) imageBuffer _).elf64Load_ok ?_ h.placed h.buffer
    h.accesses
  intro s x perm k r _ halloc
  obtain ⟨-, rfl⟩ := Prod.mk.inj (Option.some.inj halloc)
  rfl

/-- All of its bytes lie on the page at 4 MB. -/
theorem InPage.opens_iff (h : InPage vaddr) :
    OpensSegments (oneInPage vaddr) identityTables ↔
      identityTables.Opens (visits (oneInPage vaddr)) 0x400000 (Writable (oneInPage vaddr) 0) := by
  have hpage := h.page
  have hend := h.offset
  obtain ⟨hvaddr, hmemsz, -⟩ := h.segment
  have hbyte (k : ℕ) (hk : k < 16) :
      identityTables.Opens (visits (oneInPage vaddr)) ((vaddr + k) % 2^64)
        (Writable (oneInPage vaddr) 0) ↔
      identityTables.Opens (visits (oneInPage vaddr)) 0x400000 (Writable (oneInPage vaddr) 0) := by
    have hpath : pagePath ((vaddr + k) % 2^64) = pagePath 0x400000 := by
      rw [← pagePath_page]
      exact congrArg pagePath (by omega)
    unfold PageTables.Opens
    rw [hpath]
    refine and_congr_left (fun _ => iff_of_true ?_ (by decide))
    unfold Canonical
    omega
  constructor
  · intro hopens
    obtain ⟨j, hj, -⟩ := h.placed.segment
    rw [oneInPage_loads h.headers hj] at hj
    have hfirst := hopens 0 0 hj (by rw [hmemsz]; decide)
    rw [hvaddr] at hfirst
    exact (hbyte 0 (by decide)).mp hfirst
  · intro hopens i k hi hk
    rw [oneInPage_loads h.headers hi] at hk ⊢
    rw [hmemsz] at hk
    rw [hvaddr]
    exact (hbyte k hk).mpr hopens

end InPage

/-- The same segment at the start of its page gets its rights. -/
theorem elf_permissions_iff_aligned : ∃ res,
    (elf64Load (tableMachine (oneInPage 0x400000) imageBuffer) 120 ⟨identityStart, []⟩).value =
      .ok res ∧
    SegmentsOpen (oneInPage 0x400000)
      (elf64Load (tableMachine (oneInPage 0x400000) imageBuffer) 120
        ⟨identityStart, []⟩).state.kernel.tables := by
  obtain ⟨res, hres⟩ := inPage_start.succeeds
  refine ⟨res, hres, (elf_permissions_iff (tableMachine_kept _ imageBuffer _)
    inPage_start.buffer hres).mpr (inPage_start.opens_iff.mpr ?_)⟩
  have hvisits : visits (oneInPage 0x400000) = [(0x400000, ⟨true, true⟩)] := by decide
  rw [hvisits]
  refine ⟨by decide, ⟨rfl, fun _ => rfl⟩, ⟨rfl, fun _ => rfl⟩, ⟨rfl, fun _ => rfl⟩, ?_⟩
  exact ⟨rfl, rfl, fun _ => rfl⟩

/-- The page of a writable segment that begins inside it is mapped read-only. -/
theorem mid_page_read_only :
    ¬ ∀ (σ : Type) (K : Kernel σ) (I : σ → Prop) (tables : σ → PageTables) (buf : ℕ) (s : Loader σ)
      (res : ElfLoadResult),
      TablesKept K I tables (oneInPage 0x400100) buf (fileSpan (oneInPage 0x400100) 120) →
      I s.kernel → (elf64Load K 120 s).value = .ok res →
      SegmentsOpen (oneInPage 0x400100) (tables (elf64Load K 120 s).state.kernel) := by
  intro h
  obtain ⟨res, hres⟩ := inPage_middle.succeeds
  have hk := tableMachine_kept (oneInPage 0x400100) imageBuffer
    (fileSpan (oneInPage 0x400100) 120)
  have hopen := h _ _ _ _ _ _ res hk inPage_middle.buffer hres
  have hends : Ends (WithTables (BufferPresent imageBuffer (fileSpan (oneInPage 0x400100) 120))
      TableMemory.tables identityTables)
      (elf64Load (tableMachine (oneInPage 0x400100) imageBuffer) 120) _ _ := hk.elf64Load
  obtain ⟨-, -, hfinal⟩ := (hends ⟨identityStart, []⟩ ⟨inPage_middle.buffer, rfl⟩).1 res hres
  rw [hfinal] at hopen
  have hvisits : visits (oneInPage 0x400100) = [(0x400000, ⟨true, false⟩)] := by decide
  rw [hvisits] at hopen
  obtain ⟨r, hr, -, hwrite⟩ := hopen 0 0 (by decide) (by decide)
  have hrights : some (⟨true, false⟩ : Rights) = some r := hr
  obtain rfl := Option.some.inj hrights
  exact absurd (hwrite (by decide)) Bool.false_ne_true

end SukiOS

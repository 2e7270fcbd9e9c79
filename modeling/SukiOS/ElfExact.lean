import SukiOS.ElfBounds

/-! What `elf64_load` leaves in user memory for a well-formed image: the segments, as they are in
the file.

The two functions of `vmm.c` are taken as exact here, and user memory as apart from the kernel's. -/
namespace SukiOS
open ByteMemory Traced

/-! ### User memory -/

/-- The lower half of the addresses. -/
def userEnd : ℕ := 2^47

def pageStart (a : ℕ) : ℕ := a / 4096 * 4096

/-- What a machine has in user memory: the pages that are mapped, the bytes, and for how many pages
more there are frames. -/
structure UserView (σ : Type) where
  mapped : σ → ℕ → Prop
  mem : σ → Mem
  frames : σ → ℕ

/-- `vmm_is_mapped` is exact; `vmm_alloc_map` adds a page of zeros while there are frames; a store
to a mapped page changes one byte. None of them reaches the buffer of the image. -/
structure UserMemory {σ : Type} (K : Kernel σ) (U : UserView σ) : Prop where
  query : ∀ s p, p < userEnd → ∃ b, K.vmmIsMapped s p = some b ∧ (b = true ↔ U.mapped s p)
  alloc : ∀ s p perm, p < userEnd → p % 4096 = 0 → ¬ U.mapped s p → 0 < U.frames s →
    ∃ k, K.vmmAllocMap s p perm = some (k, 0) ∧ (∀ q, U.mapped k q ↔ U.mapped s q ∨ q = p) ∧
      U.mem k = (fun a => if pageStart a = p then 0#8 else U.mem s a) ∧
      U.frames s ≤ U.frames k + 1 ∧ K.peek k = K.peek s
  store : ∀ s a b, a < userEnd → U.mapped s (pageStart a) →
    ∃ k, K.store s a b = some k ∧ (∀ q, U.mapped k q ↔ U.mapped s q) ∧
      U.mem k = Function.update (U.mem s) a b ∧ U.frames k = U.frames s ∧ K.peek k = K.peek s

/-- The first `n` bytes of the buffer are those of `file`; the user memory has the bytes `M` and the
pages of `V`; there are frames for the pages of `need` that are missing. -/
structure Holding {σ : Type} (K : Kernel σ) (U : UserView σ) (file : Mem) (n : ℕ) (need : ℕ → Prop)
    (M : Mem) (V : ℕ → Prop) (s : Loader σ) : Prop where
  held : ∀ o, o < n → K.peek s.kernel o = some (file o)
  bytes : U.mem s.kernel = M
  pages : ∀ q, U.mapped s.kernel q ↔ V q
  enough : ∃ L : List ℕ, (∀ p, need p → ¬ V p → p ∈ L) ∧ L.length ≤ U.frames s.kernel

/-! ### Bytes written in order -/

/-- The bytes from `va + i` up to `va + j` are those of `f`. -/
def overlay (M : Mem) (va i j : ℕ) (f : Mem) : Mem :=
  fun a => if va + i ≤ a ∧ a < va + j then f (a - va) else M a

section Overlay
variable {M f : Mem} {va i j a : ℕ}

theorem overlay_self : overlay M va i i f = M := by
  funext a
  exact if_neg (by omega)

theorem overlay_next (h : i ≤ j) :
    Function.update (overlay M va i j f) (va + j) (f j) = overlay M va i (j+1) f := by
  funext a
  unfold overlay
  by_cases ha : a = va + j
  · rw [ha, Function.update_self, if_pos (by omega), Nat.add_sub_cancel_left]
  · -- any other byte is in both ranges or in none
    rw [Function.update_of_ne ha]
    by_cases hin : va + i ≤ a ∧ a < va + j
    · rw [if_pos hin, if_pos (by omega)]
    · rw [if_neg hin, if_neg (by omega)]

theorem overlay_at {k : ℕ} (h1 : i ≤ k) (h2 : k < j) : overlay M va i j f (va + k) = f k := by
  unfold overlay
  rw [if_pos (by omega), Nat.add_sub_cancel_left]

theorem overlay_outside (h : ¬ (va + i ≤ a ∧ a < va + j)) : overlay M va i j f a = M a := if_neg h

end Overlay

theorem byte_of_load (m : Mem) (a : ℕ) : BitVec.ofNat 8 (load m a 1) = m a := by
  have hload : load m a 1 = (m a).toNat := by
    unfold load load
    omega
  rw [hload, BitVec.ofNat_toNat, BitVec.setWidth_eq]

/-! ### The steps of the loader -/

section Steps
variable {σ : Type} {K : Kernel σ} {U : UserView σ} {file M : Mem} {n : ℕ} {need V : ℕ → Prop}

theorem Holding.congr {V' : ℕ → Prop} {s : Loader σ} (h : Holding K U file n need M V s)
    (hV : ∀ q, V q ↔ V' q) : Holding K U file n need M V' s := by
  obtain ⟨L, hL, hlen⟩ := h.enough
  refine ⟨h.held, h.bytes, fun q => (h.pages q).trans (hV q), L, fun p hp hV' => ?_, hlen⟩
  exact hL p hp (fun hv => hV' ((hV p).mp hv))

theorem Holding.reads {off len : ℕ} (h : off + len ≤ n) :
    Succeeds (Holding K U file n need M V) (readField K off len)
      (fun v s => v = load file off len ∧ Holding K U file n need M V s) := by
  apply Succeeds.bind Succeeds.emit
  intro _
  apply Succeeds.attempt
  intro s hs
  have hword : peekWord (K.peek s.kernel) off len = some (load file off len) :=
    peekWord_eq len off (fun o ho => hs.held o (by omega))
  rw [hword]
  exact ⟨_, s, rfl, rfl, hs⟩

theorem UserMemory.storeByte (hu : UserMemory K U) {a : ℕ} (b : Byte) (ha : a < userEnd)
    (hV : V (pageStart a)) :
    Succeeds (Holding K U file n need M V) (storeByte K a b)
      (fun _ => Holding K U file n need (Function.update M a b) V) := by
  intro s hs
  obtain ⟨k, hk, hpages, hmem, hframes, hpeek⟩ := hu.store s.kernel a b ha ((hs.pages _).mpr hV)
  have hrun : Succeeds (fun t => t = s)
      (Run.emit (.store a (s.mine.contains (a / 4096 * 4096))) >>= fun _ =>
        Run.attempt .fault (fun s => (K.store s.kernel a b).map
          (fun k => ((), { s with kernel := k }))) : LoadM σ Unit)
      (fun _ => Holding K U file n need (Function.update M a b) V) := by
    apply Succeeds.bind Succeeds.emit
    intro _
    apply Succeeds.attempt
    intro t ht
    rw [ht, hk]
    refine ⟨(), { s with kernel := k }, rfl, ?_⟩
    refine ⟨fun o ho => ?_, ?_, fun q => (hpages q).trans (hs.pages q), ?_⟩
    · rw [hpeek]
      exact hs.held o ho
    · rw [hmem, hs.bytes]
    · rw [hframes]
      exact hs.enough
  exact hrun s rfl

theorem UserMemory.isMapped (hu : UserMemory K U) {p : ℕ} (hp : p < userEnd) :
    Succeeds (Holding K U file n need M V) (isMapped K p)
      (fun b s => (b = true ↔ V p) ∧ Holding K U file n need M V s) := by
  apply Succeeds.attempt
  intro s hs
  obtain ⟨b, hb, hiff⟩ := hu.query s.kernel p hp
  rw [hb]
  exact ⟨b, s, rfl, hiff.trans (hs.pages p), hs⟩

/-- The memory after a page of zeros was added. -/
def withPage (M : Mem) (p : ℕ) : Mem := fun a => if pageStart a = p then 0#8 else M a

theorem UserMemory.allocMap (hu : UserMemory K U) {p : ℕ} (perm : ℕ) (hp : p < userEnd)
    (halign : p % 4096 = 0) (hV : ¬ V p) (hneed : need p) :
    Succeeds (Holding K U file n need M V) (allocMap K p perm) (fun r s => r = 0 ∧
      Holding K U file n need (withPage M p) (fun q => V q ∨ q = p) s) := by
  apply Succeeds.attempt
  intro s hs
  obtain ⟨L, hL, hlen⟩ := hs.enough
  have hmem : p ∈ L := hL p hneed hV
  have hframe : 0 < U.frames s.kernel := lt_of_lt_of_le (List.length_pos_of_mem hmem) hlen
  obtain ⟨k, hk, hpages, hbytes, hframes, hpeek⟩ := hu.alloc s.kernel p perm hp halign
    (fun hmapped => hV ((hs.pages p).mp hmapped)) hframe
  rw [hk]
  refine ⟨0, ⟨k, p :: s.mine⟩, rfl, rfl, fun o ho => ?_, ?_, fun q => ?_, L.erase p,
    fun q hq hnot => ?_, ?_⟩
  · rw [hpeek]
    exact hs.held o ho
  · rw [hbytes, hs.bytes]
    rfl
  · exact (hpages q).trans (or_congr_left (hs.pages q))
  · -- the page is no longer among those that are missing
    have hne : q ≠ p := fun h => hnot (Or.inr h)
    exact (List.mem_erase_of_ne hne).mpr (hL q hq (fun hv => hnot (Or.inl hv)))
  · rw [List.length_erase_of_mem hmem]
    dsimp only
    omega

theorem pageFlags_succeeds {J : Loader σ → Prop} {hdr vaddr va : ℕ}
    (h : Succeeds J (readField K (hdr + pFlags) 4) (fun _ => J)) :
    Succeeds J (pageFlags K hdr vaddr va) (fun _ => J) := by
  unfold pageFlags
  by_cases hle : vaddr ≤ va
  · rw [if_pos hle]
    exact h
  · rw [if_neg hle]
    exact Succeeds.ret (fun _ hs => hs)

/-- The bytes of the pages that were mapped stay. -/
def SameOn (V : ℕ → Prop) (M M' : Mem) : Prop := ∀ a, V (pageStart a) → M' a = M a

theorem UserMemory.mapPage (hu : UserMemory K U) {hdr va : ℕ} (hn : hdr + 24 ≤ n)
    (hva : va < userEnd)
    (halign : va % 4096 = 0) (hneed : need va) :
    Succeeds (Holding K U file n need M V) (mapPage K hdr va) (fun _ s => ∃ M', SameOn V M M' ∧
      Holding K U file n need M' (fun q => V q ∨ q = va) s) := by
  apply Succeeds.bind (hu.isMapped hva)
  intro b
  cases b with
  | true =>
    apply Succeeds.ret
    intro s hs
    have hV : V va := hs.1.mp rfl
    refine ⟨M, fun _ _ => rfl, hs.2.congr (fun q => ⟨Or.inl, fun hq => hq.elim id ?_⟩)⟩
    intro h
    rw [h]
    exact hV
  | false =>
    by_cases hV : V va
    · -- not so, since the query is exact
      intro s hs
      exact absurd (hs.1.mpr hV) Bool.false_ne_true
    · apply Succeeds.weaken (I := Holding K U file n need M V) (Q := _) ?_ (fun s hs => hs.2)
        (fun _ _ h => h)
      apply Succeeds.bind_eq (Holding.reads (by unfold pVaddr; omega))
      apply Succeeds.bind (pageFlags_succeeds
        ((Holding.reads (by unfold pFlags; omega)).weaken (fun _ h => h) (fun _ _ h => h.2)))
      intro flags
      apply Succeeds.bind_eq (hu.allocMap _ hva halign hV hneed)
      rw [if_neg (not_not.mpr rfl)]
      apply Succeeds.ret
      intro s hs
      refine ⟨withPage M va, fun a ha => if_neg ?_, hs⟩
      intro h
      rw [h] at ha
      exact hV ha

theorem UserMemory.mapFrom (hu : UserMemory K U) {hdr : ℕ} (hn : hdr + 24 ≤ n) (m : ℕ) : ∀ va M V,
    va + 4096*m ≤ userEnd → va % 4096 = 0 → (∀ k, k < m → need (va + 4096*k)) →
    Succeeds (Holding K U file n need M V) (mapFrom K hdr va m) (fun _ s => ∃ M', SameOn V M M' ∧
      Holding K U file n need M' (fun q => V q ∨ ∃ k, k < m ∧ q = va + 4096*k) s) := by
  induction m with
  | zero =>
    intro va M V _ _ _
    apply Succeeds.ret
    intro s hs
    refine ⟨M, fun _ _ => rfl, hs.congr (fun q => ⟨Or.inl, fun hq => hq.resolve_right ?_⟩)⟩
    intro h
    obtain ⟨k, hk, -⟩ := h
    exact absurd hk (Nat.not_lt_zero k)
  | succ m ih =>
    intro va M V hend halign hneed
    apply Succeeds.bind (hu.mapPage hn (by omega) halign (hneed 0 (Nat.succ_pos m)))
    intro _
    apply Succeeds.exists
    intro M1
    apply Succeeds.fact
    intro hsame
    have hneed' (k : ℕ) (hk : k < m) : need (va + 4096 + 4096*k) := by
      have hnext := hneed (k+1) (by omega)
      rwa [show va + 4096*(k+1) = va + 4096 + 4096*k by ring] at hnext
    apply (ih (va + 4096) M1 (fun q => V q ∨ q = va) (by omega) (by omega) hneed').weaken
      (fun _ h => h)
    intro _ s hs
    obtain ⟨M2, hsame2, hs2⟩ := hs
    refine ⟨M2, fun a ha => ?_, hs2.congr (fun q => ?_)⟩
    · exact (hsame2 a (Or.inl ha)).trans (hsame a ha)
    · rw [or_assoc]
      apply or_congr_right
      constructor
      · intro h
        rcases h with rfl | ⟨k, hk, rfl⟩
        · exact ⟨0, by omega, by omega⟩
        · exact ⟨k+1, by omega, by ring⟩
      · intro h
        obtain ⟨k, hk, rfl⟩ := h
        cases k with
        | zero => exact Or.inl (by omega)
        | succ k => exact Or.inr ⟨k, by omega, by ring⟩

/-- The byte `k` of a range lies in user memory, on a page that is mapped. -/
def ByteReady (V : ℕ → Prop) (va k : ℕ) : Prop := va + k < userEnd ∧ V (pageStart (va + k))

theorem UserMemory.storeAt (hu : UserMemory K U) {va i k : ℕ} {f : Mem} (hik : i ≤ k)
    (h : ByteReady V va k) :
    Succeeds (Holding K U file n need (overlay M va i k f) V)
      (SukiOS.storeByte K ((va + k) % 2^64) (f k))
      (fun _ => Holding K U file n need (overlay M va i (k+1) f) V) := by
  have haddr : (va + k) % 2^64 = va + k := by
    apply Nat.mod_eq_of_lt
    exact h.1.trans (by decide)
  rw [haddr, ← overlay_next hik]
  exact hu.storeByte (f k) h.1 h.2

/-- The bytes of the file from `src` on. -/
def fileFrom (file : Mem) (src : ℕ) : Mem := fun k => file (src + k)

theorem UserMemory.copyChunk (hu : UserMemory K U) {va src offset : ℕ} (m : ℕ) : ∀ j,
    src + offset + (j + m) ≤ n → (∀ k, offset + j ≤ k → k < offset + (j + m) → ByteReady V va k) →
    Succeeds (Holding K U file n need (overlay M va 0 (offset + j) (fileFrom file src)) V)
      (copyChunk K ((va + offset) % 2^64) (src + offset) j m)
      (fun _ => Holding K U file n need (overlay M va 0 (offset + (j + m)) (fileFrom file src))
        V) := by
  induction m with
  | zero => exact fun j _ _ => Succeeds.ret (fun _ hs => hs)
  | succ m ih =>
    intro j hn hready
    apply Succeeds.bind_eq (Holding.reads (by omega))
    rw [byte_of_load, chunk_addr, Nat.add_assoc]
    apply Succeeds.bind (hu.storeAt (Nat.zero_le _) (hready (offset + j) le_rfl (by omega)))
    intro _
    have hrest := ih (j+1) (by omega) (fun k h1 h2 => hready k (by omega) (by omega))
    rw [show j + 1 + m = j + (m + 1) by ring, ← Nat.add_assoc offset j 1] at hrest
    exact hrest

theorem UserMemory.copyFrom (hu : UserMemory K U) {va src : ℕ} (m : ℕ) : ∀ offset left, left ≤ m →
    src + (offset + left) ≤ n → (∀ k, offset ≤ k → k < offset + left → ByteReady V va k) →
    Succeeds (Holding K U file n need (overlay M va 0 offset (fileFrom file src)) V)
      (copyFrom K va src offset left m)
      (fun _ => Holding K U file n need (overlay M va 0 (offset + left) (fileFrom file src))
        V) := by
  -- on the turns of the loop; each of them copies a byte or more
  induction m with
  | zero =>
    intro offset left hm _ _
    rw [Nat.le_zero.mp hm]
    exact Succeeds.ret (fun _ hs => hs)
  | succ m ih =>
    intro offset left hm hn hready
    unfold SukiOS.copyFrom
    by_cases h0 : left = 0
    · rw [if_pos h0, h0]
      exact Succeeds.ret (fun _ hs => hs)
    rw [if_neg h0]
    have hle := chunkSize_le va offset left
    have hpos : 0 < chunkSize va offset left := chunkSize_pos h0
    have hchunk : Succeeds (Holding K U file n need
      (overlay M va 0 (offset + 0) (fileFrom file src)) V)
        (SukiOS.copyChunk K ((va + offset) % 2^64) (src + offset) 0 (chunkSize va offset left))
        (fun _ => Holding K U file n need
          (overlay M va 0 (offset + (0 + chunkSize va offset left)) (fileFrom file src)) V) :=
      hu.copyChunk _ 0 (by omega) (fun k h1 h2 => hready k (by omega) (by omega))
    rw [Nat.add_zero, Nat.zero_add] at hchunk
    apply Succeeds.bind hchunk
    intro _
    have hrest := ih (offset + chunkSize va offset left) (left - chunkSize va offset left)
      (by omega)
      (by omega) (fun k h1 h2 => hready k (by omega) (by omega))
    rw [show offset + chunkSize va offset left + (left - chunkSize va offset left) =
      offset + left by
      omega] at hrest
    exact hrest

theorem UserMemory.zeroFrom (hu : UserMemory K U) {va z : ℕ} (m : ℕ) : ∀ k,
    (∀ j, z + k ≤ j → j < z + (k + m) → ByteReady V va j) →
    Succeeds (Holding K U file n need (overlay M va z (z + k) (fun _ => 0#8)) V)
      (zeroFrom K ((va + z) % 2^64) k m)
      (fun _ => Holding K U file n need (overlay M va z (z + (k + m)) (fun _ => 0#8)) V) := by
  induction m with
  | zero => exact fun k _ => Succeeds.ret (fun _ hs => hs)
  | succ m ih =>
    intro k hready
    unfold SukiOS.zeroFrom
    rw [chunk_addr]
    apply Succeeds.bind (hu.storeAt (f := fun _ => 0#8) (Nat.le_add_right z k)
      (hready (z + k) le_rfl (by omega)))
    intro _
    have hrest := ih (k+1) (fun j h1 h2 => hready j (by omega) (by omega))
    rw [show k + 1 + m = k + (m + 1) by ring, ← Nat.add_assoc z k 1] at hrest
    exact hrest

end Steps

/-! ### Well-formed images -/

/-- An address of a byte of the segment of the header `i`. -/
def SegmentByte (file : Mem) (i a : ℕ) : Prop :=
  vaddrOf file i ≤ a ∧ a < vaddrOf file i + memszOf file i

/-- The headers and what the segments take from the file lie in the file, and the segments lie in
user memory, apart from each other. -/
structure WellFormedElf (file : Mem) (fileSize : ℕ) : Prop where
  size : sizeofEhdr ≤ fileSize
  header : HeaderOk file
  phentsize : phentsizeOf file = sizeofPhdr
  table : phoffOf file + sizeofPhdr * phnumOf file ≤ fileSize
  segment : ∃ i, Loads file i
  inFile : ∀ i, Loads file i → offsetOf file i + fileszOf file i ≤ fileSize
  filesz_le : ∀ i, Loads file i → fileszOf file i ≤ memszOf file i
  user : ∀ i, Loads file i → vaddrOf file i + memszOf file i ≤ userEnd
  apart : ∀ i j a, Loads file i → Loads file j → SegmentByte file i a → SegmentByte file j a → i = j

/-- A page of a segment to load. -/
def NeededPage (file : Mem) (p : ℕ) : Prop := ∃ i, Loads file i ∧ PageOf file i p

/-- The bytes of the file, then zeros. -/
structure SegmentLoaded (file : Mem) (i : ℕ) (M : Mem) : Prop where
  bytes : ∀ k, k < fileszOf file i → M (vaddrOf file i + k) = file (offsetOf file i + k)
  zeros : ∀ k, fileszOf file i ≤ k → k < memszOf file i → M (vaddrOf file i + k) = 0#8

/-- Every segment is in memory, and the addresses of the result are the bounds of the segments. -/
structure LoadedExactly {σ : Type} (U : UserView σ) (file : Mem) (k : σ) (res : ElfLoadResult) :
    Prop where
  segments : ∀ i, Loads file i → SegmentLoaded file i (U.mem k)
  mapped : ∀ i a, Loads file i → SegmentByte file i a → U.mapped k (pageStart a)
  base_le : ∀ i, Loads file i → res.baseVaddr ≤ vaddrOf file i
  base_eq : ∃ i, Loads file i ∧ res.baseVaddr = vaddrOf file i
  le_max : ∀ i, Loads file i → vaddrOf file i + memszOf file i ≤ res.maxVaddr
  max_eq : ∃ i, Loads file i ∧ res.maxVaddr = vaddrOf file i + memszOf file i
  size : res.baseVaddr + res.size = res.maxVaddr
  entry : res.entryPoint = load file eEntry 8

section Image
variable {file : Mem} {fileSize i a : ℕ}

theorem WellFormedElf.hdr (hw : WellFormedElf file fileSize) (hi : i < phnumOf file) :
    hdrOf file i + sizeofPhdr ≤ fileSize := by
  apply le_trans ?_ hw.table
  unfold hdrOf sizeofPhdr
  omega

theorem WellFormedElf.pages (hw : WellFormedElf file fileSize) (hi : Loads file i) :
    segStart (vaddrOf file i) + 4096*((segEnd (vaddrOf file i) (memszOf file i) -
      segStart (vaddrOf file i)) / 4096) ≤ userEnd := by
  have huser := hw.user i hi
  unfold userEnd at huser ⊢
  unfold segEnd segStart
  omega

theorem WellFormedElf.page_of (hw : WellFormedElf file fileSize) (hi : Loads file i)
    (ha : SegmentByte file i a) : PageOf file i (pageStart a) := by
  apply pageOf_addr ((hw.user i hi).trans (by decide)) ha.1 ha.2

end Image

/-! ### The passes -/

section Passes
variable {σ : Type} {K : Kernel σ} {U : UserView σ} {file M : Mem} {fileSize i : ℕ} {V : ℕ → Prop}

theorem UserMemory.loadSegment (hu : UserMemory K U) (hw : WellFormedElf file fileSize)
    (hi : Loads file i) :
    Succeeds (Holding K U file fileSize (NeededPage file) M V) (loadSegment K (hdrOf file i))
      (fun _ s => ∃ M', SegmentLoaded file i M' ∧
        (∀ a, V (pageStart a) → ¬ SegmentByte file i a → M' a = M a) ∧
        Holding K U file fileSize (NeededPage file) M' (fun q => V q ∨ PageOf file i q) s) := by
  have hn := hw.hdr hi.1
  unfold sizeofPhdr at hn
  have hfile := hw.inFile i hi
  have hle := hw.filesz_le i hi
  have hfield (M : Mem) (V : ℕ → Prop) (off : ℕ) (h : off + 8 ≤ 56) :
      Succeeds (Holding K U file fileSize (NeededPage file) M V)
        (readField K (hdrOf file i + off) 8)
        (fun v s => v = load file (hdrOf file i + off) 8 ∧
          Holding K U file fileSize (NeededPage file) M V s) :=
    Holding.reads (by omega)
  unfold SukiOS.loadSegment
  apply Succeeds.bind_eq (hfield M V pVaddr (by decide))
  apply Succeeds.bind_eq (hfield M V pMemsz (by decide))
  have hneed (k : ℕ) (hk : k < (segEnd (vaddrOf file i) (memszOf file i) -
      segStart (vaddrOf file i)) / 4096) : NeededPage file (segStart (vaddrOf file i) + 4096*k) :=
    ⟨i, hi, k, hk, rfl⟩
  have hhdr : hdrOf file i + 24 ≤ fileSize := by omega
  apply Succeeds.bind (hu.mapFrom hhdr _ _ M V (hw.pages hi) (Nat.mul_mod_left _ _) hneed)
  intro _
  apply Succeeds.exists
  intro M1
  apply Succeeds.fact
  intro hsame
  -- from here on the pages of the segment are mapped
  have hready (k : ℕ) (hk : k < memszOf file i) :
      ByteReady (fun q => V q ∨ PageOf file i q) (vaddrOf file i) k := by
    have huser := hw.user i hi
    refine ⟨by omega, Or.inr (hw.page_of hi ⟨Nat.le_add_right _ _, by omega⟩)⟩
  apply Succeeds.bind_eq (hfield M1 _ pVaddr (by decide))
  apply Succeeds.bind_eq (hfield M1 _ pFilesz (by decide))
  apply Succeeds.bind_eq (hfield M1 _ pOffset (by decide))
  have hcopy : Succeeds (Holding K U file fileSize (NeededPage file)
      (overlay M1 (vaddrOf file i) 0 0 (fileFrom file (offsetOf file i)))
      (fun q => V q ∨ PageOf file i q))
      (SukiOS.copyFrom K (vaddrOf file i) (offsetOf file i) 0 (fileszOf file i) (fileszOf file i))
      (fun _ => Holding K U file fileSize (NeededPage file)
        (overlay M1 (vaddrOf file i) 0 (0 + fileszOf file i) (fileFrom file (offsetOf file i)))
        (fun q => V q ∨ PageOf file i q)) :=
    hu.copyFrom _ 0 _ le_rfl (by omega) (fun k _ hk => hready k (by omega))
  rw [overlay_self, Nat.zero_add] at hcopy
  apply Succeeds.bind hcopy
  intro _
  apply Succeeds.bind_eq (hfield _ _ pMemsz (by decide))
  apply Succeeds.bind_eq (hfield _ _ pFilesz (by decide))
  change Succeeds _ (if fileszOf file i < memszOf file i then _ else _) _
  have houtside {a : ℕ} (ha : ¬ SegmentByte file i a) {x y : ℕ} (hy : y ≤ memszOf file i) :
      ¬ (vaddrOf file i + x ≤ a ∧ a < vaddrOf file i + y) := by
    intro h
    exact ha ⟨by omega, by omega⟩
  by_cases hbss : fileszOf file i < memszOf file i
  · rw [if_pos hbss]
    apply Succeeds.bind_eq (hfield _ _ pVaddr (by decide))
    have hzero : Succeeds (Holding K U file fileSize (NeededPage file)
        (overlay (overlay M1 (vaddrOf file i) 0 (fileszOf file i) (fileFrom file (offsetOf file i)))
          (vaddrOf file i) (fileszOf file i) (fileszOf file i + 0) (fun _ => 0#8))
        (fun q => V q ∨ PageOf file i q))
        (SukiOS.zeroFrom K ((vaddrOf file i + fileszOf file i) % 2^64) 0
          (memszOf file i - fileszOf file i)) _ :=
      hu.zeroFrom _ 0 (fun k h1 h2 => hready k (by omega))
    rw [Nat.add_zero, overlay_self, Nat.zero_add, Nat.add_sub_cancel' hle] at hzero
    apply hzero.weaken (fun _ h => h)
    intro _ t ht
    refine ⟨_, ⟨fun k hk => ?_, fun k h1 h2 => overlay_at h1 h2⟩, fun a hV ha => ?_, ht⟩
    · rw [overlay_outside (by omega), overlay_at (Nat.zero_le k) hk]
      rfl
    · rw [overlay_outside (houtside ha le_rfl), overlay_outside (houtside ha hle)]
      exact hsame a hV
  · rw [if_neg hbss]
    apply Succeeds.ret
    intro t ht
    refine ⟨_, ⟨fun k hk => overlay_at (Nat.zero_le k) hk, fun k h1 h2 => ?_⟩, fun a hV ha =>
      ?_, ht⟩
    · omega
    · rw [overlay_outside (houtside ha hle)]
      exact hsame a hV

/-- The segments of the headers before `i` are loaded, and their pages are mapped. -/
def LoadedBefore {σ : Type} (K : Kernel σ) (U : UserView σ) (file : Mem) (fileSize : ℕ)
    (V : ℕ → Prop) (i : ℕ) (s : Loader σ) : Prop :=
  ∃ M, (∀ j, j < i → Loads file j → SegmentLoaded file j M) ∧
    Holding K U file fileSize (NeededPage file) M (fun q => V q ∨ PagesBefore file i q) s

/-- The next segment leaves those before it as they are. -/
theorem UserMemory.loadNext (hu : UserMemory K U) (hw : WellFormedElf file fileSize)
    (hi : Loads file i) :
    Succeeds (LoadedBefore K U file fileSize V i) (SukiOS.loadSegment K (hdrOf file i))
      (fun _ => LoadedBefore K U file fileSize V (i+1)) := by
  apply Succeeds.exists
  intro M
  apply Succeeds.fact
  intro hbefore
  apply (hu.loadSegment hw hi).weaken (fun _ h => h)
  intro _ s hs
  obtain ⟨M', hseg, hkeep, hs⟩ := hs
  have hold {j k : ℕ} (hj : j < i) (hl : Loads file j) (hk : k < memszOf file j) :
      M' (vaddrOf file j + k) = M (vaddrOf file j + k) := by
    have hbyte : SegmentByte file j (vaddrOf file j + k) := ⟨Nat.le_add_right _ _, by omega⟩
    apply hkeep _ (Or.inr ⟨j, hj, hl, hw.page_of hl hbyte⟩)
    intro hboth
    exact absurd (hw.apart j i _ hl hi hbyte hboth) (ne_of_lt hj)
  refine ⟨M', fun j hj hl => ?_, hs.congr (fun q => ?_)⟩
  · by_cases hji : j = i
    · rw [hji]
      exact hseg
    · have hlt : j < i := by omega
      have hle := hw.filesz_le j hl
      refine ⟨fun k hk => ?_, fun k h1 h2 => ?_⟩
      · exact (hold hlt hl (by omega)).trans ((hbefore j hlt hl).bytes k hk)
      · exact (hold hlt hl h2).trans ((hbefore j hlt hl).zeros k h1 h2)
  · rw [or_assoc]
    apply or_congr_right
    constructor
    · intro h
      rcases h with ⟨j, hj, hrest⟩ | hpage
      · exact ⟨j, by omega, hrest⟩
      · exact ⟨i, Nat.lt_succ_self i, hi, hpage⟩
    · intro h
      obtain ⟨j, hj, hl, hpage⟩ := h
      by_cases hji : j = i
      · exact Or.inr (hji ▸ hpage)
      · exact Or.inl ⟨j, by omega, hl, hpage⟩

theorem LoadedBefore.skip {s : Loader σ} (h : LoadedBefore K U file fileSize V i s)
    (hi : ¬ Loads file i) : LoadedBefore K U file fileSize V (i+1) s := by
  obtain ⟨M, hbefore, hs⟩ := h
  have hlt {j : ℕ} (hj : j < i + 1) (hl : Loads file j) : j < i := by
    have hne : j ≠ i := fun h => hi (h ▸ hl)
    omega
  refine ⟨M, fun j hj hl => hbefore j (hlt hj hl) hl, hs.congr (fun q => or_congr_right ?_)⟩
  constructor
  · intro h
    obtain ⟨j, hj, hrest⟩ := h
    exact ⟨j, by omega, hrest⟩
  · intro h
    obtain ⟨j, hj, hl, hpage⟩ := h
    exact ⟨j, hlt hj hl, hl, hpage⟩

theorem UserMemory.loadFrom (hu : UserMemory K U) (hw : WellFormedElf file fileSize) (m : ℕ) : ∀ i,
    phnumOf file < i + m →
    Succeeds (LoadedBefore K U file fileSize V i) (loadFrom K (phoffOf file) i m)
      (fun _ s => ∃ M, (∀ j, Loads file j → SegmentLoaded file j M) ∧
        Holding K U file fileSize (NeededPage file) M (fun q => V q ∨ NeededPage file q) s) := by
  have hend {i : ℕ} (hi : phnumOf file ≤ i) {s : Loader σ}
    (h : LoadedBefore K U file fileSize V i s) :
      ∃ M, (∀ j, Loads file j → SegmentLoaded file j M) ∧
        Holding K U file fileSize (NeededPage file) M (fun q => V q ∨ NeededPage file q) s := by
    obtain ⟨M, hbefore, hs⟩ := h
    refine ⟨M, fun j hl => hbefore j (lt_of_lt_of_le hl.1 hi) hl,
      hs.congr (fun q => or_congr_right ?_)⟩
    constructor
    · intro h
      obtain ⟨j, -, hrest⟩ := h
      exact ⟨j, hrest⟩
    · intro h
      obtain ⟨j, hl, hpage⟩ := h
      exact ⟨j, lt_of_lt_of_le hl.1 hi, hl, hpage⟩
  have hread (i off len : ℕ) (h : off + len ≤ fileSize) :
      Succeeds (LoadedBefore K U file fileSize V i) (readField K off len)
        (fun v s => v = load file off len ∧ LoadedBefore K U file fileSize V i s) := by
    apply Succeeds.exists
    intro M
    apply Succeeds.fact
    intro hbefore
    exact (Holding.reads h).weaken (fun _ hs => hs) (fun v s hs => ⟨hs.1, M, hbefore, hs.2⟩)
  have hsize : 64 ≤ fileSize := hw.size
  -- on the headers that are left
  induction m with
  | zero =>
    intro i hm
    exact Succeeds.ret (fun s hs => hend (by omega) hs)
  | succ m ih =>
    intro i hm
    unfold SukiOS.loadFrom
    apply Succeeds.bind_eq (hread i ePhnum 2 (by unfold ePhnum; omega))
    by_cases hi : i < phnumOf file
    · have hhdr := hw.hdr hi
      unfold sizeofPhdr at hhdr
      rw [if_pos (show i < load file ePhnum 2 from hi)]
      apply Succeeds.bind_eq (hread i (hdrOf file i + pType) 4 (by unfold pType; omega))
      by_cases ht : load file (hdrOf file i + pType) 4 = ptLoad
      · rw [if_pos ht]
        apply Succeeds.bind (hu.loadNext hw ⟨hi, ht⟩)
        exact fun _ => ih (i+1) (by omega)
      · rw [if_neg ht]
        exact (ih (i+1) (by omega)).weaken (fun s hs => hs.skip (fun hl => ht hl.2))
          (fun _ _ h => h)
    · rw [if_neg (show ¬ i < load file ePhnum 2 from hi)]
      exact Succeeds.ret (fun s hs => hend (not_lt.mp hi) hs)

/-- What the first pass has computed: bounds of the segments from the header `i` on. -/
structure SpanOf (file : Mem) (i base maxAddr : ℕ) (r : ℕ × ℕ) : Prop where
  le_base : r.1 ≤ base
  lowest : ∀ j, i ≤ j → Loads file j → r.1 ≤ vaddrOf file j
  base_eq : r.1 = base ∨ ∃ j, Loads file j ∧ r.1 = vaddrOf file j
  max_le : maxAddr ≤ r.2
  highest : ∀ j, i ≤ j → Loads file j → vaddrOf file j + memszOf file j ≤ r.2
  max_eq : r.2 = maxAddr ∨ ∃ j, Loads file j ∧ r.2 = vaddrOf file j + memszOf file j

theorem SpanOf.none {base maxAddr : ℕ} (hi : phnumOf file ≤ i) :
    SpanOf file i base maxAddr (base, maxAddr) := by
  have hno {j : ℕ} (hij : i ≤ j) (hl : Loads file j) : False := by
    have hlt : j < phnumOf file := hl.1
    omega
  exact ⟨le_rfl, fun j hij hl => (hno hij hl).elim, Or.inl rfl, le_rfl,
    fun j hij hl => (hno hij hl).elim, Or.inl rfl⟩

theorem SpanOf.skip {base maxAddr : ℕ} {r : ℕ × ℕ} (h : SpanOf file (i+1) base maxAddr r)
    (hi : ¬ Loads file i) : SpanOf file i base maxAddr r := by
  have hlater {j : ℕ} (hij : i ≤ j) (hl : Loads file j) : i + 1 ≤ j := by
    have hne : j ≠ i := fun h => hi (h ▸ hl)
    omega
  exact ⟨h.le_base, fun j hij hl => h.lowest j (hlater hij hl) hl, h.base_eq, h.max_le,
    fun j hij hl => h.highest j (hlater hij hl) hl, h.max_eq⟩

theorem SpanOf.segment {base maxAddr : ℕ} {r : ℕ × ℕ} (hi : Loads file i)
    (h : SpanOf file (i+1) (min (vaddrOf file i) base)
      (max maxAddr (vaddrOf file i + memszOf file i)) r) : SpanOf file i base maxAddr r := by
  refine ⟨h.le_base.trans (min_le_right _ _), fun j hij hl => ?_, ?_,
    (le_max_left _ _).trans h.max_le,
    fun j hij hl => ?_, ?_⟩
  · by_cases hji : j = i
    · rw [hji]
      exact h.le_base.trans (min_le_left _ _)
    · exact h.lowest j (by omega) hl
  · refine h.base_eq.elim (fun hr => ?_) Or.inr
    rcases min_choice (vaddrOf file i) base with hmin | hmin
    · exact Or.inr ⟨i, hi, hr.trans hmin⟩
    · exact Or.inl (hr.trans hmin)
  · by_cases hji : j = i
    · rw [hji]
      exact (le_max_right _ _).trans h.max_le
    · exact h.highest j (by omega) hl
  · refine h.max_eq.elim (fun hr => ?_) Or.inr
    rcases max_choice maxAddr (vaddrOf file i + memszOf file i) with hmax | hmax
    · exact Or.inl (hr.trans hmax)
    · exact Or.inr ⟨i, hi, hr.trans hmax⟩

theorem Holding.spanFrom (hw : WellFormedElf file fileSize) (m : ℕ) : ∀ i base maxAddr,
    phnumOf file < i + m →
    Succeeds (Holding K U file fileSize (NeededPage file) M V)
      (spanFrom K (phoffOf file) i base maxAddr m)
      (fun r s => SpanOf file i base maxAddr r ∧
        Holding K U file fileSize (NeededPage file) M V s) := by
  have hsize : 64 ≤ fileSize := hw.size
  have hread (off len : ℕ) (h : off + len ≤ fileSize) :
      Succeeds (Holding K U file fileSize (NeededPage file) M V) (readField K off len)
        (fun v s => v = load file off len ∧ Holding K U file fileSize (NeededPage file) M V s) :=
    Holding.reads h
  induction m with
  | zero =>
    intro i base maxAddr hm
    exact Succeeds.ret (fun s hs => ⟨SpanOf.none (by omega), hs⟩)
  | succ m ih =>
    intro i base maxAddr hm
    unfold SukiOS.spanFrom
    apply Succeeds.bind_eq (Holding.reads (by unfold ePhnum; omega))
    by_cases hi : i < phnumOf file
    · have hhdr := hw.hdr hi
      unfold sizeofPhdr at hhdr
      rw [if_pos (show i < load file ePhnum 2 from hi)]
      apply Succeeds.bind_eq (hread (hdrOf file i + pType) 4 (by unfold pType; omega))
      by_cases ht : load file (hdrOf file i + pType) 4 = ptLoad
      · have hl : Loads file i := ⟨hi, ht⟩
        rw [if_pos ht]
        apply Succeeds.bind_eq (hread (hdrOf file i + pVaddr) 8 (by unfold pVaddr; omega))
        apply Succeeds.bind_eq (hread (hdrOf file i + pMemsz) 8 (by unfold pMemsz; omega))
        have huser := hw.user i hl
        have hsum : (load file (hdrOf file i + pVaddr) 8 + load file
          (hdrOf file i + pMemsz) 8) % 2^64 =
            vaddrOf file i + memszOf file i := Nat.mod_eq_of_lt (huser.trans_lt (by decide))
        have hbase : (if load file (hdrOf file i + pVaddr) 8 < base then
            load file (hdrOf file i + pVaddr) 8 else base) = min (vaddrOf file i) base := by
          change (if vaddrOf file i < base then vaddrOf file i else base) = _
          split_ifs <;> omega
        have hmax (x : ℕ) : (if maxAddr < x then x else maxAddr) = max maxAddr x := by
          split_ifs <;> omega
        rw [hsum, hbase, hmax]
        apply (ih (i+1) _ _ (by omega)).weaken (fun _ h => h)
        exact fun r s hs => ⟨hs.1.segment hl, hs.2⟩
      · rw [if_neg ht]
        apply (ih (i+1) base maxAddr (by omega)).weaken (fun _ h => h)
        exact fun r s hs => ⟨hs.1.skip (fun hl => ht hl.2), hs.2⟩
    · rw [if_neg (show ¬ i < load file ePhnum 2 from hi)]
      exact Succeeds.ret (fun s hs => ⟨SpanOf.none (not_lt.mp hi), hs⟩)

theorem Holding.expect {off len want : ℕ} {text : String} (hn : off + len ≤ fileSize)
    (h : load file off len = want) :
    Succeeds (Holding K U file fileSize (NeededPage file) M V) (expect K off len want text)
      (fun _ => Holding K U file fileSize (NeededPage file) M V) := by
  apply Succeeds.bind_eq (Holding.reads hn)
  rw [if_neg (not_not.mpr h)]
  exact Succeeds.ret (fun _ hs => hs)

theorem Holding.checkHeader (hw : WellFormedElf file fileSize) :
    Succeeds (Holding K U file fileSize (NeededPage file) M V) (checkHeader K)
      (fun _ => Holding K U file fileSize (NeededPage file) M V) := by
  have hsize : 64 ≤ fileSize := hw.size
  have hmachine : eMachine + 2 ≤ fileSize := le_trans (by decide) hsize
  apply Succeeds.bind (Holding.expect (by omega) hw.header.mag0)
  intro _
  apply Succeeds.bind (Holding.expect (by omega) hw.header.mag1)
  intro _
  apply Succeeds.bind (Holding.expect (by omega) hw.header.mag2)
  intro _
  apply Succeeds.bind (Holding.expect (by omega) hw.header.mag3)
  intro _
  apply Succeeds.bind (Holding.expect (by omega) hw.header.cls)
  intro _
  exact Holding.expect hmachine hw.header.machine

/-- For entries of 56 bytes the sum of the check does not wrap around. -/
theorem WellFormedElf.checked (hw : WellFormedElf file fileSize) : checkedEnd file ≤ fileSize := by
  have hnum : phnumOf file < 2^16 := load_lt file ePhnum 2
  have htable := hw.table
  unfold checkedEnd headersEnd
  rw [hw.phentsize]
  unfold sizeofPhdr at htable ⊢
  dsimp only
  rw [if_pos (by omega)]
  exact (Nat.mod_le _ _).trans htable

theorem Holding.checkTable (hw : WellFormedElf file fileSize) :
    Succeeds (Holding K U file fileSize (NeededPage file) M V) (checkTable K fileSize)
      (fun v s => v = phoffOf file ∧ Holding K U file fileSize (NeededPage file) M V s) := by
  have hsize : 64 ≤ fileSize := hw.size
  apply Succeeds.bind_eq (Holding.reads (by unfold ePhoff; omega))
  apply Succeeds.bind_eq (Holding.reads (by unfold ePhentsize; omega))
  apply Succeeds.bind_eq (Holding.reads (by unfold ePhnum; omega))
  apply Succeeds.bind Succeeds.emit
  intro _
  have hend := hw.checked
  unfold checkedEnd phoffOf phentsizeOf phnumOf at hend
  rw [if_neg (not_lt.mpr hend)]
  exact Succeeds.ret (fun s hs => ⟨rfl, hs⟩)

theorem UserMemory.elf64Load (hu : UserMemory K U) (hw : WellFormedElf file fileSize) :
    Succeeds (Holding K U file fileSize (NeededPage file) M V) (elf64Load K fileSize)
      (fun res s => LoadedExactly U file s.kernel res) := by
  have hfuel : phnumOf file < 0 + maxHeaders := by
    rw [Nat.zero_add]
    exact phnumOf_lt file
  unfold SukiOS.elf64Load
  rw [if_neg (not_lt.mpr hw.size)]
  apply Succeeds.bind (Holding.checkHeader hw)
  intro _
  apply Succeeds.bind_eq (Holding.checkTable hw)
  apply Succeeds.bind (Holding.spanFrom hw _ _ _ _ hfuel)
  intro span
  apply Succeeds.fact
  intro hspan
  -- a segment begins in user memory, so the lowest address is one of a segment
  obtain ⟨i, hi⟩ := hw.segment
  have hlow := hspan.lowest i (Nat.zero_le i) hi
  have huser := hw.user i hi
  have hbase : span.1 ≠ uint64Max := by
    unfold uint64Max
    unfold userEnd at huser
    omega
  rw [if_neg hbase]
  have hload := hu.loadFrom (V := V) hw maxHeaders 0 hfuel
  apply Succeeds.bind (hload.weaken (fun s hs => ?_) (fun _ _ h => h))
  · intro _
    apply Succeeds.exists
    intro M'
    apply Succeeds.fact
    intro hsegments
    have hsize : 64 ≤ fileSize := hw.size
    apply Succeeds.bind_eq (Holding.reads (by unfold eEntry; omega))
    apply Succeeds.ret
    intro s hs
    have hhigh := hspan.highest i (Nat.zero_le i) hi
    have hmaxeq : ∃ j, Loads file j ∧ span.2 = vaddrOf file j + memszOf file j := by
      rcases hspan.max_eq with h0 | h
      · exact ⟨i, hi, by omega⟩
      · exact h
    have hmax : span.2 < 2^64 := by
      obtain ⟨j, hj, hspan2⟩ := hmaxeq
      have hj' := hw.user j hj
      unfold userEnd at hj'
      omega
    refine ⟨fun j hj => ?_, fun j a hj ha => ?_, fun j hj => hspan.lowest j (Nat.zero_le j) hj,
      hspan.base_eq.resolve_left hbase, fun j hj => hspan.highest j (Nat.zero_le j) hj, hmaxeq, ?_,
        rfl⟩
    · rw [hs.bytes]
      exact hsegments j hj
    · exact (hs.pages _).mpr (Or.inr ⟨j, hj, hw.page_of hj ha⟩)
    · change span.1 + (span.2 + (2^64 - span.1)) % 2^64 = span.2
      omega
  · refine ⟨M, fun j hj => absurd hj (Nat.not_lt_zero j), hs.congr (fun q => ⟨Or.inl, fun h => ?_⟩)⟩
    refine h.resolve_right (fun hbefore => ?_)
    obtain ⟨j, hj, -⟩ := hbefore
    exact absurd hj (Nat.not_lt_zero j)

/-- There are frames for the pages of the segments that are not mapped yet. -/
def EnoughFrames (U : UserView σ) (file : Mem) (k : σ) : Prop :=
  ∃ L : List ℕ, (∀ p, NeededPage file p → ¬ U.mapped k p → p ∈ L) ∧ L.length ≤ U.frames k

/-- A well-formed image whose buffer is apart from user memory is loaded, and loaded exactly. -/
theorem elf_load_exact (hu : UserMemory K U) (hw : WellFormedElf file fileSize) {s : Loader σ}
    (hheld : ∀ o, o < fileSize → K.peek s.kernel o = some (file o))
    (hframes : EnoughFrames U file s.kernel) :
    ∃ res, (elf64Load K fileSize s).value = .ok res ∧
      LoadedExactly U file (elf64Load K fileSize s).state.kernel res := by
  have hload := hu.elf64Load (M := U.mem s.kernel) (V := U.mapped s.kernel) hw
  exact hload s ⟨hheld, rfl, fun _ => Iff.rfl, hframes⟩

end Passes

/-! ### An image with two segments on one page -/

/-- The pages, each with the flags it was mapped with, and the bytes. -/
structure PlainMemory where
  pages : List (ℕ × ℕ)
  mem : Mem

/-- A machine with frames for every page. -/
def plainMachine (file : Mem) : Kernel PlainMemory where
  peek _ o := some (file o)
  store k a b := some { k with mem := Function.update k.mem a b }
  vmmIsMapped k p := some (k.pages.any (fun q => q.1 = p))
  vmmAllocMap k p perm := some (⟨(p, perm) :: k.pages, withPage k.mem p⟩, 0)

def plainView : UserView PlainMemory where
  mapped k p := ∃ q ∈ k.pages, q.1 = p
  mem := PlainMemory.mem
  frames _ := 1

theorem plainMachine_user (file : Mem) : UserMemory (plainMachine file) plainView where
  query s p _ := by
    refine ⟨_, rfl, ?_⟩
    rw [List.any_eq_true]
    unfold plainView
    simp only [decide_eq_true_eq]
  alloc s p perm _ _ _ _ := by
    refine ⟨_, rfl, fun q => ?_, rfl, Nat.le_succ _, rfl⟩
    unfold plainView
    simp only [List.mem_cons, exists_eq_or_imp]
    rw [or_comm, eq_comm]
  store s a b _ _ := ⟨_, rfl, fun _ => Iff.rfl, rfl, rfl, rfl⟩

/-- A program header at `hdr`. -/
def withSegment (m : Mem) (hdr flags offset vaddr filesz memsz : ℕ) : Mem :=
  let start := store (store (store m hdr 4 1) (hdr+pFlags) 4 flags) (hdr+pOffset) 8 offset
  store (store (store start (hdr+pVaddr) 8 vaddr) (hdr+pFilesz) 8 filesz) (hdr+pMemsz) 8 memsz

/-- A read-only segment, and a writable one that follows on the same page. -/
def sharedPage : Mem :=
  let first := store (store (oneSegment 0 0x400000 8 16) ePhnum 2 2) (64+pFlags) 4 4
  withSegment first 120 6 64 0x400100 4 8

theorem sharedPage_loads {i : ℕ} (h : Loads sharedPage i) : i = 0 ∨ i = 1 := by
  have hnum : phnumOf sharedPage = 2 := by decide
  have hi := h.1
  rw [hnum] at hi
  omega

theorem sharedPage_wellFormed : WellFormedElf sharedPage 176 where
  size := by decide
  header := ⟨by decide, by decide, by decide, by decide, by decide, by decide⟩
  phentsize := by decide
  table := by decide
  segment := ⟨0, by decide⟩
  inFile i hi := by rcases sharedPage_loads hi with rfl | rfl <;> decide
  filesz_le i hi := by rcases sharedPage_loads hi with rfl | rfl <;> decide
  user i hi := by rcases sharedPage_loads hi with rfl | rfl <;> decide
  apart i j a hi hj h1 h2 := by
    have hvaddr : vaddrOf sharedPage 0 = 0x400000 ∧ vaddrOf sharedPage 1 = 0x400100 := by decide
    have hmemsz : memszOf sharedPage 0 = 16 ∧ memszOf sharedPage 1 = 8 := by decide
    unfold SegmentByte at h1 h2
    rcases sharedPage_loads hi with rfl | rfl <;> rcases sharedPage_loads hj with rfl | rfl <;>
      omega

theorem sharedPage_frames : EnoughFrames plainView sharedPage ⟨[], fun _ => 0#8⟩ := by
  refine ⟨[0x400000], fun p hp _ => List.mem_singleton.mpr ?_, le_rfl⟩
  obtain ⟨i, hi, k, hk, rfl⟩ := hp
  have hone : ∀ i, i = 0 ∨ i = 1 → segStart (vaddrOf sharedPage i) = 0x400000 ∧
      (segEnd (vaddrOf sharedPage i) (memszOf sharedPage i) - 0x400000) / 4096 = 1 := by
    intro i hi
    rcases hi with rfl | rfl <;> decide
  obtain ⟨hstart, hcount⟩ := hone i (sharedPage_loads hi)
  rw [hstart] at hk ⊢
  omega

theorem elf_load_exact_sharedPage : ∃ res,
    (elf64Load (plainMachine sharedPage) 176 ⟨⟨[], fun _ => 0#8⟩, []⟩).value = .ok res ∧
    LoadedExactly plainView sharedPage
      (elf64Load (plainMachine sharedPage) 176 ⟨⟨[], fun _ => 0#8⟩, []⟩).state.kernel res :=
  elf_load_exact (plainMachine_user sharedPage) sharedPage_wellFormed
    (fun _ _ => rfl) sharedPage_frames

end SukiOS

import SukiOS.ElfTrace

/-! When `elf64_load` stays inside the file and inside the memory of its segments. -/
namespace SukiOS
open ByteMemory Traced

/-! ### A machine where everything succeeds -/

/-- Each page is mapped on demand and each store succeeds; the buffer is not changed. The state is
the list of the pages mapped so far, and whether a mapping or a byte of memory was changed. -/
noncomputable def willing (file : Mem) (present : ℕ → Prop) : Kernel (List ℕ × Bool) where
  peek _ o := some (file o)
  store k _ _ := some (k.1, true)
  vmmIsMapped k p := some (@decide (p ∈ k.1 ∨ present p) (Classical.propDecidable _))
  vmmAllocMap k va _ := some ((va :: k.1, true), 0)

/-- The state of that machine when the call has mapped the pages of `l`. -/
def having (l : List ℕ) (b : Bool) : Loader (List ℕ × Bool) := ⟨(l, b), l⟩

/-- The mark `b` is set when the call has mapped a page. -/
def Marked (l : List ℕ) (b : Bool) : Prop := l ≠ [] → b = true

theorem willing_steady (file : Mem) (n : ℕ) (present : ℕ → Prop) (P : LoadEvent → Prop) :
    Steady (willing file present) (fun s => s.kernel.1 = s.mine) file n present P where
  peek _ _ _ _ := rfl
  mapped s p hs h := by
    have hp := @of_decide_eq_true _ (Classical.propDecidable _) (Option.some.inj h)
    rwa [hs] at hp
  store s a b k hs _ h := by
    obtain rfl := Option.some.inj h
    exact hs
  alloc s va perm k r hs h := by
    obtain ⟨rfl, rfl⟩ := Prod.mk.inj (Option.some.inj h)
    dsimp only
    rw [if_pos rfl, hs]

section Willing
variable (file : Mem) (present : ℕ → Prop) {l : List ℕ} {b : Bool} {fileSize : ℕ}

theorem willing_readField (off len : ℕ) : Yields (readField (willing file present) off len)
    (having l b) (load file off len) (having l b) (· = .read off len) := by
  have hread : Yields (Run.attempt .fault (fun s : Loader (List ℕ × Bool) =>
      (peekWord ((willing file present).peek s.kernel) off len).map (fun v => (v, s))) :
      LoadM (List ℕ × Bool) ℕ) (having l b) (load file off len) (having l b) (fun _ => False) := by
    apply Yields.attempt
    have hword : peekWord ((willing file present).peek (having l b).kernel) off len =
        some (load file off len) := peekWord_eq len off (fun _ _ => rfl)
    rw [hword]
    rfl
  exact (Yields.emit.bind hread).mono (fun _ h => Or.inl h)

theorem willing_storeByte (addr : ℕ) (w : Byte) : Yields (storeByte (willing file present) addr w)
    (having l b) () (having l true) (· = .store addr (l.contains (addr / 4096 * 4096))) := by
  have hstore : Yields (Run.attempt .fault (fun s : Loader (List ℕ × Bool) =>
      ((willing file present).store s.kernel addr w).map (fun k => ((), { s with kernel := k }))) :
      LoadM (List ℕ × Bool) Unit) (having l b) () (having l true) (fun _ => False) :=
    Yields.attempt rfl
  exact (Yields.emit.bind hstore).mono (fun _ h => Or.inl h)

theorem willing_mapPage (hdr va : ℕ) : ∃ l' b', Yields (mapPage (willing file present) hdr va)
    (having l b) () (having l' b') (fun _ => False) ∧
    (∀ p, p ∈ l' ↔ p ∈ l ∨ ¬ present p ∧ p = va) ∧ (b = true → b' = true) ∧
    (Marked l b → Marked l' b') := by
  have hmapped : Yields (isMapped (willing file present) va) (having l b)
      (@decide (va ∈ l ∨ present va) (Classical.propDecidable _)) (having l b) (fun _ => False) :=
    Yields.attempt rfl
  by_cases hva : va ∈ l ∨ present va
  · -- the page is mapped already
    refine ⟨l, b, ?_, fun p => ⟨Or.inl, fun h => h.elim id ?_⟩, id, id⟩
    · apply (hmapped.bind (F := fun _ => False) ?_).mono (fun _ h => h.elim)
      · rw [@decide_eq_true _ (Classical.propDecidable _) hva]
        exact Yields.ret
    · rintro ⟨hp, rfl⟩
      exact hva.resolve_right hp
  · have hnot := not_or.mp hva
    refine ⟨va :: l, true, ?_, fun p => ?_, fun _ => rfl, fun _ _ => rfl⟩
    · have hflags : Yields (pageFlags (willing file present) hdr (load file (hdr + pVaddr) 8) va)
          (having l b) (if load file (hdr + pVaddr) 8 ≤ va then load file (hdr + pFlags) 4 else 0)
          (having l b) (fun _ => False) := by
        unfold pageFlags
        by_cases hle : load file (hdr + pVaddr) 8 ≤ va
        · rw [if_pos hle, if_pos hle]
          exact (willing_readField file present _ _).mono (fun _ h => h.elim)
        · rw [if_neg hle, if_neg hle]
          exact Yields.ret
      have halloc (perm : ℕ) : Yields (allocMap (willing file present) va perm) (having l b) 0
          (having (va :: l) true) (fun _ => False) := Yields.attempt rfl
      have hdone : Yields (if (0 : ℤ) ≠ 0 then Run.stop (.error "Failed to map page") else pure () :
          LoadM (List ℕ × Bool) Unit) (having (va :: l) true) () (having (va :: l) true)
          (fun _ => False) := by
        rw [if_neg (by decide)]
        exact Yields.ret
      have hquiet {E F : LoadEvent → Prop} : ∀ e, False → E e ∨ F e := fun _ h => h.elim
      unfold mapPage
      refine Yields.mono (Yields.bind (F := fun _ => False) hmapped ?_) hquiet
      rw [@decide_eq_false _ (Classical.propDecidable _) hva, if_neg Bool.false_ne_true]
      refine Yields.mono (Yields.bind (F := fun _ => False) (willing_readField file present _ _) ?_)
        hquiet
      refine Yields.mono (Yields.bind (F := fun _ => False) hflags ?_) hquiet
      exact Yields.mono (Yields.bind (F := fun _ => False) (halloc _) hdone) hquiet
    · rw [List.mem_cons, or_comm]
      refine or_congr_right ⟨?_, fun h => h.2⟩
      rintro rfl
      exact ⟨hnot.2, rfl⟩

theorem willing_mapFrom (hdr : ℕ) (m : ℕ) : ∀ va l b, ∃ l' b',
    Yields (mapFrom (willing file present) hdr va m) (having l b) () (having l' b')
      (fun _ => False) ∧
    (∀ p, p ∈ l' ↔ p ∈ l ∨ ¬ present p ∧ ∃ k, k < m ∧ p = va + 4096*k) ∧ (b = true → b' = true) ∧
    (Marked l b → Marked l' b') := by
  induction m with
  | zero =>
    refine fun va l b => ⟨l, b, Yields.ret, fun p => ⟨Or.inl, fun h => h.resolve_right ?_⟩, id, id⟩
    rintro ⟨-, k, hk, -⟩
    exact absurd hk (Nat.not_lt_zero k)
  | succ m ih =>
    intro va l b
    obtain ⟨l1, b1, h1, hl1, hb1, hm1⟩ := @willing_mapPage file present l b hdr va
    obtain ⟨l2, b2, h2, hl2, hb2, hm2⟩ := ih (va + 4096) l1 b1
    refine ⟨l2, b2, (h1.bind h2).mono (fun _ h => h.elim), fun p => ?_, fun h => hb2 (hb1 h),
      fun h => hm2 (hm1 h)⟩
    rw [hl2, hl1, or_assoc]
    refine or_congr_right ?_
    constructor
    · rintro (⟨hp, rfl⟩ | ⟨hp, k, hk, rfl⟩)
      · exact ⟨hp, 0, by omega, by omega⟩
      · exact ⟨hp, k+1, by omega, by omega⟩
    · rintro ⟨hp, k, hk, rfl⟩
      cases k with
      | zero => exact Or.inl ⟨hp, by omega⟩
      | succ k => exact Or.inr ⟨hp, k, by omega, by omega⟩

/-- A loop from `j` on handles `j` first and then the rest of the range. -/
theorem range_first {E : ℕ → Prop} {j m : ℕ} (h : ∃ k, j ≤ k ∧ k < j + (m + 1) ∧ E k) :
    E j ∨ ∃ k, j + 1 ≤ k ∧ k < j + 1 + m ∧ E k := by
  obtain ⟨k, h1, h2, hE⟩ := h
  by_cases hk : k = j
  · exact Or.inl (hk ▸ hE)
  · exact Or.inr ⟨k, by omega, by omega, hE⟩

theorem range_empty {E : ℕ → Prop} {j : ℕ} : ¬ ∃ k, j ≤ k ∧ k < j + 0 ∧ E k := by
  rintro ⟨k, h1, h2, -⟩
  omega

/-- The events of copying the bytes from `i` up to `j`. -/
def Copies (l : List ℕ) (dst src i j : ℕ) (e : LoadEvent) : Prop :=
  ∃ k, i ≤ k ∧ k < j ∧ (e = .read (src + k) 1 ∨
    e = .store ((dst + k) % 2^64) (l.contains ((dst + k) % 2^64 / 4096 * 4096)))

theorem willing_copyChunk (dst src : ℕ) (m : ℕ) : ∀ j b, ∃ b',
    Yields (copyChunk (willing file present) dst src j m) (having l b) () (having l b')
      (Copies l dst src j (j+m)) ∧ (b = true ∨ 0 < m → b' = true) := by
  induction m with
  | zero =>
    exact fun j b => ⟨b, Yields.ret.mono (fun _ h => range_empty h),
      fun h => h.resolve_right (Nat.lt_irrefl 0)⟩
  | succ m ih =>
    intro j b
    obtain ⟨b', hrest, hb'⟩ := ih (j+1) true
    refine ⟨b', ?_, fun _ => hb' (Or.inl rfl)⟩
    apply ((willing_readField file present (src + j) 1).bind
      ((willing_storeByte file present ((dst + j) % 2^64) _).bind hrest)).mono
    intro e he
    -- the byte `j` itself, or a later one
    rcases range_first he with h | h
    · exact h.imp id Or.inl
    · exact Or.inr (Or.inr h)

theorem willing_copyFrom (vaCopy src : ℕ) (m : ℕ) : ∀ offset left b, left ≤ m → ∃ b',
    Yields (copyFrom (willing file present) vaCopy src offset left m) (having l b) () (having l b')
      (Copies l vaCopy src offset (offset+left)) ∧ (b = true ∨ 0 < left → b' = true) := by
  induction m with
  | zero =>
    refine fun offset left b hm => ⟨b, Yields.ret.mono (fun e h => ?_),
      fun h => h.resolve_right (by omega)⟩
    obtain ⟨k, h1, h2, -⟩ := h
    omega
  | succ m ih =>
    intro offset left b hm
    unfold copyFrom
    by_cases h0 : left = 0
    · rw [if_pos h0]
      refine ⟨b, Yields.ret.mono (fun e h => ?_), fun h => h.resolve_right (by omega)⟩
      obtain ⟨k, h1, h2, -⟩ := h
      omega
    rw [if_neg h0]
    have hle := chunkSize_le vaCopy offset left
    have hpos : 0 < chunkSize vaCopy offset left := chunkSize_pos h0
    obtain ⟨b1, hchunk, hb1⟩ := @willing_copyChunk file present l ((vaCopy + offset) % 2^64)
      (src + offset) (chunkSize vaCopy offset left) 0 b
    obtain ⟨b2, hrest, hb2⟩ := ih (offset + chunkSize vaCopy offset left)
      (left - chunkSize vaCopy offset left) b1 (by omega)
    refine ⟨b2, (hchunk.bind hrest).mono ?_, fun _ => hb2 (Or.inl (hb1 (Or.inr hpos)))⟩
    rintro e ⟨k, h1, h2, h⟩
    by_cases hk : k < offset + chunkSize vaCopy offset left
    · refine Or.inl ⟨k - offset, by omega, by omega, ?_⟩
      rw [chunk_addr, Nat.add_assoc, Nat.add_sub_cancel' h1]
      exact h
    · exact Or.inr ⟨k, by omega, by omega, h⟩

/-- The event of clearing the byte `k` of a segment. -/
def Clears (l : List ℕ) (bss : ℕ) (k : ℕ) (e : LoadEvent) : Prop :=
  e = .store ((bss + k) % 2^64) (l.contains ((bss + k) % 2^64 / 4096 * 4096))

theorem willing_zeroFrom (bss : ℕ) (m : ℕ) : ∀ j b, ∃ b',
    Yields (zeroFrom (willing file present) bss j m) (having l b) () (having l b')
      (fun e => ∃ k, j ≤ k ∧ k < j + m ∧ Clears l bss k e) ∧ (b = true ∨ 0 < m → b' = true) := by
  induction m with
  | zero =>
    exact fun j b => ⟨b, Yields.ret.mono (fun _ h => range_empty h),
      fun h => h.resolve_right (Nat.lt_irrefl 0)⟩
  | succ m ih =>
    intro j b
    obtain ⟨b', hrest, hb'⟩ := ih (j+1) true
    refine ⟨b', ?_, fun _ => hb' (Or.inl rfl)⟩
    apply ((willing_storeByte file present ((bss + j) % 2^64) 0).bind hrest).mono
    exact fun e he => range_first he

/-- The accesses for the segment of the header `i`; the pages of `l` are the call's. -/
inductive SegmentEvent (file : Mem) (l : List ℕ) (i : ℕ) : LoadEvent → Prop
  | copy {k : ℕ} (hk : k < fileszOf file i) : SegmentEvent file l i (.read (offsetOf file i + k) 1)
  | store {k : ℕ} (hk : k < fileszOf file i ∨ k < memszOf file i) : SegmentEvent file l i
      (.store ((vaddrOf file i + k) % 2^64)
        (l.contains ((vaddrOf file i + k) % 2^64 / 4096 * 4096)))

/-- The loader maps a page or stores a byte for the header `i`. -/
def Touches (file : Mem) (present : ℕ → Prop) (i : ℕ) : Prop :=
  fileszOf file i ≠ 0 ∨ memszOf file i ≠ 0 ∨ ∃ p, ¬ present p ∧ PageOf file i p

theorem willing_loadSegment (i : ℕ) (l : List ℕ) (b : Bool) : ∃ l' b',
    Yields (loadSegment (willing file present) (hdrOf file i)) (having l b) () (having l' b')
      (SegmentEvent file l' i) ∧
    (∀ p, p ∈ l' ↔ p ∈ l ∨ ¬ present p ∧ PageOf file i p) ∧ (b = true → b' = true) ∧
    (Marked l b → Marked l' b' ∧ (Touches file present i → b' = true)) := by
  obtain ⟨l', b1, hmap, hl', hb1, hm1⟩ := willing_mapFrom file present (hdrOf file i)
    ((segEnd (vaddrOf file i) (memszOf file i) - segStart (vaddrOf file i)) / 4096)
    (segStart (vaddrOf file i)) l b
  obtain ⟨b2, hcopy, hb2⟩ := @willing_copyFrom file present l' (vaddrOf file i)
    (offsetOf file i) (fileszOf file i) 0 (fileszOf file i) b1 le_rfl
  obtain ⟨b3, hzero, hb3⟩ := @willing_zeroFrom file present l'
    ((vaddrOf file i + fileszOf file i) % 2^64) (memszOf file i - fileszOf file i) 0 b2
  -- the zeros begin behind the bytes of the file
  have hbss : ∃ b4, Yields (if fileszOf file i < memszOf file i then
      readField (willing file present) (hdrOf file i + pVaddr) 8 >>= fun vaddr =>
        zeroFrom (willing file present) ((vaddr + fileszOf file i) % 2^64) 0
          (memszOf file i - fileszOf file i)
      else pure ()) (having l' b2) () (having l' b4) (fun e => ∃ k, fileszOf file i ≤ k ∧
        k < memszOf file i ∧ Clears l' (vaddrOf file i) k e) ∧
      (b2 = true ∨ fileszOf file i < memszOf file i → b4 = true) := by
    by_cases hlt : fileszOf file i < memszOf file i
    · refine ⟨b3, ?_, fun h => hb3 (h.imp id (fun _ => by omega))⟩
      rw [if_pos hlt]
      refine Yields.mono (Yields.bind (willing_readField file present _ _) hzero) ?_
      rintro e ⟨k, h1, h2, he⟩
      refine Or.inr ⟨k - fileszOf file i, Nat.zero_le _, by omega, ?_⟩
      unfold Clears
      rw [chunk_addr, Nat.add_sub_cancel' h1]
      exact he
    · refine ⟨b2, ?_, fun h => h.resolve_right hlt⟩
      rw [if_neg hlt]
      refine Yields.ret.mono ?_
      rintro e ⟨k, h1, h2, -⟩
      omega
  obtain ⟨b4, hbss, hb4⟩ := hbss
  have hkeep : b1 = true → b4 = true := fun h => hb4 (Or.inl (hb2 (Or.inl h)))
  refine ⟨l', b4, ?_, hl', fun h => hkeep (hb1 h), fun hm => ⟨fun hne => hkeep (hm1 hm hne), ?_⟩⟩
  · have hread (off : ℕ) := @willing_readField file present l' b1 (hdrOf file i + off) 8
    have hread0 (off : ℕ) := @willing_readField file present l b (hdrOf file i + off) 8
    have hread2 (off : ℕ) := @willing_readField file present l' b2 (hdrOf file i + off) 8
    unfold loadSegment
    refine Yields.mono (Yields.bind (hread0 pVaddr) (Yields.bind (hread0 pMemsz) (Yields.bind hmap
      (Yields.bind (hread pVaddr) (Yields.bind (hread pFilesz) (Yields.bind (hread pOffset)
        (Yields.bind hcopy (Yields.bind (hread2 pMemsz) (Yields.bind (hread2 pFilesz) hbss)))))))))
          ?_
    rintro e he
    have hin : Copies l' (vaddrOf file i) (offsetOf file i) 0 (0 + fileszOf file i) e ∨
        ∃ k, fileszOf file i ≤ k ∧ k < memszOf file i ∧ Clears l' (vaddrOf file i) k e := by
      cases he with
      | @copy k hk => exact Or.inl ⟨k, Nat.zero_le k, by omega, Or.inl rfl⟩
      | @store k hk =>
        by_cases hk' : k < fileszOf file i
        · exact Or.inl ⟨k, Nat.zero_le k, by omega, Or.inr rfl⟩
        · exact Or.inr ⟨k, by omega, hk.resolve_left hk', rfl⟩
    rcases hin with h | h
    · exact Or.inr (Or.inr (Or.inr (Or.inr (Or.inr (Or.inr (Or.inl h))))))
    · exact Or.inr (Or.inr (Or.inr (Or.inr (Or.inr (Or.inr (Or.inr (Or.inr (Or.inr h))))))))
  · rintro (h | h | ⟨p, hp, hpage⟩)
    · exact hb4 (Or.inl (hb2 (Or.inr (by omega))))
    · by_cases h0 : fileszOf file i = 0
      · exact hb4 (Or.inr (by omega))
      · exact hb4 (Or.inl (hb2 (Or.inr (by omega))))
    · exact hkeep (hm1 hm (List.ne_nil_of_mem ((hl' p).mpr (Or.inr ⟨hp, hpage⟩))))

theorem phnumOf_lt (file : Mem) : phnumOf file < maxHeaders := load_lt file ePhnum 2

/-- The pages of the call are those of the segments so far that were not present. -/
def MineUpTo (file : Mem) (present : ℕ → Prop) (i : ℕ) (l : List ℕ) : Prop :=
  ∀ p, p ∈ l ↔ ¬ present p ∧ PagesBefore file i p

variable {file present} in
theorem MineUpTo.segment {i : ℕ} {l' : List ℕ} (hl : MineUpTo file present i l) (hi : Loads file i)
    (h : ∀ p, p ∈ l' ↔ p ∈ l ∨ ¬ present p ∧ PageOf file i p) : MineUpTo file present (i+1) l' := by
  intro p
  rw [h, hl p]
  constructor
  · rintro (⟨hp, j, hj, hrest⟩ | ⟨hp, hpage⟩)
    · exact ⟨hp, j, by omega, hrest⟩
    · exact ⟨hp, i, Nat.lt_succ_self i, hi, hpage⟩
  · rintro ⟨hp, j, hj, hload, hpage⟩
    by_cases hji : j = i
    · exact Or.inr ⟨hp, hji ▸ hpage⟩
    · exact Or.inl ⟨hp, j, by omega, hload, hpage⟩

variable {file present} in
theorem MineUpTo.skip {i : ℕ} (hl : MineUpTo file present i l) (hi : ¬ Loads file i) :
    MineUpTo file present (i+1) l := by
  intro p
  rw [hl p]
  refine and_congr_right (fun _ => ⟨?_, ?_⟩)
  · rintro ⟨j, hj, hrest⟩
    exact ⟨j, by omega, hrest⟩
  · rintro ⟨j, hj, hload, hpage⟩
    have hji : j ≠ i := by
      rintro rfl
      exact hi hload
    exact ⟨j, by omega, hload, hpage⟩

/-- There are finitely many of them. -/
theorem exists_mineUpTo (file : Mem) (present : ℕ → Prop) (i : ℕ) :
    ∃ l, MineUpTo file present i l := by
  induction i with
  | zero =>
    refine ⟨[], fun p => ⟨fun h => absurd h List.not_mem_nil, ?_⟩⟩
    rintro ⟨-, j, hj, -⟩
    exact absurd hj (Nat.not_lt_zero j)
  | succ i ih =>
    obtain ⟨l, hl⟩ := ih
    by_cases hi : Loads file i
    · obtain ⟨l', -, -, hl', -⟩ := willing_loadSegment file present i l false
      exact ⟨l', hl.segment hi hl'⟩
    · exact ⟨l, hl.skip hi⟩

/-- The pages determine the events of a segment. -/
theorem MineUpTo.event {file : Mem} {present : ℕ → Prop} {i j : ℕ} {l1 l2 : List ℕ} {e : LoadEvent}
    (h1 : MineUpTo file present i l1) (h2 : MineUpTo file present i l2)
    (he : SegmentEvent file l1 j e) : SegmentEvent file l2 j e := by
  have hsame (p : ℕ) : l1.contains p = l2.contains p := by
    rw [Bool.eq_iff_iff, List.contains_iff_mem, List.contains_iff_mem, h1 p, h2 p]
  cases he with
  | copy hk => exact .copy hk
  | store hk =>
    rw [hsame]
    exact .store hk

/-! Both passes begin a turn with `e_phnum` and the type of the header. -/

section Turn
variable {α : Type} {A B C : LoadM (List ℕ × Bool) α} {r : α} {s : Loader (List ℕ × Bool)}
  {E : LoadEvent → Prop} {i : ℕ}

theorem willing_turn (hi : i < phnumOf file)
    (h : Yields (if load file (hdrOf file i + pType) 4 = ptLoad then A else B) (having l b) r s E) :
    Yields (readField (willing file present) ePhnum 2 >>= fun phnum =>
      if i < phnum then readField (willing file present) (hdrOf file i + pType) 4 >>= fun type =>
        if type = ptLoad then A else B
      else C) (having l b) r s (fun e => e = .read (hdrOf file i + pType) 4 ∨ E e) := by
  refine Yields.mono (Yields.bind (willing_readField file present ePhnum 2) ?_)
    (fun e he => Or.inr he)
  rw [if_pos (show i < load file ePhnum 2 from hi)]
  exact Yields.bind (willing_readField file present (hdrOf file i + pType) 4) h

theorem willing_turn_end (hi : ¬ i < phnumOf file) (h : Yields C (having l b) r s E) :
    Yields (readField (willing file present) ePhnum 2 >>= fun phnum =>
      if i < phnum then readField (willing file present) (hdrOf file i + pType) 4 >>= fun type =>
        if type = ptLoad then A else B
      else C) (having l b) r s E := by
  refine Yields.mono (Yields.bind (willing_readField file present ePhnum 2) ?_)
    (fun e he => Or.inr he)
  rw [if_neg (show ¬ i < load file ePhnum 2 from hi)]
  exact h

end Turn

theorem willing_loadFrom (m : ℕ) : ∀ i l b, phnumOf file < i + m → MineUpTo file present i l →
    ∃ l' b',
    Yields (loadFrom (willing file present) (phoffOf file) i m) (having l b) () (having l' b')
      (fun e => ∃ j lj, i ≤ j ∧ Loads file j ∧ MineUpTo file present (j+1) lj ∧
        SegmentEvent file lj j e) ∧ (b = true → b' = true) ∧
    (Marked l b → ∀ j, i ≤ j → Loads file j → Touches file present j → b' = true) := by
  have hend {i j : ℕ} (hi : ¬ i < phnumOf file) (hij : i ≤ j) (hj : Loads file j) : False := by
    have hlt : j < phnumOf file := hj.1
    omega
  induction m with
  | zero =>
    intro i l b hm _
    have hi : ¬ i < phnumOf file := by omega
    refine ⟨l, b, Yields.ret.mono ?_, id, fun _ j hij hj => (hend hi hij hj).elim⟩
    rintro e ⟨j, lj, hij, hj, -⟩
    exact hend hi hij hj
  | succ m ih =>
    intro i l b hm hl
    unfold loadFrom
    by_cases hi : i < phnumOf file
    · by_cases ht : load file (hdrOf file i + pType) 4 = ptLoad
      · obtain ⟨l1, b1, hseg, hl1, hb1, hm1⟩ := willing_loadSegment file present i l b
        have hmapped : MineUpTo file present (i+1) l1 := hl.segment ⟨hi, ht⟩ hl1
        obtain ⟨l', b', hrest, hb', hm'⟩ := ih (i+1) l1 b1 (by omega) hmapped
        refine ⟨l', b', ?_, fun h => hb' (hb1 h), fun hmark j hij hj htouch => ?_⟩
        · refine Yields.mono (willing_turn file present hi ?_) (fun e he => Or.inr he)
          rw [if_pos ht]
          refine Yields.mono (Yields.bind hseg hrest) ?_
          rintro e ⟨j, lj, hij, hj, hmj, he⟩
          by_cases hji : j = i
          · rw [hji] at he hmj
            exact Or.inl (hmj.event hmapped he)
          · exact Or.inr ⟨j, lj, by omega, hj, hmj, he⟩
        · obtain ⟨hmark1, hset⟩ := hm1 hmark
          by_cases hji : j = i
          · rw [hji] at htouch
            exact hb' (hset htouch)
          · exact hm' hmark1 j (by omega) hj htouch
      · -- another type of header: the pages and the mark stay
        have hnot {j : ℕ} (hj : Loads file j) : j ≠ i := by
          rintro rfl
          exact ht hj.2
        have hmapped : MineUpTo file present (i+1) l := hl.skip (fun h => ht h.2)
        obtain ⟨l', b', hrest, hb', hm'⟩ := ih (i+1) l b (by omega) hmapped
        refine ⟨l', b', ?_, hb', fun hmark j hij hj => ?_⟩
        · refine Yields.mono (willing_turn file present hi ?_) (fun e he => Or.inr he)
          rw [if_neg ht]
          refine hrest.mono ?_
          rintro e ⟨j, lj, hij, hj, hevent⟩
          have hji := hnot hj
          exact ⟨j, lj, by omega, hj, hevent⟩
        · have hji := hnot hj
          exact hm' hmark j (by omega) hj
    · refine ⟨l, b, ?_, id, fun _ j hij hj => (hend hi hij hj).elim⟩
      refine Yields.mono (willing_turn_end file present hi Yields.ret) ?_
      rintro e ⟨j, lj, hij, hj, -⟩
      exact hend hi hij hj

/-- The reads of the first pass from the header `i` on. -/
inductive SpanEvent (file : Mem) (i : ℕ) : LoadEvent → Prop
  | type {j : ℕ} (hij : i ≤ j) (hj : j < phnumOf file) :
      SpanEvent file i (.read (hdrOf file j + pType) 4)
  | memsz {j : ℕ} (hij : i ≤ j) (hj : Loads file j) :
      SpanEvent file i (.read (hdrOf file j + pMemsz) 8)

variable {file} in
theorem SpanEvent.cases_head {i : ℕ} {e : LoadEvent} (h : SpanEvent file i e) :
    e = .read (hdrOf file i + pType) 4 ∨
    (Loads file i ∧ e = .read (hdrOf file i + pMemsz) 8) ∨ SpanEvent file (i+1) e := by
  cases h with
  | @type j hij hj =>
    by_cases hji : j = i
    · exact Or.inl (by rw [hji])
    · exact Or.inr (Or.inr (.type (by omega) hj))
  | @memsz j hij hj =>
    by_cases hji : j = i
    · rw [hji] at hj ⊢
      exact Or.inr (Or.inl ⟨hj, rfl⟩)
    · exact Or.inr (Or.inr (.memsz (by omega) hj))

theorem willing_spanFrom (m : ℕ) : ∀ i base maxAddr, phnumOf file < i + m →
    ∃ r : ℕ × ℕ, Yields (spanFrom (willing file present) (phoffOf file) i base maxAddr m)
      (having l b) r
      (having l b) (SpanEvent file i) ∧ r.1 ≤ base ∧
      ∀ j, i ≤ j → Loads file j → r.1 ≤ vaddrOf file j := by
  have hend {i : ℕ} (hi : ¬ i < phnumOf file) {j : ℕ} (hij : i ≤ j) (hj : j < phnumOf file) :
    False := by
    omega
  -- no header is left to read
  have hnone {i : ℕ} (hi : ¬ i < phnumOf file) : ∀ e, SpanEvent file i e → False := by
    rintro e (⟨hij, hj⟩ | ⟨hij, hj⟩)
    · exact hend hi hij hj
    · exact hend hi hij hj.1
  induction m with
  | zero =>
    intro i base maxAddr hm
    have hi : ¬ i < phnumOf file := by omega
    exact ⟨(base, maxAddr), Yields.ret.mono (hnone hi), le_rfl,
      fun j hij hj => (hend hi hij hj.1).elim⟩
  | succ m ih =>
    intro i base maxAddr hm
    unfold spanFrom
    by_cases hi : i < phnumOf file
    · by_cases ht : load file (hdrOf file i + pType) 4 = ptLoad
      · obtain ⟨r, hr, hbase, hall⟩ :=
          ih (i+1) (if vaddrOf file i < base then vaddrOf file i else base)
          (if maxAddr < (vaddrOf file i + memszOf file i) % 2^64 then
            (vaddrOf file i + memszOf file i) % 2^64 else maxAddr) (by omega)
        have hmin : r.1 ≤ base ∧ r.1 ≤ vaddrOf file i := by
          split_ifs at hbase <;> omega
        refine ⟨r, ?_, hmin.1, fun j hij hj => ?_⟩
        · refine Yields.mono (willing_turn (E := fun e =>
            e = .read (hdrOf file i + pMemsz) 8 ∨ SpanEvent file (i+1) e) file present hi ?_)
            (fun e he => ?_)
          · rw [if_pos ht]
            exact Yields.mono (Yields.bind (willing_readField file present _ _) (Yields.bind
              (willing_readField file present _ _) hr)) (fun e he => Or.inr he)
          · rcases he.cases_head with h | ⟨-, h⟩ | h
            · exact Or.inl h
            · exact Or.inr (Or.inl h)
            · exact Or.inr (Or.inr h)
        · by_cases hji : j = i
          · rw [hji]
            exact hmin.2
          · exact hall j (by omega) hj
      · obtain ⟨r, hr, hbase, hall⟩ := ih (i+1) base maxAddr (by omega)
        refine ⟨r, ?_, hbase, fun j hij hj => ?_⟩
        · refine Yields.mono (willing_turn (E := SpanEvent file (i+1)) file present hi ?_)
            (fun e he => ?_)
          · rw [if_neg ht]
            exact hr
          · rcases he.cases_head with h | ⟨h, -⟩ | h
            · exact Or.inl h
            · exact absurd h.2 ht
            · exact Or.inr h
        · have hji : j ≠ i := by
            rintro rfl
            exact ht hj.2
          exact hall j (by omega) hj
    · exact ⟨(base, maxAddr), Yields.mono (willing_turn_end file present hi Yields.ret) (hnone hi),
        le_rfl, fun j hij hj => (hend hi hij hj.1).elim⟩

variable {file} in
theorem willing_expect {off len want : ℕ} {text : String} (h : load file off len = want) :
    Yields (expect (willing file present) off len want text) (having l b) () (having l b)
      (fun _ => False) := by
  refine Yields.mono (Yields.bind (F := fun _ => False) (willing_readField file present off len) ?_)
    (fun _ h => h.elim)
  rw [if_neg (not_not.mpr h)]
  exact Yields.ret

variable {file} in
theorem willing_checkHeader (h : HeaderOk file) :
    Yields (checkHeader (willing file present)) (having l b) () (having l b) (fun _ => False) := by
  refine Yields.mono (Yields.bind (willing_expect present h.mag0)
    (Yields.bind (willing_expect present h.mag1)
    (Yields.bind (willing_expect present h.mag2) (Yields.bind (willing_expect present h.mag3)
      (Yields.bind (willing_expect present h.cls) (willing_expect present h.machine))))))
        (fun _ h => h.elim)

theorem willing_sum : .sum (tableEnd file) (checkedEnd file) ∈
    (checkTable (willing file present) fileSize (having l b)).trace := by
  apply (willing_readField file present ePhoff 8).mem_trace
  apply (willing_readField file present ePhentsize 2).mem_trace
  apply (willing_readField file present ePhnum 2).mem_trace
  exact mem_trace_left (List.mem_singleton.mpr rfl)

variable {file} in
theorem willing_checkTable (h : checkedEnd file ≤ fileSize) :
    Yields (checkTable (willing file present) fileSize) (having l b) (phoffOf file) (having l b)
      (fun _ => False) := by
  refine Yields.mono (Yields.bind (willing_readField file present ePhoff 8) (Yields.bind
    (willing_readField file present ePhentsize 2)
    (Yields.bind (willing_readField file present ePhnum 2)
      (Yields.bind (F := fun _ => False) Yields.emit ?_)))) (fun _ h => h.elim)
  unfold checkedEnd phoffOf phentsizeOf phnumOf at h
  rw [if_neg (not_lt.mpr h)]
  exact Yields.ret

/-! ### What happens on that machine -/

variable {file} in
theorem happens_sum (h64 : sizeofEhdr ≤ fileSize) (hok : HeaderOk file) :
    .sum (tableEnd file) (checkedEnd file) ∈
      (elf64Load (willing file present) fileSize (having [] false)).trace := by
  unfold elf64Load
  rw [if_neg (not_lt.mpr h64)]
  exact (willing_checkHeader present hok).mem_trace (mem_trace_left (willing_sum file present))

variable {file} in
theorem happens_span (ha : Accepted file fileSize) {e : LoadEvent} (he : SpanEvent file 0 e) :
    e ∈ (elf64Load (willing file present) fileSize (having [] false)).trace := by
  have hfuel : phnumOf file < 0 + maxHeaders := by
    rw [Nat.zero_add]
    exact phnumOf_lt file
  obtain ⟨r, ⟨-, -, hr⟩, -⟩ :=
    @willing_spanFrom file present [] false maxHeaders 0 uint64Max 0 hfuel
  unfold elf64Load
  rw [if_neg (not_lt.mpr ha.size)]
  apply (willing_checkHeader present ha.header).mem_trace
  apply (willing_checkTable present ha.table).mem_trace
  exact mem_trace_left (hr e he)

variable {file} in
/-- The whole load succeeds; it makes every access for its segments, and sets the mark when one of
them has something to map or to store. -/
theorem willing_elf64Load (hp : Placed file fileSize) : ∃ res l' b',
    Yields (elf64Load (willing file present) fileSize) (having [] false) res (having l' b')
      (fun e => ∃ j lj, Loads file j ∧ MineUpTo file present (j+1) lj ∧ SegmentEvent file lj j e) ∧
    ∀ j, Loads file j → Touches file present j → b' = true := by
  have hfuel : phnumOf file < 0 + maxHeaders := by
    rw [Nat.zero_add]
    exact phnumOf_lt file
  obtain ⟨r, hr, -, hmin⟩ := @willing_spanFrom file present [] false maxHeaders 0 uint64Max 0 hfuel
  have hnone : MineUpTo file present 0 [] := by
    refine fun p => ⟨fun h => absurd h List.not_mem_nil, ?_⟩
    rintro ⟨-, j, hj, -⟩
    exact absurd hj (Nat.not_lt_zero j)
  obtain ⟨l', b', hload, -, hset⟩ := willing_loadFrom file present maxHeaders 0 [] false hfuel hnone
  -- the segment with a lowest address below the start value lets the second pass begin
  obtain ⟨j, hj, hlt⟩ := hp.segment
  have hbase : r.1 ≠ uint64Max := ne_of_lt (lt_of_le_of_lt (hmin j (Nat.zero_le j) hj) hlt)
  have hmark : Marked [] false := fun h => absurd rfl h
  have hentry := @willing_readField file present l' b' eEntry 8
  refine ⟨⟨load file eEntry 8, (r.2 + (2^64 - r.1)) % 2^64, r.1, r.2⟩, l', b', ?_,
    fun j hj => hset hmark j (Nat.zero_le j) hj⟩
  unfold elf64Load
  rw [if_neg (not_lt.mpr hp.accepted.size)]
  refine Yields.mono (Yields.bind (willing_checkHeader present hp.accepted.header)
    (Yields.bind (willing_checkTable present hp.accepted.table) (Yields.bind hr ?_)))
    (fun e he => Or.inr (Or.inr (Or.inr he)))
  rw [if_neg hbase]
  refine Yields.mono (Yields.bind hload (Yields.bind hentry Yields.ret)) ?_
  rintro e ⟨j, lj, hj, hmj, he⟩
  exact Or.inl ⟨j, lj, Nat.zero_le j, hj, hmj, he⟩

variable {file} in
theorem happens_load (hp : Placed file fileSize) {i : ℕ} (hi : Loads file i) :
    ∃ l, MineUpTo file present (i+1) l ∧ ∀ e, SegmentEvent file l i e →
      e ∈ (elf64Load (willing file present) fileSize (having [] false)).trace := by
  obtain ⟨_, _, _, ⟨-, -, hload⟩, -⟩ := willing_elf64Load present hp
  obtain ⟨l, hl⟩ := exists_mineUpTo file present (i+1)
  exact ⟨l, hl, fun e he => hload e ⟨i, l, hi, hl, he⟩⟩

end Willing

/-! ### Reading the file -/

/-- A read lies inside the file, and the sum of the bounds check does not wrap around. -/
def LoadReadsInside (fileSize : ℕ) : LoadEvent → Prop
  | .read off len => off + len ≤ fileSize
  | .sum exact computed => exact = computed
  | .store _ _ => True

/-- The headers and the segments that are read lie inside the file. -/
structure FileFits (file : Mem) (fileSize : ℕ) : Prop where
  sum : sizeofEhdr ≤ fileSize → HeaderOk file →
    phentsizeOf file * phnumOf file < 2^31 ∧ tableEnd file < 2^64
  types : Accepted file fileSize → ∀ i, i < phnumOf file → hdrOf file i + pType + 4 ≤ fileSize
  fields : Accepted file fileSize → ∀ i, Loads file i → hdrOf file i + pMemsz + 8 ≤ fileSize
  copies : Placed file fileSize → ∀ i, Loads file i → fileszOf file i ≠ 0 →
    offsetOf file i + fileszOf file i ≤ fileSize

theorem tableEnd_eq_iff (file : Mem) : tableEnd file = checkedEnd file ↔
    phentsizeOf file * phnumOf file < 2^31 ∧ tableEnd file < 2^64 := by
  have hsize : phentsizeOf file < 2^16 := load_lt file ePhentsize 2
  have hnum : phnumOf file < 2^16 := load_lt file ePhnum 2
  have hproduct : phentsizeOf file * phnumOf file < 2^32 := by
    calc phentsizeOf file * phnumOf file < 2^16 * 2^16 := Nat.mul_lt_mul'' hsize hnum
      _ = 2^32 := by norm_num
  have hoff : phoffOf file < 2^64 := load_lt file ePhoff 8
  unfold checkedEnd tableEnd headersEnd
  dsimp only
  by_cases hp : phentsizeOf file * phnumOf file < 2^31
  · rw [if_pos hp]
    omega
  · rw [if_neg hp]
    omega

/-- The loader reads only the file, on every machine whose stores miss the buffer, exactly when the
headers and the segments fit. -/
theorem elf_reads_inside_iff (file : Mem) (fileSize : ℕ) :
    (∀ (σ : Type) (K : Kernel σ) (I : Loader σ → Prop) (s : Loader σ),
      Steady K I file fileSize (fun _ => True) (LoadReadsInside fileSize) → I s →
        ∀ e ∈ (elf64Load K fileSize s).trace, LoadReadsInside fileSize e) ↔
          FileFits file fileSize := by
  constructor
  · intro h
    have hall {e : LoadEvent} (he : e ∈ (elf64Load (willing file (fun _ => True)) fileSize
        (having [] false)).trace) : LoadReadsInside fileSize e :=
      h _ _ _ _ (willing_steady file fileSize (fun _ => True) _) rfl e he
    refine ⟨fun h64 hok => ?_, fun ha i hi => ?_, fun ha i hi => ?_, fun hp i hi h0 => ?_⟩
    · exact (tableEnd_eq_iff file).mp (hall (happens_sum _ h64 hok))
    · exact hall (happens_span _ ha (.type (Nat.zero_le i) hi))
    · exact hall (happens_span _ ha (.memsz (Nat.zero_le i) hi))
    · -- the last byte that is copied
      obtain ⟨l, -, hl⟩ := happens_load (fun _ => True) hp hi
      have hlast : offsetOf file i + (fileszOf file i - 1) + 1 ≤ fileSize :=
        hall (hl _ (.copy (by omega)))
      omega
  · -- the other way round, each event that the loader may cause is inside
    intro hfit σ K I s hst hs
    refine hst.elf64Load ?_ (fun h => h)
      (fun ha => ⟨ha.size, hfit.types ha, hfit.fields ha⟩) hs
    intro e he
    cases he with
    | header h64 h => exact h.trans h64
    | sum h64 hok => exact (tableEnd_eq_iff file).mpr (hfit.sum h64 hok)
    | type ha hi => exact hfit.types ha _ hi
    | field ha hi h =>
      have hin := hfit.fields ha _ hi
      change _ + _ + _ ≤ fileSize
      omega
    | copy hp hi hk =>
      have hin := hfit.copies hp _ hi (by omega)
      change _ + _ + 1 ≤ fileSize
      omega
    | store => exact trivial

/-! ### Storing to the segments -/

/-- The start of the kernel image; the heap and the MMIO windows lie above it. -/
def kernelVma : ℕ := 0xFFFFFFFF80000000

/-- The address lies in the memory of a segment that does not wrap around. -/
def InSegment (file : Mem) (addr : ℕ) : Prop :=
  ∃ i, Loads file i ∧ vaddrOf file i + memszOf file i ≤ 2^64 ∧ vaddrOf file i ≤ addr ∧
    addr < vaddrOf file i + memszOf file i

/-- A store goes to the memory of a segment below the kernel, to a page of the call or a page that
was `user` before. -/
def LoadStoresInside (file : Mem) (user : ℕ → Prop) : LoadEvent → Prop
  | .store addr mine => InSegment file addr ∧ addr < kernelVma ∧
      (mine = true ∨ user (addr / 4096 * 4096))
  | _ => True

/-- The memory of the header `i` ends below the kernel, and its pages were absent or `user`; what
the file has beyond it lies in other segments, on pages that were `user` or were mapped so far. -/
structure SegmentFits (file : Mem) (present user : ℕ → Prop) (i : ℕ) : Prop where
  below : (fileszOf file i ≠ 0 ∨ memszOf file i ≠ 0) →
    vaddrOf file i + max (fileszOf file i) (memszOf file i) ≤ kernelVma
  pages : ∀ a, vaddrOf file i ≤ a → a < vaddrOf file i + memszOf file i →
    user (a / 4096 * 4096) ∨ ¬ present (a / 4096 * 4096)
  excess : ∀ a, vaddrOf file i + memszOf file i ≤ a → a < vaddrOf file i + fileszOf file i →
    InSegment file a ∧ (user (a / 4096 * 4096) ∨
      ¬ present (a / 4096 * 4096) ∧ PagesBefore file (i+1) (a / 4096 * 4096))

section Segment
variable {file : Mem} {present user : ℕ → Prop} {i k fileSize : ℕ}

/-- An address in the memory of a segment lies on one of its pages. -/
theorem pageOf_addr {a : ℕ} (hend : vaddrOf file i + memszOf file i ≤ kernelVma)
    (h1 : vaddrOf file i ≤ a) (h2 : a < vaddrOf file i + memszOf file i) :
    PageOf file i (a / 4096 * 4096) := by
  unfold kernelVma at hend
  refine ⟨a / 4096 - vaddrOf file i / 4096, ?_, ?_⟩
  · unfold segEnd segStart
    omega
  · unfold segStart
    omega

/-- What the stores for the header `i` need, byte by byte. -/
theorem segmentFits_iff (hi : Loads file i) :
    (∀ k, k < fileszOf file i ∨ k < memszOf file i →
      InSegment file ((vaddrOf file i + k) % 2^64) ∧ (vaddrOf file i + k) % 2^64 < kernelVma ∧
      (user ((vaddrOf file i + k) % 2^64 / 4096 * 4096) ∨
        ¬ present ((vaddrOf file i + k) % 2^64 / 4096 * 4096) ∧
          PagesBefore file (i+1) ((vaddrOf file i + k) % 2^64 / 4096 * 4096))) ↔
      SegmentFits file present user i := by
  have hvaddr : vaddrOf file i < 2^64 := load_lt file _ 8
  constructor
  · intro h
    have hbelow (h0 : fileszOf file i ≠ 0 ∨ memszOf file i ≠ 0) :
        vaddrOf file i + max (fileszOf file i) (memszOf file i) ≤ kernelVma := by
      by_contra hover
      -- otherwise the first address of the kernel, or the segment's own start, is stored to
      obtain ⟨-, hlt, -⟩ := h (kernelVma - vaddrOf file i) (by
        unfold kernelVma at hover ⊢
        omega)
      unfold kernelVma at hlt hover
      omega
    have haddr {k : ℕ} (hk : k < fileszOf file i ∨ k < memszOf file i) :
        (vaddrOf file i + k) % 2^64 = vaddrOf file i + k := by
      have hend := hbelow (by omega)
      unfold kernelVma at hend
      omega
    refine ⟨hbelow, fun a h1 h2 => ?_, fun a h1 h2 => ?_⟩
    · obtain ⟨k, rfl⟩ := Nat.exists_eq_add_of_le h1
      have hk : k < fileszOf file i ∨ k < memszOf file i := Or.inr (by omega)
      have hpage := (h k hk).2.2
      rw [haddr hk] at hpage
      exact hpage.imp id And.left
    · obtain ⟨k, rfl⟩ := Nat.exists_eq_add_of_le (le_trans (Nat.le_add_right _ _) h1)
      have hk : k < fileszOf file i ∨ k < memszOf file i := Or.inl (by omega)
      have hbyte := h k hk
      rw [haddr hk] at hbyte
      exact ⟨hbyte.1, hbyte.2.2⟩
  · intro hfit k hk
    have hend := hfit.below (by omega)
    have haddr : (vaddrOf file i + k) % 2^64 = vaddrOf file i + k := by
      unfold kernelVma at hend
      omega
    rw [haddr]
    have hlt : vaddrOf file i + k < kernelVma := by omega
    by_cases hmem : k < memszOf file i
    · have hmemend : vaddrOf file i + memszOf file i ≤ kernelVma := by omega
      refine ⟨⟨i, hi, hmemend.trans (by decide), Nat.le_add_right _ _, by omega⟩, hlt, ?_⟩
      have hpage : PageOf file i ((vaddrOf file i + k) / 4096 * 4096) :=
        pageOf_addr hmemend (Nat.le_add_right _ _) (by omega)
      exact (hfit.pages _ (Nat.le_add_right _ _) (by omega)).imp id
        (fun h => ⟨h, i, Nat.lt_succ_self i, hi, hpage⟩)
    · obtain ⟨hin, hpage⟩ := hfit.excess (vaddrOf file i + k) (by omega) (by omega)
      exact ⟨hin, hlt, hpage⟩

end Segment

/-- The bytes from `file_data` on that the loader takes for the file and its headers. -/
def fileSpan (file : Mem) (fileSize : ℕ) : ℕ :=
  max fileSize (phoffOf file + sizeofPhdr * phnumOf file)

theorem tableBelow_fileSpan {file : Mem} {fileSize : ℕ} (h64 : sizeofEhdr ≤ fileSize) :
    TableBelow file (fileSpan file fileSize) := by
  have hin {i : ℕ} (hi : i < phnumOf file) :
    hdrOf file i + sizeofPhdr ≤ fileSpan file fileSize := by
    apply le_trans ?_ (le_max_right _ _)
    unfold hdrOf sizeofPhdr
    omega
  refine ⟨h64.trans (le_max_left _ _), fun i hi => ?_, fun i hi => ?_⟩
  · exact le_trans (by unfold pType sizeofPhdr; omega) (hin hi)
  · exact le_trans (by unfold pMemsz sizeofPhdr; omega) (hin hi.1)

/-- The loader stores only to the memory of the segments, on every machine where such stores miss
the buffer, exactly when the segments fit. -/
theorem elf_stores_inside_iff (file : Mem) (fileSize : ℕ) (present user : ℕ → Prop) :
    (∀ (σ : Type) (K : Kernel σ) (I : Loader σ → Prop) (s : Loader σ),
      Steady K I file (fileSpan file fileSize) present (LoadStoresInside file user) → I s →
        ∀ e ∈ (elf64Load K fileSize s).trace, LoadStoresInside file user e) ↔
      (Placed file fileSize → ∀ i, Loads file i → SegmentFits file present user i) := by
  constructor
  · intro h hp i hi
    have hall {e : LoadEvent} (he : e ∈ (elf64Load (willing file present) fileSize
        (having [] false)).trace) : LoadStoresInside file user e :=
      h _ _ _ _ (willing_steady file _ present _) rfl e he
    obtain ⟨l, hl, hevents⟩ := happens_load present hp hi
    refine (segmentFits_iff hi).mp (fun k hk => ?_)
    obtain ⟨hin, hlt, hpage⟩ := hall (hevents _ (.store hk))
    refine ⟨hin, hlt, hpage.symm.imp id (fun hmine => ?_)⟩
    exact (hl _).mp (List.contains_iff_mem.mp hmine)
  · intro hfit σ K I s hst hs
    refine hst.elf64Load ?_ (fun h => h.trans (le_max_left _ _))
      (fun ha => tableBelow_fileSpan ha.size) hs
    intro e he
    cases he with
    | header => exact trivial
    | sum => exact trivial
    | type => exact trivial
    | field => exact trivial
    | copy => exact trivial
    | store hp hi hk hm =>
      obtain ⟨hin, hlt, hpage⟩ := (segmentFits_iff hi).mpr (hfit hp _ hi) _ hk
      refine ⟨hin, hlt, ?_⟩
      rcases hpage with hpage | ⟨habs, hbefore⟩
      · exact Or.inr hpage
      · rename_i mine
        cases mine with
        | true => exact Or.inl rfl
        -- a page of the file that is not the call's was present before
        | false => exact absurd (hm rfl hbefore) habs

/-! ### A file with one segment -/

/-- A file of 120 bytes or more: the header, and the program header of one segment. -/
def oneSegment (offset vaddr filesz memsz : ℕ) : Mem :=
  let ident := store (store (fun _ => 0#8) 0 4 0x464C457F) 4 1 2
  let header := store (store (store (store ident eMachine 2 62) ePhoff 8 64) ePhentsize 2 56) ePhnum
    2 1
  let segment := store (store (store header 64 4 1) (64+pFlags) 4 6) (64+pOffset) 8 offset
  store (store (store segment (64+pVaddr) 8 vaddr) (64+pFilesz) 8 filesz) (64+pMemsz) 8 memsz

/-- 4096 bytes are copied from a file of 120. -/
theorem elf_reads_beyond_file :
    ¬ ∀ (σ : Type) (K : Kernel σ) (I : Loader σ → Prop) (s : Loader σ),
      Steady K I (oneSegment 0 0x400000 4096 4096) 120 (fun _ => True) (LoadReadsInside 120) → I s →
        ∀ e ∈ (elf64Load K 120 s).trace, LoadReadsInside 120 e := by
  intro h
  have hp : Placed (oneSegment 0 0x400000 4096 4096) 120 :=
    ⟨⟨by decide, ⟨by decide, by decide, by decide, by decide, by decide, by decide⟩, by decide⟩,
      0, by decide, by decide⟩
  obtain ⟨l, -, hl⟩ := happens_load (fun _ => True) hp (show Loads _ 0 by decide)
  have hread : 0 + 4095 + 1 ≤ 120 :=
    h _ _ _ _ (willing_steady _ 120 (fun _ => True) _) rfl _ (hl _ (.copy (k := 4095) (by decide)))
  omega

/-- A segment at the start of the kernel image is stored there. -/
theorem elf_stores_to_kernel :
    ¬ ∀ (σ : Type) (K : Kernel σ) (I : Loader σ → Prop) (s : Loader σ),
      Steady K I (oneSegment 0 0xFFFFFFFF80000000 8 8)
        (fileSpan (oneSegment 0 0xFFFFFFFF80000000 8 8) 120) (fun _ => True)
        (LoadStoresInside (oneSegment 0 0xFFFFFFFF80000000 8 8) (fun _ => False)) → I s →
        ∀ e ∈ (elf64Load K 120 s).trace,
          LoadStoresInside (oneSegment 0 0xFFFFFFFF80000000 8 8) (fun _ => False) e := by
  intro h
  have hp : Placed (oneSegment 0 0xFFFFFFFF80000000 8 8) 120 :=
    ⟨⟨by decide, ⟨by decide, by decide, by decide, by decide, by decide, by decide⟩, by decide⟩,
      0, by decide, by decide⟩
  obtain ⟨l, -, hl⟩ := happens_load (fun _ => True) hp (show Loads _ 0 by decide)
  have hstore := h _ _ _ _ (willing_steady _ _ (fun _ => True) _) rfl _
    (hl _ (.store (k := 0) (Or.inl (by decide))))
  have haddr : (vaddrOf (oneSegment 0 0xFFFFFFFF80000000 8 8) 0 + 0) % 2^64 = kernelVma := by decide
  have hlt := hstore.2.1
  rw [haddr] at hlt
  exact absurd hlt (lt_irrefl _)

end SukiOS

import SukiOS.ElfBounds

/-! A run of `elf64_load` with nothing to map and nothing to store leaves the machine as it is,
however it ends. -/
namespace SukiOS
open ByteMemory Traced

/-- The machine without stores and new mappings; the parts of the loader that only read are the
same on it. -/
def Kernel.readOnly {σ : Type} (K : Kernel σ) : Kernel σ :=
  { K with store := fun _ _ _ => none, vmmAllocMap := fun _ _ _ => none }

section Idle
variable {σ : Type} {K : Kernel σ} {s : Loader σ} {file : Mem} {n fileSize : ℕ}
  {present : ℕ → Prop}

/-- From the state `s`, the buffer holds `file` below `n`. -/
theorem readOnly_steady (hpeek : ∀ o, o < n → K.peek s.kernel o = some (file o)) :
    Steady K.readOnly (· = s) file n (fun _ => True) (fun _ => True) where
  peek := by
    rintro _ rfl
    exact hpeek
  mapped _ _ _ _ := Or.inr trivial
  store _ _ _ _ _ _ h := nomatch h
  alloc _ _ _ _ _ _ h := nomatch h

theorem readField_keeps (off len : ℕ) : Keeps (readField K off len) s := by
  apply Keeps.bind Keeps.emit
  intro _ _
  apply Keeps.attempt
  intro v s' hv
  obtain ⟨w, -, he⟩ := Option.map_eq_some_iff.mp hv
  exact (Prod.mk.inj he).2.symm

/-- A value that is read is that of the file. -/
theorem readField_value (hpeek : ∀ o, o < n → K.peek s.kernel o = some (file o)) {off len v : ℕ}
    (hn : off + len ≤ n) (hv : (readField K off len s).value = .ok v) : load file off len = v :=
  (((readOnly_steady hpeek).field (fun _ h => h) hn trivial s rfl).2 v hv).1.symm

theorem expect_keeps (off len want : ℕ) (text : String) : Keeps (expect K off len want text) s := by
  apply Keeps.bind (readField_keeps off len)
  intro v _
  by_cases h : v ≠ want
  · rw [if_pos h]
    exact Keeps.stop
  · rw [if_neg h]
    exact Keeps.ret

theorem checkHeader_keeps : Keeps (checkHeader K) s := by
  apply Keeps.bind (expect_keeps _ _ _ _)
  intro _ _
  apply Keeps.bind (expect_keeps _ _ _ _)
  intro _ _
  apply Keeps.bind (expect_keeps _ _ _ _)
  intro _ _
  apply Keeps.bind (expect_keeps _ _ _ _)
  intro _ _
  apply Keeps.bind (expect_keeps _ _ _ _)
  intro _ _
  exact expect_keeps _ _ _ _

theorem checkTable_keeps : Keeps (checkTable K fileSize) s := by
  apply Keeps.bind (readField_keeps ePhoff 8)
  intro phoff _
  apply Keeps.bind (readField_keeps ePhentsize 2)
  intro phentsize _
  apply Keeps.bind (readField_keeps ePhnum 2)
  intro phnum _
  apply Keeps.bind Keeps.emit
  intro _ _
  by_cases h : fileSize < headersEnd phoff phentsize phnum
  · rw [if_pos h]
    exact Keeps.stop
  · rw [if_neg h]
    exact Keeps.ret

theorem spanFrom_keeps (phoff m : ℕ) : ∀ i base maxAddr, Keeps
    (spanFrom K phoff i base maxAddr m) s := by
  induction m with
  | zero => exact fun _ _ _ => Keeps.ret
  | succ m ih =>
    intro i base maxAddr
    unfold spanFrom
    apply Keeps.bind (readField_keeps _ _)
    intro phnum _
    by_cases hi : i < phnum
    · rw [if_pos hi]
      apply Keeps.bind (readField_keeps _ _)
      intro type _
      by_cases ht : type = ptLoad
      · rw [if_pos ht]
        apply Keeps.bind (readField_keeps _ _)
        intro vaddr _
        apply Keeps.bind (readField_keeps _ _)
        intro memsz _
        exact ih _ _ _
      · rw [if_neg ht]
        exact ih _ _ _
    · rw [if_neg hi]
      exact Keeps.ret

theorem spanFrom_readOnly (phoff m : ℕ) : ∀ i base maxAddr,
    spanFrom K.readOnly phoff i base maxAddr m = spanFrom K phoff i base maxAddr m := by
  induction m with
  | zero => exact fun _ _ _ => rfl
  | succ m ih =>
    intro i base maxAddr
    unfold spanFrom
    simp only [ih]
    rfl

/-- Pages that are mapped are passed over. -/
theorem mapFrom_keeps (hdr m : ℕ) : ∀ va,
    (∀ k, k < m → K.vmmIsMapped s.kernel (va + 4096*k) = some true) →
      Keeps (mapFrom K hdr va m) s := by
  induction m with
  | zero => exact fun _ _ => Keeps.ret
  | succ m ih =>
    intro va h
    have hva : K.vmmIsMapped s.kernel va = some true := h 0 (Nat.succ_pos m)
    have hvalue : isMapped K va s = ⟨[], s, .ok true⟩ := by
      unfold isMapped Run.attempt
      dsimp only
      rw [hva]
      rfl
    have hpage : Keeps (mapPage K hdr va) s := by
      apply Keeps.bind (by rw [Keeps, hvalue])
      intro b hb
      rw [hvalue] at hb
      obtain rfl := Except.ok.inj hb
      exact Keeps.ret
    apply Keeps.bind hpage
    intro _ _
    refine ih (va + 4096) (fun k hk => ?_)
    have hlater := h (k+1) (Nat.succ_lt_succ hk)
    rwa [show va + 4096*(k+1) = va + 4096 + 4096*k by ring] at hlater

/-- Nothing is copied and nothing is cleared for such a header. -/
theorem loadSegment_keeps (hpeek : ∀ o, o < n → K.peek s.kernel o = some (file o))
    (hmapped : ∀ p, present p → K.vmmIsMapped s.kernel p = some true) (htab : TableBelow file n)
    {i : ℕ} (hi : Loads file i) (hidle : ¬ Touches file present i) :
    Keeps (loadSegment K (hdrOf file i)) s := by
  have hfields := htab.fields i hi
  have hfilesz : fileszOf file i = 0 := by
    by_contra h
    exact hidle (Or.inl h)
  have hmemsz : memszOf file i = 0 := by
    by_contra h
    exact hidle (Or.inr (Or.inl h))
  have hread (off : ℕ) (hoff : off ≤ pMemsz) {v : ℕ}
      (hv : (readField K (hdrOf file i + off) 8 s).value = .ok v) :
      load file (hdrOf file i + off) 8 = v :=
    readField_value hpeek (by omega) hv
  unfold loadSegment
  -- both sizes are 0 and all pages are there, so each loop ends at once
  apply Keeps.bind (readField_keeps _ _)
  intro vaddr hvaddr
  obtain rfl := hread pVaddr (by decide) hvaddr
  apply Keeps.bind (readField_keeps _ _)
  intro memsz hv
  obtain rfl := hread pMemsz (by decide) hv
  apply Keeps.bind (mapFrom_keeps _ _ _ (fun k hk => hmapped _ ?_))
  · intro _ _
    apply Keeps.bind (readField_keeps _ _)
    intro vaCopy _
    apply Keeps.bind (readField_keeps _ _)
    intro filesz hv
    obtain rfl := (hread pFilesz (by decide) hv).symm.trans hfilesz
    apply Keeps.bind (readField_keeps _ _)
    intro offset _
    apply Keeps.bind (Keeps.ret (a := ()))
    intro _ _
    apply Keeps.bind (readField_keeps _ _)
    intro memsz hv
    obtain rfl := (hread pMemsz (by decide) hv).symm.trans hmemsz
    apply Keeps.bind (readField_keeps _ _)
    intro filesz _
    rw [if_neg (Nat.not_lt_zero filesz)]
    exact Keeps.ret
  · by_contra hp
    exact hidle (Or.inr (Or.inr ⟨_, hp, k, hk, rfl⟩))

theorem loadFrom_keeps (hpeek : ∀ o, o < n → K.peek s.kernel o = some (file o))
    (hmapped : ∀ p, present p → K.vmmIsMapped s.kernel p = some true) (htab : TableBelow file n)
    (hidle : ∀ i, Loads file i → ¬ Touches file present i) (m : ℕ) : ∀ i,
    Keeps (loadFrom K (phoffOf file) i m) s := by
  induction m with
  | zero => exact fun _ => Keeps.ret
  | succ m ih =>
    intro i
    unfold loadFrom
    apply Keeps.bind (readField_keeps _ _)
    intro phnum hv
    obtain rfl := readField_value hpeek (le_trans (by decide) htab.header) hv
    by_cases hi : i < load file ePhnum 2
    · rw [if_pos hi]
      apply Keeps.bind (readField_keeps _ _)
      intro type hv
      obtain rfl := readField_value hpeek (htab.type i hi) hv
      by_cases ht : load file (hdrOf file i + pType) 4 = ptLoad
      · rw [if_pos ht]
        apply Keeps.bind (loadSegment_keeps hpeek hmapped htab ⟨hi, ht⟩ (hidle i ⟨hi, ht⟩))
        exact fun _ _ => ih (i+1)
      · rw [if_neg ht]
        exact ih (i+1)
    · rw [if_neg hi]
      exact Keeps.ret

/-- The state of the machine changes only when the second pass finds something to do. -/
theorem elf64Load_keeps
    (hpeek : ∀ o, o < fileSpan file fileSize → K.peek s.kernel o = some (file o))
    (hmapped : ∀ p, present p → K.vmmIsMapped s.kernel p = some true)
    (hidle : Placed file fileSize → ∀ i, Loads file i → ¬ Touches file present i) :
    Keeps (elf64Load K fileSize) s := by
  have hst := readOnly_steady hpeek
  unfold elf64Load
  by_cases hsize : fileSize < sizeofEhdr
  · rw [if_pos hsize]
    exact Keeps.stop
  have h64 : sizeofEhdr ≤ fileSize := not_lt.mp hsize
  have hn : sizeofEhdr ≤ fileSpan file fileSize := h64.trans (le_max_left _ _)
  have htab : TableBelow file (fileSpan file fileSize) := tableBelow_fileSpan h64
  rw [if_neg hsize]
  -- the values that were read tell how far the load gets
  apply Keeps.bind checkHeader_keeps
  intro _ hv
  have hok : HeaderOk file := ((hst.checkHeader hn (fun _ _ _ => trivial) s rfl).2 _ hv).1
  apply Keeps.bind checkTable_keeps
  intro phoff hv
  obtain ⟨⟨hphoff, htable⟩, -⟩ :=
    (hst.checkTable hn (fun _ _ _ => trivial) trivial s rfl).2 phoff hv
  obtain rfl := hphoff.symm
  have ha : Accepted file fileSize := ⟨h64, hok, htable⟩
  apply Keeps.bind (spanFrom_keeps _ _ _ _ _)
  intro r hv
  rw [← spanFrom_readOnly] at hv
  have hspan := hst.spanFrom htab (fun _ _ => trivial) ha maxHeaders 0 uint64Max 0
    (fun h => absurd rfl h) le_rfl
  have hseg : r.1 ≠ uint64Max → ∃ i, Loads file i ∧ vaddrOf file i < uint64Max :=
    ((hspan s rfl).2 r hv).1
  by_cases hbase : r.1 = uint64Max
  · rw [if_pos hbase]
    exact Keeps.stop
  rw [if_neg hbase]
  apply Keeps.bind (loadFrom_keeps hpeek hmapped htab (hidle ⟨ha, hseg hbase⟩) maxHeaders 0)
  intro _ _
  apply Keeps.bind (readField_keeps _ _)
  exact fun _ _ => Keeps.ret

end Idle

end SukiOS

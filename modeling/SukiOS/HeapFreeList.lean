import SukiOS.HeapLayout

/-! The free-list operations of `heap.c` on a well-formed doubly linked list. -/
namespace SukiOS
open ByteMemory LinkedList

/-- Make `nx` the successor of the node before `x`, and `pv` the predecessor of the
node after it. -/
def redirect (m : Mem) (x nx pv : ℕ) : Mem :=
  let prev := blkPrevFree m x
  let next := blkNextFree m x
  let m1 := if prev ≠ 0 then blkSetNextFree m prev nx else m
  if next ≠ 0 then blkSetPrevFree m1 next pv else m1

theorem listRemove_eq_redirect (h : Heap) (x : ℕ) :
    listRemove h x = { h with
      mem := blkSetNextFree (blkSetPrevFree
        (redirect h.mem x (blkNextFree h.mem x) (blkPrevFree h.mem x)) x 0) x 0
      freeListHead := if blkPrevFree h.mem x = 0 then blkNextFree h.mem x
        else h.freeListHead } := by
  unfold listRemove redirect
  by_cases hp : blkPrevFree h.mem x = 0 <;> simp only [hp, ne_eq, not_true_eq_false,
    not_false_eq_true, if_true, if_false]

theorem replaceFree_eq_redirect (h : Heap) (x y : ℕ) :
    replaceFree h x y = { h with
      mem := blkSetMagic (blkSetNextFree (blkSetPrevFree (redirect h.mem x y y) y
        (blkPrevFree h.mem x)) y (blkNextFree h.mem x)) y
      freeListHead := if blkPrevFree h.mem x = 0 then y else h.freeListHead } := by
  unfold replaceFree redirect
  by_cases hp : blkPrevFree h.mem x = 0 <;> simp only [hp, ne_eq, not_true_eq_false,
    not_false_eq_true, if_true, if_false]

section Redirect
variable {m : Mem} {hd x nx pv : ℕ} {l r : List ℕ}

theorem FreeList.prev_mem (hf : FreeList m hd (l ++ x :: r)) (hne : blkPrevFree m x ≠ 0) :
    blkPrevFree m x ∈ l ++ x :: r := by
  rcases hf.back.prev_mem with h | h
  · exact absurd h hne
  · exact List.mem_append_left _ h

theorem FreeList.next_mem (hf : FreeList m hd (l ++ x :: r)) (hne : blkNextFree m x ≠ 0) :
    blkNextFree m x ∈ l ++ x :: r := by
  rcases hf.linked.at.2.2.head_mem with h | h
  · exact absurd h hne
  · exact List.mem_append_right _ (List.mem_cons_of_mem _ h)

theorem blkNextFree_redirect (hf : FreeList m hd (l ++ x :: r)) (hnx : nx < 2^64) {y : ℕ}
    (hy : y ∈ l ++ x :: r) :
    blkNextFree (redirect m x nx pv) y = if y = blkPrevFree m x then nx else blkNextFree m y := by
  have hy0 : y ≠ 0 := hf.linked.ne_null hy
  have h1 : blkNextFree (if blkPrevFree m x ≠ 0 then blkSetNextFree m (blkPrevFree m x) nx else m) y
    =
      if y = blkPrevFree m x then nx else blkNextFree m y := by
    split
    · exact blkNextFree_setNextFree (hf.sep y hy _ (hf.prev_mem ‹_›)) hnx
    · have hp : blkPrevFree m x = 0 := not_not.mp ‹_›
      rw [hp, if_neg hy0]
  rw [← h1]
  unfold redirect
  by_cases hn : blkNextFree m x = 0
  · simp only [hn, ne_eq, not_true_eq_false, if_false]
  · simp only [ne_eq, hn, not_false_eq_true, if_true]
    exact blkNextFree_setPrevFree (hf.sep y hy _ (hf.next_mem hn))

theorem blkPrevFree_redirect (hf : FreeList m hd (l ++ x :: r)) (hpv : pv < 2^64) {y : ℕ}
    (hy : y ∈ l ++ x :: r) :
    blkPrevFree (redirect m x nx pv) y = if y = blkNextFree m x then pv else blkPrevFree m y := by
  have hy0 : y ≠ 0 := hf.linked.ne_null hy
  have h1 : blkPrevFree (if blkPrevFree m x ≠ 0 then blkSetNextFree m (blkPrevFree m x) nx else m) y
    =
      blkPrevFree m y := by
    split
    · exact blkPrevFree_setNextFree (hf.sep y hy _ (hf.prev_mem ‹_›))
    · rfl
  rw [← h1]
  unfold redirect
  by_cases hn : blkNextFree m x = 0
  · simp only [hn, ne_eq, not_true_eq_false, if_false, if_neg hy0]
  · simp only [ne_eq, hn, not_false_eq_true, if_true]
    exact blkPrevFree_setPrevFree (hf.sep y hy _ (hf.next_mem hn)) hpv

theorem redirect_sameOff (hf : FreeList m hd (l ++ x :: r)) :
    SameOff (linkBytes (l ++ x :: r)) m (redirect m x nx pv) := by
  have h1 : SameOff (linkBytes (l ++ x :: r)) m
      (if blkPrevFree m x ≠ 0 then blkSetNextFree m (blkPrevFree m x) nx else m) := by
    split
    · exact setNextFree_sameOff _ (hf.prev_mem ‹_›)
    · exact SameOff.rfl
  refine h1.trans ?_
  unfold redirect
  by_cases hn : blkNextFree m x = 0
  · simp only [hn, ne_eq, not_true_eq_false, if_false]
    exact SameOff.rfl
  · simp only [ne_eq, hn, not_false_eq_true, if_true]
    exact setPrevFree_sameOff _ (hf.next_mem hn)

/-- Put the segment `s`, entered through `nx`, in the place of the node `x`. -/
theorem FreeList.splice (hf : FreeList m hd (l ++ x :: r)) {m' : Mem} {s : List ℕ}
    (hnxt : ∀ y ∈ l ++ r, blkNextFree m' y = if y = blkPrevFree m x then nx else blkNextFree m y)
    (hprv : ∀ y ∈ l ++ r, blkPrevFree m' y = if y = blkNextFree m x then pv else blkPrevFree m y)
    (hs : Linked (blkNextFree m') 0 (blkNextFree m x) r → Linked (blkNextFree m') 0 nx s)
    (hsb : BackLinked (blkPrevFree m') pv r → BackLinked (blkPrevFree m') (blkPrevFree m x) s) :
    Linked (blkNextFree m') 0 (if blkPrevFree m x = 0 then nx else hd) (l ++ s) ∧
      BackLinked (blkPrevFree m') 0 (l ++ s) := by
  obtain ⟨hnl, hnr, hlr⟩ := List.nodup_append.mp hf.nodup
  have htail : Linked (blkNextFree m) 0 (blkNextFree m x) r := hf.linked.at.2.2
  have hnr : r.Nodup := (List.nodup_cons.mp hnr).2
  constructor
  · apply hf.linked.splice hf.back hnl (fun y hy => hnxt y (List.mem_append_left _ hy))
    apply hs
    apply htail.congr
    intro y hy
    rw [hnxt y (List.mem_append_right _ hy), if_neg]
    intro (hyp : y = blkPrevFree m x)
    rcases hf.back.prev_mem with h0 | hm
    · exact htail.ne_null hy (hyp.trans h0)
    · exact hlr _ hm y (List.mem_cons_of_mem _ hy) hyp.symm
  · apply hf.back.splice
    · intro y hy
      rw [hprv y (List.mem_append_left _ hy), if_neg]
      intro (hyn : y = blkNextFree m x)
      rcases htail.head_mem with h0 | hm
      · exact hf.linked.ne_null (List.mem_append_left _ hy) (hyn.trans h0)
      · exact hlr y hy _ (List.mem_cons_of_mem _ hm) hyn
    · exact hsb (hf.back.at.rehead htail hnr
        (fun y hy => hprv y (List.mem_append_right _ hy)))

end Redirect

theorem nodup_middle_facts {l r : List ℕ} {x : ℕ} (hn : (l ++ x :: r).Nodup) :
    l.Nodup ∧ r.Nodup ∧ (∀ y ∈ l, y ≠ x) ∧ (∀ y ∈ r, y ≠ x) ∧ (∀ y ∈ l, y ∉ r) := by
  obtain ⟨hl, hr, hd⟩ := List.nodup_append.mp hn
  obtain ⟨hx, hr⟩ := List.nodup_cons.mp hr
  refine ⟨hl, hr, fun y hy => hd y hy x List.mem_cons_self, ?_, ?_⟩
  · rintro y hy rfl
    exact hx hy
  · intro y hy hy'
    exact hd y hy y (List.mem_cons_of_mem _ hy') rfl

theorem mem_middle_iff {α : Type*} {l r : List α} {x z : α} : z ∈ l ++ x :: r ↔ z = x ∨
    z ∈ l ++ r := by
  simp only [List.mem_append, List.mem_cons]
  tauto

theorem ne_middle {l r : List ℕ} {x : ℕ} (hn : (l ++ x :: r).Nodup) : ∀ a ∈ l ++ r, a ≠ x := by
  obtain ⟨-, -, hl, hr, -⟩ := nodup_middle_facts hn
  intro a ha
  rcases List.mem_append.mp ha with ha | ha
  · exact hl a ha
  · exact hr a ha

theorem listRemove_spec {h : Heap} {x : ℕ} {l r : List ℕ}
    (hf : FreeList h.mem h.freeListHead (l ++ x :: r)) :
    ∃ m hd, listRemove h x = { h with mem := m, freeListHead := hd } ∧
      FreeList m hd (l ++ r) ∧ SameOff (linkBytes (l ++ x :: r)) h.mem m := by
  have hmem : x ∈ l ++ x :: r := by simp
  have hsub : ∀ y ∈ l ++ r, y ∈ l ++ x :: r := fun y hy => mem_middle_iff.mpr (Or.inr hy)
  obtain ⟨hnl, hnr, hlx, hrx, hlr⟩ := nodup_middle_facts hf.nodup
  have hyx : ∀ y ∈ l ++ r, y ≠ x := ne_middle hf.nodup
  let next := blkNextFree h.mem x
  let prev := blkPrevFree h.mem x
  have hnext : next < 2^64 := load64_lt _ _
  have hprev : prev < 2^64 := load64_lt _ _
  let m' := blkSetNextFree (blkSetPrevFree (redirect h.mem x next prev) x 0) x 0
  have hnxt : ∀ y ∈ l ++ r, blkNextFree m' y = if y = prev then next else blkNextFree h.mem y := by
    intro y hy
    have hs := hf.sep y (hsub y hy) x hmem
    rw [blkNextFree_setNextFree hs (by decide), if_neg (hyx y hy), blkNextFree_setPrevFree hs]
    exact blkNextFree_redirect hf hnext (hsub y hy)
  have hprv : ∀ y ∈ l ++ r, blkPrevFree m' y = if y = next then prev else blkPrevFree h.mem y := by
    intro y hy
    have hs := hf.sep y (hsub y hy) x hmem
    rw [blkPrevFree_setNextFree hs, blkPrevFree_setPrevFree hs (by decide), if_neg (hyx y hy)]
    exact blkPrevFree_redirect hf hprev (hsub y hy)
  obtain ⟨hlink, hback⟩ := hf.splice hnxt hprv (fun ht => ht) (fun hb => hb)
  refine ⟨m', _, listRemove_eq_redirect h x, ⟨hlink, hback, ?_, ?_, ?_⟩, ?_⟩
  · exact List.nodup_append.mpr ⟨hnl, hnr, fun a ha b hb hab => hlr a ha (hab ▸ hb)⟩
  · exact fun a ha b hb => hf.sep a (hsub a ha) b (hsub b hb)
  · exact fun a ha => hf.lt a (hsub a ha)
  · exact (redirect_sameOff hf).trans
      ((setPrevFree_sameOff _ hmem).trans (setNextFree_sameOff _ hmem))

theorem Sep.symm {a b : ℕ} (h : Sep a b) : Sep b a := by
  unfold Sep at h ⊢
  omega

/-- One more node that is apart from the others. -/
theorem sep_add {S : ℕ → Prop} {x : ℕ} (hS : ∀ a, S a → ∀ b, S b → Sep a b)
    (hx : ∀ a, S a → Sep a x) : ∀ a, (a = x ∨ S a) → ∀ b, (b = x ∨ S b) → Sep a b := by
  rintro a (rfl | ha) b (rfl | hb)
  · exact Or.inl rfl
  · exact (hx b hb).symm
  · exact hx a ha
  · exact hS a ha b hb

theorem listInsertHead_spec {h : Heap} {x : ℕ} {fl : List ℕ}
    (hf : FreeList h.mem h.freeListHead fl) (hx : x ∉ fl) (hx0 : x ≠ 0) (hlt : x < 2^64)
    (hsep : ∀ y ∈ fl, Sep y x) :
    ∃ m, listInsertHead h x = { h with mem := m, freeListHead := x } ∧
      FreeList m x (x :: fl) ∧ SameOff (linkBytes (x :: fl)) h.mem m := by
  let old := h.freeListHead
  let m1 := blkSetNextFree (blkSetPrevFree h.mem x 0) x old
  let m2 := if old ≠ 0 then blkSetPrevFree m1 old x else m1
  have hsx : Sep x x := Or.inl rfl
  have holdmem : old ≠ 0 → old ∈ fl := by
    intro hne
    rcases hf.linked.head_mem with h0 | hm
    · exact absurd h0 hne
    · exact hm
  have hold : old < 2^64 := by
    by_cases h0 : old = 0
    · rw [h0]
      decide
    · exact hf.lt old (holdmem h0)
  have hsep' : ∀ y ∈ fl, Sep x y := fun y hy => (hsep y hy).symm
  -- the links after the writes: only the new node and the old head have changed ones
  have hnxt : ∀ y, (y = x ∨ y ∈ fl) →
      blkNextFree m2 y = if y = x then old else blkNextFree h.mem y := by
    intro y hy
    have hs1 : Sep y x := by
      rcases hy with hy | hy
      · exact Or.inl hy
      · exact hsep y hy
    have h2 : blkNextFree m2 y = blkNextFree m1 y := by
      simp only [m2]
      split
      · rename_i hne
        apply blkNextFree_setPrevFree
        rcases hy with hy | hy
        · rw [hy]
          exact hsep' old (holdmem hne)
        · exact hf.sep y hy old (holdmem hne)
      · rfl
    rw [h2, blkNextFree_setNextFree hs1 hold, blkNextFree_setPrevFree hs1]
  have hprv : ∀ y ∈ fl, blkPrevFree m2 y = if y = old then x else blkPrevFree h.mem y := by
    intro y hy
    have hyx : y ≠ x := fun he => hx (he ▸ hy)
    have h1 : blkPrevFree m1 y = blkPrevFree h.mem y := by
      rw [blkPrevFree_setNextFree (hsep y hy), blkPrevFree_setPrevFree (hsep y hy) (by decide),
        if_neg hyx]
    rw [← h1]
    simp only [m2]
    split
    · exact blkPrevFree_setPrevFree (hf.sep y hy old (holdmem ‹_›)) hlt
    · have hz : old = 0 := not_not.mp ‹_›
      rw [hz, if_neg (hf.linked.ne_null hy)]
  have hprvx : blkPrevFree m2 x = 0 := by
    have h2 : blkPrevFree m2 x = blkPrevFree m1 x := by
      simp only [m2]
      split
      · rename_i hne
        have hm := holdmem hne
        have hxo : x ≠ old := fun he => hx (he ▸ hm)
        rw [blkPrevFree_setPrevFree (hsep' old hm) hlt, if_neg hxo]
      · rfl
    rw [h2, blkPrevFree_setNextFree hsx, blkPrevFree_setPrevFree hsx (by decide), if_pos rfl]
  refine ⟨m2, rfl, ⟨?_, ?_, ?_, ?_, ?_⟩, ?_⟩
  · refine ⟨rfl, hx0, ?_⟩
    rw [hnxt x (Or.inl rfl), if_pos rfl]
    apply hf.linked.congr
    intro y hy
    have hyx : y ≠ x := fun he => hx (he ▸ hy)
    rw [hnxt y (Or.inr hy), if_neg hyx]
  · exact ⟨hprvx, hf.back.rehead hf.linked hf.nodup hprv⟩
  · exact List.nodup_cons.mpr ⟨hx, hf.nodup⟩
  · exact fun a ha b hb =>
      sep_add hf.sep hsep a (List.mem_cons.mp ha) b (List.mem_cons.mp hb)
  · intro a ha
    rcases List.mem_cons.mp ha with rfl | ha
    · exact hlt
    · exact hf.lt a ha
  · have hoff1 : SameOff (linkBytes (x :: fl)) h.mem m1 :=
      (setPrevFree_sameOff _ List.mem_cons_self).trans (setNextFree_sameOff _ List.mem_cons_self)
    refine hoff1.trans ?_
    simp only [m2]
    split
    · exact setPrevFree_sameOff _ (List.mem_cons_of_mem _ (holdmem ‹_›))
    · exact SameOff.rfl

/-- The bytes `replaceFree` writes at the new node. -/
def nodeBytes (y : ℕ) : Set ℕ := {x | y+8 ≤ x ∧ x < y+32}

theorem store64_sameOff_node (m : Mem) (y b v : ℕ) (h1 : y+8 ≤ b) (h2 : b+8 ≤ y+32) :
    SameOff (nodeBytes y) m (store64 m b v) :=
  (store64_sameOff m b v).mono (fun c hc => by
    have hc1 := hc.1
    have hc2 := hc.2
    exact ⟨by omega, by omega⟩)

/-- The links of a node that `blk_set_magic` leaves as they are. -/
theorem links_setMagic {m : Mem} {y z : ℕ} (hs : Sep z y) :
    blkNextFree (blkSetMagic m y) z = blkNextFree m z ∧
      blkPrevFree (blkSetMagic m y) z = blkPrevFree m z := by
  unfold Sep at hs
  exact ⟨load64_store64_of_disjoint _ _ _ _ (by omega),
    load64_store64_of_disjoint _ _ _ _ (by omega)⟩

theorem replaceFree_spec {h : Heap} {x y : ℕ} {l r : List ℕ}
    (hf : FreeList h.mem h.freeListHead (l ++ x :: r)) (hy : y ∉ l ++ x :: r) (hy0 : y ≠ 0)
    (hlt : y < 2^64) (hsep : ∀ z ∈ l ++ x :: r, Sep z y) :
    ∃ m hd, replaceFree h x y = { h with mem := m, freeListHead := hd } ∧
      FreeList m hd (l ++ y :: r) ∧ load64 m (y+24) = magicValue ∧
      SameOff {b | b ∈ linkBytes (l ++ x :: r) ∨ b ∈ nodeBytes y} h.mem m := by
  have hsub : ∀ z ∈ l ++ r, z ∈ l ++ x :: r := fun z hz => mem_middle_iff.mpr (Or.inr hz)
  obtain ⟨hnl, hnr, hlx, hrx, hlr⟩ := nodup_middle_facts hf.nodup
  let prev := blkPrevFree h.mem x
  let next := blkNextFree h.mem x
  have hprev : prev < 2^64 := load64_lt _ _
  have hnext : next < 2^64 := load64_lt _ _
  let m2 := redirect h.mem x y y
  let m3 := blkSetNextFree (blkSetPrevFree m2 y prev) y next
  let m4 := blkSetMagic m3 y
  have hsyy : Sep y y := Or.inl rfl
  have hzy : ∀ z ∈ l ++ r, z ≠ y := fun z hz he => hy (he ▸ hsub z hz)
  -- the neighbours of `x` lead to `y` now, the other links are as before
  have hnxt : ∀ z ∈ l ++ r, blkNextFree m4 z = if z = prev then y else blkNextFree h.mem z := by
    intro z hz
    have hs := hsep z (hsub z hz)
    rw [(links_setMagic hs).1, blkNextFree_setNextFree hs hnext, if_neg (hzy z hz),
      blkNextFree_setPrevFree hs]
    exact blkNextFree_redirect hf hlt (hsub z hz)
  have hprv : ∀ z ∈ l ++ r, blkPrevFree m4 z = if z = next then y else blkPrevFree h.mem z := by
    intro z hz
    have hs := hsep z (hsub z hz)
    rw [(links_setMagic hs).2, blkPrevFree_setNextFree hs, blkPrevFree_setPrevFree hs hprev,
      if_neg (hzy z hz)]
    exact blkPrevFree_redirect hf hlt (hsub z hz)
  have hnxty : blkNextFree m4 y = next := by
    rw [(links_setMagic hsyy).1, blkNextFree_setNextFree hsyy hnext, if_pos rfl]
  have hprvy : blkPrevFree m4 y = prev := by
    rw [(links_setMagic hsyy).2, blkPrevFree_setNextFree hsyy, blkPrevFree_setPrevFree hsyy hprev,
      if_pos rfl]
  have hmem' : ∀ z ∈ l ++ y :: r, z = y ∨ z ∈ l ++ r := fun z hz => mem_middle_iff.mp hz
  have hlink : Linked (blkNextFree m4) 0 next r → Linked (blkNextFree m4) 0 y (y :: r) := by
    intro ht
    refine ⟨rfl, hy0, ?_⟩
    rw [hnxty]
    exact ht
  obtain ⟨hl, hb⟩ := hf.splice (s := y :: r) hnxt hprv hlink
    (fun hb => ⟨hprvy, hb⟩)
  refine ⟨m4, _, replaceFree_eq_redirect h x y, ⟨hl, hb, ?_, ?_, ?_⟩, ?_, ?_⟩
  · have hyr : y ∉ r := fun hm => hy (List.mem_append_right _ (List.mem_cons_of_mem _ hm))
    refine List.nodup_append.mpr ⟨hnl, List.nodup_cons.mpr ⟨hyr, hnr⟩, ?_⟩
    intro a ha b hb hab
    rcases List.mem_cons.mp hb with hb | hb
    · exact hy (List.mem_append_left _ (hb ▸ hab ▸ ha))
    · exact hlr a ha (hab ▸ hb)
  · intro a ha b hb
    exact sep_add (S := fun z => z ∈ l ++ r) (fun a ha b hb => hf.sep a (hsub a ha) b (hsub b hb))
      (fun a ha => hsep a (hsub a ha)) a (hmem' a ha) b (hmem' b hb)
  · intro a ha
    rcases hmem' a ha with ha | ha
    · rw [ha]
      exact hlt
    · exact hf.lt a (hsub a ha)
  · exact load64_store64 _ _ _ (by decide)
  · have h4 : SameOff (nodeBytes y) m2 m4 :=
      (store64_sameOff_node _ y _ _ (by omega) (by omega)).trans
        ((store64_sameOff_node _ y _ _ (by omega) (by omega)).trans
          (store64_sameOff_node _ y _ _ (by omega) (by omega)))
    exact ((redirect_sameOff hf).mono (fun c hc => Or.inl hc)).trans
      (h4.mono (fun c hc => Or.inr hc))

end SukiOS

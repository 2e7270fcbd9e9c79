import SukiOS.Lib.Radix
import SukiOS.Lib.Word
import SukiOS.Vmm

/-! The page tables as a radix tree of frames: entries, the tables reached by a path of indices,
and the hardware walk along such a path. -/
namespace SukiOS
open ByteMemory MachineWord RadixTree

/-! ### Entries -/

/-- The entry `i` of the table in frame `f`. -/
def entry (m : Mem) (f i : ℕ) : ℕ := load64 m (f*4096 + 8*i)

/-- The frame an entry points to. -/
def frameOf (e : ℕ) : ℕ := e / 4096 % 2^40

section Bits

theorem land_addrMask (e : ℕ) : e &&& addrMask = frameOf e * 4096 :=
  land_window e 12 40

theorem land_largeMask (e : ℕ) : e &&& largeMask = e / 2^21 % 2^31 * 2^21 :=
  land_window e 21 31

theorem land_bit (e i : ℕ) : e &&& 2^i ≠ 0 ↔ e.testBit i = true := by
  rw [land_two_pow_ne_zero, Nat.testBit_eq_decide_div_mod_eq, decide_eq_true_eq]

theorem land_present (e : ℕ) : e &&& vmmPresent ≠ 0 ↔ e.testBit 0 = true := land_bit e 0

theorem land_ps (e : ℕ) : e &&& vmmPs ≠ 0 ↔ e.testBit 7 = true := land_bit e 7

/-- The flags of an entry with the frame `g`. -/
theorem testBit_frame_lor (g fl i : ℕ) (hi : i < 12) :
    (g*4096 ||| fl).testBit i = fl.testBit i := by
  have hg : (g*2^12).testBit i = false := by
    rw [Nat.testBit_mul_two_pow, decide_eq_false (by omega), Bool.false_and]
  rw [Nat.testBit_or]
  change ((g*2^12).testBit i || _) = _
  rw [hg, Bool.false_or]

theorem frameOf_lor {g fl : ℕ} (hg : g < 2^40) (hfl : fl < 4096) : frameOf (g*4096 ||| fl) = g := by
  have h : g*2^12 ||| fl = g*2^12 + fl := lor_eq_add g fl 12 hfl
  change frameOf (g*2^12 ||| fl) = g
  rw [h, frameOf]
  omega

theorem frame_lor_lt {g fl : ℕ} (hg : g < 2^40) (hfl : fl < 4096) : g*4096 ||| fl < 2^64 := by
  have h : g*2^12 ||| fl = g*2^12 + fl := lor_eq_add g fl 12 hfl
  change g*2^12 ||| fl < 2^64
  rw [h]
  omega

theorem shift_index (v k : ℕ) : (v >>> k) &&& 0x1FF = v / 2^k % 512 := by
  rw [Nat.shiftRight_eq_div_pow]
  exact Nat.and_two_pow_sub_one_eq_mod _ 9

theorem vmmPml4Index_eq (v : ℕ) : vmmPml4Index v = v / 2^39 % 512 := shift_index v 39
theorem vmmPdpteIndex_eq (v : ℕ) : vmmPdpteIndex v = v / 2^30 % 512 := shift_index v 30
theorem vmmPdIndex_eq (v : ℕ) : vmmPdIndex v = v / 2^21 % 512 := shift_index v 21
theorem vmmPtIndex_eq (v : ℕ) : vmmPtIndex v = v / 2^12 % 512 := shift_index v 12

/-- The indices of the four entries on the walk of `v`. -/
def walkPath (v : ℕ) : List ℕ := [vmmPml4Index v, vmmPdpteIndex v, vmmPdIndex v, vmmPtIndex v]

theorem index_lt (v k : ℕ) : (v >>> k) &&& 0x1FF < 512 :=
  Nat.and_lt_two_pow (n := 9) _ (by decide)

theorem vmmPml4Index_lt (v : ℕ) : vmmPml4Index v < 512 := index_lt v 39
theorem vmmPdpteIndex_lt (v : ℕ) : vmmPdpteIndex v < 512 := index_lt v 30
theorem vmmPdIndex_lt (v : ℕ) : vmmPdIndex v < 512 := index_lt v 21
theorem vmmPtIndex_lt (v : ℕ) : vmmPtIndex v < 512 := index_lt v 12

theorem walkPath_lt {v i : ℕ} (h : i ∈ walkPath v) : i < 512 := by
  simp only [walkPath, List.mem_cons, List.not_mem_nil, or_false] at h
  rcases h with rfl | rfl | rfl | rfl
  · exact vmmPml4Index_lt v
  · exact vmmPdpteIndex_lt v
  · exact vmmPdIndex_lt v
  · exact vmmPtIndex_lt v

/-- The walk depends on the page only. -/
theorem walkPath_page (v : ℕ) : walkPath (v / 4096 * 4096) = walkPath v := by
  simp only [walkPath, vmmPml4Index_eq, vmmPdpteIndex_eq, vmmPdIndex_eq, vmmPtIndex_eq]
  have h (k : ℕ) (hk : 12 ≤ k) : v / 4096 * 4096 / 2^k = v / 2^k := by
    obtain ⟨j, rfl⟩ := Nat.exists_eq_add_of_le hk
    have hp : 2^(12+j) = 4096 * 2^j := pow_add 2 12 j
    rw [hp, ← Nat.div_div_eq_div_mul, ← Nat.div_div_eq_div_mul, Nat.mul_div_cancel _ (by decide)]
  rw [h 39 (by decide), h 30 (by decide), h 21 (by decide), h 12 (by decide)]

end Bits

section Memory
variable {m m' : Mem} {f g i j w : ℕ}

theorem entry_store64 (hi : i < 512) (hj : j < 512) (hw : w < 2^64) :
    entry (store64 m (f*4096 + 8*i) w) g j = if g = f ∧ j = i then w else entry m g j := by
  unfold entry
  by_cases h : g = f ∧ j = i
  · obtain ⟨rfl, rfl⟩ := h
    rw [if_pos ⟨rfl, rfl⟩]
    exact load64_store64 m _ w hw
  · rw [if_neg h]
    apply load64_store64_of_disjoint
    by_cases hf : g = f
    · have hne : j ≠ i := fun hji => h ⟨hf, hji⟩
      omega
    · omega

/-- Writes inside one frame keep the entries of the others. -/
theorem entry_of_sameOff (hoff : SameOff {x | g*4096 ≤ x ∧ x < g*4096 + 4096} m m') (hf : f ≠ g)
    (hi : i < 512) : entry m' f i = entry m f i := by
  apply load64_of_sameOff hoff
  intro x h1 h2 hx
  have h3 := hx.1
  have h4 := hx.2
  omega

theorem load_fill_zero (m : Mem) (a n b k : ℕ) (h1 : a ≤ b) (h2 : b + k ≤ a + n) :
    load (fill m a 0#8 n) b k = 0 := by
  induction k generalizing b with
  | zero => rfl
  | succ k ih =>
    rw [load, fill_apply, if_pos (by omega), ih (b+1) (by omega) (by omega)]
    rfl

/-- The entries of a cleared page. -/
theorem entry_fill (hj : j < 512) :
    entry (fill m (g*4096) 0#8 4096) f j = if f = g then 0 else entry m f j := by
  by_cases hf : f = g
  · rw [if_pos hf, entry, load64_eq]
    exact load_fill_zero m _ _ _ _ (by omega) (by omega)
  · rw [if_neg hf]
    exact entry_of_sameOff (fill_sameOff m _ _ _) hf hj

end Memory

/-! ### The tree of tables -/

open Classical in
/-- The table behind the entry `i` of the table `f` at the path `p`. Only the paths in `live` count:
the page map level 4 has no large pages, and the entries of a page table are pages. -/
noncomputable def child (m : Mem) (live : List ℕ → Prop) : Children ℕ ℕ := fun p f i =>
  if i < 512 ∧ p.length < 3 ∧ live (p ++ [i]) ∧ entry m f i &&& vmmPresent ≠ 0 ∧
      (p = [] ∨ entry m f i &&& vmmPs = 0) then some (frameOf (entry m f i))
  else none

/-- The frame of the table at the path `p` below the root table `r`. -/
noncomputable def table (m : Mem) (live : List ℕ → Prop) (r : ℕ) (p : List ℕ) : Option ℕ :=
  follow (child m live) r p

section Tree
variable {m m' : Mem} {live : List ℕ → Prop} {r f g i v : ℕ} {p q : List ℕ}

theorem child_eq_some : child m live p f i = some g ↔
    (i < 512 ∧ p.length < 3 ∧ live (p ++ [i]) ∧ entry m f i &&& vmmPresent ≠ 0 ∧
      (p = [] ∨ entry m f i &&& vmmPs = 0)) ∧ frameOf (entry m f i) = g := by
  unfold child
  by_cases h : i < 512 ∧ p.length < 3 ∧ live (p ++ [i]) ∧ entry m f i &&& vmmPresent ≠ 0 ∧
      (p = [] ∨ entry m f i &&& vmmPs = 0)
  · rw [if_pos h, Option.some.injEq]
    exact (and_iff_right h).symm
  · rw [if_neg h]
    exact iff_of_false (fun hn => nomatch hn) (fun hn => h hn.1)

/-- Only the entry matters. -/
theorem child_congr (h : entry m' f i = entry m f i) : child m' live p f i =
    child m live p f i := by
  unfold child
  rw [h]

theorem child_none (h : entry m f i &&& vmmPresent = 0) : child m live p f i = none := by
  unfold child
  rw [if_neg (fun hc => hc.2.2.2.1 h)]

theorem child_large (h : entry m f i &&& vmmPs ≠ 0) (hp : p ≠ []) : child m live p f i = none := by
  unfold child
  rw [if_neg (fun hc => hc.2.2.2.2.elim hp h)]

theorem child_leaf (hp : 3 ≤ p.length) : child m live p f i = none := by
  unfold child
  rw [if_neg (fun hc => by omega)]

theorem table_concat : table m live r (p ++ [i]) =
    (table m live r p).bind (fun f => child m live p f i) := follow_concat p i

theorem table_step (h : table m live r p = some f) :
    table m live r (p ++ [i]) = child m live p f i := by
  rw [table_concat, h]
  rfl

theorem table_parent (h : table m live r (p ++ [i]) = some g) :
    ∃ f, table m live r p = some f ∧ child m live p f i = some g := exists_parent h

/-- Every entry on the walk of `v` is on a live path. -/
def LiveWalk (live : List ℕ → Prop) (v : ℕ) : Prop := ∀ p, p ≠ [] → p <+: walkPath v → live p

/-- The walk of `v` uses the entry `i` of the table at `p`. -/
def OnWalk (v : ℕ) (p : List ℕ) (i : ℕ) : Prop := p ++ [i] <+: walkPath v

/-- The page walk along the tree. -/
noncomputable def treeWalk (m : Mem) (live : List ℕ → Prop) (r v : ℕ) : Option ℕ :=
  match table m live r [vmmPml4Index v] with
  | none => none
  | some f3 =>
    if entry m f3 (vmmPdpteIndex v) &&& vmmPresent ≠ 0 ∧
      entry m f3 (vmmPdpteIndex v) &&& vmmPs ≠ 0 then
      some ((entry m f3 (vmmPdpteIndex v) &&& hugeMask) + v % 2^30)
    else match table m live r [vmmPml4Index v, vmmPdpteIndex v] with
    | none => none
    | some f2 =>
      if entry m f2 (vmmPdIndex v) &&& vmmPresent ≠ 0 ∧ entry m f2 (vmmPdIndex v) &&& vmmPs ≠ 0 then
        some ((entry m f2 (vmmPdIndex v) &&& largeMask) + v % 2^21)
      else match table m live r [vmmPml4Index v, vmmPdpteIndex v, vmmPdIndex v] with
      | none => none
      | some f1 =>
        if entry m f1 (vmmPtIndex v) &&& vmmPresent = 0 then none
        else some (frameOf (entry m f1 (vmmPtIndex v)) * 4096 + v % 2^12)

theorem load_entry (e : ℕ) : load64 m ((e &&& addrMask) + 8*i) = entry m (frameOf e) i := by
  rw [land_addrMask, entry]

/-- The hardware walk of a live address follows the tree. -/
theorem translate_eq (hc : Canonical v) (hl : LiveWalk live v) :
    translate m (r*4096) v = treeWalk m live r v := by
  have hpre1 : [vmmPml4Index v] <+: walkPath v := ⟨_, rfl⟩
  have hpre2 : [vmmPml4Index v, vmmPdpteIndex v] <+: walkPath v := ⟨_, rfl⟩
  have hpre3 : [vmmPml4Index v, vmmPdpteIndex v, vmmPdIndex v] <+: walkPath v := ⟨_, rfl⟩
  have ha := vmmPml4Index_lt v
  have hb := vmmPdpteIndex_lt v
  have hd := vmmPdIndex_lt v
  unfold translate treeWalk
  rw [if_neg (not_not.mpr hc)]
  have h4 : load64 m (r*4096 + 8*vmmPml4Index v) = entry m r (vmmPml4Index v) := rfl
  simp only [h4, load_entry]
  have ht4 : table m live r [vmmPml4Index v] = child m live [] r (vmmPml4Index v) :=
    table_step (p := []) rfl
  rw [ht4]
  -- level 4: an entry that is not present, or a table
  by_cases hp4 : entry m r (vmmPml4Index v) &&& vmmPresent = 0
  · rw [if_pos hp4, child_none hp4]
  have hc4 : child m live [] r (vmmPml4Index v) = some (frameOf (entry m r (vmmPml4Index v))) :=
    child_eq_some.mpr ⟨⟨ha, by decide, hl _ (by simp) hpre1, hp4, Or.inl rfl⟩, rfl⟩
  rw [hc4] at ht4 ⊢
  rw [if_neg hp4]
  dsimp only
  generalize frameOf (entry m r (vmmPml4Index v)) = f3 at ht4 ⊢
  have ht3 : table m live r [vmmPml4Index v, vmmPdpteIndex v] =
      child m live [vmmPml4Index v] f3 (vmmPdpteIndex v) := table_step ht4
  rw [ht3]
  -- level 3: the page of 1 GB too
  by_cases hp3 : entry m f3 (vmmPdpteIndex v) &&& vmmPresent = 0
  · have hn : ¬ (entry m f3 (vmmPdpteIndex v) &&& vmmPresent ≠ 0 ∧
      entry m f3 (vmmPdpteIndex v) &&& vmmPs ≠ 0) :=
      fun h => h.1 hp3
    rw [if_pos hp3, if_neg hn, child_none hp3]
  rw [if_neg hp3]
  by_cases hs3 : entry m f3 (vmmPdpteIndex v) &&& vmmPs ≠ 0
  · rw [if_pos hs3, if_pos ⟨hp3, hs3⟩]
  have hc3 : child m live [vmmPml4Index v] f3 (vmmPdpteIndex v) =
      some (frameOf (entry m f3 (vmmPdpteIndex v))) :=
    child_eq_some.mpr ⟨⟨hb, by simp, hl _ (by simp) hpre2, hp3, Or.inr (not_not.mp hs3)⟩, rfl⟩
  rw [hc3] at ht3 ⊢
  have hn3 : ¬ (entry m f3 (vmmPdpteIndex v) &&& vmmPresent ≠ 0 ∧
      entry m f3 (vmmPdpteIndex v) &&& vmmPs ≠ 0) := fun h => hs3 h.2
  rw [if_neg hs3, if_neg hn3]
  dsimp only
  generalize frameOf (entry m f3 (vmmPdpteIndex v)) = f2 at ht3 ⊢
  have ht2 : table m live r [vmmPml4Index v, vmmPdpteIndex v, vmmPdIndex v] =
      child m live [vmmPml4Index v, vmmPdpteIndex v] f2 (vmmPdIndex v) := table_step ht3
  rw [ht2]
  -- level 2: the page of 2 MB
  by_cases hp2 : entry m f2 (vmmPdIndex v) &&& vmmPresent = 0
  · have hn : ¬ (entry m f2 (vmmPdIndex v) &&& vmmPresent ≠ 0 ∧
      entry m f2 (vmmPdIndex v) &&& vmmPs ≠ 0) :=
      fun h => h.1 hp2
    rw [if_pos hp2, if_neg hn, child_none hp2]
  rw [if_neg hp2]
  by_cases hs2 : entry m f2 (vmmPdIndex v) &&& vmmPs ≠ 0
  · rw [if_pos hs2, if_pos ⟨hp2, hs2⟩]
  have hc2 : child m live [vmmPml4Index v, vmmPdpteIndex v] f2 (vmmPdIndex v) =
      some (frameOf (entry m f2 (vmmPdIndex v))) :=
    child_eq_some.mpr ⟨⟨hd, by simp, hl _ (by simp) hpre3, hp2, Or.inr (not_not.mp hs2)⟩, rfl⟩
  have hn2 : ¬ (entry m f2 (vmmPdIndex v) &&& vmmPresent ≠ 0 ∧
      entry m f2 (vmmPdIndex v) &&& vmmPs ≠ 0) := fun h => hs2 h.2
  rw [hc2, if_neg hs2, if_neg hn2]
  simp only [land_addrMask]

theorem onWalk_cases (h : OnWalk v p i) :
    (p = [] ∧ i = vmmPml4Index v) ∨ (p = [vmmPml4Index v] ∧ i = vmmPdpteIndex v) ∨
    (p = [vmmPml4Index v, vmmPdpteIndex v] ∧ i = vmmPdIndex v) ∨
    (p = [vmmPml4Index v, vmmPdpteIndex v, vmmPdIndex v] ∧ i = vmmPtIndex v) := by
  have hpre := List.prefix_iff_eq_take.mp h
  have hlen := h.length_le
  rw [List.length_append, List.length_singleton] at hlen hpre
  have h4 : (walkPath v).length = 4 := rfl
  rw [h4] at hlen
  have hcut (n : ℕ) (l : List ℕ) (j : ℕ) (ht : (walkPath v).take (n+1) = l ++ [j])
      (hn : p.length = n) : p = l ∧ i = j := by
    rw [hn, ht] at hpre
    obtain ⟨rfl, hij⟩ := List.append_inj' hpre rfl
    exact ⟨rfl, (List.cons.inj hij).1⟩
  have hcases : p.length = 0 ∨ p.length = 1 ∨ p.length = 2 ∨ p.length = 3 := by omega
  rcases hcases with hn | hn | hn | hn
  · exact Or.inl (hcut 0 [] _ rfl hn)
  · exact Or.inr (Or.inl (hcut 1 [_] _ rfl hn))
  · exact Or.inr (Or.inr (Or.inl (hcut 2 [_, _] _ rfl hn)))
  · exact Or.inr (Or.inr (Or.inr (hcut 3 [_, _, _] _ rfl hn)))

/-- The entries on the walk decide its result. -/
theorem treeWalk_congr (h : ∀ p f i, table m live r p = some f → OnWalk v p i →
    entry m' f i = entry m f i) : treeWalk m' live r v = treeWalk m live r v := by
  have ha : table m' live r [vmmPml4Index v] = table m live r [vmmPml4Index v] :=
    (table_step (p := []) rfl).trans ((child_congr (h [] r _ rfl ⟨_, rfl⟩)).trans
      (table_step (p := []) rfl).symm)
  -- table by table, the entry on the walk is the same and leads to the same table
  unfold treeWalk
  rw [ha]
  cases h3 : table m live r [vmmPml4Index v] with
  | none => rfl
  | some f3 =>
    have he3 := h [vmmPml4Index v] f3 (vmmPdpteIndex v) h3 ⟨_, rfl⟩
    have hb : table m' live r [vmmPml4Index v, vmmPdpteIndex v] =
        table m live r [vmmPml4Index v, vmmPdpteIndex v] :=
      (table_step (ha.trans h3)).trans ((child_congr he3).trans (table_step h3).symm)
    dsimp only
    rw [he3, hb]
    cases h2 : table m live r [vmmPml4Index v, vmmPdpteIndex v] with
    | none => rfl
    | some f2 =>
      have he2 := h [vmmPml4Index v, vmmPdpteIndex v] f2 (vmmPdIndex v) h2 ⟨_, rfl⟩
      have hc : table m' live r [vmmPml4Index v, vmmPdpteIndex v, vmmPdIndex v] =
          table m live r [vmmPml4Index v, vmmPdpteIndex v, vmmPdIndex v] :=
        (table_step (hb.trans h2)).trans ((child_congr he2).trans (table_step h2).symm)
      dsimp only
      rw [he2, hc]
      cases h1 : table m live r [vmmPml4Index v, vmmPdpteIndex v, vmmPdIndex v] with
      | none => rfl
      | some f1 =>
        dsimp only
        rw [h _ f1 (vmmPtIndex v) h1 ⟨[], rfl⟩]

/-- The table before the last index of a path to a table. -/
theorem table_init (h : table m live r (p ++ [i]) = some g) :
    ∃ f, table m live r p = some f ∧ entry m f i &&& vmmPresent ≠ 0 ∧
      (p = [] ∨ entry m f i &&& vmmPs = 0) := by
  obtain ⟨f, hf, hi⟩ := table_parent h
  exact ⟨f, hf, (child_eq_some.mp hi).1.2.2.2⟩

/-- A path to the directory of a page is not cut short by a huge page. -/
theorem not_huge {a b : ℕ} {f3 f2 : ℕ} (h3 : table m live r [a] = some f3)
    (h2 : table m live r [a, b] = some f2) :
    ¬ (entry m f3 b &&& vmmPresent ≠ 0 ∧ entry m f3 b &&& vmmPs ≠ 0) := by
  obtain ⟨f, hf, -, hs⟩ := table_init (p := [a]) h2
  obtain rfl : f = f3 := Option.some.inj (hf.symm.trans h3)
  exact fun h => h.2 (hs.resolve_left (List.cons_ne_nil a []))

theorem not_large {a b c : ℕ} {f2 f1 : ℕ} (h2 : table m live r [a, b] = some f2)
    (h1 : table m live r [a, b, c] = some f1) :
    ¬ (entry m f2 c &&& vmmPresent ≠ 0 ∧ entry m f2 c &&& vmmPs ≠ 0) := by
  obtain ⟨f, hf, -, hs⟩ := table_init (p := [a, b]) h1
  obtain rfl : f = f2 := Option.some.inj (hf.symm.trans h2)
  exact fun h => h.2 (hs.resolve_left (List.cons_ne_nil a _))

section Stop
variable {f3 f2 f1 : ℕ}

theorem treeWalk_directory (h2 : table m live r [vmmPml4Index v, vmmPdpteIndex v] = some f2) :
    treeWalk m live r v =
      if entry m f2 (vmmPdIndex v) &&& vmmPresent ≠ 0 ∧ entry m f2 (vmmPdIndex v) &&& vmmPs ≠ 0 then
        some ((entry m f2 (vmmPdIndex v) &&& largeMask) + v % 2^21)
      else match table m live r [vmmPml4Index v, vmmPdpteIndex v, vmmPdIndex v] with
      | none => none
      | some f1 =>
        if entry m f1 (vmmPtIndex v) &&& vmmPresent = 0 then none
        else some (frameOf (entry m f1 (vmmPtIndex v)) * 4096 + v % 2^12) := by
  obtain ⟨f3, h3, -⟩ := table_init (p := [vmmPml4Index v]) h2
  unfold treeWalk
  rw [h3]
  dsimp only
  rw [if_neg (not_huge h3 h2), h2]

/-- The walk of a 2 MB page. -/
theorem treeWalk_large (h2 : table m live r [vmmPml4Index v, vmmPdpteIndex v] = some f2)
    (hp : entry m f2 (vmmPdIndex v) &&& vmmPresent ≠ 0)
    (hs : entry m f2 (vmmPdIndex v) &&& vmmPs ≠ 0) :
    treeWalk m live r v = some ((entry m f2 (vmmPdIndex v) &&& largeMask) + v % 2^21) := by
  rw [treeWalk_directory h2, if_pos ⟨hp, hs⟩]

/-- The walk of a 4 KB page. -/
theorem treeWalk_page
    (h1 : table m live r [vmmPml4Index v, vmmPdpteIndex v, vmmPdIndex v] = some f1) :
    treeWalk m live r v = if entry m f1 (vmmPtIndex v) &&& vmmPresent = 0 then none
      else some (frameOf (entry m f1 (vmmPtIndex v)) * 4096 + v % 2^12) := by
  obtain ⟨f2, h2, -⟩ := table_init (p := [vmmPml4Index v, vmmPdpteIndex v]) h1
  rw [treeWalk_directory h2, if_neg (not_large h2 h1), h1]

/-- The walk stops at an entry that is not present. -/
theorem treeWalk_none (hp : table m live r p = some f) (hw : OnWalk v p i)
    (he : entry m f i &&& vmmPresent = 0) : treeWalk m live r v = none := by
  have hnot (h : entry m f i &&& vmmPresent ≠ 0 ∧ entry m f i &&& vmmPs ≠ 0) : False := h.1 he
  rcases onWalk_cases hw with ⟨rfl, rfl⟩ | ⟨rfl, rfl⟩ | ⟨rfl, rfl⟩ | ⟨rfl, rfl⟩
  · have h4 : table m live r [vmmPml4Index v] = none := (table_step hp).trans (child_none he)
    unfold treeWalk
    rw [h4]
  · have h3 : table m live r [vmmPml4Index v, vmmPdpteIndex v] = none :=
      (table_step hp).trans (child_none he)
    unfold treeWalk
    rw [hp]
    dsimp only
    rw [if_neg hnot, h3]
  · have h2 : table m live r [vmmPml4Index v, vmmPdpteIndex v, vmmPdIndex v] = none :=
      (table_step hp).trans (child_none he)
    rw [treeWalk_directory hp, if_neg hnot, h2]
  · rw [treeWalk_page hp, if_pos he]

end Stop

end Tree

end SukiOS

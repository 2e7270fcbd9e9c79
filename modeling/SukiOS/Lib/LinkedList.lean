import Mathlib.Data.List.Nodup

/-! Linked lists threaded through link fields: `nxt` and `prv` read the links of a
node, `null` ends a list. -/
namespace LinkedList

variable {α : Type*}

/-- Following `nxt` from `hd` visits exactly `xs` and ends in `null`. -/
def Linked (nxt : α → α) (null : α) : α → List α → Prop
  | hd, [] => hd = null
  | hd, x::xs => hd = x ∧ x ≠ null ∧ Linked nxt null (nxt x) xs

/-- Each node's back link is the node before it, and the first one's is `p`. -/
def BackLinked (prv : α → α) : α → List α → Prop
  | _, [] => True
  | p, x::xs => prv x = p ∧ BackLinked prv x xs

variable {nxt nxt' prv prv' : α → α} {null hd p : α} {l r xs : List α} {x : α}

theorem Linked.congr (h : Linked nxt null hd xs) (he : ∀ y ∈ xs, nxt' y = nxt y) :
    Linked nxt' null hd xs := by
  induction xs generalizing hd with
  | nil => exact h
  | cons y ys ih =>
    obtain ⟨hy, hne, ht⟩ := h
    refine ⟨hy, hne, ?_⟩
    rw [he y List.mem_cons_self]
    exact ih ht (fun z hz => he z (List.mem_cons_of_mem _ hz))

theorem BackLinked.congr (h : BackLinked prv p xs) (he : ∀ y ∈ xs, prv' y = prv y) :
    BackLinked prv' p xs := by
  induction xs generalizing p with
  | nil => trivial
  | cons y ys ih =>
    obtain ⟨hy, ht⟩ := h
    exact ⟨(he y List.mem_cons_self).trans hy,
      ih ht (fun z hz => he z (List.mem_cons_of_mem _ hz))⟩

theorem Linked.ne_null (h : Linked nxt null hd xs) (hx : x ∈ xs) : x ≠ null := by
  induction xs generalizing hd with
  | nil => cases hx
  | cons y ys ih =>
    rcases List.mem_cons.mp hx with rfl | hx
    · exact h.2.1
    · exact ih h.2.2 hx

/-- The list is determined by its head. -/
theorem Linked.unique {ys : List α} (h : Linked nxt null hd xs) (h' : Linked nxt null hd ys) :
    xs = ys := by
  induction xs generalizing hd ys with
  | nil =>
    cases ys with
    | nil => rfl
    | cons y ys => exact absurd (h'.1.symm.trans h) h'.2.1
  | cons x xs ih =>
    cases ys with
    | nil => exact absurd (h.1.symm.trans h') h.2.1
    | cons y ys =>
      obtain rfl : x = y := h.1.symm.trans h'.1
      rw [ih h.2.2 h'.2.2]

theorem Linked.head_mem (h : Linked nxt null hd xs) : hd = null ∨ hd ∈ xs := by
  cases xs with
  | nil => exact Or.inl h
  | cons y ys => exact Or.inr (h.1 ▸ List.mem_cons_self)

theorem BackLinked.prev_mem (h : BackLinked prv p (l ++ x :: r)) : prv x = p ∨ prv x ∈ l := by
  induction l generalizing p with
  | nil => exact Or.inl h.1
  | cons y ys ih =>
    rcases ih h.2 with he | he
    · exact Or.inr (he ▸ List.mem_cons_self)
    · exact Or.inr (List.mem_cons_of_mem _ he)

theorem BackLinked.at (h : BackLinked prv p (l ++ x :: r)) : BackLinked prv x r := by
  induction l generalizing p with
  | nil => exact h.2
  | cons y ys ih => exact ih h.2

theorem Linked.at (h : Linked nxt null hd (l ++ x :: r)) : Linked nxt null x (x :: r) := by
  induction l generalizing hd with
  | nil => exact ⟨rfl, h.2⟩
  | cons y ys ih => exact ih h.2.2

/-- Change what follows the node `y`. -/
theorem Linked.graft {y : α} {s r' : List α} (h : Linked nxt null hd (l ++ y :: s))
    (hl : ∀ z ∈ l, nxt' z = nxt z) (hr : Linked nxt' null (nxt' y) r') :
    Linked nxt' null hd (l ++ y :: r') := by
  induction l generalizing hd with
  | nil => exact ⟨h.1, h.2.1, hr⟩
  | cons z zs ih =>
    refine ⟨h.1, h.2.1, ?_⟩
    rw [hl z List.mem_cons_self]
    exact ih h.2.2 (fun w hw => hl w (List.mem_cons_of_mem _ hw))

/-- Redirect the pointer to `x`, found through the back link of `x`, to a list `r'`. -/
theorem Linked.splice [DecidableEq α] {q : α} {r' : List α} (h : Linked nxt null hd (l ++ x :: r))
    (hb : BackLinked prv null (l ++ x :: r)) (hn : l.Nodup)
    (hl : ∀ y ∈ l, nxt' y = if y = prv x then q else nxt y) (hr : Linked nxt' null q r') :
    Linked nxt' null (if prv x = null then q else hd) (l ++ r') := by
  have hback (l : List α) (p : α) (hb : BackLinked prv p (l ++ x :: r)) :
      prv x = (p :: l).getLast (List.cons_ne_nil _ _) := by
    induction l generalizing p with
    | nil => exact hb.1
    | cons y ys ih =>
      rw [List.getLast_cons (List.cons_ne_nil _ _)]
      exact ih y hb.2
  rcases List.eq_nil_or_concat l with rfl | ⟨l', y, rfl⟩
  · rw [if_pos hb.1]
    exact hr
  · have hy : prv x = y := by
      rw [hback _ _ hb]
      simp
    rw [List.concat_eq_append, List.append_assoc] at h
    have hyn : y ≠ null := h.ne_null (by simp)
    rw [hy, if_neg hyn, List.concat_eq_append, List.append_assoc]
    apply h.graft
    · intro z hz
      have hzy : z ≠ y := by
        rintro rfl
        rw [List.concat_eq_append] at hn
        exact (List.nodup_append.mp hn).2.2 z hz z (by simp) rfl
      rw [hl z (by simp [hz]), if_neg (by rw [hy]; exact hzy)]
    · rw [hl y (by simp), if_pos hy.symm]
      exact hr

/-- Redirect the link of `t` to `p`: what came after `t` is cut off, and if `t` is not in the list
then the list stays. -/
theorem Linked.relink [DecidableEq α] {t : α} (h : Linked nxt null hd xs) (hn : xs.Nodup)
    (hp : p ∉ xs) (h0 : p ≠ null) (hlast : nxt p = null)
    (hnext : ∀ y, nxt' y = if y = t then p else nxt y) :
    ∃ ys, Linked nxt' null hd ys ∧ ys.Nodup ∧ (xs = [] → ys = []) ∧ ∀ y ∈ ys, y ∈ xs ∨ y = p := by
  by_cases ht : t ∈ xs
  · obtain ⟨l, r, rfl⟩ := List.append_of_mem ht
    have htp : p ≠ t := fun hpt => hp (hpt ▸ ht)
    have hltr := List.nodup_append.mp hn
    -- `p` follows `t` and ends the list
    have hnew : Linked nxt' null (nxt' t) [p] := by
      refine ⟨(hnext t).trans (if_pos rfl), h0, ?_⟩
      exact (hnext p).trans ((if_neg htp).trans hlast)
    refine ⟨l ++ [t, p], h.graft (fun z hz => ?_) hnew, ?_, fun h0 => by simp at h0, fun y hy => ?_⟩
    · have hzt : z ≠ t := hltr.2.2 z hz t List.mem_cons_self
      exact (hnext z).trans (if_neg hzt)
    · apply List.nodup_append.mpr
      refine ⟨hltr.1, by simpa using htp.symm, fun a ha b hb => ?_⟩
      rcases List.mem_cons.mp hb with rfl | hb
      · exact hltr.2.2 a ha b List.mem_cons_self
      · rw [List.mem_singleton.mp hb]
        exact fun hap => hp (List.mem_append.mpr (Or.inl (hap ▸ ha)))
    · simp only [List.mem_append, List.mem_cons, List.not_mem_nil, or_false] at hy ⊢
      rcases hy with hy | rfl | rfl
      · exact Or.inl (Or.inl hy)
      · exact Or.inl (Or.inr (Or.inl rfl))
      · exact Or.inr rfl
  · refine ⟨xs, h.congr (fun y hy => ?_), hn, id, fun y hy => Or.inl hy⟩
    exact (hnext y).trans (if_neg (fun (hyt : y = t) => ht (hyt ▸ hy)))

theorem BackLinked.splice {r' : List α} (h : BackLinked prv p (l ++ x :: r))
    (hl : ∀ y ∈ l, prv' y = prv y) (hr : BackLinked prv' (prv x) r') :
    BackLinked prv' p (l ++ r') := by
  induction l generalizing p with
  | nil =>
    rw [← h.1]
    exact hr
  | cons y ys ih =>
    exact ⟨(hl y List.mem_cons_self).trans h.1,
      ih h.2 (fun z hz => hl z (List.mem_cons_of_mem _ hz))⟩

/-- Redirect the back link of the head. -/
theorem BackLinked.rehead [DecidableEq α] {p' : α} (h : BackLinked prv p xs)
    (hL : Linked nxt null hd xs) (hn : xs.Nodup)
    (he : ∀ y ∈ xs, prv' y = if y = hd then p' else prv y) :
    BackLinked prv' p' xs := by
  cases xs with
  | nil => trivial
  | cons y ys =>
    refine ⟨?_, h.2.congr ?_⟩
    · rw [he y List.mem_cons_self, if_pos hL.1.symm]
    · intro z hz
      have hzy : z ≠ y := fun hzy => (List.nodup_cons.mp hn).1 (hzy ▸ hz)
      rw [he z (List.mem_cons_of_mem _ hz), if_neg (by rw [hL.1]; exact hzy)]

/-- `p` is met when following `nxt` from `hd`; the chain may be cyclic. -/
inductive Chained (nxt : α → α) (null : α) : α → α → Prop
  | here (p : α) : Chained nxt null p p
  | next {a p : α} (ha : a ≠ null) (h : Chained nxt null (nxt a) p) : Chained nxt null a p

theorem Chained.congr (h : Chained nxt null hd p) (he : ∀ y, nxt' y = nxt y) :
    Chained nxt' null hd p := by
  induction h with
  | here p => exact .here p
  | next ha _ ih => exact .next ha (he _ ▸ ih)

theorem Linked.chained (h : Linked nxt null hd xs) (hx : x ∈ xs) : Chained nxt null hd x := by
  induction xs generalizing hd with
  | nil => cases hx
  | cons y ys ih =>
    obtain ⟨rfl, hne, ht⟩ := h
    rcases List.mem_cons.mp hx with rfl | hx
    · exact .here x
    · exact .next hne (ih ht hx)

theorem Chained.mem (h : Chained nxt null hd p) (hl : Linked nxt null hd xs) (hp : p ≠ null) :
    p ∈ xs := by
  induction h generalizing xs with
  | here p =>
    rcases hl.head_mem with h | h
    · exact absurd h hp
    · exact h
  | @next a p ha h ih =>
    cases xs with
    | nil => exact absurd hl ha
    | cons y ys => exact List.mem_cons_of_mem _ (ih (hl.1 ▸ hl.2.2) hp)

end LinkedList

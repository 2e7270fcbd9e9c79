import Mathlib.Algebra.GroupWithZero.Nat
import Mathlib.Data.Finset.Card
import Mathlib.Algebra.BigOperators.Group.List.Basic

/-! The sizes of the sets of a list against the size of their union. They add up to it exactly when
the sets are pairwise disjoint. -/
namespace FiniteCover

variable {α : Type*}

def total (l : List (Finset α)) : ℕ := (l.map Finset.card).sum

@[simp] theorem total_cons (s : Finset α) (l : List (Finset α)) :
    total (s::l) = s.card + total l := by
  simp only [total, List.map_cons, List.sum_cons]

theorem total_le {l : List (Finset α)} {n : ℕ} (h : ∀ s ∈ l, s.card ≤ n) :
    total l ≤ l.length * n := by
  induction l with
  | nil => exact Nat.zero_le _
  | cons s l ih =>
    have hs := h s List.mem_cons_self
    have hl := ih (fun t ht => h t (List.mem_cons_of_mem s ht))
    rw [total_cons, List.length_cons, Nat.succ_mul]
    omega

variable [DecidableEq α]

def cover (l : List (Finset α)) : Finset α := l.foldr (fun s t => s ∪ t) ∅

@[simp] theorem cover_cons (s : Finset α) (l : List (Finset α)) : cover (s::l) = s ∪ cover l := rfl

theorem mem_cover {x : α} {l : List (Finset α)} : x ∈ cover l ↔ ∃ s ∈ l, x ∈ s := by
  induction l with
  | nil => simp [cover]
  | cons s l ih =>
    rw [cover_cons, Finset.mem_union, ih]
    simp only [List.mem_cons, exists_eq_or_imp]

theorem card_cover_le (l : List (Finset α)) : (cover l).card ≤ total l := by
  induction l with
  | nil => exact Nat.le_refl 0
  | cons s l ih =>
    rw [cover_cons, total_cons]
    exact (Finset.card_union_le s (cover l)).trans (Nat.add_le_add_left ih _)

theorem disjoint_cover {s : Finset α} {l : List (Finset α)} :
    Disjoint s (cover l) ↔ ∀ t ∈ l, Disjoint s t := by
  simp only [Finset.disjoint_left, mem_cover]
  constructor
  · intro h t ht x hx hxt
    exact h hx ⟨t, ht, hxt⟩
  · rintro h x hx ⟨t, ht, hxt⟩
    exact h t ht hx hxt

theorem card_cover_eq_iff (l : List (Finset α)) :
    (cover l).card = total l ↔ l.Pairwise Disjoint := by
  induction l with
  | nil => exact ⟨fun _ => List.Pairwise.nil, fun _ => rfl⟩
  | cons s l ih =>
    have hle := card_cover_le l
    have hinter := Finset.card_union_add_card_inter s (cover l)
    rw [cover_cons, total_cons, List.pairwise_cons, ← ih, ← disjoint_cover,
      Finset.disjoint_iff_inter_eq_empty, ← Finset.card_eq_zero]
    -- what the union lacks of the sum is the common part and what is missing behind it
    omega

end FiniteCover

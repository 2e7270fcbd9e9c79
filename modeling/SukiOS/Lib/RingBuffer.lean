import Mathlib.Data.List.Basic
import Mathlib.Logic.Function.Basic
import Mathlib.Data.Nat.Notation

/-! A bounded queue in an array of `n` slots with a position to write and one to read. One slot
stays empty, so that a full queue differs from an empty one. -/
namespace RingBuffer

structure RingBuf (α : Type*) where
  data : ℕ → α
  head : ℕ
  tail : ℕ

variable {α : Type*} {n : ℕ} {r : RingBuf α} {l : List α} {c : α}

def RingBuf.isEmpty (r : RingBuf α) : Bool := r.head == r.tail

def RingBuf.isFull (n : ℕ) (r : RingBuf α) : Bool := (r.head + 1) % n == r.tail

/-- A full queue stays as it is. -/
def RingBuf.push (n : ℕ) (r : RingBuf α) (c : α) : RingBuf α :=
  if r.isFull n then r
  else { r with data := Function.update r.data r.head c, head := (r.head + 1) % n }

/-- The oldest item, or the default when there is none. -/
def RingBuf.pop [Inhabited α] (n : ℕ) (r : RingBuf α) : α × RingBuf α :=
  if r.isEmpty then (default, r) else (r.data r.tail, { r with tail := (r.tail + 1) % n })

def RingBuf.count (n : ℕ) (r : RingBuf α) : ℕ := (r.head + n - r.tail) % n

/-- The items that wait, the oldest first. -/
def RingBuf.items (n : ℕ) (r : RingBuf α) : List α :=
  (List.range (r.count n)).map (fun i => r.data ((r.tail + i) % n))

/-- The items are `l`, the oldest first. -/
structure RingBuf.Holds (n : ℕ) (r : RingBuf α) (l : List α) : Prop where
  tail_lt : r.tail < n
  length_lt : l.length < n
  head_eq : r.head = (r.tail + l.length) % n
  slot : ∀ i, i < l.length → some (r.data ((r.tail + i) % n)) = l[i]?

theorem mod_double {x : ℕ} (h : x < 2 * n) : x % n = if x < n then x else x - n := by
  split
  · exact Nat.mod_eq_of_lt ‹_›
  · rw [Nat.mod_eq_sub_mod (by omega), Nat.mod_eq_of_lt (by omega)]

/-- Positions less than a turn apart are different slots. -/
theorem add_mod_inj {t i j : ℕ} (ht : t < n) (hi : i < n) (hj : j < n)
    (h : (t + i) % n = (t + j) % n) : i = j := by
  rw [mod_double (by omega), mod_double (by omega)] at h
  split at h <;> split at h <;> omega

theorem RingBuf.Holds.nil (h : 0 < n) (d : ℕ → α) :
    ({ data := d, head := 0, tail := 0 } : RingBuf α).Holds n [] where
  tail_lt := h
  length_lt := h
  head_eq := (Nat.zero_mod n).symm
  slot i hi := absurd hi (Nat.not_lt_zero i)

theorem RingBuf.Holds.count_eq (h : r.Holds n l) : r.count n = l.length := by
  have ht := h.tail_lt
  have hl := h.length_lt
  unfold RingBuf.count
  rw [h.head_eq, mod_double (show r.tail + l.length < 2 * n by omega)]
  split
  · rw [mod_double (by omega)]
    split <;> omega
  · rw [mod_double (by omega)]
    split <;> omega

theorem RingBuf.Holds.items_eq (h : r.Holds n l) : r.items n = l := by
  unfold RingBuf.items
  rw [h.count_eq]
  apply List.ext_getElem?
  intro i
  rw [List.getElem?_map]
  by_cases hi : i < l.length
  · rw [List.getElem?_range hi]
    exact h.slot i hi
  · rw [List.getElem?_eq_none (by rw [List.length_range]; omega), List.getElem?_eq_none (by omega)]
    rfl

theorem RingBuf.Holds.isEmpty_iff (h : r.Holds n l) : r.isEmpty = true ↔ l = [] := by
  have hlt := h.length_lt
  have ht := h.tail_lt
  unfold RingBuf.isEmpty
  rw [beq_iff_eq, h.head_eq, ← List.length_eq_zero_iff]
  constructor
  · intro he
    apply add_mod_inj ht hlt (by omega : 0 < n)
    rw [he, Nat.add_zero, Nat.mod_eq_of_lt ht]
  · intro he
    rw [he, Nat.add_zero, Nat.mod_eq_of_lt ht]

theorem RingBuf.Holds.head_next (h : r.Holds n l) : (r.head + 1) % n =
    (r.tail + (l.length + 1)) % n := by
  rw [h.head_eq, Nat.mod_add_mod, Nat.add_assoc]

theorem RingBuf.Holds.isFull_iff (h : r.Holds n l) : r.isFull n = true ↔ l.length + 1 = n := by
  have hlt := h.length_lt
  have ht := h.tail_lt
  unfold RingBuf.isFull
  rw [beq_iff_eq, h.head_next]
  constructor
  · intro he
    by_contra hne
    have h0 : l.length + 1 = 0 := by
      apply add_mod_inj ht (by omega) (by omega : 0 < n)
      rw [he, Nat.add_zero, Nat.mod_eq_of_lt ht]
    omega
  · intro he
    rw [he, Nat.add_mod_right, Nat.mod_eq_of_lt ht]

theorem RingBuf.Holds.push (h : r.Holds n l) (hl : l.length + 1 < n) (c : α) :
    (r.push n c).Holds n (l ++ [c]) := by
  have ht := h.tail_lt
  have hfull : ¬ r.isFull n = true := by
    rw [h.isFull_iff]
    omega
  unfold RingBuf.push
  rw [if_neg hfull]
  refine ⟨ht, by rw [List.length_append]; exact hl, ?_, fun i hi => ?_⟩
  · rw [List.length_append]
    exact h.head_next
  · rw [List.length_append, List.length_singleton] at hi
    change some (Function.update r.data r.head c ((r.tail + i) % n)) = (l ++ [c])[i]?
    by_cases hil : i < l.length
    · -- an older slot is not the one that is written
      have hne : (r.tail + i) % n ≠ r.head := by
        rw [h.head_eq]
        intro he
        have := add_mod_inj ht (by omega) h.length_lt he
        omega
      rw [Function.update_of_ne hne, List.getElem?_append_left hil]
      exact h.slot i hil
    · obtain rfl : i = l.length := by omega
      rw [← h.head_eq, Function.update_self, List.getElem?_append_right (Nat.le_refl _),
        Nat.sub_self]
      rfl

/-- A push adds an item at the end, unless the queue is full. -/
theorem RingBuf.Holds.push_any (h : r.Holds n l) (c : α) :
    (r.push n c).Holds n (if l.length + 1 < n then l ++ [c] else l) := by
  by_cases hl : l.length + 1 < n
  · rw [if_pos hl]
    exact h.push hl c
  · have hlt := h.length_lt
    have hfull : r.isFull n = true := h.isFull_iff.mpr (by omega)
    have hself : r.push n c = r := if_pos hfull
    rw [if_neg hl, hself]
    exact h

theorem RingBuf.Holds.pop_nil [Inhabited α] (h : r.Holds n []) : r.pop n = (default, r) :=
  if_pos (h.isEmpty_iff.mpr rfl)

theorem RingBuf.Holds.pop_cons [Inhabited α] (h : r.Holds n (c::l)) :
    (r.pop n).1 = c ∧ (r.pop n).2.Holds n l := by
  have ht := h.tail_lt
  have hlt := h.length_lt
  rw [List.length_cons] at hlt
  have hne : ¬ r.isEmpty = true := fun he => List.cons_ne_nil c l (h.isEmpty_iff.mp he)
  have hnext (i : ℕ) : ((r.tail + 1) % n + i) % n = (r.tail + (i + 1)) % n := by
    rw [Nat.mod_add_mod, Nat.add_assoc, Nat.add_comm 1 i]
  unfold RingBuf.pop
  rw [if_neg hne]
  refine ⟨?_, ⟨Nat.mod_lt _ (by omega), by omega, ?_, fun i hi => ?_⟩⟩
  · have h0 := h.slot 0 (Nat.succ_pos _)
    rw [Nat.add_zero, Nat.mod_eq_of_lt ht] at h0
    exact Option.some.inj h0
  · change r.head = ((r.tail + 1) % n + l.length) % n
    rw [hnext, h.head_eq, List.length_cons]
  · change some (r.data (((r.tail + 1) % n + i) % n)) = l[i]?
    rw [hnext]
    exact h.slot (i + 1) (Nat.succ_lt_succ hi)

end RingBuffer

import Mathlib.Data.Set.Insert
import Mathlib.Tactic.Tauto

/-! An abstract allocator: a fixed set of usable resources, some of which are out
with clients. Nothing is out twice because the free ones are what is not out. -/
namespace ResourcePool

structure Pool (α : Type*) where
  avail : Set α
  out : Set α
  out_avail : ∀ a ∈ out, a ∈ avail

variable {α : Type*}

def Pool.free (P : Pool α) : Set α := {a | a ∈ P.avail ∧ a ∉ P.out}

def Pool.fresh (avail : Set α) : Pool α := ⟨avail, ∅, fun _ h => False.elim h⟩

def Pool.take (P : Pool α) (a : α) (ha : a ∈ P.free) : Pool α where
  avail := P.avail
  out := insert a P.out
  out_avail b hb := by
    rcases hb with rfl | hb
    · exact ha.1
    · exact P.out_avail b hb

def Pool.give (P : Pool α) (a : α) : Pool α where
  avail := P.avail
  out := {b | b ∈ P.out ∧ b ≠ a}
  out_avail b hb := P.out_avail b hb.1

theorem Pool.mem_free_fresh (avail : Set α) (b : α) :
    b ∈ (Pool.fresh avail).free ↔ b ∈ avail := by
  simp [Pool.fresh, Pool.free]

theorem Pool.mem_free_take (P : Pool α) (a : α) (ha : a ∈ P.free) (b : α) :
    b ∈ (P.take a ha).free ↔ b ∈ P.free ∧ b ≠ a := by
  simp only [Pool.free, Pool.take, Set.mem_ofPred_eq, Set.mem_insert_iff]
  tauto

theorem Pool.mem_free_give (P : Pool α) (a : α) (ha : a ∈ P.out) (b : α) :
    b ∈ (P.give a).free ↔ b ∈ P.free ∨ b = a := by
  have hav := P.out_avail a ha
  simp only [Pool.free, Pool.give, Set.mem_ofPred_eq]
  by_cases hb : b = a
  · subst hb
    tauto
  · tauto

end ResourcePool

import Mathlib.Data.List.Nodup
import Mathlib.Data.Nat.Notation

/-! Chains of cells linked by a `next` function, as in an allocation table: from a first cell on,
up to a value that ends the chain. -/
namespace LinkedChain

variable {I : Type*}

/-- `L` are the cells of the chain from `c` on. -/
def Linked (next : I → I) (stop ok : I → Prop) : I → List I → Prop
  | c, [] => stop c
  | c, x::L => c = x ∧ ok x ∧ Linked next stop ok (next x) L

variable {next next' : I → I} {stop ok : I → Prop} {c n t x : I} {K L : List I}

theorem Linked.ok_of_mem (h : Linked next stop ok c L) (hx : x ∈ L) : ok x := by
  induction L generalizing c with
  | nil => exact nomatch hx
  | cons y L ih =>
    rcases List.mem_cons.mp hx with rfl | hx
    · exact h.2.1
    · exact ih h.2.2 hx

/-- The first cell decides the chain. -/
theorem Linked.unique (hok : ∀ x, ok x → ¬ stop x) (h : Linked next stop ok c K)
    (h' : Linked next stop ok c L) : K = L := by
  induction K generalizing c L with
  | nil =>
    cases L with
    | nil => rfl
    | cons x L => exact absurd (h'.1 ▸ h) (hok x h'.2.1)
  | cons x K ih =>
    cases L with
    | nil => exact absurd (h.1 ▸ h') (hok x h.2.1)
    | cons y L =>
      obtain rfl : x = y := h.1.symm.trans h'.1
      rw [ih h.2.2 h'.2.2]

/-- Only the links of the cells matter. -/
theorem Linked.congr (h : Linked next stop ok c L) (hn : ∀ x ∈ L, next' x = next x) :
    Linked next' stop ok c L := by
  induction L generalizing c with
  | nil => exact h
  | cons x L ih =>
    refine ⟨h.1, h.2.1, ?_⟩
    rw [hn x List.mem_cons_self]
    exact ih h.2.2 (fun y hy => hn y (List.mem_cons_of_mem x hy))

/-- The rest of a chain is a chain. -/
theorem Linked.suffix (h : Linked next stop ok c (K ++ x::L)) : Linked next stop ok x (x::L) := by
  induction K generalizing c with
  | nil => exact ⟨rfl, h.2⟩
  | cons y K ih => exact ih h.2.2

/-- The rest of a chain from its cell `k` on. -/
theorem Linked.drop (h : Linked next stop ok c L) {k : ℕ} (hk : k < L.length) :
    Linked next stop ok L[k] (L[k]::L.drop (k+1)) := by
  have hsplit : L.take k ++ L[k]::L.drop (k+1) = L := by
    rw [List.getElem_cons_drop, List.take_append_drop]
  rw [← hsplit] at h
  exact h.suffix

/-- A chain that ends has no cycle. -/
theorem Linked.nodup (hok : ∀ x, ok x → ¬ stop x) (h : Linked next stop ok c L) : L.Nodup := by
  induction L generalizing c with
  | nil => exact List.nodup_nil
  | cons x L ih =>
    refine List.nodup_cons.mpr ⟨fun hx => ?_, ih h.2.2⟩
    obtain ⟨A, B, rfl⟩ := List.append_of_mem hx
    have hsame : x::(A ++ x::B) = x::B :=
      Linked.unique hok (c := x) ⟨rfl, h.2⟩ (Linked.suffix h.2.2)
    have hlen := congrArg List.length hsame
    simp only [List.length_cons, List.length_append] at hlen
    omega

/-- A new cell at the end. -/
theorem Linked.concat (h : Linked next stop ok c (K ++ [t])) (ht : t ∉ K)
    (hK : ∀ x ∈ K, next' x = next x) (hlink : next' t = n) (hn : ok n) (hend : stop (next' n)) :
    Linked next' stop ok c (K ++ [t] ++ [n]) := by
  induction K generalizing c with
  | nil => exact ⟨h.1, h.2.1, hlink, hn, hend⟩
  | cons x K ih =>
    refine ⟨h.1, h.2.1, ?_⟩
    rw [hK x List.mem_cons_self]
    exact ih h.2.2 (fun hm => ht (List.mem_cons_of_mem x hm))
      (fun y hy => hK y (List.mem_cons_of_mem x hy))

end LinkedChain

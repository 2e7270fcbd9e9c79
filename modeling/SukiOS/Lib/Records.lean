import Mathlib.Data.List.Basic
import Mathlib.Data.Nat.Notation

/-! Records of varying size that follow each other up to `stop`. The first `head` bytes of a record
tell its size; the records end where no head fits, or at a size that is smaller than the head. -/
namespace Records

/-- The offsets of at most `n` records from `off` on. -/
def records (head : ℕ) (size : ℕ → ℕ) (stop : ℕ) : ℕ → ℕ → List ℕ
  | 0, _ => []
  | n+1, off =>
    if off + head ≤ stop ∧ head ≤ size off then off :: records head size stop n (off + size off)
    else []

variable {head stop n off o : ℕ} {size : ℕ → ℕ}

/-- There is a head in the region for each record. -/
theorem records_fit (h : o ∈ records head size stop n off) : o + head ≤ stop ∧ head ≤ size o := by
  induction n generalizing off with
  | zero => exact absurd h List.not_mem_nil
  | succ n ih =>
    unfold records at h
    by_cases hfit : off + head ≤ stop ∧ head ≤ size off
    · rw [if_pos hfit] at h
      cases List.mem_cons.mp h with
      | inl heq => rw [heq]; exact hfit
      | inr hmem => exact ih hmem
    · rw [if_neg hfit] at h
      exact absurd h List.not_mem_nil

/-- Once there are steps for the whole region, more of them find nothing new. -/
theorem records_steps (hhead : 0 < head) (m : ℕ) (hm : stop < off + m) (hn : stop < off + n) :
    records head size stop m off = records head size stop n off := by
  induction m generalizing off n with
  | zero =>
    cases n with
    | zero => exact Eq.refl _
    | succ n =>
      unfold records
      rw [if_neg (fun hfit => absurd hfit.1 (by omega))]
  | succ m ih =>
    cases n with
    | zero =>
      unfold records
      rw [if_neg (fun hfit => absurd hfit.1 (by omega))]
    | succ n =>
      unfold records
      by_cases hfit : off + head ≤ stop ∧ head ≤ size off
      · rw [if_pos hfit, if_pos hfit]
        apply congrArg (List.cons off)
        exact ih (by omega) (by omega)
      · rw [if_neg hfit, if_neg hfit]

end Records

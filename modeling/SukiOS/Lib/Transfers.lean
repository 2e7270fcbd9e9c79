import Mathlib.Data.Nat.Basic

/-! A device whose transfers may fail: the transfers are numbered, and a sequence says what becomes
of each. A loop over some of them stops at the first that fails. -/
namespace Transfers

/-- What becomes of a transfer. One that is not confirmed has been made, and is reported as failed.
-/
inductive Fate where
  | done
  | lost
  | unconfirmed
deriving DecidableEq, Repr

/-- `n` transfers from number `t` on are made and confirmed. -/
def AllDone (fate : ℕ → Fate) (t n : ℕ) : Prop := ∀ k, k < n → fate (t+k) = .done

instance (fate : ℕ → Fate) (t n : ℕ) : Decidable (AllDone fate t n) :=
  inferInstanceAs (Decidable (∀ k, k < n → _))

/-- Transfer `k` of a loop from number `t` on is tried, and made. -/
def Reaches (fate : ℕ → Fate) (t k : ℕ) : Prop := AllDone fate t k ∧ fate (t+k) ≠ .lost

instance (fate : ℕ → Fate) (t k : ℕ) : Decidable (Reaches fate t k) :=
  inferInstanceAs (Decidable (_ ∧ _))

/-- The transfers that are made until one fails, of `n` from number `t` on. -/
def attempts (fate : ℕ → Fate) (t : ℕ) : ℕ → ℕ
  | 0 => 0
  | n+1 => if AllDone fate t n then n+1 else attempts fate t n

section Transfers
variable {fate : ℕ → Fate} {t n m : ℕ}

theorem AllDone.zero : AllDone fate t 0 := fun _ hk => absurd hk (Nat.not_lt_zero _)

theorem allDone_succ : AllDone fate t (n+1) ↔ AllDone fate t n ∧ fate (t+n) = .done := by
  constructor
  · intro h
    exact ⟨fun k hk => h k (Nat.lt_succ_of_lt hk), h n (Nat.lt_succ_self n)⟩
  · intro h k hk
    by_cases hkn : k = n
    · rw [hkn]
      exact h.2
    · exact h.1 k (by omega)

theorem allDone_add : AllDone fate t (n + m) ↔ AllDone fate t n ∧ AllDone fate (t+n) m := by
  constructor
  · intro h
    constructor
    · intro k hk
      exact h k (by omega)
    · intro k hk
      have hnk := h (n+k) (by omega)
      rwa [← Nat.add_assoc] at hnk
  · intro h k hk
    by_cases hkn : k < n
    · exact h.1 k hkn
    · have hk2 := h.2 (k-n) (by omega)
      rwa [show t + n + (k - n) = t + k by omega] at hk2

theorem AllDone.mono (h : AllDone fate t n) (hle : m ≤ n) : AllDone fate t m :=
  fun k hk => h k (Nat.lt_of_lt_of_le hk hle)

theorem attempts_of_done (h : AllDone fate t n) : attempts fate t n = n := by
  cases n with
  | zero => exact Eq.refl 0
  | succ n =>
    unfold attempts
    exact if_pos (allDone_succ.mp h).1

theorem AllDone.of_done (hdone : ∀ k, fate k = .done) (t n : ℕ) : AllDone fate t n :=
  fun k _ => hdone (t+k)

theorem AllDone.reaches {k : ℕ} (h : AllDone fate t n) (hk : k < n) : Reaches fate t k := by
  refine ⟨h.mono (Nat.le_of_lt hk), ?_⟩
  rw [h k hk]
  decide

end Transfers

end Transfers

import Mathlib.Data.Nat.Notation
import Mathlib.Tactic.Ring

/-! Unsigned machine words as naturals: masks, alignment and flag bits. -/
namespace MachineWord

/-- Masking with a window of `n` ones starting at bit `i`. -/
theorem land_window (x i n : ℕ) : x &&& ((2^n-1) * 2^i) = x / 2^i % 2^n * 2^i := by
  apply Nat.eq_of_testBit_eq
  intro j
  rw [Nat.testBit_and, Nat.testBit_mul_two_pow, Nat.testBit_mul_two_pow,
    Nat.testBit_two_pow_sub_one, Nat.testBit_mod_two_pow, Nat.testBit_div_two_pow]
  by_cases hij : i ≤ j
  · rw [Nat.sub_add_cancel hij]
    simp only [hij, decide_true, Bool.true_and]
    exact Bool.and_comm _ _
  · simp only [hij, decide_false, Bool.false_and, Bool.and_false]

/-- `x & ~(2^k-1)` on 64-bit words rounds down to a multiple of `2^k`. -/
theorem land_align_down (x k : ℕ) (hk : k ≤ 64) (hx : x < 2^64) :
    x &&& (2^64 - 2^k) = x / 2^k * 2^k := by
  have hmask : 2^64 - 2^k = (2^(64-k)-1) * 2^k := by
    rw [Nat.sub_mul, ← pow_add, Nat.sub_add_cancel hk, one_mul]
  have hlt : x / 2^k < 2^(64-k) := by
    rw [Nat.div_lt_iff_lt_mul (Nat.two_pow_pos k), ← pow_add, Nat.sub_add_cancel hk]
    exact hx
  rw [hmask, land_window, Nat.mod_eq_of_lt hlt]

/-- Setting flags in the low bits of an aligned word is addition. -/
theorem lor_eq_add (a b i : ℕ) (hb : b < 2^i) : (a * 2^i) ||| b = a * 2^i + b := by
  rw [mul_comm]
  exact (Nat.two_pow_add_eq_or_of_lt hb a).symm

/-- Testing one flag bit. -/
theorem land_two_pow_ne_zero (x i : ℕ) : x &&& 2^i ≠ 0 ↔ x / 2^i % 2 = 1 := by
  have h := land_window x i 1
  rw [show (2^1-1) * 2^i = 2^i from one_mul _] at h
  rw [h]
  have hp : 0 < 2^i := Nat.two_pow_pos i
  rcases Nat.mod_two_eq_zero_or_one (x / 2^i) with h0 | h1
  · simp only [pow_one, h0, zero_mul, ne_eq, not_true_eq_false, false_iff]
    omega
  · simp only [pow_one, h1, one_mul, iff_true]
    omega

end MachineWord

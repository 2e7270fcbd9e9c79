import Mathlib.Algebra.Group.Nat.Defs

/-! Numbers put together from fields of bits by shifts and ors. -/
namespace Fields

theorem or_shiftLeft {a b : ℕ} (c : ℕ) (hb : b < 2^a) : b ||| c <<< a = b + 2^a * c := by
  rw [Nat.or_comm, ← Nat.shiftLeft_add_eq_or_of_lt hb, Nat.shiftLeft_eq, Nat.mul_comm,
    Nat.add_comm]

/-- Three fields in one number. -/
theorem or_fields {x y : ℕ} (i j z : ℕ) (hx : x < 2^i) (hy : y < 2^j) :
    x ||| y <<< i ||| z <<< (i+j) = x + 2^i * (y + 2^j * z) := by
  have hz : z <<< (i+j) = (z <<< j) <<< i := by rw [← Nat.shiftLeft_add, Nat.add_comm]
  rw [Nat.or_assoc, hz, ← Nat.shiftLeft_or_distrib, or_shiftLeft _ hx, or_shiftLeft _ hy]

end Fields

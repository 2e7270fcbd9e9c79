import Mathlib.Data.Nat.Notation

/-! Counted loops, one inside the other as well, and the rules that carry an invariant along them.
-/
namespace CountedLoop

variable {α : Type*}

/-- The loop `for (i = 0; i < n; i++)`. -/
def forUpTo (f : ℕ → α → α) : ℕ → α → α
  | 0, a => a
  | n+1, a => f n (forUpTo f n a)

/-- The invariant may tell how many turns are done. -/
theorem forUpTo_invariant {f : ℕ → α → α} {P : ℕ → α → Prop} {a : α} (n : ℕ) (h0 : P 0 a)
    (hs : ∀ k b, k < n → P k b → P (k + 1) (f k b)) : P n (forUpTo f n a) := by
  induction n with
  | zero => exact h0
  | succ n ih =>
    have hn := ih (fun k b hk => hs k b (Nat.lt_succ_of_lt hk))
    exact hs n _ (Nat.lt_succ_self n) hn

/-- A loop over lines of `w` cells goes through the cells in order. -/
theorem forUpTo_nested {f : ℕ → ℕ → α → α} {P : ℕ → α → Prop} {a : α} (w n : ℕ) (h0 : P 0 a)
    (hs : ∀ y x b, y < n → x < w → P (y*w + x) b → P (y*w + x + 1) (f y x b)) :
    P (n*w) (forUpTo (fun y b => forUpTo (fun x b => f y x b) w b) n a) := by
  have hstart : P (0*w) a := by
    rw [Nat.zero_mul]
    exact h0
  apply forUpTo_invariant (P := fun y b => P (y*w) b) n hstart
  intro y b hy hP
  -- one line
  have hline := forUpTo_invariant (f := fun x b => f y x b) (P := fun x b => P (y*w + x) b) w
    hP (fun x b' hx hP' => hs y x b' hy hx hP')
  have hnext : (y + 1)*w = y*w + w := Nat.succ_mul y w
  rw [hnext]
  exact hline

end CountedLoop

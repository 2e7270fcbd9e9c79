import Mathlib.Data.Nat.Notation

/-! Drivers: computations on the state of a device, with loops that wait for it. What a driver does
is stated without the number of turns that it waits. -/
namespace Polling

/-- A computation that gets fuel for each of its waiting loops. One that runs out of it has not
returned. -/
def Io (δ α : Type) : Type := ℕ → δ → Option (α × δ)

variable {δ ν α β : Type}

namespace Io

instance : Monad (Io δ) where
  pure a := fun _ d => some (a, d)
  bind m f := fun fuel d => (m fuel d).bind fun r => f r.1 fuel r.2

/-- One input to the device. -/
def input (f : δ → α × δ) : Io δ α := fun _ d => some (f d)

def output (f : δ → δ) : Io δ Unit := input fun d => ((), f d)

/-- `do value = read(); while (!done(value));` -/
def waitUntil (read : δ → ν × δ) (done : ν → Bool) : Io δ ν
  | 0, _ => none
  | fuel+1, d => if done (read d).1 then some (read d) else waitUntil read done fuel (read d).2

/-- `for (i = 0; i < n; i++) a = f(i, a);` -/
def forUpTo (f : ℕ → α → Io δ α) (a : α) : ℕ → Io δ α
  | 0 => pure a
  | n+1 => forUpTo f a n >>= f n

/-- The computation on the first of two devices. -/
def onFst {τ : Type} (m : Io δ α) : Io (δ × τ) α := fun fuel d =>
  (m fuel d.1).map fun r => (r.1, (r.2, d.2))

end Io

open Io

/-- With enough fuel the computation returns `a` and leaves the device in `d'`. -/
def Completes (m : Io δ α) (d : δ) (a : α) (d' : δ) : Prop :=
  ∃ n, ∀ fuel, n ≤ fuel → m fuel d = some (a, d')

/-- However much fuel there is, the computation does not return. -/
def Hangs (m : Io δ α) (d : δ) : Prop := ∃ n, ∀ fuel, n ≤ fuel → m fuel d = none

section Rules
variable {m : Io δ α} {f : α → Io δ β} {d d' d'' : δ} {a : α} {b : β}
  {read : δ → ν × δ} {done : ν → Bool}

theorem Completes.pure : Completes (pure a : Io δ α) d a d := ⟨0, fun _ _ => rfl⟩

theorem Completes.input (g : δ → α × δ) : Completes (input g) d (g d).1 (g d).2 :=
  ⟨0, fun _ _ => rfl⟩

theorem Completes.output (g : δ → δ) : Completes (output g) d () (g d) := ⟨0, fun _ _ => rfl⟩

theorem Completes.bind (hm : Completes m d a d') (hf : Completes (f a) d' b d'') :
    Completes (m >>= f) d b d'' := by
  obtain ⟨n, hn⟩ := hm
  obtain ⟨k, hk⟩ := hf
  refine ⟨max n k, fun fuel hfuel => ?_⟩
  show (m fuel d).bind _ = _
  rw [hn fuel (Nat.le_trans (Nat.le_max_left n k) hfuel)]
  exact hk fuel (Nat.le_trans (Nat.le_max_right n k) hfuel)

/-- The device is ready. -/
theorem Completes.wait_done {v : ν} (hread : read d = (v, d')) (h : done v = true) :
    Completes (waitUntil read done) d v d' := by
  refine ⟨1, fun fuel hfuel => ?_⟩
  cases fuel with
  | zero => exact absurd hfuel (Nat.not_succ_le_zero 0)
  | succ fuel =>
    unfold waitUntil
    rw [hread, if_pos h]

/-- The device is not ready, and is asked again. -/
theorem Completes.wait_step {v : ν} (h : done (read d).1 = false)
    (hnext : Completes (waitUntil read done) (read d).2 v d') :
    Completes (waitUntil read done) d v d' := by
  obtain ⟨n, hn⟩ := hnext
  refine ⟨n + 1, fun fuel hfuel => ?_⟩
  cases fuel with
  | zero => exact absurd hfuel (Nat.not_succ_le_zero n)
  | succ fuel =>
    have hnot : ¬ done (read d).1 = true := by
      rw [h]
      exact Bool.false_ne_true
    unfold waitUntil
    rw [if_neg hnot]
    exact hn fuel (Nat.le_of_succ_le_succ hfuel)

/-- A loop whose turns are known one by one. -/
theorem Completes.loop {f : ℕ → α → Io δ α} (a : ℕ → α) (d : ℕ → δ) {n : ℕ}
    (h : ∀ i, i < n → Completes (f i (a i)) (d i) (a (i+1)) (d (i+1))) :
    Completes (forUpTo f (a 0) n) (d 0) (a n) (d n) := by
  induction n with
  | zero => exact Completes.pure
  | succ n ih =>
    have hn := ih (fun i hi => h i (Nat.lt_succ_of_lt hi))
    exact hn.bind (h n (Nat.lt_succ_self n))

theorem Completes.onFst {τ : Type} (h : Completes m d a d') (t : τ) :
    Completes (onFst m) (d, t) a (d', t) := by
  obtain ⟨n, hn⟩ := h
  refine ⟨n, fun fuel hfuel => ?_⟩
  show (m fuel d).map _ = _
  rw [hn fuel hfuel]
  rfl

theorem Hangs.bind (h : Hangs m d) : Hangs (m >>= f) d := by
  obtain ⟨n, hn⟩ := h
  refine ⟨n, fun fuel hfuel => ?_⟩
  show (m fuel d).bind _ = none
  rw [hn fuel hfuel]
  rfl

theorem Hangs.after (hm : Completes m d a d') (h : Hangs (f a) d') : Hangs (m >>= f) d := by
  obtain ⟨n, hn⟩ := hm
  obtain ⟨k, hk⟩ := h
  refine ⟨max n k, fun fuel hfuel => ?_⟩
  show (m fuel d).bind _ = none
  rw [hn fuel (Nat.le_trans (Nat.le_max_left n k) hfuel)]
  exact hk fuel (Nat.le_trans (Nat.le_max_right n k) hfuel)

/-- A device that never becomes ready. -/
theorem Hangs.wait {P : δ → Prop} (h0 : P d) (h : ∀ d, P d → done (read d).1 = false ∧
    P (read d).2) :
    Hangs (waitUntil read done) d := by
  refine ⟨0, fun fuel _ => ?_⟩
  induction fuel generalizing d with
  | zero => rfl
  | succ fuel ih =>
    obtain ⟨hnot, hnext⟩ := h d h0
    have hnot : ¬ done (read d).1 = true := by
      rw [hnot]
      exact Bool.false_ne_true
    unfold waitUntil
    rw [if_neg hnot]
    exact ih hnext (Nat.zero_le fuel)

end Rules

/-! ### What a computation makes of every state with a property -/

/-- From every state with `P` the computation returns `a`, and `P` holds again. -/
def Answers (P : δ → Prop) (m : Io δ α) (a : α) : Prop := ∀ d, P d → ∃ d', Completes m d a d' ∧ P d'

section Answers
variable {P : δ → Prop} {m : Io δ α} {f : α → Io δ β} {a : α} {b : β}

theorem Answers.pure : Answers P (pure a : Io δ α) a := fun d hd => ⟨d, Completes.pure, hd⟩

theorem Answers.bind (hm : Answers P m a) (hf : Answers P (f a) b) : Answers P (m >>= f) b := by
  intro d hd
  obtain ⟨d1, h1, hd1⟩ := hm d hd
  obtain ⟨d2, h2, hd2⟩ := hf d1 hd1
  exact ⟨d2, h1.bind h2, hd2⟩

/-- A loop whose turns keep `Q`, which tells how many of them are done. -/
theorem Answers.loop {f : ℕ → α → Io δ α} {Q : ℕ → α → Prop} {n : ℕ} (h0 : Q 0 a)
    (h : ∀ i a, i < n → Q i a → ∃ b, Answers P (f i a) b ∧ Q (i+1) b) :
    ∃ b, Answers P (forUpTo f a n) b ∧ Q n b := by
  induction n with
  | zero => exact ⟨a, Answers.pure, h0⟩
  | succ n ih =>
    obtain ⟨b, hb, hQ⟩ := ih (fun i a hi => h i a (Nat.lt_succ_of_lt hi))
    obtain ⟨b', hb', hQ'⟩ := h n b (Nat.lt_succ_self n) hQ
    exact ⟨b', hb.bind hb', hQ'⟩

end Answers

end Polling

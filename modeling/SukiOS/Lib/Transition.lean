import Mathlib.Data.Nat.Notation
import Mathlib.Data.Set.Basic

/-! Labelled transition systems, the states their runs reach, and the induction
rule that carries an invariant along every run. -/
namespace Transition

structure System (σ ι : Type*) where
  init : σ → Prop
  step : σ → ι → σ → Prop

variable {σ ι : Type*}

/-- States reached by a run of any length from an initial state. -/
inductive System.Reachable (S : System σ ι) : σ → Prop
  | init {s : σ} (h : S.init s) : S.Reachable s
  | step {s s' : σ} {i : ι} (hr : S.Reachable s) (hs : S.step s i s') : S.Reachable s'

/-- The runs all of whose steps meet the condition `C`. -/
def System.restrict (S : System σ ι) (C : σ → ι → Prop) : System σ ι where
  init := S.init
  step s i s' := C s i ∧ S.step s i s'

theorem System.Reachable.invariant {S : System σ ι} {I : σ → Prop}
    (h0 : ∀ s, S.init s → I s) (hs : ∀ s i s', I s → S.step s i s' → I s')
    {s : σ} (hr : S.Reachable s) : I s := by
  induction hr with
  | init h => exact h0 _ h
  | step _ hst ih => exact hs _ _ _ ih hst

/-- An invariant of the restricted runs may use the condition of each step. -/
theorem System.Reachable.restrict_invariant {S : System σ ι} {C : σ → ι → Prop} {I : σ → Prop}
    (h0 : ∀ s, S.init s → I s) (hs : ∀ s i s', I s → C s i → S.step s i s' → I s')
    {s : σ} (hr : (S.restrict C).Reachable s) : I s :=
  System.Reachable.invariant (S := S.restrict C) h0 (fun s i s' hi h => hs s i s' hi h.1 h.2) hr

theorem System.Reachable.of_restrict {S : System σ ι} {C : σ → ι → Prop} {s : σ}
    (hr : (S.restrict C).Reachable s) : S.Reachable s := by
  induction hr with
  | init h => exact .init h
  | step _ hst ih => exact .step ih hst.2

/-- A stronger condition leaves fewer runs. -/
theorem System.Reachable.restrict_mono {S : System σ ι} {C D : σ → ι → Prop}
    (h : ∀ s i, C s i → D s i) {s : σ} (hr : (S.restrict C).Reachable s) :
    (S.restrict D).Reachable s := by
  induction hr with
  | init h0 => exact .init h0
  | step _ hst ih => exact .step ih ⟨h _ _ hst.1, hst.2⟩

/-- A run with the labels of its steps. -/
inductive System.Run (S : System σ ι) : σ → List ι → σ → Prop
  | nil (s : σ) : S.Run s [] s
  | cons {s s1 s' : σ} {i : ι} {is : List ι} (hs : S.step s i s1) (hr : S.Run s1 is s') :
      S.Run s (i::is) s'

end Transition

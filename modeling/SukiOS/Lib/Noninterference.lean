import Mathlib.Data.List.Basic
import Mathlib.Data.Bool.Basic

/-! Two runs of one deterministic machine, the second without the calls that an observer does not
see. An unwinding relation gives that the observer sees the same in both. -/
namespace Noninterference

/-- `none` is a call that does not return. -/
structure Transducer (σ ι ω : Type*) where
  step : σ → ι → Option (σ × ω)

variable {σ ι ω : Type*}

/-- The calls of a run with their results. A call that does not return ends the run. -/
def Transducer.trace (M : Transducer σ ι ω) (s : σ) : List ι → List (ι × ω)
  | [] => []
  | a::as =>
    match M.step s a with
    | none => []
    | some (s', o) => (a, o) :: M.trace s' as

variable {M : Transducer σ ι ω} {p : ι → Bool} {R : σ → σ → Prop} {s s' t : σ} {a : ι} {o : ω}

theorem Transducer.trace_some (h : M.step s a = some (s', o)) (as : List ι) :
    M.trace s (a::as) = (a, o) :: M.trace s' as := by
  simp only [Transducer.trace, h]

theorem Transducer.trace_none (h : M.step s a = none) (as : List ι) : M.trace s (a::as) = [] := by
  simp only [Transducer.trace, h]

/-- A call that the observer does not see returns and keeps the relation to the other run; one
that it sees does the same in both runs. -/
structure Unwinding (M : Transducer σ ι ω) (p : ι → Bool) (R : σ → σ → Prop) : Prop where
  hidden : ∀ s t a, R s t → p a = false → ∃ s' o, M.step s a = some (s', o) ∧ R s' t
  shown : ∀ s t a, R s t → p a = true → (M.step s a = none ∧ M.step t a = none) ∨
    ∃ s' t' o, M.step s a = some (s', o) ∧ M.step t a = some (t', o) ∧ R s' t'

/-- What the observer sees is what the run without the other calls gives. -/
theorem Unwinding.purge (h : Unwinding M p R) (as : List ι) : ∀ s t, R s t →
    (M.trace s as).filter (fun x => p x.1) = M.trace t (as.filter p) := by
  induction as with
  | nil => exact fun _ _ _ => rfl
  | cons a as ih =>
    intro s t hR
    cases hp : p a with
    | false =>
      obtain ⟨s', o, hs, hR'⟩ := h.hidden s t a hR hp
      rw [Transducer.trace_some hs, List.filter_cons_of_neg (by simp [hp]),
        List.filter_cons_of_neg (by simp [hp])]
      exact ih s' t hR'
    | true =>
      rw [List.filter_cons_of_pos (by simp [hp] : p a = true)]
      obtain ⟨hs, ht⟩ | ⟨s', t', o, hs, ht, hR'⟩ := h.shown s t a hR hp
      · rw [Transducer.trace_none hs, Transducer.trace_none ht]
        rfl
      · rw [Transducer.trace_some hs, Transducer.trace_some ht,
          List.filter_cons_of_pos (by simp [hp])]
        exact congrArg _ (ih s' t' hR')

end Noninterference

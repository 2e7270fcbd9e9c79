import Mathlib.Data.List.Basic
import Mathlib.Data.Nat.Notation

/-! Computations on a state that leave a trace of events and may end early, and a rule of
preconditions and postconditions for what every event satisfies. -/
namespace Traced

structure Outcome (σ ε ρ α : Type) where
  trace : List ε
  state : σ
  value : Except ρ α

/-- A computation: from a state to a trace, a last state, and a value or the reason of an early end.
-/
def Run (σ ε ρ α : Type) : Type := σ → Outcome σ ε ρ α

variable {σ ε ρ α β : Type}

namespace Run

def ret (a : α) : Run σ ε ρ α := fun s => ⟨[], s, .ok a⟩

def andThen (m : Run σ ε ρ α) (f : α → Run σ ε ρ β) : Run σ ε ρ β := fun s =>
  match m s with
  | ⟨t, s', .error r⟩ => ⟨t, s', .error r⟩
  | ⟨t, s', .ok a⟩ => ⟨t ++ (f a s').trace, (f a s').state, (f a s').value⟩

instance : Monad (Run σ ε ρ) where
  pure := ret
  bind := andThen

/-- Leave an event. -/
def emit (e : ε) : Run σ ε ρ Unit := fun s => ⟨[e], s, .ok ()⟩

/-- End early. -/
def stop (r : ρ) : Run σ ε ρ α := fun s => ⟨[], s, .error r⟩

/-- A step of the state that may fail. -/
def attempt (r : ρ) (f : σ → Option (α × σ)) : Run σ ε ρ α := fun s =>
  match f s with
  | none => ⟨[], s, .error r⟩
  | some (a, s') => ⟨[], s', .ok a⟩

end Run

open Run

/-- From a state in `I` every event satisfies `P`, and a value is returned in a state with `Q`. -/
def Triple (I : σ → Prop) (P : ε → Prop) (m : Run σ ε ρ α) (Q : α → σ → Prop) : Prop :=
  ∀ s, I s → (∀ e ∈ (m s).trace, P e) ∧ ∀ a, (m s).value = .ok a → Q a (m s).state

section Rules
variable {I : σ → Prop} {P : ε → Prop} {Q : α → σ → Prop} {R : β → σ → Prop}
  {m : Run σ ε ρ α} {f : α → Run σ ε ρ β}

theorem Triple.ret {a : α} (h : ∀ s, I s → Q a s) : Triple I P (pure a : Run σ ε ρ α) Q := by
  intro s hs
  refine ⟨fun e he => absurd he List.not_mem_nil, fun b hb => ?_⟩
  obtain rfl := Except.ok.inj hb
  exact h s hs

theorem Triple.bind (hm : Triple I P m Q) (hf : ∀ a, Triple (Q a) P (f a) R) :
    Triple I P (m >>= f) R := by
  intro s hs
  obtain ⟨htrace, hvalue⟩ := hm s hs
  change (∀ e ∈ (andThen m f s).trace, P e) ∧ ∀ b, (andThen m f s).value = .ok b →
    R b (andThen m f s).state
  unfold andThen
  rcases hms : m s with ⟨t, s', r | a⟩
  · rw [hms] at htrace
    exact ⟨htrace, fun b hb => nomatch hb⟩
  · rw [hms] at htrace hvalue
    obtain ⟨h1, h2⟩ := hf a s' (hvalue a rfl)
    refine ⟨fun e he => ?_, h2⟩
    rcases List.mem_append.mp he with he | he
    · exact htrace e he
    · exact h1 e he

/-- A fact about the value is known from then on. -/
theorem Triple.bind_and {C : α → Prop} {J : σ → Prop} (hm : Triple I P m (fun a s => C a ∧ J s))
    (hf : ∀ a, C a → Triple J P (f a) R) : Triple I P (m >>= f) R := by
  apply Triple.bind hm
  intro a s hs
  exact hf a hs.1 s hs.2

theorem Triple.bind_eq {a : α} {J : σ → Prop} (hm : Triple I P m (fun v s => v = a ∧ J s))
    (hf : Triple J P (f a) R) : Triple I P (m >>= f) R := by
  apply Triple.bind_and hm
  rintro v rfl
  exact hf

theorem Triple.emit {e : ε} (h : P e) : Triple I P (emit e : Run σ ε ρ Unit) (fun _ => I) := by
  intro s hs
  refine ⟨fun e' he => ?_, fun _ _ => hs⟩
  rw [List.mem_singleton.mp he]
  exact h

theorem Triple.stop {r : ρ} : Triple I P (stop r : Run σ ε ρ α) Q :=
  fun _ _ => ⟨fun _ he => absurd he List.not_mem_nil, fun _ hb => nomatch hb⟩

theorem Triple.attempt {r : ρ} {g : σ → Option (α × σ)}
    (h : ∀ s a s', I s → g s = some (a, s') → Q a s') :
    Triple I P (attempt r g : Run σ ε ρ α) Q := by
  intro s hs
  unfold Run.attempt
  rcases hg : g s with _ | ⟨a, s'⟩
  · exact ⟨fun _ he => absurd he List.not_mem_nil, fun _ hb => nomatch hb⟩
  · refine ⟨fun _ he => absurd he List.not_mem_nil, fun b hb => ?_⟩
    obtain rfl := Except.ok.inj hb
    exact h s a s' hs hg

theorem Triple.weaken {I' : σ → Prop} {Q' : α → σ → Prop} (hm : Triple I P m Q)
    (hI : ∀ s, I' s → I s) (hQ : ∀ a s, Q a s → Q' a s) : Triple I' P m Q' := by
  intro s hs
  obtain ⟨h1, h2⟩ := hm s (hI s hs)
  exact ⟨h1, fun a ha => hQ a _ (h2 a ha)⟩

end Rules

/-- The computation returns a value, and all of `E` are among its events. -/
def Yields (m : Run σ ε ρ α) (s : σ) (a : α) (s' : σ) (E : ε → Prop) : Prop :=
  (m s).value = .ok a ∧ (m s).state = s' ∧ ∀ e, E e → e ∈ (m s).trace

section Yields
variable {m : Run σ ε ρ α} {f : α → Run σ ε ρ β} {s s' s'' : σ} {a : α} {b : β} {E F : ε → Prop}

theorem Yields.ret : Yields (pure a : Run σ ε ρ α) s a s (fun _ => False) :=
  ⟨rfl, rfl, fun _ h => h.elim⟩

theorem Yields.emit {e : ε} : Yields (emit e : Run σ ε ρ Unit) s () s (· = e) :=
  ⟨rfl, rfl, fun _ h => List.mem_singleton.mpr h⟩

theorem Yields.attempt {r : ρ} {g : σ → Option (α × σ)} (h : g s = some (a, s')) :
    Yields (attempt r g : Run σ ε ρ α) s a s' (fun _ => False) := by
  have hrun : (Run.attempt r g : Run σ ε ρ α) s = ⟨[], s', .ok a⟩ := by
    unfold Run.attempt
    rw [h]
  unfold Yields
  rw [hrun]
  exact ⟨rfl, rfl, fun _ h => h.elim⟩

theorem Yields.bind (hm : Yields m s a s' E) (hf : Yields (f a) s' b s'' F) :
    Yields (m >>= f) s b s'' (fun e => E e ∨ F e) := by
  obtain ⟨hv, rfl, he⟩ := hm
  obtain ⟨hv', rfl, he'⟩ := hf
  have hrun : (m >>= f) s = ⟨(m s).trace ++ (f a (m s).state).trace, (f a (m s).state).state,
      (f a (m s).state).value⟩ := by
    change andThen m f s = _
    unfold andThen
    rcases hms : m s with ⟨t, u, r | c⟩
    · rw [hms] at hv
      cases hv
    · rw [hms] at hv
      obtain rfl := Except.ok.inj hv
      rfl
  unfold Yields
  rw [hrun]
  refine ⟨hv', rfl, fun e h => ?_⟩
  exact List.mem_append.mpr (h.imp (he e) (he' e))

/-- What happened in the first part of a computation, whatever comes after it. -/
theorem mem_trace_left {e : ε} (h : e ∈ (m s).trace) : e ∈ ((m >>= f) s).trace := by
  change e ∈ (andThen m f s).trace
  unfold andThen
  rcases hms : m s with ⟨t, u, r | c⟩
  · rw [hms] at h
    exact h
  · rw [hms] at h
    exact List.mem_append_left _ h

/-- What happens after the first part returned. -/
theorem Yields.mem_trace {e : ε} (hm : Yields m s a s' E) (h : e ∈ (f a s').trace) :
    e ∈ ((m >>= f) s).trace := by
  obtain ⟨hv, rfl, -⟩ := hm
  change e ∈ (andThen m f s).trace
  unfold andThen
  rcases hms : m s with ⟨t, u, r | c⟩
  · rw [hms] at hv
    cases hv
  · rw [hms] at hv h
    obtain rfl := Except.ok.inj hv
    exact List.mem_append_right _ h

theorem Yields.mono (h : Yields m s a s' E) (hE : ∀ e, F e → E e) : Yields m s a s' F :=
  ⟨h.1, h.2.1, fun e he => h.2.2 e (hE e he)⟩

end Yields

/-- The computation leaves the state as it is, however it ends. -/
def Keeps (m : Run σ ε ρ α) (s : σ) : Prop := (m s).state = s

section Keeps
variable {m : Run σ ε ρ α} {f : α → Run σ ε ρ β} {s : σ}

theorem Keeps.ret {a : α} : Keeps (pure a : Run σ ε ρ α) s := rfl

theorem Keeps.emit {e : ε} : Keeps (emit e : Run σ ε ρ Unit) s := rfl

theorem Keeps.stop {r : ρ} : Keeps (stop r : Run σ ε ρ α) s := rfl

theorem Keeps.attempt {r : ρ} {g : σ → Option (α × σ)} (h : ∀ a s', g s = some (a, s') → s' = s) :
    Keeps (attempt r g : Run σ ε ρ α) s := by
  unfold Keeps Run.attempt
  rcases hg : g s with _ | ⟨a, s'⟩
  · rfl
  · exact h a s' hg

theorem Keeps.bind (hm : Keeps m s) (hf : ∀ a, (m s).value = .ok a → Keeps (f a) s) :
    Keeps (m >>= f) s := by
  unfold Keeps at hm ⊢
  change (andThen m f s).state = s
  unfold andThen
  rcases hms : m s with ⟨t, s', r | a⟩
  · rw [hms] at hm
    exact hm
  · rw [hms] at hm hf
    obtain rfl : s' = s := hm
    exact hf a rfl

end Keeps

/-! Total correctness: a value is returned. -/

/-- From a state in `I` a value is returned, in a state with `Q`. -/
def Succeeds (I : σ → Prop) (m : Run σ ε ρ α) (Q : α → σ → Prop) : Prop :=
  ∀ s, I s → ∃ a, (m s).value = .ok a ∧ Q a (m s).state

section Succeeds
variable {I I' : σ → Prop} {Q Q' : α → σ → Prop} {R : β → σ → Prop} {m : Run σ ε ρ α}
  {f : α → Run σ ε ρ β}

theorem Succeeds.ret {a : α} (h : ∀ s, I s → Q a s) : Succeeds I (pure a : Run σ ε ρ α) Q := by
  intro s hs
  exact ⟨a, Eq.refl _, h s hs⟩

theorem Succeeds.bind (hm : Succeeds I m Q) (hf : ∀ a, Succeeds (Q a) (f a) R) :
    Succeeds I (m >>= f) R := by
  intro s hs
  obtain ⟨a, ha, hq⟩ := hm s hs
  obtain ⟨b, hb, hr⟩ := hf a _ hq
  have hrun : Yields (m >>= f) s b (f a (m s).state).state (fun _ => False) := by
    apply Yields.mono (Yields.bind (E := fun _ => False) (F := fun _ => False)
      ⟨ha, Eq.refl _, fun _ h => h.elim⟩ ⟨hb, Eq.refl _, fun _ h => h.elim⟩)
    exact fun _ h => h.elim
  obtain ⟨hvalue, hstate, -⟩ := hrun
  rw [← hstate] at hr
  exact ⟨b, hvalue, hr⟩

/-- A value that is known. -/
theorem Succeeds.bind_eq {a : α} {J : σ → Prop} (hm : Succeeds I m (fun v s => v = a ∧ J s))
    (hf : Succeeds J (f a) R) : Succeeds I (m >>= f) R := by
  apply Succeeds.bind hm
  intro v s hs
  rw [hs.1]
  exact hf s hs.2

theorem Succeeds.emit {e : ε} : Succeeds I (Run.emit e : Run σ ε ρ Unit) (fun _ => I) := by
  intro s hs
  exact ⟨(), Eq.refl _, hs⟩

theorem Succeeds.attempt {r : ρ} {g : σ → Option (α × σ)}
    (h : ∀ s, I s → ∃ a s', g s = some (a, s') ∧ Q a s') :
    Succeeds I (Run.attempt r g : Run σ ε ρ α) Q := by
  intro s hs
  obtain ⟨a, s', hg, hq⟩ := h s hs
  have hrun : (Run.attempt r g : Run σ ε ρ α) s = ⟨[], s', .ok a⟩ := by
    unfold Run.attempt
    rw [hg]
  rw [hrun]
  exact ⟨a, Eq.refl _, hq⟩

theorem Succeeds.weaken (hm : Succeeds I m Q) (hI : ∀ s, I' s → I s) (hQ : ∀ a s, Q a s → Q' a s) :
    Succeeds I' m Q' := by
  intro s hs
  obtain ⟨a, ha, hq⟩ := hm s (hI s hs)
  exact ⟨a, ha, hQ a _ hq⟩

/-- What is known besides the state. -/
theorem Succeeds.fact {C : Prop} (h : C → Succeeds I m Q) : Succeeds (fun s => C ∧ I s) m Q := by
  intro s hs
  exact h hs.1 s hs.2

/-- What is known of the state may name something that depends on it. -/
theorem Succeeds.exists {ι : Type} {J : ι → σ → Prop} (h : ∀ x, Succeeds (J x) m Q) :
    Succeeds (fun s => ∃ x, J x s) m Q := by
  intro s hs
  obtain ⟨x, hx⟩ := hs
  exact h x s hx

end Succeeds

/-! Both ends of a computation. -/

/-- From a state in `I` a value is returned in a state with `Q`, and an early end leaves one with
`E`. -/
def Ends (I : σ → Prop) (m : Run σ ε ρ α) (Q : α → σ → Prop) (E : ρ → σ → Prop) : Prop :=
  ∀ s, I s → (∀ a, (m s).value = .ok a → Q a (m s).state) ∧
    ∀ r, (m s).value = .error r → E r (m s).state

section Ends
variable {I I' : σ → Prop} {Q Q' : α → σ → Prop} {R : β → σ → Prop} {E E' : ρ → σ → Prop}
  {m : Run σ ε ρ α} {f : α → Run σ ε ρ β}

theorem Ends.ret {a : α} (h : ∀ s, I s → Q a s) : Ends I (pure a : Run σ ε ρ α) Q E := by
  intro s hs
  refine ⟨fun b hb => ?_, fun r hr => nomatch hr⟩
  obtain rfl := Except.ok.inj hb
  exact h s hs

theorem Ends.stop {r : ρ} (h : ∀ s, I s → E r s) : Ends I (Run.stop r : Run σ ε ρ α) Q E := by
  intro s hs
  refine ⟨fun b hb => (nomatch hb), fun r' hr => ?_⟩
  obtain rfl := Except.error.inj hr
  exact h s hs

theorem Ends.emit {e : ε} : Ends I (Run.emit e : Run σ ε ρ Unit) (fun _ => I) E :=
  fun _ hs => ⟨fun _ _ => hs, fun _ hr => nomatch hr⟩

theorem Ends.attempt {r : ρ} {g : σ → Option (α × σ)}
    (h : ∀ s a s', I s → g s = some (a, s') → Q a s') (hnone : ∀ s, I s → g s = none → E r s) :
    Ends I (Run.attempt r g : Run σ ε ρ α) Q E := by
  intro s hs
  unfold Run.attempt
  rcases hg : g s with _ | ⟨a, s'⟩
  · refine ⟨fun b hb => (nomatch hb), fun r' hr => ?_⟩
    obtain rfl := Except.error.inj hr
    exact hnone s hs hg
  · refine ⟨fun b hb => ?_, fun r' hr => nomatch hr⟩
    obtain rfl := Except.ok.inj hb
    exact h s a s' hs hg

theorem Ends.bind (hm : Ends I m Q E) (hf : ∀ a, Ends (Q a) (f a) R E) :
    Ends I (m >>= f) R E := by
  intro s hs
  obtain ⟨hvalue, hearly⟩ := hm s hs
  change (∀ b, (andThen m f s).value = .ok b → R b (andThen m f s).state) ∧
    ∀ r, (andThen m f s).value = .error r → E r (andThen m f s).state
  unfold andThen
  rcases hms : m s with ⟨t, s', r | a⟩
  · rw [hms] at hearly
    refine ⟨fun b hb => (nomatch hb), fun r' hr => ?_⟩
    obtain rfl := Except.error.inj hr
    exact hearly r rfl
  · rw [hms] at hvalue
    exact hf a s' (hvalue a rfl)

/-- A fact about the value is known from then on. -/
theorem Ends.bind_and {C : α → Prop} {J : σ → Prop} (hm : Ends I m (fun a s => C a ∧ J s) E)
    (hf : ∀ a, C a → Ends J (f a) R E) : Ends I (m >>= f) R E := by
  apply Ends.bind hm
  intro a s hs
  exact hf a hs.1 s hs.2

theorem Ends.bind_eq {a : α} {J : σ → Prop} (hm : Ends I m (fun v s => v = a ∧ J s) E)
    (hf : Ends J (f a) R E) : Ends I (m >>= f) R E := by
  apply Ends.bind_and hm
  intro v hv
  rw [hv]
  exact hf

theorem Ends.weaken (hm : Ends I m Q E) (hI : ∀ s, I' s → I s) (hQ : ∀ a s, Q a s → Q' a s)
    (hE : ∀ r s, E r s → E' r s) : Ends I' m Q' E' := by
  intro s hs
  obtain ⟨hvalue, hearly⟩ := hm s (hI s hs)
  exact ⟨fun a ha => hQ a _ (hvalue a ha), fun r hr => hE r _ (hearly r hr)⟩

/-- What is known besides the state. -/
theorem Ends.fact {C : Prop} (h : C → Ends I m Q E) : Ends (fun s => C ∧ I s) m Q E := by
  intro s hs
  exact h hs.1 s hs.2

end Ends

end Traced

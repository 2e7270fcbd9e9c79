import Mathlib.Data.Option.Basic

/-! Services that answer calls, and when one implements another: whatever calls are made, as long
as the abstract one permits them, both give the same answers. -/
namespace Services

variable {σ α ι κ ρ : Type*}

/-- A call that never returns has no answer. -/
structure Service (σ ι ρ : Type*) where
  call : σ → ι → Option (σ × ρ)

/-- The calls `is` one after the other, with all their answers. -/
def Service.run (M : Service σ ι ρ) : σ → List ι → Option (σ × List ρ)
  | s, [] => some (s, [])
  | s, i::is => (M.call s i).bind fun r => (M.run r.1 is).map fun q => (q.1, r.2 :: q.2)

/-- Each of the calls, read by `f` as a call of `M`, meets `pre` where it is made. -/
def Service.Permits (M : Service α κ ρ) (f : ι → κ) (pre : α → ι → Prop) : α → List ι → Prop
  | _, [] => True
  | a, i::is => pre a i ∧ ∀ a' r, M.call a (f i) = some (a', r) → M.Permits f pre a' is

/-- In related states a permitted call returns in both, with the same answer, and the
states stay related. -/
def Implements (C : Service σ ι ρ) (A : Service α κ ρ) (f : ι → κ) (pre : α → ι → Prop)
    (R : α → σ → Prop) : Prop :=
  ∀ a s i, R a s → pre a i →
    ∃ a' s' r, A.call a (f i) = some (a', r) ∧ C.call s i = some (s', r) ∧ R a' s'

section Runs
variable {M : Service σ ι ρ} {A : Service α κ ρ} {C : Service σ ι ρ} {f : ι → κ}
  {pre : α → ι → Prop} {R : α → σ → Prop} {a : α} {s s' : σ} {i : ι} {is js : List ι}
  {r : ρ} {rs : List ρ}

@[simp] theorem Service.run_nil : M.run s [] = some (s, []) := rfl

theorem Service.run_cons (h : M.call s i = some (s', r)) :
    M.run s (i::is) = (M.run s' is).map fun q => (q.1, r :: q.2) := by
  simp only [Service.run, h, Option.bind_some]

/-- Whoever calls cannot tell the two machines apart. -/
theorem Implements.run (h : Implements C A f pre R) (hR : R a s) (hp : A.Permits f pre a is) :
    ∃ a' s' rs, A.run a (is.map f) = some (a', rs) ∧ C.run s is = some (s', rs) ∧ R a' s' := by
  induction is generalizing a s with
  | nil => exact ⟨a, s, [], rfl, rfl, hR⟩
  | cons i is ih =>
    obtain ⟨a1, s1, r, ha, hs, hR1⟩ := h a s i hR hp.1
    obtain ⟨a', s', rs, hA, hC, hR'⟩ := ih hR1 (hp.2 a1 r ha)
    refine ⟨a', s', r :: rs, ?_, ?_, hR'⟩
    · rw [List.map_cons, Service.run_cons ha, hA]
      rfl
    · rw [Service.run_cons hs, hC]
      rfl

end Runs

/-! ### Restarts -/

section Sessions
variable {M : Service σ ι ρ} {A : Service α κ ρ} {C : Service σ ι ρ} {f : ι → κ}
  {pre : α → ι → Prop} {R : α → σ → Prop} {cut : α → Option α} {cut' : σ → Option σ} {a : α} {s : σ}

/-- Runs with a restart after each, and the answers of each run. -/
def Service.sessions (M : Service σ ι ρ) (cut : σ → Option σ) :
    σ → List (List ι) → Option (σ × List (List ρ))
  | s, [] => some (s, [])
  | s, is::rest => (M.run s is).bind fun r => (cut r.1).bind fun s' =>
      (M.sessions cut s' rest).map fun q => (q.1, r.2 :: q.2)

/-- Each run is permitted in the state that the restart before it leaves. -/
def Service.PermitsSessions (M : Service α κ ρ) (f : ι → κ) (pre : α → ι → Prop)
    (cut : α → Option α) : α → List (List ι) → Prop
  | _, [] => True
  | a, is::rest => M.Permits f pre a is ∧ ∀ r, M.run a (is.map f) = some r →
      ∀ a', cut r.1 = some a' →
      M.PermitsSessions f pre cut a' rest

/-- When a restart keeps the relation, the answers agree across restarts. -/
theorem Implements.sessions (h : Implements C A f pre R)
    (hcut : ∀ a s, R a s → ∃ a' s', cut a = some a' ∧ cut' s = some s' ∧ R a' s') (hR : R a s)
    {iss : List (List ι)} (hp : A.PermitsSessions f pre cut a iss) :
    ∃ a' s' rss, A.sessions cut a (iss.map (List.map f)) = some (a', rss) ∧
      C.sessions cut' s iss = some (s', rss) ∧ R a' s' := by
  induction iss generalizing a s with
  | nil => exact ⟨a, s, [], rfl, rfl, hR⟩
  | cons is iss ih =>
    obtain ⟨a1, s1, rs, ha, hs, hR1⟩ := h.run hR hp.1
    obtain ⟨a2, s2, ha2, hs2, hR2⟩ := hcut a1 s1 hR1
    obtain ⟨a', s', rss, hA, hC, hR'⟩ := ih hR2 (hp.2 _ ha a2 ha2)
    refine ⟨a', s', rs :: rss, ?_, ?_, hR'⟩
    · simp only [List.map_cons, Service.sessions, ha, Option.bind_some, ha2, hA, Option.map_some]
    · simp only [Service.sessions, hs, Option.bind_some, hs2, hC, Option.map_some]

end Sessions

end Services

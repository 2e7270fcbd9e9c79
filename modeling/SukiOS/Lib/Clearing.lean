import Mathlib.Data.Finset.Card
import Mathlib.Logic.Function.Basic
import Mathlib.Logic.Relation

/-! Walks that cut the link of each cell they visit. A walk that comes back to a cell finds the link
cut and ends there, so it ends for every `next` function on finitely many cells. -/
namespace ClearingWalk

variable {I : Type*}

/-- The link of the cell `x` leads to the cell `y`. -/
def Link (next : I → I) (cell : I → Prop) (x y : I) : Prop := cell x ∧ cell y ∧ next x = y

/-- The cell `x` is met along the links from `c`. -/
def Reaches (next : I → I) (cell : I → Prop) (c x : I) : Prop :=
  cell c ∧ Relation.ReflTransGen (Link next cell) c x

variable {next : I → I} {cell : I → Prop} {c x z : I}

/-- What holds of the first cell and goes along with the links holds of every cell that is met. -/
theorem Reaches.invariant {P : I → Prop} (h : Reaches next cell c x) (h0 : P c)
    (hs : ∀ y, P y → cell (next y) → P (next y)) : P x := by
  have hpath := h.2
  clear h
  induction hpath with
  | refl => exact h0
  | tail _ hlast ih =>
    rw [← hlast.2.2]
    apply hs _ ih
    rw [hlast.2.2]
    exact hlast.2.1

/-- From a cell whose link leads out of the cells only the cell itself is met. -/
theorem reaches_last (hc : cell c) (hn : ¬ cell (next c)) : Reaches next cell c x ↔ x = c := by
  constructor
  · intro h
    rcases Relation.ReflTransGen.cases_head h.2 with he | ⟨y, hfirst, -⟩
    · exact he.symm
    · exact absurd (hfirst.2.2 ▸ hfirst.2.1) hn
  · intro he
    rw [he]
    exact ⟨hc, Relation.ReflTransGen.refl⟩

variable [DecidableEq I]

/-- A link that is left after the cut was there before. -/
theorem Link.of_cut {y : I} (hz : ¬ cell z) (h : Link (Function.update next c z) cell x y) :
    Link next cell x y := by
  have hne : x ≠ c := by
    intro he
    have hy : z = y := by
      calc z = Function.update next c z c := (Function.update_self c z next).symm
        _ = y := he ▸ h.2.2
    exact hz (hy ▸ h.2.1)
  have hsame : next x = Function.update next c z x := (Function.update_of_ne hne z next).symm
  exact ⟨h.1, h.2.1, hsame.trans h.2.2⟩

/-- What is met from `c` is `c` and what is met from the next cell once the link of `c` is cut. -/
theorem reaches_cut (hz : ¬ cell z) (hc : cell c) (hn : cell (next c)) :
    Reaches next cell c x ↔ x = c ∨ Reaches (Function.update next c z) cell (next c) x := by
  constructor
  · intro h
    have hpath := h.2
    clear h
    -- by the last link: it leaves `c`, or it is not cut
    induction hpath with
    | refl => exact Or.inl (Eq.refl c)
    | @tail y x hpath hlast ih =>
      apply Or.inr
      by_cases hy : y = c
      · have hx : next c = x := hy ▸ hlast.2.2
        rw [← hx]
        exact ⟨hn, Relation.ReflTransGen.refl⟩
      · have hreach := ih.resolve_left hy
        have hlink : Link (Function.update next c z) cell y x := by
          apply And.intro hlast.1
          apply And.intro hlast.2.1
          rw [Function.update_of_ne hy]
          exact hlast.2.2
        exact ⟨hn, hreach.2.tail hlink⟩
  · intro h
    rcases h with he | h
    · rw [he]
      exact ⟨hc, Relation.ReflTransGen.refl⟩
    · have hlinks : Link (Function.update next c z) cell ≤ Link next cell :=
        fun _ _ hlink => Link.of_cut hz hlink
      have hpath : Relation.ReflTransGen (Link next cell) (next c) x :=
        Relation.ReflTransGen.mono hlinks _ _ h.2
      exact ⟨hc, Relation.ReflTransGen.head ⟨hc, hn, Eq.refl _⟩ hpath⟩

variable [DecidablePred cell] {S : Finset I}

/-- The number of cells in `S` whose link leads to a cell, which bounds the length of a walk. -/
def links (S : Finset I) (next : I → I) (cell : I → Prop) [DecidablePred cell] : ℕ :=
  (S.filter (fun x => cell x ∧ cell (next x))).card

/-- Each cut leaves one link less. -/
theorem links_cut (hz : ¬ cell z) (hS : c ∈ S) (hc : cell c) (hn : cell (next c)) :
    links S (Function.update next c z) cell < links S next cell := by
  unfold links
  apply Finset.card_lt_card
  apply Finset.ssubset_iff_of_subset _ |>.mpr
  · refine ⟨c, Finset.mem_filter.mpr ⟨hS, hc, hn⟩, ?_⟩
    intro hmem
    have hcut := (Finset.mem_filter.mp hmem).2.2
    rw [Function.update_self] at hcut
    exact hz hcut
  · intro x hx
    have hmem := Finset.mem_filter.mp hx
    have hne : x ≠ c := by
      intro he
      have hcut := hmem.2.2
      rw [he, Function.update_self] at hcut
      exact hz hcut
    rw [Function.update_of_ne hne] at hmem
    exact Finset.mem_filter.mpr hmem

end ClearingWalk

import Mathlib.Data.Fintype.Card
import Mathlib.Data.Finset.Card
import Mathlib.Logic.Function.Iterate

/-! Walks along a `next` function: a walk goes on while it is at a cell, and it stops at the first
cell with `stop`. Nothing is assumed about `next`, so a walk may come back and never end. -/
namespace Walks

variable {I : Type*}

/-- `L` are the cells that the walk from `c` visits. -/
inductive Walk (next : I → I) (cell stop : I → Prop) : I → List I → Prop
  | out {c} (h : ¬ cell c) : Walk next cell stop c []
  | stop {c} (h : cell c) (hs : stop c) : Walk next cell stop c [c]
  | step {c L} (h : cell c) (hs : ¬ stop c) (hw : Walk next cell stop (next c) L) :
      Walk next cell stop c (c::L)

/-- A cell that a walk leaves for the next one. -/
def Passed (cell stop : I → Prop) (c : I) : Prop := cell c ∧ ¬ stop c

variable {next : I → I} {cell stop : I → Prop} {c : I}

/-- A walk visits more than `n` cells when it passes the first `n` and arrives at another. -/
theorem exists_walk_iff (n : ℕ) : ∀ c, (∃ L, Walk next cell stop c L ∧ L.length ≤ n) ↔
    ¬ ((∀ i, i < n → Passed cell stop (next^[i] c)) ∧ cell (next^[n] c)) := by
  induction n with
  | zero =>
    intro c
    constructor
    · rintro ⟨L, hw, hlen⟩ ⟨-, hcell⟩
      cases hw with
      | out h => exact h hcell
      | stop h hs => exact absurd hlen (by rw [List.length_singleton]; omega)
      | step h hs hw => exact absurd hlen (by rw [List.length_cons]; omega)
    · intro h
      have hout : ¬ cell c := fun hcell => h ⟨fun i hi => absurd hi (Nat.not_lt_zero i), hcell⟩
      exact ⟨[], .out hout, Nat.le_refl 0⟩
  | succ n ih =>
    intro c
    have hfirst : ∀ h : (∀ i, i < n + 1 → Passed cell stop (next^[i] c)), Passed cell stop c :=
      fun h => h 0 (Nat.succ_pos n)
    by_cases hcell : cell c
    · by_cases hstop : stop c
      · constructor
        · exact fun _ h => (hfirst h.1).2 hstop
        · exact fun _ => ⟨[c], .stop hcell hstop, by rw [List.length_singleton]; omega⟩
      · have hshift : (∀ i, i < n + 1 → Passed cell stop (next^[i] c)) ↔
            ∀ i, i < n → Passed cell stop (next^[i] (next c)) := by
          constructor
          · intro h i hi
            rw [← Function.iterate_succ_apply]
            exact h (i+1) (Nat.succ_lt_succ hi)
          · intro h i hi
            cases i with
            | zero => exact ⟨hcell, hstop⟩
            | succ i =>
              rw [Function.iterate_succ_apply]
              exact h i (Nat.lt_of_succ_lt_succ hi)
        rw [hshift, Function.iterate_succ_apply, ← ih (next c)]
        constructor
        · rintro ⟨L, hw, hlen⟩
          cases hw with
          | out h => exact absurd hcell h
          | stop h hs => exact absurd hs hstop
          | step h hs hw =>
            rw [List.length_cons] at hlen
            exact ⟨_, hw, Nat.le_of_succ_le_succ hlen⟩
        · rintro ⟨L, hw, hlen⟩
          exact ⟨c::L, .step hcell hstop hw, by rw [List.length_cons]; omega⟩
    · constructor
      · exact fun _ h => hcell (hfirst h.1).1
      · exact fun _ => ⟨[], .out hcell, Nat.zero_le _⟩

/-- A loop with fuel, by what one round of it does; it may see that the next cell is none. -/
structure LoopOf (next : I → I) (cell stop : I → Prop) (loop : ℕ → I → Option (List I)) : Prop where
  zero : ∀ c, loop 0 c = none
  leave : ∀ n c, ¬ cell c → loop (n+1) c = some []
  halt : ∀ n c, cell c → stop c → loop (n+1) c = some [c]
  go : ∀ n c, cell c → ¬ stop c → loop (n+1) c = (loop n (next c)).map (c :: ·) ∨
    ¬ cell (next c) ∧ loop (n+1) c = some [c]

variable {loop : ℕ → I → Option (List I)} {L : List I}

/-- What the loop returns is what the walk visits. -/
theorem LoopOf.walk (h : LoopOf next cell stop loop) (n : ℕ) :
    ∀ c L, loop n c = some L → Walk next cell stop c L := by
  induction n with
  | zero =>
    intro c L hL
    rw [h.zero] at hL
    cases hL
  | succ n ih =>
    intro c L hL
    by_cases hc : cell c
    · by_cases hs : stop c
      · rw [h.halt n c hc hs] at hL
        rw [← Option.some.inj hL]
        exact .stop hc hs
      · cases h.go n c hc hs with
        | inl hmap =>
          rw [hmap] at hL
          obtain ⟨L', hL', rfl⟩ := Option.map_eq_some_iff.mp hL
          exact .step hc hs (ih _ _ hL')
        | inr hlast =>
          rw [hlast.2] at hL
          rw [← Option.some.inj hL]
          exact .step hc hs (.out hlast.1)
    · rw [h.leave n c hc] at hL
      rw [← Option.some.inj hL]
      exact .out hc

theorem LoopOf.returns (h : LoopOf next cell stop loop) (hw : Walk next cell stop c L) :
    ∃ n, loop n c = some L := by
  induction hw with
  | out hc => exact ⟨1, h.leave 0 _ hc⟩
  | stop hc hs => exact ⟨1, h.halt 0 _ hc hs⟩
  | step hc hs hw ih =>
    obtain ⟨n, hn⟩ := ih
    refine ⟨n + 1, ?_⟩
    cases h.go n _ hc hs with
    | inl hmap =>
      rw [hmap, hn]
      rfl
    | inr hlast =>
      rw [hlast.2]
      cases hw with
      | out _ => rfl
      | stop hcell _ => exact absurd hcell hlast.1
      | step hcell _ _ => exact absurd hcell hlast.1

theorem LoopOf.walk_iff (h : LoopOf next cell stop loop) :
    (∃ n, loop n c = some L) ↔ Walk next cell stop c L :=
  ⟨fun ⟨n, hn⟩ => h.walk n c L hn, h.returns⟩

/-- No cell comes back while the walk is still going on. -/
def NoReturn (next : I → I) (cell stop : I → Prop) (c : I) : Prop :=
  ∀ i j, i < j → (∀ k, k < j → Passed cell stop (next^[k] c)) → next^[i] c ≠ next^[j] c

/-- After a return the walk goes on for ever. -/
theorem passed_of_return {i j : ℕ} (hij : i < j) (hpass : ∀ k, k < j →
    Passed cell stop (next^[k] c))
    (heq : next^[i] c = next^[j] c) : ∀ k, Passed cell stop (next^[k] c) := by
  intro k
  induction k using Nat.strong_induction_on with
  | _ k ih =>
    by_cases hk : k < j
    · exact hpass k hk
    · have hback : next^[k] c = next^[k - j + i] c := by
        calc next^[k] c = next^[k - j + j] c := by rw [Nat.sub_add_cancel (by omega)]
          _ = next^[k - j] (next^[j] c) := Function.iterate_add_apply next (k - j) j c
          _ = next^[k - j] (next^[i] c) := by rw [heq]
          _ = next^[k - j + i] c := (Function.iterate_add_apply next (k - j) i c).symm
      rw [hback]
      exact ih _ (by omega)

/-- Where a walk leaves the cells of `S` it ends: it visits at most as many cells as there are in
`S` unless it returns, or takes all of `S` and then a cell outside. -/
theorem exists_short_walk_iff (next : I → I) (cell stop : I → Prop) (c : I) (S : Finset I)
    (hout : ∀ x, cell x → x ∉ S → ¬ cell (next x)) :
    (∃ L, Walk next cell stop c L ∧ L.length ≤ S.card) ↔ NoReturn next cell stop c ∧
      ¬ ((∀ i, i < S.card → Passed cell stop (next^[i] c) ∧ next^[i] c ∈ S) ∧
        cell (next^[S.card] c) ∧ next^[S.card] c ∉ S) := by
  rw [exists_walk_iff]
  constructor
  · intro hend
    constructor
    · intro i j hij hpass heq
      have hall := passed_of_return hij hpass heq
      exact hend ⟨fun k _ => hall k, (hall S.card).1⟩
    · exact fun h => hend ⟨fun i hi => (h.1 i hi).1, h.2.1⟩
  · rintro ⟨hret, hover⟩ ⟨hpass, hlast⟩
    have hcell : ∀ k, k ≤ S.card → cell (next^[k] c) := by
      intro k hk
      rcases Nat.lt_or_eq_of_le hk with h | h
      · exact (hpass k h).1
      · rw [h]
        exact hlast
    have hin : ∀ k, k < S.card → next^[k] c ∈ S := by
      intro k hk
      by_contra hnot
      have hnext := hcell (k+1) hk
      rw [Function.iterate_succ_apply'] at hnext
      exact hout _ (hcell k (Nat.le_of_lt hk)) hnot hnext
    have hlastIn : next^[S.card] c ∈ S := by
      by_contra hnot
      exact hover ⟨fun i hi => ⟨hpass i hi, hin i hi⟩, hlast, hnot⟩
    -- one cell more than there are in `S`
    obtain ⟨i, hi, j, hj, hne, heq⟩ := Finset.exists_ne_map_eq_of_card_lt_of_maps_to
      (s := Finset.range (S.card + 1)) (t := S) (f := fun k => next^[k] c)
      (by rw [Finset.card_range]; exact Nat.lt_succ_self _) (by
        intro k hk
        have hk := Finset.mem_range.mp hk
        rcases Nat.lt_or_eq_of_le (Nat.le_of_lt_succ hk) with h | h
        · exact hin k h
        · rw [h]
          exact hlastIn)
    have hi := Finset.mem_range.mp hi
    have hj := Finset.mem_range.mp hj
    rcases Nat.lt_or_gt_of_ne hne with h | h
    · exact hret i j h (fun k hk => hpass k (by omega)) heq
    · exact hret j i h (fun k hk => hpass k (by omega)) heq.symm

end Walks

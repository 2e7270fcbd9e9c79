import Mathlib.Data.List.Infix
import Mathlib.Data.Nat.Notation

/-! Radix trees kept in frames of a store. What a slot of a table means may depend on the path that
leads to the table, as it does for page tables, where only some levels have large pages. -/
namespace RadixTree

variable {F I : Type*}

/-- `child p f i` is the table behind slot `i` of the table `f` reached by the path `p`. -/
abbrev Children (F I : Type*) := List I → F → I → Option F

def followFrom (child : Children F I) : List I → F → List I → Option F
  | _, f, [] => some f
  | pre, f, i::p => (child pre f i).bind (fun g => followFrom child (pre ++ [i]) g p)

/-- The table at the end of a path from the root. -/
def follow (child : Children F I) (r : F) (p : List I) : Option F := followFrom child [] r p

variable {child child' : Children F I} {r f g : F} {p q : List I} {i : I}

@[simp] theorem follow_nil : follow child r [] = some r := rfl

theorem followFrom_append (pre : List I) (f : F) (p q : List I) :
    followFrom child pre f (p ++ q) =
      (followFrom child pre f p).bind (fun g => followFrom child (pre ++ p) g q) := by
  induction p generalizing pre f with
  | nil => rw [List.nil_append, List.append_nil, followFrom, Option.bind_some]
  | cons i p ih =>
    rw [List.cons_append, followFrom, followFrom, Option.bind_assoc]
    apply congrArg (Option.bind (child pre f i))
    funext g
    rw [ih, List.append_assoc, List.singleton_append]

theorem follow_concat (p : List I) (i : I) :
    follow child r (p ++ [i]) = (follow child r p).bind (fun g => child p g i) := by
  unfold follow
  rw [followFrom_append, List.nil_append]
  apply congrArg (Option.bind (followFrom child [] r p))
  funext g
  exact Option.bind_fun_some (child p g i)

/-- The last step of a path. -/
theorem exists_parent (h : follow child r (p ++ [i]) = some g) :
    ∃ f, follow child r p = some f ∧ child p f i = some g := by
  rw [follow_concat] at h
  exact Option.bind_eq_some_iff.mp h

theorem follow_of_prefix (h : follow child r q = some g) (hp : p <+: q) :
    ∃ f, follow child r p = some f := by
  obtain ⟨s, rfl⟩ := hp
  unfold follow at h ⊢
  rw [followFrom_append] at h
  obtain ⟨f, hf, -⟩ := Option.bind_eq_some_iff.mp h
  exact ⟨f, hf⟩

/-- No frame holds two tables of the tree. -/
def Distinct (child : Children F I) (r : F) : Prop :=
  ∀ p q f, follow child r p = some f → follow child r q = some f → p = q

/-- Trees with the same links on one of them are the same. -/
theorem follow_congr (h : ∀ p f i, follow child r p = some f → child' p f i = child p f i)
    (p : List I) : follow child' r p = follow child r p := by
  induction p using List.reverseRecOn with
  | nil => rfl
  | append_singleton p i ih =>
    rw [follow_concat, follow_concat, ih]
    cases hp : follow child r p with
    | none => rfl
    | some f => exact h p f i hp

/-- Fewer links reach fewer tables. -/
theorem follow_mono (h : ∀ p f i g, follow child r p = some f → child' p f i = some g →
    child p f i = some g) (hp : follow child' r p = some g) : follow child r p = some g := by
  induction p using List.reverseRecOn generalizing g with
  | nil => exact hp
  | append_singleton p i ih =>
    obtain ⟨f, hf, hi⟩ := exists_parent hp
    rw [follow_concat, ih hf]
    exact h p f i g (ih hf) hi

section Attach
variable {f' : F}

/-- A fresh table without children, put into the slot `i` of the table at `p`, replaces the
subtree that was there. -/
theorem follow_attach (hp : follow child r p = some f) (hslot : child' p f i = some g)
    (hempty : ∀ j, child' (p ++ [i]) g j = none)
    (hsame : ∀ q f' j, follow child r q = some f' → q ++ [j] ≠ p ++ [i] →
      child' q f' j = child q f' j) (q : List I) :
    follow child' r q = some f' ↔
      (q = p ++ [i] ∧ f' = g) ∨ (¬ p ++ [i] <+: q ∧ follow child r q = some f') := by
  induction q using List.reverseRecOn generalizing f' with
  | nil =>
    have hne : [] ≠ p ++ [i] := (List.append_ne_nil_of_right_ne_nil p (List.cons_ne_nil i [])).symm
    have hpre : ¬ p ++ [i] <+: [] := fun h => hne (List.prefix_nil.mp h).symm
    simp only [follow_nil, hne, hpre, false_and, not_false_eq_true, true_and, false_or]
  | append_singleton q j ih =>
    constructor
    · intro h
      obtain ⟨x, hx, hj⟩ := exists_parent h
      rcases ih.mp hx with ⟨rfl, rfl⟩ | ⟨hpre, hx⟩
      · rw [hempty] at hj
        cases hj
      by_cases he : q ++ [j] = p ++ [i]
      · obtain ⟨rfl, hji⟩ := List.append_inj' he rfl
        obtain rfl : j = i := (List.cons.inj hji).1
        obtain rfl : f = x := Option.some.inj (hp.symm.trans hx)
        exact Or.inl ⟨rfl, Option.some.inj (hj.symm.trans hslot)⟩
      · rw [hsame q x j hx he] at hj
        refine Or.inr ⟨fun hpre' => ?_, ?_⟩
        · rcases List.prefix_concat_iff.mp hpre' with h' | h'
          · exact he h'.symm
          · exact hpre h'
        · rw [follow_concat, hx]
          exact hj
    · rintro (⟨he, rfl⟩ | ⟨hpre, h⟩)
      · obtain ⟨rfl, hji⟩ := List.append_inj' he rfl
        obtain rfl : j = i := (List.cons.inj hji).1
        have hnot : ¬ q ++ [j] <+: q := fun h => by
          have hlen := h.length_le
          rw [List.length_append, List.length_singleton] at hlen
          omega
        rw [follow_concat, ih.mpr (Or.inr ⟨hnot, hp⟩)]
        exact hslot
      · obtain ⟨x, hx, hj⟩ := exists_parent h
        have hnot : ¬ p ++ [i] <+: q := fun h' => hpre (h'.trans (List.prefix_append q [j]))
        rw [follow_concat, ih.mpr (Or.inr ⟨hnot, hx⟩)]
        have hne : q ++ [j] ≠ p ++ [i] := fun he => hpre (he ▸ List.prefix_rfl)
        exact (hsame q x j hx hne).trans hj

theorem Distinct.attach (hd : Distinct child r) (hfresh : ∀ q, follow child r q ≠ some g)
    (hp : follow child r p = some f) (hslot : child' p f i = some g)
    (hempty : ∀ j, child' (p ++ [i]) g j = none)
    (hsame : ∀ q f' j, follow child r q = some f' → q ++ [j] ≠ p ++ [i] →
      child' q f' j = child q f' j) : Distinct child' r := by
  intro q q' x hq hq'
  rcases (follow_attach hp hslot hempty hsame q).mp hq with ⟨rfl, rfl⟩ | ⟨-, h⟩
  · rcases (follow_attach hp hslot hempty hsame q').mp hq' with ⟨rfl, -⟩ | ⟨-, h'⟩
    · rfl
    · exact absurd h' (hfresh q')
  · rcases (follow_attach hp hslot hempty hsame q').mp hq' with ⟨rfl, rfl⟩ | ⟨-, h'⟩
    · exact absurd h (hfresh q)
    · exact hd q q' x h h'

end Attach

end RadixTree

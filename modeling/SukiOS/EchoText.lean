import SukiOS.Echo

/-! What the loop of `echo` prints, as a function of the text, against the words of the text: the
two are equal exactly when the spaces outside of quotes are kept. -/
namespace SukiOS.Shell
open ByteMemory

/-! ### The text that is printed -/

/-- How the loop goes on: after a space or a closing quote it prints no space, and in quotes it
prints everything. -/
inductive Mode where
  | quiet
  | plain
  | quoted
deriving DecidableEq, Repr

/-- What the loop prints of the rest of the text. -/
def printed : Mode → List Byte → List Byte
  | _, [] => []
  | .quiet, c::s =>
    if c = space then printed .quiet s
    else if c = quote then printed .quoted s
    else c :: printed .plain s
  | .plain, c::s =>
    if c = space then space :: printed .quiet s
    else if c = quote then printed .quoted s
    else c :: printed .plain s
  | .quoted, c::s => if c = quote then printed .quiet s else c :: printed .quoted s

-- the equations of the recursions, before the proofs that all begin with them
section
attribute [local simp] printed wordsFrom SpacesKept
end

/-- The words of the rest, separated by single spaces. -/
def spaced (p : Place) (s : List Byte) : List Byte := unwords (wordsFrom p s)

/-- How the loop goes on behind a character. -/
def Before.mode : Before → Mode
  | .gap => .quiet
  | .char => .plain
  | .closing => .quiet
  | .opening => .quoted

/-- Where a character stands that comes behind another one. -/
def Before.place : Before → Place
  | .gap => .outside
  | .char => .word
  | .closing => .word
  | .opening => .quoted

variable {c : Byte} {s l m : List Byte} {ws : List (List Byte)}

theorem consHead_ne_nil : consHead c ws ≠ [] := by
  cases ws with
  | nil => exact List.cons_ne_nil _ _
  | cons w ws => exact List.cons_ne_nil _ _

theorem wordsFrom_ne_nil (s : List Byte) : wordsFrom .word s ≠ [] ∧ wordsFrom .quoted s ≠ [] := by
  induction s with
  | nil => exact ⟨List.cons_ne_nil _ _, List.cons_ne_nil _ _⟩
  | cons c s ih =>
    constructor
    · unfold wordsFrom
      split
      · exact List.cons_ne_nil _ _
      · split
        · exact ih.2
        · exact consHead_ne_nil
    · unfold wordsFrom
      split
      · exact ih.1
      · exact consHead_ne_nil

theorem unwords_consHead (h : ws ≠ []) : unwords (consHead c ws) = c :: unwords ws := by
  cases ws with
  | nil => exact absurd rfl h
  | cons w ws =>
    cases ws with
    | nil => rfl
    | cons v ws => rfl

theorem wordsFrom_outside_eq_nil (s : List Byte) : wordsFrom .outside s = [] ↔ Blank s := by
  induction s with
  | nil => exact ⟨fun _ c hc => absurd hc List.not_mem_nil, fun _ => rfl⟩
  | cons c s ih =>
    have hblank : Blank (c::s) ↔ c = space ∧ Blank s := List.forall_mem_cons
    rw [hblank]
    unfold wordsFrom
    by_cases hsp : c = space
    · rw [if_pos hsp, ih]
      exact ⟨fun h => ⟨hsp, h⟩, fun h => h.2⟩
    · rw [if_neg hsp]
      constructor
      · intro h
        split at h
        · exact absurd h (wordsFrom_ne_nil s).2
        · exact absurd h consHead_ne_nil
      · exact fun h => absurd h.1 hsp

theorem printed_blank (h : Blank s) : printed .quiet s = [] := by
  induction s with
  | nil => rfl
  | cons c s ih =>
    have hc : c = space := h c List.mem_cons_self
    unfold printed
    rw [if_pos hc]
    exact ih (fun x hx => h x (List.mem_cons_of_mem c hx))

theorem spaced_nil (p : Place) : spaced p [] = [] := by
  cases p <;> rfl

/-- A character of a word. -/
theorem spaced_char {p : Place} (hp : p ≠ .quoted) (hsp : c ≠ space) (hq : c ≠ quote) :
    spaced p (c::s) = c :: spaced .word s := by
  unfold spaced
  cases p with
  | quoted => exact absurd rfl hp
  | outside =>
    rw [wordsFrom, if_neg hsp, if_neg hq]
    exact unwords_consHead (wordsFrom_ne_nil s).1
  | word =>
    rw [wordsFrom, if_neg hsp, if_neg hq]
    exact unwords_consHead (wordsFrom_ne_nil s).1

theorem spaced_opening {p : Place} (hp : p ≠ .quoted) :
    spaced p (quote::s) = spaced .quoted s := by
  have hsp : quote ≠ space := by decide
  unfold spaced
  cases p with
  | quoted => exact absurd rfl hp
  | outside => rw [wordsFrom, if_neg hsp, if_pos rfl]
  | word => rw [wordsFrom, if_neg hsp, if_pos rfl]

theorem spaced_outside_space : spaced .outside (space::s) = spaced .outside s := by
  unfold spaced
  rw [wordsFrom, if_pos rfl]

/-- A space ends the word, and separates it from the next one if there is one. -/
theorem spaced_word_space : spaced .word (space::s) =
    if Blank s then [] else space :: spaced .outside s := by
  unfold spaced
  rw [wordsFrom, if_pos rfl]
  by_cases hb : Blank s
  · rw [if_pos hb, (wordsFrom_outside_eq_nil s).mpr hb]
    rfl
  · have hne : wordsFrom .outside s ≠ [] := fun h => hb ((wordsFrom_outside_eq_nil s).mp h)
    rw [if_neg hb]
    cases hw : wordsFrom .outside s with
    | nil => exact absurd hw hne
    | cons w ws => rfl

theorem spaced_closing : spaced .quoted (quote::s) = spaced .word s := by
  unfold spaced
  rw [wordsFrom, if_pos rfl]

theorem spaced_quoted (hq : c ≠ quote) : spaced .quoted (c::s) = c :: spaced .quoted s := by
  unfold spaced
  rw [wordsFrom, if_neg hq]
  exact unwords_consHead (wordsFrom_ne_nil s).2

theorem printed_char {m : Mode} (hm : m ≠ .quoted) (hsp : c ≠ space) (hq : c ≠ quote) :
    printed m (c::s) = c :: printed .plain s := by
  cases m with
  | quoted => exact absurd rfl hm
  | quiet => rw [printed, if_neg hsp, if_neg hq]
  | plain => rw [printed, if_neg hsp, if_neg hq]

theorem printed_opening {m : Mode} (hm : m ≠ .quoted) :
    printed m (quote::s) = printed .quoted s := by
  have hsp : quote ≠ space := by decide
  cases m with
  | quoted => exact absurd rfl hm
  | quiet => rw [printed, if_neg hsp, if_pos rfl]
  | plain => rw [printed, if_neg hsp, if_pos rfl]

theorem printed_quiet_space : printed .quiet (space::s) = printed .quiet s := by
  rw [printed, if_pos rfl]

theorem printed_plain_space : printed .plain (space::s) = space :: printed .quiet s := by
  rw [printed, if_pos rfl]

theorem printed_closing : printed .quoted (quote::s) = printed .quiet s := by
  rw [printed, if_pos rfl]

theorem printed_quoted (hq : c ≠ quote) : printed .quoted (c::s) = c :: printed .quoted s := by
  rw [printed, if_neg hq]

theorem spacesKept_char {b : Before} (hb : b ≠ .opening) (hsp : c ≠ space) (hq : c ≠ quote) :
    SpacesKept b (c::s) ↔ SpacesKept .char s := by
  cases b with
  | opening => exact absurd rfl hb
  | gap => rw [SpacesKept, if_neg hsp, if_neg hq]
  | char => rw [SpacesKept, if_neg hsp, if_neg hq]
  | closing => rw [SpacesKept, if_neg hsp, if_neg hq]

theorem spacesKept_opening {b : Before} (hb : b ≠ .opening) :
    SpacesKept b (quote::s) ↔ SpacesKept .opening s := by
  have hsp : quote ≠ space := by decide
  cases b with
  | opening => exact absurd rfl hb
  | gap => rw [SpacesKept, if_neg hsp, if_pos rfl]
  | char => rw [SpacesKept, if_neg hsp, if_pos rfl]
  | closing => rw [SpacesKept, if_neg hsp, if_pos rfl]

theorem mode_ne_quoted {b : Before} (hb : b ≠ .opening) : b.mode ≠ .quoted := by
  cases b with
  | opening => exact absurd rfl hb
  | _ => exact fun h => by cases h

theorem place_ne_quoted {b : Before} (hb : b ≠ .opening) : b.place ≠ .quoted := by
  cases b with
  | opening => exact absurd rfl hb
  | _ => exact fun h => by cases h

/-! ### Lengths -/

/-- The first text ends with a space, and the second one with another character. -/
def Trails (l m : List Byte) : Prop :=
  l.getLast? = some space ∧ ∃ c, c ≠ space ∧ m.getLast? = some c

theorem Trails.cons (h : Trails l m) (c d : Byte) : Trails (c::l) (d::m) := by
  obtain ⟨hl, x, hx, hm⟩ := h
  refine ⟨?_, x, hx, ?_⟩
  · rw [List.getLast?_cons, hl]
    rfl
  · rw [List.getLast?_cons, hm]
    rfl

theorem Trails.cons_right (h : Trails l m) (d : Byte) : Trails l (d::m) := by
  obtain ⟨hl, x, hx, hm⟩ := h
  refine ⟨hl, x, hx, ?_⟩
  rw [List.getLast?_cons, hm]
  rfl

theorem Trails.ne (h : Trails l m) : l ≠ m := by
  obtain ⟨hl, x, hx, hm⟩ := h
  intro he
  rw [he, hm] at hl
  exact hx (Option.some.inj hl)

/-- What is printed is no longer than the words, or it ends with a space that they do not have. -/
def NotLonger (l m : List Byte) : Prop := l.length ≤ m.length ∨ Trails l m

theorem NotLonger.cons (h : NotLonger l m) (c d : Byte) : NotLonger (c::l) (d::m) := by
  rcases h with h | h
  · left
    rw [List.length_cons, List.length_cons]
    exact Nat.succ_le_succ h
  · exact Or.inr (h.cons c d)

theorem NotLonger.cons_right (h : NotLonger l m) (d : Byte) : NotLonger l (d::m) := by
  rcases h with h | h
  · left
    rw [List.length_cons]
    exact Nat.le_succ_of_le h
  · exact Or.inr (h.cons_right d)

/-- A text with a character more in front is another one. -/
theorem NotLonger.ne_cons (h : NotLonger l m) (d : Byte) : l ≠ d::m := by
  rcases h with h | h
  · intro he
    have hlength := congrArg List.length he
    rw [List.length_cons] at hlength
    omega
  · exact (h.cons_right d).ne

/-- Behind a character of a word a space may be printed when nothing of the words is left. -/
theorem NotLonger.of_char (h : NotLonger l m ∨ (l = [space] ∧ m = [])) (hc : c ≠ space) :
    NotLonger (c::l) (c::m) := by
  rcases h with h | ⟨hl, hm⟩
  · exact h.cons c c
  · rw [hl, hm]
    exact Or.inr ⟨rfl, c, hc, rfl⟩

/-- A space, outside of quotes: only the one behind a character of a word is printed. -/
theorem notLonger_space {b : Before} (hb : b ≠ .opening)
    (hgap : NotLonger (printed .quiet s) (spaced .outside s)) :
    NotLonger (printed b.mode (space::s)) (spaced b.place (space::s)) ∨
    (b = .char ∧ printed b.mode (space::s) = [space] ∧ spaced b.place (space::s) = []) := by
  cases b with
  | opening => exact absurd rfl hb
  | gap =>
    left
    change NotLonger (printed .quiet (space::s)) (spaced .outside (space::s))
    rw [printed_quiet_space, spaced_outside_space]
    exact hgap
  | char =>
    change NotLonger (printed .plain (space::s)) (spaced .word (space::s)) ∨
      (_ ∧ printed .plain (space::s) = [space] ∧ spaced .word (space::s) = [])
    rw [printed_plain_space, spaced_word_space]
    by_cases hblank : Blank s
    · rw [if_pos hblank, printed_blank hblank]
      exact Or.inr ⟨rfl, rfl, rfl⟩
    · rw [if_neg hblank]
      exact Or.inl (hgap.cons space space)
  | closing =>
    -- nothing is printed here, and the words go on behind a space if there are more
    left
    change NotLonger (printed .quiet (space::s)) (spaced .word (space::s))
    rw [printed_quiet_space, spaced_word_space]
    by_cases hblank : Blank s
    · rw [if_pos hblank, printed_blank hblank]
      exact Or.inl (Nat.le_refl 0)
    · rw [if_neg hblank]
      exact hgap.cons_right space

/-- By induction on the text, behind any character; only behind a character of a word the words may
have come to their end before. -/
theorem printed_notLonger (s : List Byte) : ∀ b : Before,
    NotLonger (printed b.mode s) (spaced b.place s) ∨
    (b = .char ∧ printed b.mode s = [space] ∧ spaced b.place s = []) := by
  induction s with
  | nil =>
    intro b
    left
    rw [spaced_nil]
    cases b <;> exact Or.inl (Nat.le_refl 0)
  | cons c s ih =>
    intro b
    have hchar : NotLonger (printed .plain s) (spaced .word s) ∨
        (printed .plain s = [space] ∧ spaced .word s = []) := by
      rcases ih .char with h | h
      · exact Or.inl h
      · exact Or.inr h.2
    have hgap : NotLonger (printed .quiet s) (spaced .outside s) :=
      (ih .gap).resolve_right (fun h => by cases h.1)
    have hclosing : NotLonger (printed .quiet s) (spaced .word s) :=
      (ih .closing).resolve_right (fun h => by cases h.1)
    have hopening : NotLonger (printed .quoted s) (spaced .quoted s) :=
      (ih .opening).resolve_right (fun h => by cases h.1)
    by_cases hb : b = .opening
    · left
      rw [hb]
      change NotLonger (printed .quoted (c::s)) (spaced .quoted (c::s))
      by_cases hq : c = quote
      · rw [hq, printed_closing, spaced_closing]
        exact hclosing
      · rw [printed_quoted hq, spaced_quoted hq]
        exact hopening.cons c c
    · by_cases hq : c = quote
      · left
        rw [hq, printed_opening (mode_ne_quoted hb), spaced_opening (place_ne_quoted hb)]
        exact hopening
      · by_cases hsp : c = space
        · rw [hsp]
          exact notLonger_space hb hgap
        · left
          rw [printed_char (mode_ne_quoted hb) hsp hq, spaced_char (place_ne_quoted hb) hsp hq]
          exact NotLonger.of_char hchar hsp

/-! ### Equality -/

/-- The loop prints the words exactly when the spaces are kept. -/
theorem printed_eq_iff (s : List Byte) : ∀ b : Before,
    printed b.mode s = spaced b.place s ↔ SpacesKept b s := by
  induction s with
  | nil =>
    intro b
    rw [spaced_nil]
    cases b <;> exact iff_of_true rfl trivial
  | cons c s ih =>
    intro b
    have hgap : printed .quiet s = spaced .outside s ↔ SpacesKept .gap s := ih .gap
    by_cases hb : b = .opening
    · rw [hb]
      change printed .quoted (c::s) = spaced .quoted (c::s) ↔ _
      by_cases hq : c = quote
      · rw [hq, printed_closing, spaced_closing, SpacesKept, if_pos rfl]
        exact ih .closing
      · rw [printed_quoted hq, spaced_quoted hq, SpacesKept, if_neg hq, List.cons_inj_right]
        exact ih .opening
    · by_cases hq : c = quote
      · rw [hq, printed_opening (mode_ne_quoted hb), spaced_opening (place_ne_quoted hb),
          spacesKept_opening hb]
        exact ih .opening
      · by_cases hsp : c = space
        · rw [hsp]
          cases b with
          | opening => exact absurd rfl hb
          | gap =>
            change printed .quiet (space::s) = spaced .outside (space::s) ↔ _
            rw [printed_quiet_space, spaced_outside_space, SpacesKept, if_pos rfl]
            exact hgap
          | char =>
            change printed .plain (space::s) = spaced .word (space::s) ↔ _
            rw [printed_plain_space, spaced_word_space, SpacesKept, if_pos rfl]
            by_cases hblank : Blank s
            · rw [if_pos hblank]
              exact iff_of_false (List.cons_ne_nil _ _) (fun h => h.1 hblank)
            · rw [if_neg hblank, List.cons_inj_right, hgap]
              exact ⟨fun h => ⟨hblank, h⟩, fun h => h.2⟩
          | closing =>
            change printed .quiet (space::s) = spaced .word (space::s) ↔ _
            rw [printed_quiet_space, spaced_word_space, SpacesKept, if_pos rfl]
            by_cases hblank : Blank s
            · rw [if_pos hblank, printed_blank hblank]
              exact iff_of_true rfl hblank
            · -- a word follows, and the space in front of it is missing
              have hshort : NotLonger (printed .quiet s) (spaced .outside s) :=
                (printed_notLonger s .gap).resolve_right (fun h => by cases h.1)
              rw [if_neg hblank]
              exact iff_of_false (hshort.ne_cons space) hblank
        · rw [printed_char (mode_ne_quoted hb) hsp hq, spaced_char (place_ne_quoted hb) hsp hq,
            spacesKept_char hb hsp hq, List.cons_inj_right]
          exact ih .char

end SukiOS.Shell

import SukiOS.EchoText

/-! `echo` on a whole line: what the edits of the buffer and the pointer loops come to for the text
of the line, and on which lines that is the documented output. -/
namespace SukiOS.Shell
open ByteMemory

variable {mem : Mem} {c d : Byte} {A s l m : List Byte} {ws : List (List Byte)} {a n p q : ℕ}

/-! ### Words of a text without spaces in front -/

/-- The text of an argument, without its quotes. -/
def unquoted (A : List Byte) : List Byte := A.filter (· ≠ quote)

theorem unquoted_quote : unquoted (quote::A) = unquoted A :=
  List.filter_cons_of_neg (by simp)

theorem unquoted_char (hq : c ≠ quote) : unquoted (c::A) = c :: unquoted A :=
  List.filter_cons_of_pos (by simpa using hq)

/-- The place behind a text. -/
def placeAfter : Place → List Byte → Place
  | p, [] => p
  | .quoted, c::A => if c = quote then placeAfter .word A else placeAfter .quoted A
  | _, c::A => if c = quote then placeAfter .quoted A else placeAfter .word A

theorem placeAfter_ne_outside (A : List Byte) : ∀ p, p ≠ .outside ∨ A ≠ [] →
    placeAfter p A ≠ .outside := by
  induction A with
  | nil => exact fun p h => h.resolve_right (fun hne => hne rfl)
  | cons c A ih =>
    intro p _
    have hword := ih .word (Or.inl (fun h => by cases h))
    have hquoted := ih .quoted (Or.inl (fun h => by cases h))
    cases p <;> unfold placeAfter <;> split <;> assumption

theorem foldr_consHead (x w : List Byte) : x.foldr consHead (w::ws) = (x ++ w)::ws := by
  induction x with
  | nil => rfl
  | cons c x ih =>
    rw [List.foldr_cons, ih]
    rfl

theorem wordsFrom_append (A s : List Byte) : ∀ p, (∀ c, c ∈ A → c ≠ space) →
    wordsFrom p (A ++ s) = (unquoted A).foldr consHead (wordsFrom (placeAfter p A) s) := by
  induction A with
  | nil => exact fun p _ => rfl
  | cons c A ih =>
    intro p hA
    have hsp : c ≠ space := hA c List.mem_cons_self
    have hrest : ∀ c, c ∈ A → c ≠ space := fun x hx => hA x (List.mem_cons_of_mem c hx)
    rw [List.cons_append]
    by_cases hq : c = quote
    · rw [hq, unquoted_quote]
      have hsq : ¬ quote = space := by decide
      cases p with
      | quoted =>
        rw [wordsFrom, if_pos rfl, ih .word hrest, placeAfter, if_pos rfl]
      | outside =>
        rw [wordsFrom, if_neg hsq, if_pos rfl, ih .quoted hrest, placeAfter, if_pos rfl]
        exact fun h => by cases h
      | word =>
        rw [wordsFrom, if_neg hsq, if_pos rfl, ih .quoted hrest, placeAfter, if_pos rfl]
        exact fun h => by cases h
    · rw [unquoted_char hq, List.foldr_cons]
      cases p with
      | quoted => rw [wordsFrom, if_neg hq, ih .quoted hrest, placeAfter, if_neg hq]
      | outside =>
        rw [wordsFrom, if_neg hsp, if_neg hq, ih .word hrest, placeAfter, if_neg hq]
        exact fun h => by cases h
      | word =>
        rw [wordsFrom, if_neg hsp, if_neg hq, ih .word hrest, placeAfter, if_neg hq]
        exact fun h => by cases h

theorem words_single (hA : ∀ c, c ∈ A → c ≠ space) (hne : A ≠ []) : words A = [unquoted A] := by
  have hwords := wordsFrom_append A [] .outside hA
  have hplace := placeAfter_ne_outside A .outside (Or.inr hne)
  rw [List.append_nil] at hwords
  unfold words
  rw [hwords]
  cases hp : placeAfter .outside A with
  | outside => exact absurd hp hplace
  | word => exact (foldr_consHead _ _).trans (by rw [List.append_nil])
  | quoted => exact (foldr_consHead _ _).trans (by rw [List.append_nil])

/-- The first word ends at the space, or the space is quoted and belongs to it. -/
theorem words_space (hA : ∀ c, c ∈ A → c ≠ space) (hne : A ≠ []) (s : List Byte) :
    words (A ++ space :: s) = unquoted A :: words s ∨
    ∃ w ws, words (A ++ space :: s) = (unquoted A ++ space :: w) :: ws := by
  have hwords := wordsFrom_append A (space::s) .outside hA
  have hplace := placeAfter_ne_outside A .outside (Or.inr hne)
  unfold words
  rw [hwords]
  cases hp : placeAfter .outside A with
  | outside => exact absurd hp hplace
  | word =>
    left
    rw [wordsFrom, if_pos rfl, foldr_consHead, List.append_nil]
  | quoted =>
    right
    have hsq : ¬ space = quote := by decide
    rw [wordsFrom, if_neg hsq]
    cases hw : wordsFrom .quoted s with
    | nil => exact absurd hw (wordsFrom_ne_nil s).2
    | cons w ws => exact ⟨w, ws, foldr_consHead _ _⟩

theorem printed_unquoted (A : List Byte) : ∀ m, (∀ c, c ∈ A → c ≠ space) →
    printed m A = unquoted A := by
  induction A with
  | nil =>
    intro m _
    cases m <;> rfl
  | cons c A ih =>
    intro m hA
    have hsp : c ≠ space := hA c List.mem_cons_self
    have hrest : ∀ c, c ∈ A → c ≠ space := fun x hx => hA x (List.mem_cons_of_mem c hx)
    by_cases hq : c = quote
    · rw [hq, unquoted_quote]
      by_cases hm : m = .quoted
      · rw [hm, printed_closing]
        exact ih .quiet hrest
      · rw [printed_opening hm]
        exact ih .quoted hrest
    · rw [unquoted_char hq]
      by_cases hm : m = .quoted
      · rw [hm, printed_quoted hq]
        exact congrArg (List.cons c) (ih .quoted hrest)
      · rw [printed_char hm hsp hq]
        exact congrArg (List.cons c) (ih .plain hrest)

/-! ### Characters of the words -/

theorem mem_consHead {w : List Byte} (h : w ∈ consHead c ws) (hd : d ∈ w) :
    d = c ∨ ∃ v, v ∈ ws ∧ d ∈ v := by
  cases ws with
  | nil =>
    rw [List.mem_singleton.mp h] at hd
    exact Or.inl (List.mem_singleton.mp hd)
  | cons v ws =>
    rcases List.mem_cons.mp h with rfl | h
    · rcases List.mem_cons.mp hd with rfl | hd
      · exact Or.inl rfl
      · exact Or.inr ⟨v, List.mem_cons_self, hd⟩
    · exact Or.inr ⟨w, List.mem_cons_of_mem v h, hd⟩

/-- Words have characters of the text only. -/
theorem mem_of_mem_words (s : List Byte) : ∀ p {w : List Byte}, w ∈ wordsFrom p s → d ∈ w →
    d ∈ s := by
  induction s with
  | nil =>
    intro p w hw hd
    cases p with
    | outside => exact absurd hw List.not_mem_nil
    | word => exact absurd (List.mem_singleton.mp hw ▸ hd) List.not_mem_nil
    | quoted => exact absurd (List.mem_singleton.mp hw ▸ hd) List.not_mem_nil
  | cons c s ih =>
    intro p w hw hd
    have hlater (p' : Place) (h : w ∈ wordsFrom p' s) : d ∈ c::s :=
      List.mem_cons_of_mem c (ih p' h hd)
    have hhead (p' : Place) (h : w ∈ consHead c (wordsFrom p' s)) : d ∈ c::s := by
      rcases mem_consHead h hd with rfl | ⟨v, hv, hdv⟩
      · exact List.mem_cons_self
      · exact List.mem_cons_of_mem c (ih p' hv hdv)
    cases p with
    | outside =>
      unfold wordsFrom at hw
      split at hw
      · exact hlater .outside hw
      · split at hw
        · exact hlater .quoted hw
        · exact hhead .word hw
    | word =>
      unfold wordsFrom at hw
      split at hw
      · rcases List.mem_cons.mp hw with rfl | hw
        · exact absurd hd List.not_mem_nil
        · exact hlater .outside hw
      · split at hw
        · exact hlater .quoted hw
        · exact hhead .word hw
    | quoted =>
      unfold wordsFrom at hw
      split at hw
      · exact hlater .word hw
      · exact hhead .quoted hw

theorem mem_unwords (ws : List (List Byte)) (h : d ∈ unwords ws) : d = space ∨ ∃ w, w ∈ ws ∧
    d ∈ w := by
  induction ws with
  | nil => exact absurd h List.not_mem_nil
  | cons w ws ih =>
    cases ws with
    | nil => exact Or.inr ⟨w, List.mem_cons_self, h⟩
    | cons v ws =>
      change d ∈ w ++ space :: unwords (v::ws) at h
      rcases List.mem_append.mp h with h | h
      · exact Or.inr ⟨w, List.mem_cons_self, h⟩
      · rcases List.mem_cons.mp h with h | h
        · exact Or.inl h
        · rcases ih h with h | ⟨u, hu, hd⟩
          · exact Or.inl h
          · exact Or.inr ⟨u, List.mem_cons_of_mem w hu, hd⟩

/-- No newline is printed between the words of a text without one. -/
theorem newline_not_mem (hnl : newlineChar ∉ s) (hws : ∀ w, w ∈ ws → w ∈ words s) :
    newlineChar ∉ unwords ws := by
  intro h
  rcases mem_unwords ws h with h | ⟨w, hw, hd⟩
  · exact absurd h (by decide)
  · exact hnl (mem_of_mem_words s .outside (hws w hw) hd)

theorem unwords_eq_nil : unwords ws = [] ↔ ws = [] ∨ ws = [[]] := by
  cases ws with
  | nil => exact iff_of_true rfl (Or.inl rfl)
  | cons w ws =>
    cases ws with
    | nil =>
      change w = [] ↔ _
      constructor
      · exact fun h => Or.inr (by rw [h])
      · intro h
        rcases h with h | h
        · cases h
        · exact (List.cons.inj h).1
    | cons v ws =>
      change w ++ space :: unwords (v::ws) = [] ↔ _
      apply iff_of_false
      · exact List.append_ne_nil_of_right_ne_nil w (List.cons_ne_nil _ _)
      · intro h
        rcases h with h | h
        · cases h
        · cases (List.cons.inj h).2

/-- Only one word without spaces makes a text without spaces. -/
theorem unwords_eq_word (hl : space ∉ l) (hne : l ≠ []) : unwords ws = l ↔ ws = [l] := by
  cases ws with
  | nil => exact iff_of_false (fun h => hne h.symm) (fun h => by cases h)
  | cons w ws =>
    cases ws with
    | nil =>
      change w = l ↔ _
      exact ⟨fun h => by rw [h], fun h => (List.cons.inj h).1⟩
    | cons v ws =>
      change w ++ space :: unwords (v::ws) = l ↔ _
      apply iff_of_false
      · intro h
        exact hl (h ▸ List.mem_append_right w List.mem_cons_self)
      · intro h
        cases (List.cons.inj h).2

/-! ### The output -/

/-- What `echo` prints for its arguments. Without `-n` and a space they end at the first space. -/
def echoOutput (args : List Byte) : List Byte :=
  match args.dropWhile (· ≠ space) with
  | [] => if args = [] then [newlineChar] else printed .quiet args
  | _::s =>
    if firstArgument args = chars "-n" then printed .quiet s
    else if firstArgument args = [] then [newlineChar]
    else printed .quiet (firstArgument args)

/-- What is left of a text from the first character `c` on. -/
theorem dropWhile_ne_cases (c : Byte) (s : List Byte) :
    s.dropWhile (· ≠ c) = [] ∨ ∃ r, s.dropWhile (· ≠ c) = c :: r := by
  cases hd : s.dropWhile (· ≠ c) with
  | nil => exact Or.inl rfl
  | cons d r =>
    have hhead := List.head?_dropWhile_not (· ≠ c) s
    rw [hd] at hhead
    have hdc : d = c := by simpa using hhead
    exact Or.inr ⟨r, by rw [hdc]⟩

/-- A text is an argument without spaces, and it ends there or a space follows. -/
theorem args_cases (args : List Byte) : (∀ c, c ∈ firstArgument args → c ≠ space) ∧
    ((args = firstArgument args ∧ args.dropWhile (· ≠ space) = []) ∨
    ∃ s, args = firstArgument args ++ space :: s ∧ args.dropWhile (· ≠ space) = space :: s) := by
  have hsplit : firstArgument args ++ args.dropWhile (· ≠ space) = args :=
    List.takeWhile_append_dropWhile
  constructor
  · intro c hc
    have hp := List.all_eq_true.mp List.all_takeWhile c hc
    simpa using hp
  · rcases dropWhile_ne_cases space args with hd | ⟨s, hd⟩
    · rw [hd, List.append_nil] at hsplit
      exact Or.inl ⟨hsplit.symm, hd⟩
    · rw [hd] at hsplit
      exact Or.inr ⟨s, hsplit.symm, hd⟩

theorem firstArgument_split (args : List Byte) :
    args = firstArgument args ∨ ∃ r, args = firstArgument args ++ space :: r :=
  (args_cases args).2.imp And.left (fun ⟨s, hself, _⟩ => ⟨s, hself⟩)

theorem space_not_mem_dashN : space ∉ chars "-n" := by decide

/-- Where the argument is empty the newline alone is printed, and that is right when there are no
words. -/
theorem documented_newline_iff (hnl : newlineChar ∉ s) :
    [newlineChar] = documented s ↔ words s = [] ∨ words s = [[]] := by
  unfold documented
  cases hw : words s with
  | nil => exact iff_of_true rfl (Or.inl rfl)
  | cons w ws =>
    dsimp only
    by_cases hdash : w = chars "-n"
    · rw [if_pos hdash]
      apply iff_of_false
      · intro h
        have hmem : newlineChar ∈ unwords ws := h ▸ List.mem_singleton.mpr rfl
        exact newline_not_mem hnl (fun v hv => hw ▸ List.mem_cons_of_mem w hv) hmem
      · intro h
        rcases h with h | h
        · cases h
        · exact absurd ((List.cons.inj h).1.symm.trans hdash) (by decide)
    · rw [if_neg hdash, ← unwords_eq_nil]
      constructor
      · intro h
        have hlength := congrArg List.length h
        rw [List.length_append, List.length_singleton] at hlength
        exact List.eq_nil_of_length_eq_zero (by omega)
      · intro h
        rw [h]
        rfl

/-- Where the text of the argument is printed, without a newline, it is right only when the words
are `-n` and `-n`. -/
theorem documented_argument_iff (hA : ∀ c, c ∈ A → c ≠ space) (hne : A ≠ [])
    (hnl : newlineChar ∉ s) (hs : s = A ∨ ∃ r, s = A ++ space :: r) :
    unquoted A = documented s ↔ words s = [chars "-n", chars "-n"] := by
  have hline : newlineChar ∉ unquoted A := by
    intro h
    have hmem : newlineChar ∈ A := (List.mem_filter.mp h).1
    rcases hs with hs | ⟨r, hs⟩
    · exact hnl (hs ▸ hmem)
    · exact hnl (hs ▸ List.mem_append_left _ hmem)
  unfold documented
  rcases hs with rfl | ⟨r, rfl⟩
  · -- a single word, which is printed without the newline, or is the option
    rw [words_single hA hne]
    dsimp only
    by_cases hdash : unquoted s = chars "-n"
    · rw [if_pos hdash, hdash]
      exact iff_of_false (by decide) (by decide)
    · rw [if_neg hdash]
      apply iff_of_false
      · intro h
        exact hline (h ▸ List.mem_append_right _ (List.mem_singleton.mpr rfl))
      · intro h
        cases (List.cons.inj h).2
  · rcases words_space hA hne r with hw | ⟨w, ws, hw⟩
    · rw [hw]
      dsimp only
      by_cases hdash : unquoted A = chars "-n"
      · rw [if_pos hdash, hdash, eq_comm,
          unwords_eq_word space_not_mem_dashN (by decide), List.cons_inj_right]
      · rw [if_neg hdash]
        apply iff_of_false
        · intro h
          exact hline (h ▸ List.mem_append_right _ (List.mem_singleton.mpr rfl))
        · intro h
          exact hdash (List.cons.inj h).1
    · -- the space is quoted, so the first word is not the option
      have hspace : unquoted A ++ space :: w ≠ chars "-n" := by
        intro h
        exact space_not_mem_dashN (h ▸ List.mem_append_right _ List.mem_cons_self)
      rw [hw]
      dsimp only
      rw [if_neg hspace]
      apply iff_of_false
      · intro h
        exact hline (h ▸ List.mem_append_right _ (List.mem_singleton.mpr rfl))
      · intro h
        exact hspace (List.cons.inj h).1

theorem unquoted_eq_self (h : quote ∉ A) : unquoted A = A := by
  apply List.filter_eq_self.mpr
  intro c hc
  have hne : c ≠ quote := fun he => h (he ▸ hc)
  simpa using hne

/-- The words `-n` and `-n` are an argument and what comes behind a space. -/
theorem words_option_pair (hA : ∀ c, c ∈ A → c ≠ space) (hne : A ≠ [])
    (hs : s = A ∨ ∃ r, s = A ++ space :: r) (hw : words s = [chars "-n", chars "-n"]) :
    unquoted A = chars "-n" ∧ ∃ r, s = A ++ space :: r := by
  rcases hs with rfl | ⟨r, rfl⟩
  · rw [words_single hA hne] at hw
    cases (List.cons.inj hw).2
  · rcases words_space hA hne r with hwords | ⟨w, ws, hwords⟩
    · rw [hwords] at hw
      exact ⟨(List.cons.inj hw).1, r, rfl⟩
    · rw [hwords] at hw
      have hspace : space ∈ chars "-n" :=
        (List.cons.inj hw).1 ▸ List.mem_append_right _ List.mem_cons_self
      exact absurd hspace space_not_mem_dashN

/-- With the option and a space the rest is printed. -/
theorem documented_option (s : List Byte) :
    documented (chars "-n" ++ space :: s) = spaced .outside s := by
  have hA : ∀ c, c ∈ chars "-n" → c ≠ space := by decide
  have hplace : placeAfter .outside (chars "-n") = .word := by decide
  have hunquoted : unquoted (chars "-n") = chars "-n" := by decide
  have hwords : words (chars "-n" ++ space :: s) = chars "-n" :: words s := by
    unfold words
    rw [wordsFrom_append (chars "-n") (space::s) .outside hA, hplace, hunquoted, wordsFrom,
      if_pos rfl, foldr_consHead, List.append_nil]
  unfold documented
  rw [hwords]
  dsimp only
  rw [if_pos rfl]
  rfl

/-- The option leaves out the newline, as documented. -/
theorem documented_without_option (h : ∀ ws, words s ≠ chars "-n" :: ws) :
    documented s = documented (chars "-n" ++ space :: s) ++ [newlineChar] := by
  rw [documented_option]
  unfold documented spaced
  change _ = unwords (words s) ++ [newlineChar]
  cases hw : words s with
  | nil => rfl
  | cons w ws =>
    dsimp only
    have hother : ¬ w = chars "-n" := by
      intro he
      rw [he] at hw
      exact h ws hw
    rw [if_neg hother]

/-! ### The output and the documented one -/

theorem option_split (h : A = chars "-n" ++ space :: s) :
    firstArgument A = chars "-n" ∧ A.dropWhile (· ≠ space) = space :: s := by
  rw [h]
  exact ⟨rfl, rfl⟩

/-- Nothing, or a space first: the newline. -/
theorem echoOutput_newline (h : firstArgument A = []) : echoOutput A = [newlineChar] := by
  unfold echoOutput
  rcases (args_cases A).2 with ⟨hself, hdrop⟩ | ⟨s, -, hdrop⟩
  · rw [hdrop]
    exact if_pos (hself.trans h)
  · rw [hdrop, h]
    rfl

theorem echoOutput_option (h : A = chars "-n" ++ space :: s) : echoOutput A = printed .quiet s := by
  obtain ⟨hfirst, hdrop⟩ := option_split h
  unfold echoOutput
  rw [hdrop]
  exact if_pos hfirst

/-- The first argument alone, and no newline. -/
theorem echoOutput_argument (hnil : firstArgument A ≠ [])
    (hdash : ¬ ∃ s, A = chars "-n" ++ space :: s) : echoOutput A = unquoted (firstArgument A) := by
  obtain ⟨hA, hargs⟩ := args_cases A
  unfold echoOutput
  rcases hargs with ⟨hself, hdrop⟩ | ⟨s, hself, hdrop⟩
  · rw [hdrop]
    have hne : ¬ A = [] := fun h => hnil (hself ▸ h)
    have hspaces : ∀ c, c ∈ A → c ≠ space := by
      rw [hself]
      exact hA
    change (if A = [] then _ else _) = _
    rw [if_neg hne, ← hself]
    exact printed_unquoted A .quiet hspaces
  · rw [hdrop]
    have hother : ¬ firstArgument A = chars "-n" := by
      intro h
      rw [h] at hself
      exact hdash ⟨s, hself⟩
    change (if firstArgument A = _ then _ else if firstArgument A = [] then _ else _) = _
    rw [if_neg hother, if_neg hnil]
    exact printed_unquoted _ .quiet hA

/-- The words `-n` and `-n` without the option: it stands in quotes. -/
theorem quote_mem_of_words (hnil : firstArgument A ≠ [])
    (hdash : ¬ ∃ s, A = chars "-n" ++ space :: s) (hw : words A = [chars "-n", chars "-n"]) :
    quote ∈ firstArgument A := by
  obtain ⟨hunquoted, r, hr⟩ := words_option_pair (args_cases A).1 hnil (firstArgument_split A) hw
  by_contra hno
  rw [unquoted_eq_self hno] at hunquoted
  rw [hunquoted] at hr
  exact hdash ⟨r, hr⟩

/-- The output is the documented one exactly on these arguments. -/
theorem echoOutput_iff (args : List Byte) (hnl : newlineChar ∉ args) :
    echoOutput args = documented args ↔ EchoAgrees args := by
  by_cases hnil : firstArgument args = []
  · rw [echoOutput_newline hnil, documented_newline_iff hnl]
    unfold EchoAgrees
    constructor
    · exact fun h => Or.inl ⟨hnil, h⟩
    · rintro (h | ⟨s, h, -⟩ | h)
      · exact h.2
      · exact absurd (hnil.symm.trans (option_split h).1) (by decide)
      · exact absurd (hnil ▸ h.1) List.not_mem_nil
  · by_cases hdash : ∃ s, args = chars "-n" ++ space :: s
    · obtain ⟨s, hs⟩ := hdash
      have hdoc : documented args = spaced .outside s := hs ▸ documented_option s
      have hkept : printed .quiet s = spaced .outside s ↔ SpacesKept .gap s := printed_eq_iff s .gap
      rw [echoOutput_option hs, hdoc, hkept]
      unfold EchoAgrees
      constructor
      · exact fun h => Or.inr (Or.inl ⟨s, hs, h⟩)
      · rintro (h | ⟨s', hs', h⟩ | h)
        · exact absurd h.1 hnil
        · have hsame := (option_split hs).2.symm.trans (option_split hs').2
          exact (List.cons.inj hsame).2 ▸ h
        · exact absurd ((option_split hs).1 ▸ h.1) (by decide)
    · rw [echoOutput_argument hnil hdash,
        documented_argument_iff (args_cases args).1 hnil hnl (firstArgument_split args)]
      unfold EchoAgrees
      constructor
      · exact fun h => Or.inr (Or.inr ⟨quote_mem_of_words hnil hdash h, h⟩)
      · rintro (h | ⟨s, hs, -⟩ | h)
        · exact absurd h.1 hnil
        · exact absurd ⟨s, hs⟩ hdash
        · exact h.2

end SukiOS.Shell

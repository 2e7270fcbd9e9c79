import Mathlib.Data.List.GetD
import Mathlib.Data.List.TakeWhile
import SukiOS.EchoExact

/-! `echo` on the buffer: the pointer loops on terminated strings, the cuts that the command makes
in place, and the output of a whole line. -/
namespace SukiOS.Shell
open ByteMemory

variable {mem : Mem} {c d : Byte} {A s l : List Byte} {a n p q argStart : ℕ}

/-! ### Strings -/

theorem strchr_found (h : CString mem a (A ++ c::s)) (hA : ∀ x, x ∈ A → x ≠ c)
    (hn : A.length < n) : strchr mem c n a = some (some (a + A.length)) := by
  induction A generalizing a n with
  | nil =>
    obtain ⟨n, rfl⟩ : ∃ k, n = k + 1 := ⟨n - 1, by rw [List.length_nil] at hn; omega⟩
    have hc : mem a = c := h.1
    have hne : ¬ mem a = 0#8 := hc ▸ h.2.1
    unfold strchr
    rw [if_neg hne, if_pos hc]
    rfl
  | cons d A ih =>
    rw [List.length_cons] at hn ⊢
    obtain ⟨n, rfl⟩ : ∃ k, n = k + 1 := ⟨n - 1, by omega⟩
    have hd : mem a = d := h.1
    have hne : ¬ mem a = 0#8 := hd ▸ h.2.1
    have hother : ¬ mem a = c := hd ▸ hA d List.mem_cons_self
    have hindex : a + (A.length + 1) = a + 1 + A.length := by omega
    unfold strchr
    rw [if_neg hne, if_neg hother, hindex]
    exact ih h.2.2 (fun x hx => hA x (List.mem_cons_of_mem d hx)) (by omega)

theorem strchr_missing (h : CString mem a s) (hs : ∀ x, x ∈ s → x ≠ c) (hn : s.length < n) :
    strchr mem c n a = some none := by
  induction s generalizing a n with
  | nil =>
    obtain ⟨n, rfl⟩ : ∃ k, n = k + 1 := ⟨n - 1, by rw [List.length_nil] at hn; omega⟩
    exact if_pos h
  | cons d s ih =>
    rw [List.length_cons] at hn
    obtain ⟨n, rfl⟩ : ∃ k, n = k + 1 := ⟨n - 1, by omega⟩
    have hd : mem a = d := h.1
    have hne : ¬ mem a = 0#8 := hd ▸ h.2.1
    have hother : ¬ mem a = c := hd ▸ hs d List.mem_cons_self
    unfold strchr
    rw [if_neg hne, if_neg hother]
    exact ih h.2.2 (fun x hx => hs x (List.mem_cons_of_mem d hx)) (by omega)

theorem toInt_sub_eq_zero (c d : Byte) : c.toInt - d.toInt = 0 ↔ c = d := by
  rw [Int.sub_eq_zero]
  exact BitVec.toInt_inj

/-- The comparison with a literal is 0 for that string only. -/
theorem strcmp_eq_zero_iff (l : List Byte) : ∀ {a : ℕ} {s : List Byte}, CString mem a s →
    (∀ c, c ∈ l → c ≠ 0#8) → (strcmp mem a l = 0 ↔ s = l) := by
  induction l with
  | nil =>
    intro a s h _
    have hzero : strcmp mem a [] = 0 ↔ mem a = 0#8 := by
      have h0 := toInt_sub_eq_zero (mem a) 0#8
      rw [BitVec.toInt_zero, Int.sub_zero] at h0
      exact h0
    rw [hzero]
    cases s with
    | nil => exact iff_of_true h rfl
    | cons d s => exact iff_of_false (h.1 ▸ h.2.1) (List.cons_ne_nil _ _)
  | cons c l ih =>
    intro a s h hl
    have hc : c ≠ 0#8 := hl c List.mem_cons_self
    have hdiff : ¬ mem a = c → (strcmp mem a (c::l) = 0 ↔ False) := by
      intro hne
      unfold strcmp
      rw [if_neg (fun hall => hne hall.2.2), toInt_sub_eq_zero]
      exact iff_of_false hne id
    cases s with
    | nil =>
      rw [hdiff (h.end_ne hc)]
      exact iff_of_false id (fun he => by cases he)
    | cons d s =>
      have hd : mem a = d := h.1
      by_cases hdc : d = c
      · have hall : mem a ≠ 0#8 ∧ c ≠ 0#8 ∧ mem a = c := ⟨hd ▸ h.2.1, hc, hd.trans hdc⟩
        unfold strcmp
        rw [if_pos hall, ih h.2.2 (fun x hx => hl x (List.mem_cons_of_mem c hx)), hdc]
        exact (List.cons_inj_right c).symm
      · have hne : ¬ mem a = c := fun he => hdc (hd.symm.trans he)
        rw [hdiff hne]
        exact iff_of_false id (fun he => hdc (List.cons.inj he).1)

/-! ### Loops -/

/-- Whether there is a character of a word before `p`, as the loop finds it out. -/
def modeAt (mem : Mem) (argStart p : ℕ) : Mode :=
  if argStart < p ∧ mem (p - 1) ≠ space then .plain else .quiet

theorem skipSpaces_spec (s : List Byte) : ∀ {p n : ℕ}, CString mem p s → s.length < n →
    ∃ q, skipSpaces mem n p = some q ∧ CString mem q (s.dropWhile (· = space)) ∧ p ≤ q ∧
      (p < q → mem (q - 1) = space) := by
  induction s with
  | nil =>
    intro p n h hn
    obtain ⟨n, rfl⟩ : ∃ k, n = k + 1 := ⟨n - 1, by rw [List.length_nil] at hn; omega⟩
    have hne : mem p ≠ space := h.end_ne (by decide)
    exact ⟨p, if_neg hne, h, Nat.le_refl p, fun hlt => absurd hlt (Nat.lt_irrefl p)⟩
  | cons c s ih =>
    intro p n h hn
    rw [List.length_cons] at hn
    obtain ⟨n, rfl⟩ : ∃ k, n = k + 1 := ⟨n - 1, by omega⟩
    have hp : mem p = c := h.1
    by_cases hc : c = space
    · obtain ⟨q, hrun, hstr, hle, hlast⟩ := ih (p := p + 1) (n := n) h.2.2 (by omega)
      have hprev : p < q → mem (q - 1) = space := by
        intro _
        by_cases hq : p + 1 < q
        · exact hlast hq
        · have hindex : q - 1 = p := by omega
          rw [hindex, hp, hc]
      refine ⟨q, ?_, ?_, by omega, hprev⟩
      · unfold skipSpaces
        rw [if_pos (hp.trans hc)]
        exact hrun
      · rw [List.dropWhile_cons_of_pos (by simpa using hc)]
        exact hstr
    · refine ⟨p, if_neg (fun he => hc (hp.symm.trans he)), ?_, Nat.le_refl p,
        fun hlt => absurd hlt (Nat.lt_irrefl p)⟩
      rw [List.dropWhile_cons_of_neg (by simpa using hc)]
      exact h

theorem putQuoted_spec (s : List Byte) : ∀ {p n : ℕ}, CString mem p s → s.length < n →
    ∃ q, putQuoted mem n p = some (s.takeWhile (· ≠ quote), q) ∧
      CString mem q (s.dropWhile (· ≠ quote)) ∧ p ≤ q := by
  induction s with
  | nil =>
    intro p n h hn
    obtain ⟨n, rfl⟩ : ∃ k, n = k + 1 := ⟨n - 1, by rw [List.length_nil] at hn; omega⟩
    have hend : ¬ (mem p ≠ 0#8 ∧ mem p ≠ quote) := fun hgo => hgo.1 h
    exact ⟨p, if_neg hend, h, Nat.le_refl p⟩
  | cons c s ih =>
    intro p n h hn
    rw [List.length_cons] at hn
    obtain ⟨n, rfl⟩ : ∃ k, n = k + 1 := ⟨n - 1, by omega⟩
    have hp : mem p = c := h.1
    by_cases hc : c = quote
    · have hend : ¬ (mem p ≠ 0#8 ∧ mem p ≠ quote) := fun hgo => hgo.2 (hp.trans hc)
      refine ⟨p, ?_, ?_, Nat.le_refl p⟩
      · unfold putQuoted
        rw [if_neg hend, List.takeWhile_cons_of_neg (by simpa using hc)]
      · rw [List.dropWhile_cons_of_neg (by simpa using hc)]
        exact h
    · have hgo : mem p ≠ 0#8 ∧ mem p ≠ quote := ⟨hp ▸ h.2.1, hp ▸ hc⟩
      obtain ⟨q, hrun, hstr, hle⟩ := ih (p := p + 1) (n := n) h.2.2 (by omega)
      refine ⟨q, ?_, ?_, by omega⟩
      · unfold putQuoted
        rw [if_pos hgo, hrun, List.takeWhile_cons_of_pos (by simpa using hc), hp]
        rfl
      · rw [List.dropWhile_cons_of_pos (by simpa using hc)]
        exact hstr

/-- Quoted text is printed up to the quote, and then the loop goes on quietly. -/
theorem printed_quoted_text (s : List Byte) : printed .quoted s =
    s.takeWhile (· ≠ quote) ++ printed .quiet ((s.dropWhile (· ≠ quote)).drop 1) := by
  induction s with
  | nil => rfl
  | cons c s ih =>
    by_cases hc : c = quote
    · rw [hc, printed_closing, List.takeWhile_cons_of_neg (by simp),
        List.dropWhile_cons_of_neg (by simp)]
      rfl
    · rw [printed_quoted hc, List.takeWhile_cons_of_pos (by simpa using hc),
        List.dropWhile_cons_of_pos (by simpa using hc), ih]
      rfl

theorem printed_skip (s : List Byte) :
    printed .quiet (s.dropWhile (· = space)) = printed .quiet s := by
  induction s with
  | nil => rfl
  | cons c s ih =>
    by_cases hc : c = space
    · rw [List.dropWhile_cons_of_pos (by simpa using hc), hc, printed_quiet_space]
      exact ih
    · rw [List.dropWhile_cons_of_neg (by simpa using hc)]

/-- Only in front of a space it matters what came before. -/
theorem printed_mode {m : Mode} (hm : m ≠ .quoted) (hs : ∀ r, s ≠ space :: r) :
    printed m s = printed .quiet s := by
  cases s with
  | nil => cases m <;> rfl
  | cons c s =>
    have hsp : c ≠ space := fun he => hs s (by rw [he])
    by_cases hq : c = quote
    · rw [hq, printed_opening hm, printed_opening (fun h => by cases h)]
    · rw [printed_char hm hsp hq, printed_char (fun h => by cases h) hsp hq]

theorem modeAt_ne_quoted : modeAt mem argStart p ≠ .quoted := by
  unfold modeAt
  split <;> exact fun h => by cases h

theorem modeAt_space (hp : mem (p - 1) = space) :
    modeAt mem argStart p = .quiet := if_neg (fun hgo => hgo.2 hp)

theorem modeAt_char (h : argStart < p) (hp : mem (p - 1) ≠ space) :
    modeAt mem argStart p = .plain := if_pos ⟨h, hp⟩

/-- What the two steps behind quoted text leave: the closing quote is passed, and a space behind
it. -/
theorem afterQuoted_spec (argStart : ℕ) (h : CString mem q (s.dropWhile (· ≠ quote)))
    (hq : argStart < q) :
    ∃ q' r, (if mem (if mem q = quote then q + 1 else q) = space
        then (if mem q = quote then q + 1 else q) + 1 else if mem q = quote then q + 1 else q) =
          q' ∧
      CString mem q' r ∧ r.length ≤ s.length ∧ argStart < q' ∧
      printed (modeAt mem argStart q') r =
        printed .quiet ((s.dropWhile (· ≠ quote)).drop 1) := by
  have hshort : (s.dropWhile (· ≠ quote)).length ≤ s.length := (List.dropWhile_sublist _).length_le
  rcases dropWhile_ne_cases quote s with hd | ⟨r, hd⟩
  · rw [hd] at h ⊢
    have hnq : mem q ≠ quote := h.end_ne (by decide)
    have hns : mem q ≠ space := h.end_ne (by decide)
    rw [if_neg hnq, if_neg hns]
    refine ⟨q, [], rfl, h, Nat.zero_le _, hq, ?_⟩
    exact printed_mode modeAt_ne_quoted (fun r hr => by cases hr)
  · rw [hd] at h hshort ⊢
    have hquote : mem q = quote := h.1
    rw [if_pos hquote]
    cases r with
    | nil =>
      have hns : mem (q + 1) ≠ space := h.2.2.end_ne (by decide)
      rw [if_neg hns]
      refine ⟨q + 1, [], rfl, h.2.2, Nat.zero_le _, by omega, ?_⟩
      exact printed_mode modeAt_ne_quoted (fun r hr => by cases hr)
    | cons c r =>
      rw [List.length_cons, List.length_cons] at hshort
      have hc : mem (q + 1) = c := h.2.2.1
      by_cases hsp : c = space
      · rw [if_pos (hc.trans hsp)]
        refine ⟨q + 1 + 1, r, rfl, h.2.2.2.2, by omega, by omega, ?_⟩
        rw [modeAt_space (hc.trans hsp)]
        change _ = printed .quiet (c::r)
        rw [hsp, printed_quiet_space]
      · rw [if_neg (fun he => hsp (hc.symm.trans he))]
        refine ⟨q + 1, c::r, rfl, h.2.2, Nat.le_of_succ_le hshort, by omega, ?_⟩
        have hnot : ∀ r', c::r ≠ space::r' := fun r' he => hsp (List.cons.inj he).1
        exact printed_mode modeAt_ne_quoted hnot

/-- The loop over spaces does not stop at one. -/
theorem dropWhile_not_space (h : CString mem q (s.dropWhile (· = space))) : mem q ≠ space := by
  cases hd : s.dropWhile (· = space) with
  | nil =>
    rw [hd] at h
    exact h.end_ne (by decide)
  | cons d r =>
    have hhead := List.head?_dropWhile_not (· = space) s
    rw [hd] at h hhead
    rw [show mem q = d from h.1]
    simpa using hhead

/-- The loop over the spaces behind a character leaves the text without them, and a space stands
before it. -/
theorem skipSpaces_space (h : CString mem p (space::s)) (hs : (space::s).length < n) :
    ∃ q, skipSpaces mem n p = some q ∧ CString mem q (s.dropWhile (· = space)) ∧ p < q ∧
      mem (q - 1) = space := by
  obtain ⟨q, hrun, hstr, hle, hlast⟩ := skipSpaces_spec (space::s) h hs
  have hdrop : (space::s).dropWhile (· = space) = s.dropWhile (· = space) :=
    List.dropWhile_cons_of_pos (by simp)
  have hpq : p < q := by
    rcases Nat.lt_or_eq_of_le hle with hlt | heq
    · exact hlt
    · exact absurd h.1 (heq ▸ dropWhile_not_space hstr)
  rw [hdrop] at hstr
  exact ⟨q, hrun, hstr, hpq, hlast hpq⟩

/-- By induction on the fuel: each turn passes a character at least. -/
theorem putArguments_spec (argStart n : ℕ) : ∀ {p : ℕ} {s : List Byte}, CString mem p s →
    s.length < n →
    s.length < bufSize → argStart ≤ p →
    putArguments mem argStart n p = some (printed (modeAt mem argStart p) s) := by
  induction n with
  | zero => exact fun _ hn => absurd hn (Nat.not_lt_zero _)
  | succ n ih =>
    intro p s h hn hbuf hp
    cases s with
    | nil =>
      have hnil : printed (modeAt mem argStart p) [] = [] := by
        cases modeAt mem argStart p <;> rfl
      rw [hnil]
      exact if_pos h
    | cons c s =>
      rw [List.length_cons] at hn hbuf
      have hc : mem p = c := h.1
      have hne : ¬ mem p = 0#8 := hc ▸ h.2.1
      unfold putArguments
      rw [if_neg hne]
      by_cases hq : c = quote
      · -- quoted text, and then what comes behind it
        have hquote : mem p = quote := hc.trans hq
        obtain ⟨q, hrun, hstr, hle⟩ := putQuoted_spec s (n := bufSize) h.2.2 (by omega)
        obtain ⟨q', r, hq', hstr', hlen, hlt, hmode⟩ := afterQuoted_spec argStart hstr (by omega)
        have hnext := ih (p := q') (s := r) hstr' (by omega) (by omega) (by omega)
        rw [if_pos hquote, hrun]
        change (putArguments mem argStart n (if mem (if mem q = quote then q + 1 else q) = space
          then (if mem q = quote then q + 1 else q) + 1
          else if mem q = quote then q + 1 else q) >>= fun rest => _) = _
        rw [hq', hnext, hmode, hq, printed_opening modeAt_ne_quoted, printed_quoted_text]
        rfl
      · have hnquote : ¬ mem p = quote := fun he => hq (hc.symm.trans he)
        rw [if_neg hnquote]
        by_cases hsp : c = space
        · have hspace : mem p = space := hc.trans hsp
          by_cases hgo : argStart < p ∧ mem (p - 1) ≠ space
          · -- the spaces behind a word, of which one is printed
            rw [hsp] at h
            obtain ⟨q, hrun, hstr, hpq, hlast⟩ := skipSpaces_space (n := bufSize) h
              (by rw [List.length_cons]; exact hbuf)
            have hshort : (s.dropWhile (· = space)).length ≤ s.length :=
              (List.dropWhile_sublist _).length_le
            have hnext := ih (p := q) (s := s.dropWhile (· = space)) hstr (by omega) (by omega)
              (by omega)
            rw [if_pos ⟨hspace, hgo⟩, hrun]
            change (putArguments mem argStart n q >>= fun rest => _) = _
            rw [hnext, modeAt_space hlast, printed_skip,
              modeAt_char hgo.1 hgo.2, hsp, printed_plain_space]
            rfl
          · have hquiet : modeAt mem argStart p = .quiet := if_neg hgo
            have hnext := ih (p := p + 1) (s := s) h.2.2 (by omega) (by omega) (by omega)
            rw [if_neg (fun hall => hgo hall.2), if_neg (fun hother => hother hspace), hnext,
              modeAt_space hspace, hquiet, hsp, printed_quiet_space]
        · have hnspace : mem p ≠ space := fun he => hsp (hc.symm.trans he)
          have hnext := ih (p := p + 1) (s := s) h.2.2 (by omega) (by omega) (by omega)
          rw [if_neg (fun hall => hnspace hall.1), if_pos hnspace, hnext,
            modeAt_char (by omega) hnspace, printed_char modeAt_ne_quoted hsp hq, hc]
          rfl

/-! ### The command -/

/-- The arguments from `a` on, after the option. -/
theorem echoArguments_spec (h : CString mem a s) (hs : s.length < bufSize) (newline : Bool) :
    echoArguments mem newline a = some (if Blank s then (if newline then [newlineChar] else [])
      else printed .quiet s) := by
  obtain ⟨q, hrun, hstr, hle, -⟩ := skipSpaces_spec s (n := bufSize) h hs
  have hblank : s.dropWhile (· = space) = [] ↔ Blank s := by
    rw [List.dropWhile_eq_nil_iff]
    simp only [decide_eq_true_eq]
    exact Iff.rfl
  unfold echoArguments
  rw [hrun]
  change (if mem q ≠ 0#8 then putArguments mem q bufSize q else _) = _
  by_cases hb : Blank s
  · rw [hblank.mpr hb] at hstr
    rw [if_pos hb, if_neg (fun hne => hne hstr)]
  · have hshort : (s.dropWhile (· = space)).length ≤ s.length :=
      (List.dropWhile_sublist _).length_le
    have hne : mem q ≠ 0#8 := by
      cases hd : s.dropWhile (· = space) with
      | nil => exact absurd (hblank.mp hd) hb
      | cons d r =>
        rw [hd] at hstr
        exact hstr.1 ▸ hstr.2.1
    have hquiet : modeAt mem q q = .quiet := if_neg (fun hgo => absurd hgo.1 (Nat.lt_irrefl q))
    have hput := putArguments_spec q bufSize hstr (by omega) (by omega) (Nat.le_refl q)
    rw [if_neg hb, if_pos hne, hput, hquiet, printed_skip]

theorem blank_iff (hs : ∀ c, c ∈ s → c ≠ space) : Blank s ↔ s = [] := by
  constructor
  · intro hb
    apply List.eq_nil_iff_forall_not_mem.mpr
    intro c hc
    exact hs c hc (hb c hc)
  · intro he c hc
    exact absurd (he ▸ hc) List.not_mem_nil

/-- The command prints its output, whatever stood in the buffer behind the line. -/
theorem echoCommand_spec {args : List Byte} (h : CString mem (a + 1) args)
    (hs : args.length < bufSize) : echoCommand mem (some a) = some (echoOutput args) := by
  obtain ⟨hA, hargs⟩ := args_cases args
  unfold echoOutput
  change (strchr mem space bufSize (a + 1) >>= fun nextSpace => _) = _
  rcases hargs with ⟨hself, hdrop⟩ | ⟨s, hself, hdrop⟩
  · -- no space: the argument is the line
    have hspaces : ∀ c, c ∈ args → c ≠ space := by
      rw [hself]
      exact hA
    rw [strchr_missing h hspaces hs, hdrop]
    change echoArguments mem true (a + 1) = some (if args = [] then _ else _)
    rw [echoArguments_spec h hs]
    by_cases hnil : args = []
    · rw [if_pos hnil, if_pos ((blank_iff hspaces).mpr hnil)]
      rfl
    · rw [if_neg hnil, if_neg (fun hb => hnil ((blank_iff hspaces).mp hb))]
  · have hline : CString mem (a + 1) (firstArgument args ++ space :: s) := hself ▸ h
    have hlength : args.length = (firstArgument args).length + (s.length + 1) := by
      conv_lhs => rw [hself]
      rw [List.length_append, List.length_cons]
    have hcut := hline.cut
    have hoption : strcmp (Function.update mem (a + 1 + (firstArgument args).length) 0#8) (a + 1)
        (chars "-n") = 0 ↔ firstArgument args = chars "-n" :=
      strcmp_eq_zero_iff (chars "-n") hcut (by decide)
    rw [strchr_found hline hA (by omega), hdrop]
    change (echoArguments (echoOption mem a (some (a + 1 + (firstArgument args).length))).2.2
      (echoOption mem a (some (a + 1 + (firstArgument args).length))).1
      (echoOption mem a (some (a + 1 + (firstArgument args).length))).2.1) = _
    unfold echoOption
    dsimp only
    by_cases hdash : firstArgument args = chars "-n"
    · -- the option: the space is put back, and the arguments follow it
      rw [if_pos (hoption.mpr hdash), if_pos hdash]
      have hrest : CString mem (a + 1 + (firstArgument args).length + 1) s := hline.suffix.2.2
      have hbehind := (hrest.update (q := a + 1 + (firstArgument args).length) (v := 0#8)
        (Or.inl (by omega))).update (q := a + 1 + (firstArgument args).length) (v := space)
        (Or.inl (by omega))
      dsimp only
      rw [echoArguments_spec hbehind (by omega)]
      by_cases hb : Blank s
      · rw [if_pos hb, printed_blank hb]
        rfl
      · rw [if_neg hb]
    · -- the string ends at the second space now
      rw [if_neg (fun hzero => hdash (hoption.mp hzero)), if_neg hdash]
      dsimp only
      rw [echoArguments_spec hcut (by omega)]
      by_cases hnil : firstArgument args = []
      · rw [if_pos hnil, if_pos ((blank_iff hA).mpr hnil)]
        rfl
      · rw [if_neg hnil, if_neg (fun hb => hnil ((blank_iff hA).mp hb))]

/-- A line `echo ARGS` runs `echo`, and its output is that for the arguments. -/
theorem runLine_echo {args : List Byte} (h : CString mem 0 (chars "echo" ++ space :: args))
    (hs : args.length < bufSize) : runLine mem = some (some (echoOutput args)) := by
  have hname : ∀ c, c ∈ chars "echo" → c ≠ space := by decide
  have hlength : 0 + (chars "echo").length = 4 := by decide
  have hfound : strchr mem space bufSize 0 = some (some 4) := strchr_found h hname (by decide)
  have hcut : CString (Function.update mem 4 0#8) 0 (chars "echo") := h.cut
  have hargs : CString (Function.update mem 4 0#8) 5 args :=
    (h.suffix.2.2 : CString mem 5 args).update (Or.inl (by omega))
  have hcompare (l : List Byte) (hl : ∀ c, c ∈ l → c ≠ 0#8) :
      strcmp (Function.update mem 4 0#8) 0 l = 0 ↔ chars "echo" = l := strcmp_eq_zero_iff l hcut hl
  have hothers : ¬ ∃ c ∈ commandsBeforeEcho, strcmp (Function.update mem 4 0#8) 0 c = 0 := by
    rintro ⟨c, hc, hzero⟩
    have hzeros : ∀ c, c ∈ commandsBeforeEcho → ∀ x, x ∈ c → x ≠ 0#8 := by decide
    have hnames : ∀ c, c ∈ commandsBeforeEcho → chars "echo" ≠ c := by decide
    exact hnames c hc ((hcompare c (hzeros c hc)).mp hzero)
  have hecho : strcmp (Function.update mem 4 0#8) 0 (chars "echo") = 0 :=
    (hcompare (chars "echo") (by decide)).mpr rfl
  unfold runLine
  rw [hfound]
  change (if (∃ c ∈ commandsBeforeEcho, strcmp (Function.update mem 4 0#8) 0 c = 0) ∨
    strcmp (Function.update mem 4 0#8) 0 (chars "echo") ≠ 0 then some none
    else echoCommand (Function.update mem 4 0#8) (some 4) >>= fun out => some (some out)) = _
  rw [if_neg (fun hno => hno.elim hothers (fun hne => hne hecho)), echoCommand_spec hargs hs]
  rfl

/-- For every line `echo ARGS` that fits into the buffer the command ends, and its output is the
documented one exactly for the arguments of `EchoAgrees`. -/
theorem echo_documented_iff (mem : Mem) (args : List Byte)
    (hline : CString mem 0 (chars "echo" ++ space :: args))
    (hfit : (chars "echo" ++ space :: args).length ≤ 255) (hnl : newlineChar ∉ args) :
    ∃ out, runLine mem = some (some out) ∧ (out = documented args ↔ EchoAgrees args) := by
  have hs : args.length < bufSize := by
    rw [List.length_append, List.length_cons] at hfit
    unfold bufSize
    omega
  exact ⟨echoOutput args, runLine_echo hline hs, echoOutput_iff args hnl⟩

/-- The buffer with a line in it. -/
def bufferOf (line : List Byte) : Mem := fun i => line.getD i 0#8

theorem bufferOf_cstring (line : List Byte) (h : ∀ c, c ∈ line → c ≠ 0#8) :
    CString (bufferOf line) 0 line := by
  have hfrom (s : List Byte) : ∀ A, line = A ++ s → CString (bufferOf line) A.length s := by
    induction s with
    | nil =>
      intro A hA
      unfold CString bufferOf
      rw [hA, List.append_nil]
      exact List.getD_eq_default A 0#8 (Nat.le_refl _)
    | cons c s ih =>
      intro A hA
      have hc : bufferOf line A.length = c := by
        unfold bufferOf
        rw [hA, List.getD_append_right A (c::s) 0#8 A.length (Nat.le_refl _), Nat.sub_self]
        rfl
      have hrest := ih (A ++ [c]) (by rw [hA, List.append_assoc]; rfl)
      rw [List.length_append, List.length_singleton] at hrest
      exact ⟨hc, h c (hA ▸ List.mem_append_right A List.mem_cons_self), hrest⟩
  exact hfrom line [] rfl

theorem echo_documented_iff_option :
    ∃ out, runLine (bufferOf (chars "echo -n a b")) = some (some out) ∧
      (out = documented (chars "-n a b") ↔ EchoAgrees (chars "-n a b")) :=
  echo_documented_iff _ _ (bufferOf_cstring _ (by decide)) (by decide) (by decide)

/-- The second word is lost, and so is the newline. -/
theorem echo_hello_wrong :
    runLine (bufferOf (chars "echo hello world")) = some (some (chars "hello")) ∧
    documented (chars "hello world") = chars "hello world" ++ [newlineChar] ∧
    runLine (bufferOf (chars "echo hello")) = runLine (bufferOf (chars "echo -n hello")) := by
  decide

end SukiOS.Shell

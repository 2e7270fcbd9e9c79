import SukiOS.IshellRuns
import SukiOS.TtyShows

/-! The line on the screen: the terminal does not go back to the row above on a backspace, so it
shows what is in the buffer as long as the line has fitted into one row behind the prompt. -/
namespace SukiOS.Shell
open ByteMemory

/-! ### What is shown -/

/-- The calls of `tty_putchar` for the system calls. -/
def written : List Syscall → List TtyOp
  | [] => []
  | .write c :: calls => .putchar c :: written calls
  | _ :: calls => written calls

/-- What stands in the row of the cursor up to it: the prompt and the line. -/
def rowChar (s : ShellState) : ℕ → Byte
  | 0 => 0x3E#8
  | 1 => space
  | i+2 => s.buf i

/-- The row of the cursor shows the prompt and the line in the buffer, and the cursor is behind it.
-/
def OnScreen (t : Tty) (s : ShellState) : Prop :=
  t.col = s.idx + 2 ∧
    ∀ i, i < s.idx + 2 → t.buffer (t.row * 80 + i) = vgaEntry (rowChar s i) t.color

/-- The line after a key that does not end it. -/
def editLine (line : List Byte) (c : Byte) : List Byte :=
  if c = backspaceChar then line.dropLast
  else if line.length < 255 then line ++ [c]
  else line

/-- What the key prints. -/
def editOps (line : List Byte) (c : Byte) : List TtyOp :=
  if c = backspaceChar then if line = [] then [] else [.putchar backspaceChar]
  else if line.length < 255 then [.putchar c]
  else []

def editRun : List Byte → List Byte → List TtyOp
  | _, [] => []
  | line, c::input => editOps line c ++ editRun (editLine line c) input

/-! ### The reference -/

/-- The row of the reference shows this text up to the cursor. -/
structure RowShows (s : Screen) (text : List Byte) : Prop where
  col : s.col.val = text.length
  cell : ∀ i c, text[i]? = some c → ∀ h : i < 80, s.cell s.row ⟨i, h⟩ = ⟨c, s.fg, s.bg⟩

section Reference
variable {s : Screen} {text line : List Byte} {c : Byte}

/-- A character that does not fill the row. -/
theorem RowShows.put (h : RowShows s text) (hc : c ≠ 0x0A#8 ∧ c ≠ 0x08#8)
    (hlen : text.length < 79) : RowShows (s.putchar c) (text ++ [c]) := by
  have hcol := h.col
  have hput : s.putchar c = { s.put ⟨c, s.fg, s.bg⟩ with col := ⟨s.col.val + 1, by omega⟩ } := by
    unfold Screen.putchar Screen.advance
    rw [if_neg hc.1, if_neg hc.2, dif_pos (show (s.put ⟨c, s.fg, s.bg⟩).col.val + 1 < 80 by
      show s.col.val + 1 < 80
      omega)]
    rfl
  rw [hput]
  refine ⟨?_, fun i x hi hlt => ?_⟩
  · rw [List.length_append, ← hcol]
    rfl
  · show Function.update s.cell s.row (Function.update (s.cell s.row) s.col ⟨c, s.fg, s.bg⟩) s.row
      ⟨i, hlt⟩ = ⟨x, s.fg, s.bg⟩
    rw [Function.update_self]
    by_cases heq : i = text.length
    · rw [heq, List.getElem?_concat_length] at hi
      have hfin : (⟨i, hlt⟩ : Fin 80) = s.col := Fin.ext (heq.trans hcol.symm)
      rw [hfin, Function.update_self, Option.some.inj hi]
    · have hbound := (List.getElem?_eq_some_iff.mp hi).1
      rw [List.length_append, List.length_singleton] at hbound
      rw [List.getElem?_append_left (by omega)] at hi
      have hfin : (⟨i, hlt⟩ : Fin 80) ≠ s.col := fun he => heq ((congrArg Fin.val he).trans hcol)
      rw [Function.update_of_ne hfin]
      exact h.cell i x hi hlt

/-- A backspace takes the last character away. -/
theorem RowShows.erase (h : RowShows s (text ++ [c])) (hlen : text.length < 80) :
    RowShows (s.putchar backspaceChar) text := by
  have hcol : s.col.val = text.length + 1 := by
    rw [h.col, List.length_append]
    rfl
  have herase : s.putchar backspaceChar =
      ({ s with col := ⟨s.col.val - 1, by omega⟩ } : Screen).put s.blank := by
    unfold Screen.putchar
    rw [if_neg (by decide), if_pos (show backspaceChar = 0x08#8 from rfl), if_pos (by omega)]
    rfl
  rw [herase]
  refine ⟨?_, fun i x hi hlt => ?_⟩
  · show s.col.val - 1 = text.length
    omega
  · show Function.update s.cell s.row (Function.update (s.cell s.row) ⟨s.col.val - 1, _⟩ s.blank)
      s.row
      ⟨i, hlt⟩ = ⟨x, s.fg, s.bg⟩
    have hbound := (List.getElem?_eq_some_iff.mp hi).1
    have hfin : (⟨i, hlt⟩ : Fin 80) ≠ ⟨s.col.val - 1, by omega⟩ := fun he => by
      have hval := congrArg Fin.val he
      dsimp only at hval
      omega
    rw [Function.update_self, Function.update_of_ne hfin]
    refine h.cell i x ?_ hlt
    rw [List.getElem?_append_left hbound]
    exact hi

/-- The column after a character: the next one, or the first one of a new row. -/
theorem putchar_col (hc : c ≠ 0x0A#8 ∧ c ≠ 0x08#8) :
    (s.putchar c).col.val = if s.col.val + 1 < 80 then s.col.val + 1 else 0 := by
  unfold Screen.putchar Screen.advance
  rw [if_neg hc.1, if_neg hc.2]
  by_cases hlt : s.col.val + 1 < 80
  · rw [dif_pos (show (s.put ⟨c, s.fg, s.bg⟩).col.val + 1 < 80 from hlt), if_pos hlt]
    rfl
  · rw [dif_neg (show ¬ (s.put ⟨c, s.fg, s.bg⟩).col.val + 1 < 80 from hlt), if_neg hlt]
    unfold Screen.newline
    split
    · rfl
    · rfl

theorem backspace_col : (s.putchar backspaceChar).col.val = s.col.val - 1 := by
  unfold Screen.putchar
  rw [if_neg (by decide), if_pos (show backspaceChar = 0x08#8 from rfl)]
  by_cases h0 : 0 < s.col.val
  · rw [if_pos h0]
    rfl
  · rw [if_neg h0]
    omega

theorem screenRun_append (ops ops' : List TtyOp) : ∀ s : Screen,
    screenRun (ops ++ ops') s = screenRun ops' (screenRun ops s) := by
  induction ops with
  | nil => exact fun s => rfl
  | cons op ops ih =>
    intro s
    cases op with
    | setcolor fg bg => exact ih _
    | putchar c => exact ih _

/-- The row shows the line, which leaves room for one character and the cursor. -/
def Fits (s : Screen) (line : List Byte) : Prop :=
  line.length ≤ 77 ∧ RowShows s (0x3E#8 :: space :: line)

/-- The cursor is in another row than the prompt, and not as far to the right as the line is long.
-/
def Lost (s : Screen) (line : List Byte) : Prop := s.col.val ≤ line.length

theorem Fits.step (h : Fits s line) (hc : c ≠ newlineChar) :
    Fits (screenRun (editOps line c) s) (editLine line c) ∨
      (77 < (editLine line c).length ∧ Lost (screenRun (editOps line c) s) (editLine line c)) := by
  obtain ⟨hlen, hrow⟩ := h
  unfold editOps editLine
  by_cases hback : c = backspaceChar
  · rw [if_pos hback, if_pos hback]
    left
    rcases List.eq_nil_or_concat line with rfl | ⟨front, x, rfl⟩
    · exact ⟨hlen, hrow⟩
    · rw [List.concat_eq_append] at hlen hrow ⊢
      rw [List.length_append] at hlen
      rw [if_neg (fun hnil => List.cons_ne_nil _ _ (List.append_eq_nil_iff.mp hnil).2),
        List.dropLast_concat]
      refine ⟨by omega, RowShows.erase (c := x) hrow ?_⟩
      rw [List.length_cons, List.length_cons]
      omega
  · rw [if_neg hback, if_neg hback, if_pos (by omega), if_pos (by omega)]
    by_cases hroom : line.length < 77
    · left
      refine ⟨?_, hrow.put ⟨hc, hback⟩ ?_⟩
      · rw [List.length_append]
        exact hroom
      · rw [List.length_cons, List.length_cons]
        omega
    · -- the last column of the row: the cursor goes to the next one
      right
      have hcol : s.col.val = line.length + 2 := hrow.col
      have hnext : (screenRun [.putchar c] s).col.val = 0 := by
        change (s.putchar c).col.val = 0
        rw [putchar_col ⟨hc, hback⟩, if_neg (by omega)]
      rw [List.length_append, List.length_singleton]
      refine ⟨by omega, ?_⟩
      unfold Lost
      rw [hnext]
      exact Nat.zero_le _

/-- The cursor does not come back: at the start of its row it stays while the line gets shorter. -/
theorem Lost.step (h : Lost s line) (hc : c ≠ newlineChar) :
    Lost (screenRun (editOps line c) s) (editLine line c) := by
  unfold Lost at h ⊢
  unfold editOps editLine
  by_cases hback : c = backspaceChar
  · rw [if_pos hback, if_pos hback, List.length_dropLast]
    by_cases hnil : line = []
    · rw [if_pos hnil]
      rw [hnil] at h ⊢
      exact h
    · have hpos : 0 < line.length := List.length_pos_iff.mpr hnil
      rw [if_neg hnil]
      change (s.putchar backspaceChar).col.val ≤ _
      rw [backspace_col]
      omega
  · rw [if_neg hback, if_neg hback]
    by_cases hroom : line.length < 255
    · rw [if_pos hroom, if_pos hroom, List.length_append]
      change (s.putchar c).col.val ≤ _
      rw [putchar_col ⟨hc, hback⟩]
      split
      · exact Nat.succ_le_succ h
      · exact Nat.zero_le _
    · rw [if_neg hroom, if_neg hroom]
      exact h

theorem Lost.run (input : List Byte) : ∀ {s : Screen} {line : List Byte}, Lost s line →
    (∀ c, c ∈ input → c ≠ newlineChar) →
    Lost (screenRun (editRun line input) s) (input.foldl editLine line) := by
  induction input with
  | nil => exact fun h _ => h
  | cons c input ih =>
    intro s line h hinput
    unfold editRun
    rw [screenRun_append]
    exact ih (h.step (hinput c List.mem_cons_self))
      (fun x hx => hinput x (List.mem_cons_of_mem c hx))

/-- Either the line has fitted all along and is shown, or it did not at some time and the cursor is
lost. -/
theorem Fits.run (input : List Byte) : ∀ {s : Screen} {line : List Byte}, Fits s line →
    (∀ c, c ∈ input → c ≠ newlineChar) →
    ((∀ done, done <+: input → (done.foldl editLine line).length ≤ 77) ∧
      Fits (screenRun (editRun line input) s) (input.foldl editLine line)) ∨
    ((∃ done, done <+: input ∧ 77 < (done.foldl editLine line).length) ∧
      Lost (screenRun (editRun line input) s) (input.foldl editLine line)) := by
  induction input with
  | nil =>
    intro s line h _
    refine Or.inl ⟨fun done hdone => ?_, h⟩
    rw [List.prefix_nil.mp hdone]
    exact h.1
  | cons c input ih =>
    intro s line h hinput
    have hrest : ∀ x, x ∈ input → x ≠ newlineChar :=
      fun x hx => hinput x (List.mem_cons_of_mem c hx)
    unfold editRun
    rw [screenRun_append]
    rcases h.step (hinput c List.mem_cons_self) with hnext | ⟨hlong, hnext⟩
    · rcases ih hnext hrest with ⟨hall, hfits⟩ | ⟨⟨done, hdone, hlong⟩, hlost⟩
      · refine Or.inl ⟨fun done hdone => ?_, hfits⟩
        cases done with
        | nil => exact h.1
        | cons x done =>
          obtain ⟨rfl, hprefix⟩ := List.cons_prefix_cons.mp hdone
          exact hall done hprefix
      · exact Or.inr ⟨⟨c::done, List.cons_prefix_cons.mpr ⟨rfl, hdone⟩, hlong⟩, hlost⟩
    · refine Or.inr ⟨⟨[c], List.cons_prefix_cons.mpr ⟨rfl, List.nil_prefix⟩, hlong⟩, ?_⟩
      exact hnext.run input hrest

end Reference

/-! ### The calls of the shell -/

/-- The calls of `tty_putchar` in a session. -/
def writtenActs : List Act → List TtyOp
  | [] => []
  | .write c :: acts => .putchar c :: writtenActs acts
  | _ :: acts => writtenActs acts

section Calls
variable {calls : List Syscall} {acts : List Act} {line input : List Byte}

theorem written_eq (h : MeansAll calls acts) : written calls = writtenActs acts := by
  induction h with
  | nil => rfl
  | cons hmeans _ ih =>
    cases hmeans with
    | write c => exact congrArg (_ :: ·) ih
    | execve _ => exact ih
    | execArgs _ _ => exact ih
    | exit => exact ih

/-- Without the end of a line the keys edit the line. -/
theorem keys_edit (ret : ℕ → ℤ) (execs : ℕ) (input : List Byte) : ∀ line : List Byte,
    (∀ c, c ∈ input → c ≠ newlineChar ∧ c ≠ 0x0D#8) →
    (keys ret ⟨line, execs, false⟩ input).1 = ⟨input.foldl editLine line, execs, false⟩ ∧
      writtenActs (keys ret ⟨line, execs, false⟩ input).2 = editRun line input := by
  induction input with
  | nil => exact fun line _ => ⟨rfl, rfl⟩
  | cons c input ih =>
    intro line hinput
    have hc : ¬ (c = newlineChar ∨ c = 0x0D#8) :=
      not_or.mpr (hinput c List.mem_cons_self)
    have hkey : key ret ⟨line, execs, false⟩ c = (⟨editLine line c, execs, false⟩,
        if c = backspaceChar then if line = [] then [] else [.write backspaceChar]
        else if line.length < 255 then [.write c] else []) := by
      unfold key editLine
      dsimp only
      rw [if_neg Bool.false_ne_true, if_neg hc]
      by_cases hback : c = backspaceChar
      · rw [if_pos hback, if_pos hback, if_pos hback]
        split
        · next hnil =>
          rw [hnil]
          rfl
        · rfl
      · rw [if_neg hback, if_neg hback, if_neg hback]
        split
        · rfl
        · rfl
    obtain ⟨hstate, hops⟩ := ih (editLine line c) (fun x hx => hinput x (List.mem_cons_of_mem c hx))
    unfold keys editRun
    rw [hkey]
    refine ⟨hstate, ?_⟩
    dsimp only
    rw [← hops]
    unfold editOps
    split
    · split
      · rfl
      · rfl
    · split
      · rfl
      · rfl

theorem mem_foldl_editLine {x : Byte} (input : List Byte) : ∀ {line : List Byte},
    x ∈ input.foldl editLine line → x ∈ line ∨ x ∈ input := by
  induction input with
  | nil => exact fun h => Or.inl h
  | cons c input ih =>
    intro line h
    rcases ih h with hline | hin
    · unfold editLine at hline
      split at hline
      · exact Or.inl ((List.dropLast_sublist _).subset hline)
      split at hline
      · rcases List.mem_append.mp hline with hold | hnew
        · exact Or.inl hold
        · exact Or.inr (List.mem_singleton.mp hnew ▸ List.mem_cons_self)
      · exact Or.inl hline
    · exact Or.inr (List.mem_cons_of_mem c hin)

theorem printsAscii_editRun (color : BitVec 8) (input : List Byte) : ∀ line : List Byte,
    (∀ c, c ∈ input → c.toNat < 128) → PrintsAscii color (editRun line input) := by
  induction input with
  | nil => exact fun line _ => trivial
  | cons c input ih =>
    intro line hinput
    have hrest := ih (editLine line c) (fun x hx => hinput x (List.mem_cons_of_mem c hx))
    unfold editRun editOps
    split
    · split
      · exact hrest
      · exact ⟨Or.inl (by decide), hrest⟩
    · split
      · exact ⟨Or.inl (hinput c List.mem_cons_self), hrest⟩
      · exact hrest

end Calls

/-- From a cursor at the start of a row, the row shows the prompt and what is in the buffer, with
the cursor behind it, exactly when the line has had no more than 77 characters all along. -/
theorem line_on_screen_iff (w : Surroundings) (buf : Mem) {t : Tty} {s : Screen} (ht : Tracks t s)
    (hcells : ShowsCells t s) (hcol : t.col = 0) (input : List Byte)
    (hinput : ∀ c, c ∈ input → c ≠ newlineChar ∧ c ≠ 0x0D#8 ∧ c.toNat < 128) :
    ∃ st calls, start w buf input = some (st, calls) ∧
      (OnScreen (ttyRun (written calls) t) st ↔
        ∀ done, done <+: input → (done.foldl editLine []).length ≤ 77) := by
  obtain ⟨st, calls, hrun, hholds, hmeans⟩ := start_spec w buf input
  refine ⟨st, calls, hrun, ?_⟩
  obtain ⟨hstate, hops⟩ := keys_edit w.ret 0 input []
    (fun c hc => ⟨(hinput c hc).1, (hinput c hc).2.1⟩)
  rw [hstate] at hholds
  have hwritten : written calls = .putchar 0x3E#8 :: .putchar space :: editRun [] input := by
    rw [written_eq hmeans, ← hops]
    rfl
  have hascii : PrintsAscii t.color (written calls) := by
    rw [hwritten]
    exact ⟨Or.inl (by decide), Or.inl (by decide),
      printsAscii_editRun t.color input [] (fun c hc => (hinput c hc).2.2)⟩
  have htracks := ttyRun_tracks (written calls) ht
  have hshown : ShowsCells (ttyRun (written calls) t) (screenRun (written calls) s) :=
    (showsThroughout_iff (written calls) ht hcells).mpr hascii _ (List.prefix_refl _)
  -- the prompt
  have hempty : RowShows s [] :=
    ⟨ht.col.symm.trans hcol, fun i c hi => (Option.some_ne_none c hi.symm).elim⟩
  have hprompt : Fits (screenRun [.putchar 0x3E#8, .putchar space] s) [] :=
    ⟨Nat.zero_le _, (hempty.put (c := 0x3E#8) (by decide) (by decide)).put (c := space)
      (by decide) (by decide)⟩
  have hscreen : screenRun (written calls) s =
      screenRun (editRun [] input) (screenRun [.putchar 0x3E#8, .putchar space] s) := by
    rw [hwritten]
    rfl
  rw [hscreen] at htracks hshown
  rcases hprompt.run input (fun c hc => (hinput c hc).1) with
    ⟨hall, hlen, hrow⟩ | ⟨⟨done, hdone, hlong⟩, hlost⟩
  · refine iff_of_true ⟨?_, fun i hi => ?_⟩ hall
    · rw [htracks.col, hrow.col, hholds.idx]
      rfl
    · have hchar : (0x3E#8 :: space :: input.foldl editLine [])[i]? = some (rowChar st i) ∧
          (rowChar st i).toNat < 128 := by
        cases i with
        | zero => exact ⟨rfl, (by decide : (0x3E#8 : Byte).toNat < 128)⟩
        | succ i =>
          cases i with
          | zero => exact ⟨rfl, (by decide : space.toNat < 128)⟩
          | succ i =>
            have hlt : i < (input.foldl editLine []).length := by
              rw [← hholds.idx]
              omega
            have hget := List.getElem?_eq_getElem hlt
            have hbuf : st.buf i = (input.foldl editLine [])[i] := hholds.buf i _ hget
            have hmem : (input.foldl editLine [])[i] ∈ input :=
              (mem_foldl_editLine input (List.getElem_mem hlt)).resolve_left List.not_mem_nil
            refine ⟨?_, ?_⟩
            · rw [rowChar, hbuf]
              exact hget
            · rw [rowChar, hbuf]
              exact (hinput _ hmem).2.2
      have hidx : st.idx = (input.foldl editLine []).length := hholds.idx
      have hcell := hrow.cell i _ hchar.1 (by omega)
      have hbits := hshown (screenRun (editRun [] input)
        (screenRun [.putchar 0x3E#8, .putchar space] s)).row ⟨i, by omega⟩
      rw [hcell] at hbits
      rw [htracks.row, htracks.color]
      exact hbits.trans ((vgaEntry_eq_iff _ _ _).mpr (Or.inl hchar.2)).symm
  · apply iff_of_false
    · intro hon
      have hcol := hon.1
      rw [htracks.col, hholds.idx] at hcol
      unfold Lost at hlost
      dsimp only at hcol
      omega
    · intro hall
      have hshort := hall done hdone
      omega

theorem line_on_screen_iff_first :
    ∃ st calls, start ⟨fun _ => 0, fun _ _ => 0#8, fun _ _ => none⟩ (fun _ => 0#8) (chars "ls") =
        some (st, calls) ∧
      (OnScreen (ttyRun (written calls) (ttyInit fun _ => 0#16)) st ↔
        ∀ done, done <+: chars "ls" → (done.foldl editLine []).length ≤ 77) :=
  line_on_screen_iff _ _ (ttyInit_tracks _) (ttyInit_shows _) (ttyInit_tracks _).col _ (by decide)

end SukiOS.Shell

import SukiOS.Tty

/-! The terminal against the reference: what the loops over the cells leave, that every call keeps
the agreement, and which characters break it. -/
namespace SukiOS
open CountedLoop

variable {t t' : Tty} {s : Screen} {buf : ℕ → BitVec 16} {c : BitVec 8} {v : BitVec 16}

/-! ### Cells -/

theorem vgaColor_eq (fg bg : BitVec 4) : vgaColor (fg.setWidth 8) (bg.setWidth 8) = bg ++ fg := by
  revert fg bg
  decide

theorem append_eq_or (color c : BitVec 8) :
    color ++ c = color.setWidth 16 <<< 8 ||| c.setWidth 16 := by
  have happend := @BitVec.setWidth_append_eq_shiftLeft_setWidth_or 8 8 16 color c
  rw [← happend]
  exact (BitVec.setWidth_eq _).symm

theorem vgaEntry_of_positive {color : BitVec 8} (h : c.msb = false) :
    vgaEntry c color = color ++ c := by
  unfold vgaEntry
  rw [BitVec.signExtend_eq_setWidth_of_msb_false h, append_eq_or, BitVec.or_comm]

/-- The sign of the character covers the colour. -/
theorem vgaEntry_of_negative {color : BitVec 8} (h : c.msb = true) :
    vgaEntry c color = 0xFF#8 ++ c := by
  have hsign : c.signExtend 16 = 0xFF#8 ++ c := by
    rw [BitVec.signExtend_eq_append_of_le (by omega), if_pos h]
    rfl
  have hones : 0xFF#8 ||| color = 0xFF#8 := BitVec.allOnes_or
  unfold vgaEntry
  rw [hsign, append_eq_or, BitVec.or_assoc, BitVec.or_comm (c.setWidth 16), ← BitVec.or_assoc,
    ← BitVec.shiftLeft_or_distrib, ← BitVec.setWidth_or, hones]

/-- The entry is the cell, unless the sign of the character spoils the colours. -/
theorem vgaEntry_eq_iff (c : BitVec 8) (fg bg : BitVec 4) :
    vgaEntry c (bg ++ fg) = (Cell.mk c fg bg).bits ↔ c.toNat < 128 ∨ bg ++ fg = 0xFF#8 := by
  have hbits : (Cell.mk c fg bg).bits = bg ++ fg ++ c := Eq.refl _
  rw [hbits]
  cases hmsb : c.msb with
  | false =>
    have hsmall := BitVec.msb_eq_false_iff_two_mul_lt.mp hmsb
    constructor
    · exact fun _ => Or.inl (by omega)
    · exact fun _ => vgaEntry_of_positive hmsb
  | true =>
    have hlarge := BitVec.msb_eq_true_iff_two_mul_ge.mp hmsb
    rw [vgaEntry_of_negative hmsb, BitVec.append_left_inj]
    constructor
    · exact fun h => Or.inr h.symm
    · intro h
      cases h with
      | inl h => exact absurd h (by omega)
      | inr h => exact h.symm

theorem vgaEntry_space (fg bg : BitVec 4) :
    vgaEntry 0x20#8 (bg ++ fg) = (Cell.mk 0x20#8 fg bg).bits :=
  (vgaEntry_eq_iff _ fg bg).mpr (Or.inl (by decide))

/-! ### Loops over the cells -/

/-- `t'` is `t` with the buffer `buf`, and only cells of the screen were written to on the way. -/
structure Painted (t : Tty) (buf : ℕ → BitVec 16) (t' : Tty) : Prop where
  same : t' = { t with buffer := buf, stores := t'.stores }
  stores : ∀ i, i ∈ t'.stores → i ∈ t.stores ∨ i < 2000

theorem Painted.start (t : Tty) : Painted t t.buffer t := ⟨Eq.refl _, fun _ h => Or.inl h⟩

theorem Painted.buffer_eq (h : Painted t buf t') : t'.buffer = buf := by rw [h.same]

theorem Painted.poke (h : Painted t buf t') {i : ℕ} (hi : i < 2000) :
    Painted t (Function.update buf i v) (t'.poke i v) := by
  constructor
  · unfold Tty.poke
    rw [h.buffer_eq]
    rw [h.same]
  · intro j hj
    rcases List.mem_cons.mp hj with rfl | hj
    · exact Or.inr hi
    · exact h.stores j hj

/-- The first `n` cells have moved up by a line. -/
def movedUp (b : ℕ → BitVec 16) (n : ℕ) : ℕ → BitVec 16 :=
  fun i => if i < n then b (i + 80) else b i

/-- The lines have moved up, and the first `n` cells of the last one are blank. -/
def clearedLast (b : ℕ → BitVec 16) (v : BitVec 16) (n : ℕ) : ℕ → BitVec 16 :=
  fun i => if i < 1920 then b (i + 80) else if i < 1920 + n then v else b i

/-- The first `n` cells are blank. -/
def clearedFirst (b : ℕ → BitVec 16) (v : BitVec 16) (n : ℕ) : ℕ → BitVec 16 :=
  fun i => if i < n then v else b i

theorem movedUp_succ (b : ℕ → BitVec 16) (n : ℕ) :
    Function.update (movedUp b n) n (movedUp b n (n + 80)) = movedUp b (n + 1) := by
  funext i
  unfold movedUp
  by_cases hi : i = n
  · rw [hi, Function.update_self, if_neg (by omega), if_pos (by omega)]
  · rw [Function.update_of_ne hi]
    by_cases hlt : i < n
    · rw [if_pos hlt, if_pos (by omega)]
    · rw [if_neg hlt, if_neg (by omega)]

theorem clearedLast_succ (b : ℕ → BitVec 16) (n : ℕ) :
    Function.update (clearedLast b v n) (1920 + n) v = clearedLast b v (n + 1) := by
  funext i
  unfold clearedLast
  by_cases hi : i = 1920 + n
  · rw [hi, Function.update_self, if_neg (by omega), if_pos (by omega)]
  · rw [Function.update_of_ne hi]
    by_cases hup : i < 1920
    · rw [if_pos hup, if_pos hup]
    · rw [if_neg hup, if_neg hup]
      by_cases hlt : i < 1920 + n
      · rw [if_pos hlt, if_pos (by omega)]
      · rw [if_neg hlt, if_neg (by omega)]

theorem clearedFirst_succ (b : ℕ → BitVec 16) (n : ℕ) :
    Function.update (clearedFirst b v n) n v = clearedFirst b v (n + 1) := by
  funext i
  unfold clearedFirst
  by_cases hi : i = n
  · rw [hi, Function.update_self, if_pos (by omega)]
  · rw [Function.update_of_ne hi]
    by_cases hlt : i < n
    · rw [if_pos hlt, if_pos (by omega)]
    · rw [if_neg hlt, if_neg (by omega)]

theorem ttyScroll_painted (t : Tty) :
    Painted t (clearedLast t.buffer (vgaEntry 0x20#8 t.color) 80) (ttyScroll t) := by
  -- first the lines move up, cell by cell
  have hmove : ∀ y x t', y < vgaHeight - 1 → x < vgaWidth →
      Painted t (movedUp t.buffer (y * vgaWidth + x)) t' →
      Painted t (movedUp t.buffer (y * vgaWidth + x + 1))
        (t'.poke (y * vgaWidth + x) (t'.buffer ((y + 1) * vgaWidth + x))) := by
    unfold vgaHeight vgaWidth
    intro y x t' hy hx h
    have hfrom : (y + 1) * 80 + x = y*80 + x + 80 := by omega
    have hpoke := h.poke (i := y*80 + x) (v := t'.buffer ((y + 1) * 80 + x)) (by omega)
    rw [hfrom, h.buffer_eq, movedUp_succ] at hpoke
    rw [hfrom, h.buffer_eq]
    exact hpoke
  have hmoved := forUpTo_nested (P := fun n t' => Painted t (movedUp t.buffer n) t') (a := t)
    vgaWidth (vgaHeight - 1) (Painted.start t) hmove
  have hstart : movedUp t.buffer ((vgaHeight - 1) * vgaWidth) =
      clearedLast t.buffer (vgaEntry 0x20#8 t.color) 0 := by
    funext i
    change (if i < 1920 then _ else _) = if i < 1920 then _ else if i < 1920 then _ else _
    by_cases hi : i < 1920
    · rw [if_pos hi, if_pos hi]
    · rw [if_neg hi, if_neg hi, if_neg hi]
  rw [hstart] at hmoved
  -- then the last line is filled
  have hclear : ∀ x t', x < vgaWidth →
      Painted t (clearedLast t.buffer (vgaEntry 0x20#8 t.color) x) t' →
      Painted t (clearedLast t.buffer (vgaEntry 0x20#8 t.color) (x + 1))
        (t'.poke ((vgaHeight - 1) * vgaWidth + x) (vgaEntry 0x20#8 t'.color)) := by
    unfold vgaHeight vgaWidth
    intro x t' hx h
    have hcolor : t'.color = t.color := by rw [h.same]
    have hpoke := h.poke (i := 1920 + x) (v := vgaEntry 0x20#8 t.color) (by omega)
    rw [clearedLast_succ] at hpoke
    rw [hcolor]
    exact hpoke
  have hcleared := forUpTo_invariant (P := fun n t' =>
    Painted t (clearedLast t.buffer (vgaEntry 0x20#8 t.color) n) t') vgaWidth hmoved hclear
  exact hcleared

theorem ttyClear_painted (t : Tty) :
    Painted t (clearedFirst t.buffer (vgaEntry 0x20#8 t.color) 2000) (ttyClear t) := by
  have hstart : t.buffer = clearedFirst t.buffer (vgaEntry 0x20#8 t.color) 0 := by
    funext i
    exact (if_neg (Nat.not_lt_zero i)).symm
  have hfirst : Painted t (clearedFirst t.buffer (vgaEntry 0x20#8 t.color) 0) t := by
    rw [← hstart]
    exact Painted.start t
  have hclear : ∀ y x t', y < vgaHeight → x < vgaWidth →
      Painted t (clearedFirst t.buffer (vgaEntry 0x20#8 t.color) (y * vgaWidth + x)) t' →
      Painted t (clearedFirst t.buffer (vgaEntry 0x20#8 t.color) (y * vgaWidth + x + 1))
        (t'.poke (y * vgaWidth + x) (vgaEntry 0x20#8 t'.color)) := by
    unfold vgaHeight vgaWidth
    intro y x t' hy hx h
    have hcolor : t'.color = t.color := by rw [h.same]
    have hpoke := h.poke (i := y*80 + x) (v := vgaEntry 0x20#8 t.color) (by omega)
    rw [clearedFirst_succ] at hpoke
    rw [hcolor]
    exact hpoke
  have hcells := forUpTo_nested (P := fun n t' =>
    Painted t (clearedFirst t.buffer (vgaEntry 0x20#8 t.color) n) t') (a := t) vgaWidth vgaHeight
    hfirst hclear
  have hall : vgaHeight * vgaWidth = 2000 := by decide
  rw [hall] at hcells
  exact hcells

/-! ### One call -/

theorem SameCursor.updated (h : SameCursor t s) : Tracks (ttyUpdateCursor t) s :=
  ⟨⟨h.row, h.col, h.color, h.stores⟩, Eq.refl _⟩

/-- The position of the cursor is a cell of the screen. -/
theorem SameCursor.cell_lt (h : SameCursor t s) : t.row * 80 + t.col < 2000 := by
  have hrow := s.row.isLt
  have hcol := s.col.isLt
  have := h.row
  have := h.col
  omega

theorem SameCursor.poke (h : SameCursor t s) (cell : Cell) (v : BitVec 16) :
    SameCursor (t.poke (t.row * 80 + t.col) v) (s.put cell) := by
  refine ⟨h.row, h.col, h.color, ?_⟩
  intro i hi
  rcases List.mem_cons.mp hi with rfl | hi
  · exact h.cell_lt
  · exact h.stores i hi

theorem SameCursor.lineFeed (h : SameCursor t s) : SameCursor (lineFeed t) s.newline := by
  have hrow := s.row.isLt
  unfold SukiOS.lineFeed Screen.newline
  dsimp only
  by_cases hlast : s.row.val + 1 < 25
  · have hne : ¬ t.row + 1 = vgaHeight := by
      rw [h.row]
      unfold vgaHeight
      omega
    rw [dif_pos hlast, if_neg hne]
    exact ⟨congrArg (· + 1) h.row, Eq.refl _, h.color, h.stores⟩
  · have hend : t.row + 1 = vgaHeight := by
      rw [h.row]
      unfold vgaHeight
      omega
    rw [dif_neg hlast, if_pos hend]
    have hscroll := ttyScroll_painted { t with col := 0, row := vgaHeight - 1 }
    have hrow24 : s.row.val = 24 := by omega
    constructor
    · rw [hscroll.same]
      exact hrow24.symm
    · rw [hscroll.same]
      rfl
    · rw [hscroll.same]
      exact h.color
    · intro i hi
      rcases hscroll.stores i hi with hi | hi
      · exact h.stores i hi
      · exact hi

/-- Both go to the next cell of the line, or both to the next line. -/
theorem SameCursor.advance_cases (h : SameCursor t s) :
    (∃ k : Fin 80, k.val = s.col.val + 1 ∧ ttyAdvance t = { t with col := t.col + 1 } ∧
      s.advance = { s with col := k }) ∨
    (ttyAdvance t = SukiOS.lineFeed t ∧ s.advance = s.newline) := by
  have hcol := s.col.isLt
  unfold ttyAdvance Screen.advance
  dsimp only
  rw [h.col]
  by_cases hline : s.col.val + 1 < 80
  · left
    rw [dif_pos hline, if_neg (show ¬ s.col.val + 1 = vgaWidth by unfold vgaWidth; omega)]
    exact ⟨⟨s.col.val + 1, hline⟩, Eq.refl _, Eq.refl _, Eq.refl _⟩
  · right
    rw [dif_neg hline, if_pos (show s.col.val + 1 = vgaWidth by unfold vgaWidth; omega)]
    exact ⟨Eq.refl _, Eq.refl _⟩

theorem SameCursor.advance (h : SameCursor t s) : SameCursor (ttyAdvance t) s.advance := by
  rcases h.advance_cases with ⟨k, hk, ht, hs⟩ | ⟨ht, hs⟩
  · rw [ht, hs]
    exact ⟨h.row, (congrArg (· + 1) h.col).trans hk.symm, h.color, h.stores⟩
  · rw [ht, hs]
    exact h.lineFeed

theorem SameCursor.erase (h : SameCursor t s) : SameCursor (ttyErase t) s.erase := by
  have hback : SameCursor { t with col := t.col - 1 }
      { s with col := ⟨s.col.val - 1, by omega⟩ } :=
    ⟨h.row, congrArg (· - 1) h.col, h.color, h.stores⟩
  exact hback.poke _ _

theorem ttyPutchar_tracks (h : Tracks t s) (c : BitVec 8) :
    Tracks (ttyPutchar t c) (s.putchar c) := by
  have hsame : SameCursor { t with uart := t.uart ++ [c] } s := ⟨h.row, h.col, h.color, h.stores⟩
  unfold ttyPutchar Screen.putchar
  dsimp only
  by_cases hnl : c = 0x0A#8
  · rw [if_pos hnl, if_pos hnl]
    exact hsame.lineFeed.updated
  · rw [if_neg hnl, if_neg hnl]
    by_cases hbs : c = 0x08#8
    · rw [if_pos hbs, if_pos hbs]
      by_cases hcol : 0 < t.col
      · rw [if_pos hcol, if_pos (h.col ▸ hcol)]
        exact hsame.erase.updated
      · rw [if_neg hcol, if_neg (h.col ▸ hcol)]
        exact ⟨hsame, h.cursor⟩
    · rw [if_neg hbs, if_neg hbs]
      exact (hsame.poke _ _).advance.updated

/-! ### The cells -/

theorem cell_index_inj {y y' : Fin 25} {x x' : Fin 80}
    (h : y.val * 80 + x.val = y'.val * 80 + x'.val) : y = y' ∧ x = x' := by
  have hx := x.isLt
  have hx' := x'.isLt
  exact ⟨Fin.ext (by omega), Fin.ext (by omega)⟩

/-- A cell that is written in both stays the same in both. -/
theorem ShowsCells.poke (h : ShowsCells t s) (hs : SameCursor t s) (cell : Cell) :
    ShowsCells (t.poke (t.row * 80 + t.col) cell.bits) (s.put cell) := by
  intro y x
  change Function.update t.buffer (t.row * 80 + t.col) cell.bits (y.val * 80 + x.val) =
    (Function.update s.cell s.row (Function.update (s.cell s.row) s.col cell) y x).bits
  rw [hs.row, hs.col]
  by_cases hy : y = s.row
  · rw [hy, Function.update_self]
    by_cases hx : x = s.col
    · rw [hx, Function.update_self, Function.update_self]
    · have hne : s.row.val * 80 + x.val ≠ s.row.val * 80 + s.col.val :=
        fun he => hx (cell_index_inj he).2
      rw [Function.update_of_ne hne, Function.update_of_ne hx]
      exact h s.row x
  · have hne : y.val * 80 + x.val ≠ s.row.val * 80 + s.col.val :=
      fun he => hy (cell_index_inj he).1
    rw [Function.update_of_ne hne, Function.update_of_ne hy]
    exact h y x

/-- What a line feed leaves in the buffer: the same, or at the last line the lines moved up. -/
theorem lineFeed_buffer (hs : SameCursor t s) : (lineFeed t).buffer =
    if s.row.val + 1 < 25 then t.buffer
    else clearedLast t.buffer (vgaEntry 0x20#8 t.color) 80 := by
  have hrow := s.row.isLt
  unfold lineFeed
  dsimp only
  rw [hs.row]
  by_cases hlast : s.row.val + 1 < 25
  · rw [if_pos hlast, if_neg (show ¬ s.row.val + 1 = vgaHeight by unfold vgaHeight; omega)]
  · rw [if_neg hlast, if_pos (show s.row.val + 1 = vgaHeight by unfold vgaHeight; omega)]
    exact (ttyScroll_painted { t with col := 0, row := vgaHeight - 1 }).buffer_eq

theorem newline_cell (s : Screen) : s.newline.cell =
    if s.row.val + 1 < 25 then s.cell else s.scroll.cell := by
  unfold Screen.newline
  by_cases hlast : s.row.val + 1 < 25
  · rw [dif_pos hlast, if_pos hlast]
  · rw [dif_neg hlast, if_neg hlast]

/-- A scroll moves the cells of both up. -/
theorem ShowsCells.lineFeed (h : ShowsCells t s) (hs : SameCursor t s) :
    ShowsCells (lineFeed t) s.newline := by
  intro y x
  have hx := x.isLt
  rw [lineFeed_buffer hs, newline_cell]
  by_cases hlast : s.row.val + 1 < 25
  · rw [if_pos hlast, if_pos hlast]
    exact h y x
  · rw [if_neg hlast, if_neg hlast]
    unfold clearedLast Screen.scroll
    dsimp only
    by_cases hy : y.val + 1 < 25
    · have hup := h ⟨y.val + 1, hy⟩ x
      have hindex : y.val * 80 + x.val + 80 = (y.val + 1) * 80 + x.val := by omega
      rw [dif_pos hy, if_pos (by omega), hindex]
      exact hup
    · have hbottom := y.isLt
      rw [dif_neg hy, if_neg (by omega), if_pos (by omega), hs.color]
      exact vgaEntry_space s.fg s.bg

/-- A line feed leaves the line of the cursor visible, so it agrees before if it agrees after. -/
theorem ShowsCells.of_lineFeed (h : ShowsCells (SukiOS.lineFeed t) s.newline) (hs : SameCursor t s)
    (x : Fin 80) : t.buffer (s.row.val * 80 + x.val) = (s.cell s.row x).bits := by
  have hx := x.isLt
  have hrow := s.row.isLt
  unfold ShowsCells at h
  rw [lineFeed_buffer hs, newline_cell] at h
  by_cases hlast : s.row.val + 1 < 25
  · have hline := h s.row x
    rw [if_pos hlast, if_pos hlast] at hline
    exact hline
  · -- the last line is the one above it now
    have hline := h ⟨23, by omega⟩ x
    have hbottom : (⟨24, by omega⟩ : Fin 25) = s.row := Fin.ext (by change 24 = s.row.val; omega)
    rw [if_neg hlast, if_neg hlast] at hline
    unfold clearedLast Screen.scroll at hline
    dsimp only at hline
    rw [if_pos (by omega), dif_pos (by omega), hbottom] at hline
    have hindex : 23 * 80 + x.val + 80 = s.row.val * 80 + x.val := by omega
    rw [hindex] at hline
    exact hline

theorem ShowsCells.advance (h : ShowsCells t s) (hs : SameCursor t s) :
    ShowsCells (ttyAdvance t) s.advance := by
  rcases hs.advance_cases with ⟨k, -, ht, he⟩ | ⟨ht, he⟩
  · rw [ht, he]
    exact h
  · rw [ht, he]
    exact h.lineFeed hs

/-- The cell of the cursor agrees before the cursor goes on if the cells agree after. -/
theorem ShowsCells.of_advance (h : ShowsCells (ttyAdvance t) s.advance) (hs : SameCursor t s) :
    t.buffer (s.row.val * 80 + s.col.val) = (s.cell s.row s.col).bits := by
  rcases hs.advance_cases with ⟨k, -, ht, he⟩ | ⟨ht, he⟩
  · rw [ht, he] at h
    exact h s.row s.col
  · rw [ht, he] at h
    exact h.of_lineFeed hs s.col

theorem ShowsCells.erase (h : ShowsCells t s) (hs : SameCursor t s) :
    ShowsCells (ttyErase t) s.erase := by
  have hback : SameCursor { t with col := t.col - 1 }
      { s with col := ⟨s.col.val - 1, by omega⟩ } :=
    ⟨hs.row, congrArg (· - 1) hs.col, hs.color, hs.stores⟩
  have hblank : vgaEntry 0x20#8 t.color = s.blank.bits := by
    rw [hs.color]
    exact vgaEntry_space s.fg s.bg
  have hput := ShowsCells.poke (t := { t with col := t.col - 1 })
    (s := { s with col := ⟨s.col.val - 1, by omega⟩ }) h hback s.blank
  unfold ttyErase
  dsimp only
  rw [hblank]
  exact hput

/-- A character is shown as it was printed when it is below 128 or the colour is 0xFF, and only
then. -/
theorem ttyPutchar_shows_iff (h : ShowsCells t s) (hs : SameCursor t s) (c : BitVec 8) :
    ShowsCells (ttyPutchar t c) (s.putchar c) ↔ c.toNat < 128 ∨ t.color = 0xFF#8 := by
  have hsame : SameCursor { t with uart := t.uart ++ [c] } s :=
    ⟨hs.row, hs.col, hs.color, hs.stores⟩
  have hcells : ShowsCells { t with uart := t.uart ++ [c] } s := h
  unfold ttyPutchar Screen.putchar
  dsimp only
  by_cases hnl : c = 0x0A#8
  · have hsmall : c.toNat < 128 := by
      rw [hnl]
      decide
    rw [if_pos hnl, if_pos hnl]
    exact ⟨fun _ => Or.inl hsmall, fun _ => hcells.lineFeed hsame⟩
  · rw [if_neg hnl, if_neg hnl]
    by_cases hbs : c = 0x08#8
    · rw [if_pos hbs, if_pos hbs]
      have hshown : ShowsCells
          (if 0 < t.col then ttyUpdateCursor (ttyErase { t with uart := t.uart ++ [c] })
            else { t with uart := t.uart ++ [c] }) (if 0 < s.col.val then s.erase else s) := by
        by_cases hcol : 0 < t.col
        · rw [if_pos hcol, if_pos (hs.col ▸ hcol)]
          exact hcells.erase hsame
        · rw [if_neg hcol, if_neg (hs.col ▸ hcol)]
          exact hcells
      have hsmall : c.toNat < 128 := by
        rw [hbs]
        decide
      exact ⟨fun _ => Or.inl hsmall, fun _ => hshown⟩
    · rw [if_neg hbs, if_neg hbs]
      have hput := hsame.poke { ch := c, fg := s.fg, bg := s.bg } (vgaEntry c t.color)
      rw [hs.color, ← vgaEntry_eq_iff, ← hs.color]
      constructor
      · intro hshown
        have hcell := ShowsCells.of_advance hshown hput
        change Function.update t.buffer (t.row * 80 + t.col) (vgaEntry c t.color)
          (s.row.val * 80 + s.col.val) = (Function.update s.cell s.row
            (Function.update (s.cell s.row) s.col { ch := c, fg := s.fg, bg := s.bg })
            s.row s.col).bits at hcell
        rw [hs.row, hs.col, Function.update_self, Function.update_self,
          Function.update_self] at hcell
        exact hcell
      · intro hentry
        have hpoke := hcells.poke hsame { ch := c, fg := s.fg, bg := s.bg }
        rw [← hentry] at hpoke
        exact hpoke.advance hput

/-! ### Runs -/

theorem Screen.newline_colors (s : Screen) : s.newline.bg = s.bg ∧ s.newline.fg = s.fg := by
  unfold Screen.newline
  split <;> exact ⟨rfl, rfl⟩

theorem Screen.advance_colors (s : Screen) : s.advance.bg = s.bg ∧ s.advance.fg = s.fg := by
  unfold Screen.advance
  split
  · exact ⟨rfl, rfl⟩
  · exact s.newline_colors

theorem Screen.putchar_colors (s : Screen) (c : BitVec 8) :
    (s.putchar c).bg = s.bg ∧ (s.putchar c).fg = s.fg := by
  unfold Screen.putchar
  split
  · exact s.newline_colors
  · split
    · split <;> exact ⟨rfl, rfl⟩
    · exact (s.put _).advance_colors

theorem ttyPutchar_color (h : Tracks t s) (c : BitVec 8) : (ttyPutchar t c).color = t.color := by
  have hcolors := s.putchar_colors c
  calc (ttyPutchar t c).color = (s.putchar c).bg ++ (s.putchar c).fg :=
    (ttyPutchar_tracks h c).color
    _ = s.bg ++ s.fg := by rw [hcolors.1, hcolors.2]
    _ = t.color := h.color.symm

theorem ttySetcolor_tracks (h : Tracks t s) (fg bg : BitVec 4) :
    Tracks (ttySetcolor t (fg.setWidth 8) (bg.setWidth 8)) { s with fg := fg, bg := bg } :=
  ⟨⟨h.row, h.col, vgaColor_eq fg bg, h.stores⟩, h.cursor⟩

theorem ttyRun_tracks (ops : List TtyOp) : ∀ {t : Tty} {s : Screen}, Tracks t s →
    Tracks (ttyRun ops t) (screenRun ops s) := by
  induction ops with
  | nil => exact fun h => h
  | cons op ops ih =>
    intro t s h
    cases op with
    | setcolor fg bg => exact ih (ttySetcolor_tracks h fg bg)
    | putchar c => exact ih (ttyPutchar_tracks h c)

/-- The cells agree after every call of the run. -/
def ShowsThroughout (ops : List TtyOp) (t : Tty) (s : Screen) : Prop :=
  ∀ done, done <+: ops → ShowsCells (ttyRun done t) (screenRun done s)

theorem showsThroughout_cons (op : TtyOp) (ops : List TtyOp) (t : Tty) (s : Screen) :
    ShowsThroughout (op::ops) t s ↔
      ShowsCells t s ∧ ShowsThroughout ops (ttyRun [op] t) (screenRun [op] s) := by
  have hrun (done : List TtyOp) : ttyRun (op::done) t = ttyRun done (ttyRun [op] t) := by
    cases op <;> rfl
  have hscreen (done : List TtyOp) :
      screenRun (op::done) s = screenRun done (screenRun [op] s) := by
    cases op <;> rfl
  unfold ShowsThroughout
  constructor
  · intro h
    apply And.intro (h [] List.nil_prefix)
    intro done hdone
    rw [← hrun, ← hscreen]
    exact h (op::done) (List.cons_prefix_cons.mpr ⟨rfl, hdone⟩)
  · intro h done hdone
    cases done with
    | nil => exact h.1
    | cons op' done =>
      obtain ⟨rfl, hrest⟩ := List.cons_prefix_cons.mp hdone
      rw [hrun, hscreen]
      exact h.2 done hrest

theorem showsThroughout_iff (ops : List TtyOp) : ∀ {t : Tty} {s : Screen}, Tracks t s →
    ShowsCells t s → (ShowsThroughout ops t s ↔ PrintsAscii t.color ops) := by
  induction ops with
  | nil =>
    intro t s _ hcells
    apply iff_of_true _ trivial
    intro done hdone
    rw [List.prefix_nil.mp hdone]
    exact hcells
  | cons op ops ih =>
    intro t s h hcells
    rw [showsThroughout_cons]
    cases op with
    | setcolor fg bg =>
      have hcolor : (ttySetcolor t (fg.setWidth 8) (bg.setWidth 8)).color = bg ++ fg :=
        vgaColor_eq fg bg
      have hnext := ih (ttySetcolor_tracks h fg bg) hcells
      rw [hcolor] at hnext
      exact ⟨fun hshows => hnext.mp hshows.2, fun hprints => ⟨hcells, hnext.mpr hprints⟩⟩
    | putchar c =>
      have hone := ttyPutchar_shows_iff hcells h.toSameCursor c
      have hcolor := ttyPutchar_color h c
      constructor
      · intro hshows
        have hshown : ShowsCells (ttyPutchar t c) (s.putchar c) := hshows.2 [] List.nil_prefix
        have hnext := ih (ttyPutchar_tracks h c) hshown
        rw [hcolor] at hnext
        exact ⟨hone.mp hshown, hnext.mp hshows.2⟩
      · intro hprints
        have hshown := hone.mpr hprints.1
        have hnext := ih (ttyPutchar_tracks h c) hshown
        rw [hcolor] at hnext
        exact ⟨hcells, hnext.mpr hprints.2⟩

theorem ttyInit_tracks (buffer : ℕ → BitVec 16) : Tracks (ttyInit buffer) screenStart := by
  have hclear := ttyClear_painted (ttyReset buffer)
  have hsame : SameCursor (ttyClear (ttyReset buffer)) screenStart := by
    constructor
    · rw [hclear.same]
      rfl
    · rw [hclear.same]
      rfl
    · rw [hclear.same]
      exact vgaColor_eq 7#4 0#4
    · intro i hi
      exact (hclear.stores i hi).resolve_left List.not_mem_nil
  exact hsame.updated

theorem ttyInit_shows (buffer : ℕ → BitVec 16) : ShowsCells (ttyInit buffer) screenStart := by
  intro y x
  have hx := x.isLt
  have hy := y.isLt
  have hbuffer : (ttyInit buffer).buffer = clearedFirst buffer (vgaEntry 0x20#8 0x07#8) 2000 :=
    (ttyClear_painted (ttyReset buffer)).buffer_eq
  have hcell : y.val * 80 + x.val < 2000 := by omega
  rw [hbuffer]
  unfold clearedFirst
  rw [if_pos hcell]
  exact vgaEntry_space 7#4 0#4

/-- After any calls the cursor is on the screen, where that of the reference is, and only cells of
the screen were written to; and the cells have agreed with the reference all along exactly when each
character was below 128 or printed white on white. -/
theorem tty_shows_printed_iff (buffer : ℕ → BitVec 16) (ops : List TtyOp) :
    (ttyRun ops (ttyInit buffer)).row < 25 ∧ (ttyRun ops (ttyInit buffer)).col < 80 ∧
    (∀ i, i ∈ (ttyRun ops (ttyInit buffer)).stores → i < 2000) ∧
    Tracks (ttyRun ops (ttyInit buffer)) (screenRun ops screenStart) ∧
    (ShowsThroughout ops (ttyInit buffer) screenStart ↔ PrintsAscii 0x07#8 ops) := by
  have htracks := ttyRun_tracks ops (ttyInit_tracks buffer)
  have hrow : (ttyRun ops (ttyInit buffer)).row < 25 := htracks.row ▸ Fin.isLt _
  have hcol : (ttyRun ops (ttyInit buffer)).col < 80 := htracks.col ▸ Fin.isLt _
  have hcolor : (ttyInit buffer).color = 0x07#8 := (ttyInit_tracks buffer).color
  have hshows := showsThroughout_iff ops (ttyInit_tracks buffer) (ttyInit_shows buffer)
  rw [hcolor] at hshows
  exact ⟨hrow, hcol, htracks.stores, htracks, hshows⟩

/-- The first character after `tty_init` is 0xC4, in light grey on black. -/
theorem tty_high_byte_wrong :
    (ttyRun [.putchar 0xC4#8] (ttyInit fun _ => 0#16)).buffer 0 = 0xFFC4#16 ∧
    ((screenRun [.putchar 0xC4#8] screenStart).cell 0 0).bits = 0x07C4#16 := by
  decide +kernel

end SukiOS

import SukiOS.Lib.Memory

/-! Terminated strings in memory, and what writes do to them. -/
namespace ByteMemory

/-- The string `s` stands at `a` and is terminated. -/
def CString (mem : Mem) : ℕ → List Byte → Prop
  | a, [] => mem a = 0#8
  | a, c::s => mem a = c ∧ c ≠ 0#8 ∧ CString mem (a + 1) s

variable {mem : Mem} {c : Byte} {A s : List Byte} {a q : ℕ}

/-- No character stands at the end of the string. -/
theorem CString.end_ne (h : CString mem a []) (hc : c ≠ 0#8) : mem a ≠ c :=
  fun he => hc (he.symm.trans h)

theorem CString.suffix (h : CString mem a (A ++ s)) : CString mem (a + A.length) s := by
  induction A generalizing a with
  | nil => exact h
  | cons c A ih =>
    have hindex : a + (c::A).length = a + 1 + A.length := by
      rw [List.length_cons]
      omega
    rw [hindex]
    exact ih h.2.2

/-- A write behind or in front of the string leaves it as it is. -/
theorem CString.update {v : Byte} (h : CString mem a s) (hq : q < a ∨ a + s.length < q) :
    CString (Function.update mem q v) a s := by
  induction s generalizing a with
  | nil =>
    have hne : a ≠ q := by
      rw [List.length_nil] at hq
      omega
    unfold CString at h ⊢
    rw [Function.update_of_ne hne]
    exact h
  | cons c s ih =>
    rw [List.length_cons] at hq
    have hne : a ≠ q := by omega
    refine ⟨?_, h.2.1, ih h.2.2 (by omega)⟩
    rw [Function.update_of_ne hne]
    exact h.1

/-- A 0 in the place of a character ends the string there. -/
theorem CString.cut (h : CString mem a (A ++ c::s)) :
    CString (Function.update mem (a + A.length) 0#8) a A := by
  induction A generalizing a with
  | nil => exact Function.update_self _ _ _
  | cons d A ih =>
    have hindex : a + (d::A).length = a + 1 + A.length := by
      rw [List.length_cons]
      omega
    have hne : a ≠ a + 1 + A.length := by omega
    rw [hindex]
    refine ⟨?_, h.2.1, ih h.2.2⟩
    rw [Function.update_of_ne hne]
    exact h.1

theorem CString.congr {mem' : Mem} (h : CString mem a s)
    (heq : ∀ x, a ≤ x → x ≤ a + s.length → mem' x = mem x) : CString mem' a s := by
  induction s generalizing a with
  | nil => exact (heq a (Nat.le_refl a) (Nat.le_add_right a _)).trans h
  | cons c s ih =>
    rw [List.length_cons] at heq
    exact ⟨(heq a (Nat.le_refl a) (Nat.le_add_right a _)).trans h.1, h.2.1,
      ih h.2.2 (fun x hx hxs => heq x (by omega) (by omega))⟩

/-- A character in the place of the end, and a new end behind it. -/
theorem CString.push (h : CString (Function.update mem (a + s.length) 0#8) a s) (hc : c ≠ 0#8) :
    CString (Function.update (Function.update mem (a + s.length) c) (a + s.length + 1) 0#8) a
      (s ++ [c]) := by
  induction s generalizing a with
  | nil =>
    have hself : Function.update (Function.update mem a c) (a + 1) 0#8 a = c := by
      rw [Function.update_of_ne (Nat.ne_of_lt (Nat.lt_succ_self a)), Function.update_self]
    exact ⟨hself, hc, Function.update_self _ _ _⟩
  | cons d s ih =>
    have hindex : a + (d::s).length = a + 1 + s.length := by
      rw [List.length_cons]
      omega
    rw [hindex] at h ⊢
    refine ⟨?_, h.2.1, ih h.2.2⟩
    have hd := h.1
    rw [Function.update_of_ne (by omega)] at hd
    rw [Function.update_of_ne (by omega), Function.update_of_ne (by omega), hd]

/-- What stands in memory is a string up to its first 0. -/
theorem cstring_takeWhile (h : ∀ i x, s[i]? = some x → mem (a + i) = x)
    (h0 : mem (a + s.length) = 0#8) :
    CString mem a (s.takeWhile (· ≠ 0#8)) := by
  induction s generalizing a with
  | nil => exact h0
  | cons d s ih =>
    have hd : mem a = d := h 0 d rfl
    by_cases hz : d = 0#8
    · rw [List.takeWhile_cons_of_neg (by simpa using hz)]
      exact hd.trans hz
    · rw [List.takeWhile_cons_of_pos (by simpa using hz)]
      refine ⟨hd, hz, ih (fun i x hx => ?_) ?_⟩
      · rw [Nat.add_right_comm]
        exact h (i + 1) x hx
      · rw [List.length_cons] at h0
        rw [Nat.add_right_comm]
        exact h0

end ByteMemory

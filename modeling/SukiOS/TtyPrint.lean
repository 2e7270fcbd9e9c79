import Mathlib.Data.Nat.Digits.Lemmas
import SukiOS.Tty

/-! The texts of `tty_print_dec` and `tty_print_hex64`, and the numbers that they stand for. -/
namespace SukiOS

/-! ### `tty_print_dec` -/

/-- The loop that fills `buf` from the end, with the next index. `idx` is an `int`. -/
def decFill (value : ℕ) (idx : ℤ) (buf : ℤ → BitVec 8) : ℤ × (ℤ → BitVec 8) :=
  if _h : value = 0 then (idx, buf)
  else decFill (value / 10) (idx - 1) (Function.update buf idx
    (0x30#8 + BitVec.ofNat 8 (value % 10)))
termination_by value
decreasing_by exact Nat.div_lt_self (Nat.pos_of_ne_zero _h) (by decide)

/-- The characters up to the 0, among the next `n`. -/
def stringFrom (buf : ℤ → BitVec 8) (i : ℤ) : ℕ → List (BitVec 8)
  | 0 => []
  | n+1 => if buf i = 0#8 then [] else buf i :: stringFrom buf (i+1) n

/-- What `tty_print_dec` prints; the buffer has 16 bytes. -/
def ttyPrintDec (value : ℕ) (buf : ℤ → BitVec 8) : List (BitVec 8) :=
  if value = 0 then [0x30#8]
  else
    let r := decFill value 14 (Function.update buf 15 0#8)
    stringFrom r.2 (r.1 + 1) 16

/-! ### `tty_print_hex64` -/

/-- `hex[n]` -/
def hexDigit (n : ℕ) : BitVec 8 :=
  if n < 10 then BitVec.ofNat 8 (0x30 + n) else BitVec.ofNat 8 (0x37 + n)

/-- The loop over `i` with the shifts `60 - 4*i`. -/
def ttyPrintHex64 (value : ℕ) : List (BitVec 8) :=
  [0x30#8, 0x78#8] ++ (List.range 16).map fun i => hexDigit (value >>> (60 - 4*i) &&& 0xF)

/-! ### The numbers -/

/-- The number that digits in base `b` stand for, the first one the highest. -/
def numeral (b : ℕ) (digits : List ℕ) : ℕ := digits.foldl (fun n d => n*b + d) 0

/-- The value of a digit. -/
def digitValue (c : BitVec 8) : ℕ := if c.toNat < 0x41 then c.toNat - 0x30 else c.toNat - 0x37

/-- `0` to `9` -/
def DecChar (c : BitVec 8) : Prop := 0x30 ≤ c.toNat ∧ c.toNat ≤ 0x39

/-- `0` to `9` and `A` to `F` -/
def HexChar (c : BitVec 8) : Prop := DecChar c ∨ 0x41 ≤ c.toNat ∧ c.toNat ≤ 0x46

section Numerals
variable {value b n : ℕ} {idx : ℤ} {buf : ℤ → BitVec 8}

theorem numeral_eq_ofDigits (b : ℕ) (digits : List ℕ) :
    numeral b digits = Nat.ofDigits b digits.reverse := by
  have hfold (l : List ℕ) : ∀ n, l.foldl (fun n d => n*b + d) n =
      n * b^l.length + Nat.ofDigits b l.reverse := by
    induction l with
    | nil =>
      intro n
      simp
    | cons d l ih =>
      intro n
      rw [List.foldl_cons, ih, List.reverse_cons, Nat.ofDigits_append, List.length_cons,
        List.length_reverse, Nat.ofDigits_singleton]
      ring
  rw [numeral, hfold]
  simp

theorem numeral_append (b : ℕ) (digits : List ℕ) (d : ℕ) :
    numeral b (digits ++ [d]) = numeral b digits * b + d := by
  simp only [numeral, List.foldl_append, List.foldl_cons, List.foldl_nil]

/-- The character of a decimal digit. -/
def decDigit (d : ℕ) : BitVec 8 := 0x30#8 + BitVec.ofNat 8 d

theorem decDigit_spec {d : ℕ} (h : d < 10) : decDigit d ≠ 0#8 ∧ digitValue (decDigit d) = d := by
  interval_cases d <;> decide

theorem hexDigit_spec {d : ℕ} (h : d < 16) : digitValue (hexDigit d) = d := by
  interval_cases d <;> decide

theorem decDigit_char {d : ℕ} (h : d < 10) : DecChar (decDigit d) := by
  have hadd : (decDigit d).toNat = (0x30 + d % 2^8) % 2^8 := by
    rw [decDigit, BitVec.toNat_add, BitVec.toNat_ofNat]
    rfl
  constructor <;> omega

theorem hexDigit_char {d : ℕ} (h : d < 16) : HexChar (hexDigit d) := by
  unfold hexDigit
  by_cases hd : d < 10
  · rw [if_pos hd]
    have hnat : (BitVec.ofNat 8 (0x30 + d)).toNat = 0x30 + d := Nat.mod_eq_of_lt (by omega)
    exact Or.inl ⟨by omega, by omega⟩
  · rw [if_neg hd]
    have hnat : (BitVec.ofNat 8 (0x37 + d)).toNat = 0x37 + d := Nat.mod_eq_of_lt (by omega)
    exact Or.inr ⟨by omega, by omega⟩

/-- The digits stand in front of the end of the buffer, the last one at `idx`. -/
theorem decFill_spec (value : ℕ) : ∀ (idx : ℤ) (buf : ℤ → BitVec 8),
    (decFill value idx buf).1 = idx - (Nat.digits 10 value).length ∧
    ∀ i, (decFill value idx buf).2 i = if idx - (Nat.digits 10 value).length < i ∧ i ≤ idx
      then decDigit ((Nat.digits 10 value).getD (idx - i).toNat 0) else buf i := by
  induction value using Nat.strong_induction_on with
  | _ value ih =>
    intro idx buf
    unfold decFill
    by_cases h : value = 0
    · subst h
      rw [dif_pos rfl]
      refine ⟨by simp, fun i => ?_⟩
      rw [Nat.digits_zero, List.length_nil, if_neg (by omega)]
    · obtain ⟨hidx, hbuf⟩ := ih (value / 10) (Nat.div_lt_self (Nat.pos_of_ne_zero h) (by decide))
        (idx - 1) (Function.update buf idx (decDigit (value % 10)))
      have hdigits : Nat.digits 10 value = value % 10 :: Nat.digits 10 (value / 10) :=
        Nat.digits_def' (by decide) (Nat.pos_of_ne_zero h)
      rw [dif_neg h]
      refine ⟨?_, fun i => ?_⟩
      · show (decFill (value/10) (idx-1) (Function.update buf idx (decDigit (value % 10)))).1 = _
        rw [hidx, hdigits, List.length_cons]
        push_cast
        ring
      · show (decFill (value/10) (idx-1) (Function.update buf idx (decDigit (value % 10)))).2 i = _
        rw [hbuf, hdigits, List.length_cons]
        push_cast
        by_cases hi : idx - 1 - (Nat.digits 10 (value/10)).length < i ∧ i ≤ idx - 1
        · have hsucc : (idx - i).toNat = (idx - 1 - i).toNat + 1 := by omega
          rw [if_pos hi, if_pos (by omega), hsucc, List.getD_cons_succ]
        · rw [if_neg hi, Function.update_apply]
          by_cases hlast : i = idx
          · rw [if_pos hlast, if_pos (by omega), hlast, sub_self]
            rfl
          · rw [if_neg hlast, if_neg (by omega)]

theorem stringFrom_eq {l : List (BitVec 8)} {i : ℤ} {n : ℕ} (hn : l.length < n)
    (hl : ∀ (j : ℕ) (hj : j < l.length), buf (i + j) = l[j] ∧ l[j] ≠ 0#8)
    (hend : buf (i + l.length) = 0#8) : stringFrom buf i n = l := by
  induction l generalizing i n with
  | nil =>
    obtain ⟨n, rfl⟩ : ∃ m, n = m + 1 := ⟨n - 1, by rw [List.length_nil] at hn; omega⟩
    have hend : buf i = 0#8 := by simpa using hend
    rw [stringFrom, if_pos hend]
  | cons c l ih =>
    rw [List.length_cons] at hn hend
    obtain ⟨n, rfl⟩ : ∃ m, n = m + 1 := ⟨n - 1, by omega⟩
    have hc := hl 0 (Nat.succ_pos _)
    have hc : buf i = c ∧ c ≠ 0#8 := by simpa using hc
    have hrest : stringFrom buf (i+1) n = l := by
      refine ih (by omega) (fun j hj => ?_) ?_
      · have hj := hl (j+1) (Nat.succ_lt_succ hj)
        rw [List.getElem_cons_succ] at hj
        rw [← hj.1, add_assoc, add_comm (1 : ℤ)]
        exact ⟨by push_cast; rfl, hj.1 ▸ hj.2⟩
      · rw [← hend]
        congr 1
        push_cast
        ring
    rw [stringFrom, hc.1, if_neg hc.2, hrest]

/-- The text is the decimal numeral, whatever the buffer held. -/
theorem ttyPrintDec_eq (h : value < 2^32) (h0 : value ≠ 0) (buf : ℤ → BitVec 8) :
    ttyPrintDec value buf = (Nat.digits 10 value).reverse.map decDigit ∧
      (Nat.digits 10 value).length ≤ 10 := by
  have hlen : (Nat.digits 10 value).length ≤ 10 :=
    (Nat.digits_length_le_iff (by decide) value).mpr (by omega)
  refine ⟨?_, hlen⟩
  obtain ⟨hidx, hbuf⟩ := decFill_spec value 14 (Function.update buf 15 0#8)
  unfold ttyPrintDec
  rw [if_neg h0]
  dsimp only
  rw [hidx]
  apply stringFrom_eq
  · rw [List.length_map, List.length_reverse]
    omega
  · intro j hj
    rw [List.length_map, List.length_reverse] at hj
    have hdigit : (Nat.digits 10 value)[(Nat.digits 10 value).length - 1 - j] < 10 :=
      Nat.digits_lt_base (by decide) (List.getElem_mem _)
    rw [List.getElem_map, List.getElem_reverse]
    refine ⟨?_, (decDigit_spec hdigit).1⟩
    have hplace : (14 - (14 - ((Nat.digits 10 value).length : ℤ) + 1 + j)).toNat =
        (Nat.digits 10 value).length - 1 - j := by omega
    rw [hbuf, if_pos (by omega), hplace, List.getD_eq_getElem?_getD,
      List.getElem?_eq_getElem (by omega),
      Option.getD_some]
  · rw [List.length_map, List.length_reverse, hbuf, if_neg (by omega)]
    have hlast : 14 - ((Nat.digits 10 value).length : ℤ) + 1 + (Nat.digits 10 value).length =
      15 := by
      ring
    rw [hlast, Function.update_self]

theorem numeral_hex (n : ℕ) : ∀ value, numeral 16 ((List.range n).map
    fun i => value >>> (4*(n - 1 - i)) &&& 0xF) = value % 16^n := by
  induction n with
  | zero =>
    intro value
    rw [pow_zero, Nat.mod_one]
    rfl
  | succ n ih =>
    intro value
    have hlow : ∀ x : ℕ, x &&& 0xF = x % 16 := fun x => Nat.and_two_pow_sub_one_eq_mod x 4
    have hinit : (List.range n).map (fun i => value >>> (4*(n + 1 - 1 - i)) &&& 0xF) =
        (List.range n).map (fun i => (value / 16) >>> (4*(n - 1 - i)) &&& 0xF) := by
      apply List.map_congr_left
      intro i hi
      have hi := List.mem_range.mp hi
      have hsum : 4*(n + 1 - 1 - i) = 4 + 4*(n - 1 - i) := by omega
      rw [hsum, Nat.shiftRight_add, Nat.shiftRight_eq_div_pow value 4]
    rw [List.range_succ, List.map_append, List.map_cons, List.map_nil, numeral_append, hinit, ih,
      hlow,
      Nat.add_sub_cancel, Nat.sub_self, Nat.mul_zero, Nat.shiftRight_zero, pow_succ]
    have hpos : 0 < 16^n := by positivity
    rw [mul_comm (16^n) 16, Nat.mod_mul]
    ring

/-- Both texts give the number back and have digits of their base only: the decimal numeral has at
most 10 digits, no leading 0, and is put together within the 16 bytes of the buffer; the other one
has 16 digits after the prefix. -/
theorem printed_numbers (value : ℕ) :
    (value < 2^32 → ∀ buf : ℤ → BitVec 8,
      numeral 10 ((ttyPrintDec value buf).map digitValue) = value ∧
      (ttyPrintDec value buf).length ≤ 10 ∧
      (∀ c ∈ ttyPrintDec value buf, DecChar c) ∧
      (value ≠ 0 → (ttyPrintDec value buf).head? ≠ some 0x30#8) ∧
      (∀ i, i < 5 ∨ 14 < i → (decFill value 14 buf).2 i = buf i)) ∧
    (value < 2^64 → (ttyPrintHex64 value).length = 18 ∧
      (ttyPrintHex64 value).take 2 = [0x30#8, 0x78#8] ∧
      (∀ c ∈ (ttyPrintHex64 value).drop 2, HexChar c) ∧
      numeral 16 (((ttyPrintHex64 value).drop 2).map digitValue) = value) := by
  have hnibble (i : ℕ) : value >>> i &&& 0xF < 16 := Nat.and_lt_two_pow (n := 4) _ (by decide)
  have hdrop : (ttyPrintHex64 value).drop 2 =
      (List.range 16).map fun i => hexDigit (value >>> (60 - 4*i) &&& 0xF) :=
    List.drop_left' (by rfl)
  refine ⟨fun h buf => ?_, fun h => ⟨?_, rfl, ?_, ?_⟩⟩
  · by_cases h0 : value = 0
    · subst h0
      refine ⟨rfl, (by decide : 1 ≤ 10), fun c hc => ?_, fun h => absurd rfl h, fun i _ => ?_⟩
      · have hzero : c = 0x30#8 := List.mem_singleton.mp hc
        rw [hzero]
        exact decDigit_char (d := 0) (by decide)
      · rw [decFill, dif_pos rfl]
    · obtain ⟨heq, hlen⟩ := ttyPrintDec_eq h h0 buf
      have hdigit (d : ℕ) (hd : d ∈ (Nat.digits 10 value).reverse) : d < 10 :=
        Nat.digits_lt_base (by decide) (List.mem_reverse.mp hd)
      rw [heq]
      refine ⟨?_, ?_, fun c hc => ?_, fun _ => ?_, fun i hi => ?_⟩
      · have hvalues : ((Nat.digits 10 value).reverse.map decDigit).map digitValue =
            (Nat.digits 10 value).reverse := by
          rw [List.map_map]
          refine (List.map_congr_left (g := id) fun d hd => ?_).trans (List.map_id _)
          exact (decDigit_spec (hdigit d hd)).2
        rw [hvalues, numeral_eq_ofDigits, List.reverse_reverse, Nat.ofDigits_digits]
      · rw [List.length_map, List.length_reverse]
        exact hlen
      · obtain ⟨d, hd, rfl⟩ := List.mem_map.mp hc
        exact decDigit_char (hdigit d hd)
      · have hne : Nat.digits 10 value ≠ [] := Nat.digits_ne_nil_iff_ne_zero.mpr h0
        rw [List.head?_map, List.head?_reverse, List.getLast?_eq_some_getLast hne, Option.map_some]
        intro heq0
        have hlast := (decDigit_spec (Nat.digits_lt_base (by decide) (List.getLast_mem hne))).2
        rw [Option.some.inj heq0] at hlast
        exact Nat.getLast_digit_ne_zero 10 h0 hlast.symm
      · rw [(decFill_spec value 14 buf).2 i, if_neg (by omega)]
  · rw [ttyPrintHex64, List.length_append, List.length_map, List.length_range]
    rfl
  · intro c hc
    rw [hdrop] at hc
    obtain ⟨i, -, rfl⟩ := List.mem_map.mp hc
    exact hexDigit_char (hnibble _)
  · have hvalues : ((ttyPrintHex64 value).drop 2).map digitValue =
        (List.range 16).map fun i => value >>> (4*(16 - 1 - i)) &&& 0xF := by
      rw [hdrop, List.map_map]
      apply List.map_congr_left
      intro i hi
      have hi := List.mem_range.mp hi
      have hshift : 60 - 4*i = 4*(16 - 1 - i) := by omega
      rw [Function.comp_apply, hexDigit_spec (hnibble _), hshift]
    rw [hvalues, numeral_hex, Nat.mod_eq_of_lt]
    exact h.trans_le (by norm_num)

theorem printed_numbers_sample :
    numeral 10 ((ttyPrintDec 2026 fun _ => 0xAA#8).map digitValue) = 2026 ∧
      (ttyPrintHex64 2026).length = 18 ∧
      numeral 16 (((ttyPrintHex64 2026).drop 2).map digitValue) = 2026 := by
  obtain ⟨hlength, -, -, hhex⟩ := (printed_numbers 2026).2 (by decide)
  exact ⟨((printed_numbers 2026).1 (by decide) _).1, hlength, hhex⟩

end Numerals

end SukiOS

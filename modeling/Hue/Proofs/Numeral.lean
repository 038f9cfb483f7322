import Hue.Numeral

/-!
Writing a number in digits and reading it back. A numeral keeps its value under zeros in front,
so what `padded` writes is what `readBelow?` reads, at any width.
-/
namespace Hue.Numeral

theorem digitValue_digitChar : ∀ d < 16, digitValue d.digitChar = d := by
  decide

theorem value_append_digit (base : Nat) (digits : List Char) (c : Char) :
    value base (digits ++ [c]) = value base digits * base + digitValue c := by
  simp [value]

theorem value_toDigits (base n : Nat) (hb : 1 < base) (hb' : base ≤ 16) :
    value base (Nat.toDigits base n) = n := by
  induction n using Nat.strongRecOn with
  | ind n ih =>
    rw [Nat.toDigits_eq_if hb]
    split
    case isTrue h => simp [value, digitValue_digitChar n (by omega)]
    case isFalse h =>
      have hlt : n / base < n := Nat.div_lt_self (by omega) hb
      have hmod : n % base < base := Nat.mod_lt n (by omega)
      rw [value_append_digit, ih (n / base) hlt, digitValue_digitChar _ (by omega)]
      exact Nat.div_add_mod' n base

theorem isDigit_of_mem_toDigits (base n : Nat) (hb : 1 < base) (hb' : base ≤ 16) :
    ∀ c ∈ Nat.toDigits base n, isDigit base c = true := by
  induction n using Nat.strongRecOn with
  | ind n ih =>
    intro c hc
    rw [Nat.toDigits_eq_if hb] at hc
    split at hc
    case isTrue h =>
      obtain rfl := List.mem_singleton.mp hc
      simp [isDigit, digitValue_digitChar n (by omega), h]
    case isFalse h =>
      rcases List.mem_append.mp hc with hc | hc
      · exact ih (n / base) (Nat.div_lt_self (by omega) hb) c hc
      · have hmod : n % base < base := Nat.mod_lt n (by omega)
        obtain rfl := List.mem_singleton.mp hc
        simp [isDigit, digitValue_digitChar (n % base) (by omega), hmod]

/-- Only zero starts with the digit zero. -/
theorem eq_zero_of_head?_toDigits (base n : Nat) (hb : 1 < base)
    (h : (Nat.toDigits base n).head? = some '0') : n = 0 := by
  induction n using Nat.strongRecOn with
  | ind n ih =>
    rw [Nat.toDigits_eq_if hb] at h
    split at h
    case isTrue => simpa using h
    case isFalse hle =>
      have hdiv : 0 < n / base := Nat.div_pos (by omega) (by omega)
      have hfirst := List.head?_eq_some_head (Nat.toDigits_ne_nil (n := n / base) (b := base))
      rw [List.head?_append, hfirst, Option.some_or, ← hfirst] at h
      have hzero := ih (n / base) (Nat.div_lt_self (by omega) hb) h
      omega

theorem padded_eq (base width n : Nat) :
    padded base width n =
      List.replicate (width - (Nat.toDigits base n).length) '0' ++ Nat.toDigits base n := by
  simp [padded, List.leftpad]

/-- Without a width there are no zeros in front. -/
theorem padded_zero (base n : Nat) : padded base 0 n = Nat.toDigits base n := by
  simp [padded_eq]

theorem length_padded {base width n : Nat} (h : (Nat.toDigits base n).length ≤ width) :
    (padded base width n).length = width := by
  rw [padded_eq, List.length_append, List.length_replicate]
  omega

/-- The quotient has one digit less, but never none. -/
theorem length_toDigits_div {base width n : Nat} (hb : 1 < base) (hw : 0 < width)
    (h : (Nat.toDigits base n).length ≤ width + 1) :
    (Nat.toDigits base (n / base)).length ≤ width := by
  rw [Nat.toDigits_eq_if hb] at h
  split at h
  case isTrue hlt =>
    rw [Nat.div_eq_of_lt hlt, Nat.toDigits_eq_if hb, if_pos (by omega)]
    exact hw
  case isFalse =>
    rw [List.length_append, List.length_singleton] at h
    omega

/-- The last digit is the remainder, and those before it are the digits of the quotient. -/
theorem padded_succ (base width n : Nat) (hb : 1 < base) (hw : 0 < width) :
    padded base (width + 1) n = padded base width (n / base) ++ [(n % base).digitChar] := by
  rw [padded_eq, padded_eq, Nat.toDigits_eq_if hb]
  split
  case isTrue h =>
    have hzero : Nat.toDigits base (n / base) = ['0'] := by
      rw [Nat.div_eq_of_lt h, Nat.toDigits_eq_if hb, if_pos (by omega)]
      rfl
    have hzeros : List.replicate (width - 1) '0' ++ ['0'] = List.replicate width '0' := by
      rw [← List.replicate_succ', Nat.sub_add_cancel hw]
    rw [hzero, Nat.mod_eq_of_lt h, List.length_singleton, List.length_singleton, hzeros,
      Nat.add_sub_cancel]
  case isFalse h =>
    rw [List.length_append, List.length_singleton, Nat.add_sub_add_right, List.append_assoc]

/-- The binary digits of a number are its bits, the highest one first. -/
theorem getElem?_padded_two (width n i : Nat) (hi : i ≤ width)
    (hn : (Nat.toDigits 2 n).length ≤ width + 1) :
    (padded 2 (width + 1) n)[i]? = some (if n.testBit (width - i) then '1' else '0') := by
  induction width generalizing n i with
  | zero =>
    obtain rfl : i = 0 := by omega
    have hlt : n < 2 := by
      rw [Nat.toDigits_eq_if (by decide)] at hn
      split at hn
      case isTrue h => exact h
      case isFalse =>
        have hpos := List.length_pos_iff.mpr (Nat.toDigits_ne_nil (n := n / 2) (b := 2))
        rw [List.length_append, List.length_singleton] at hn
        omega
    obtain rfl | rfl : n = 0 ∨ n = 1 := by omega
    · decide
    · decide
  | succ width ih =>
    have hhalf := length_toDigits_div (by decide) (by omega) hn
    have hlength := length_padded hhalf
    rw [padded_succ 2 (width + 1) n (by decide) (by omega)]
    rcases Nat.lt_or_ge width i with hlast | hfront
    · obtain rfl : i = width + 1 := by omega
      rw [List.getElem?_append_right (by omega), hlength, Nat.sub_self, Nat.testBit_zero]
      rcases Nat.mod_two_eq_zero_or_one n with hmod | hmod
      · rw [hmod]
        decide
      · rw [hmod]
        decide
    · rw [List.getElem?_append_left (by omega), ih (n / 2) i hfront hhalf,
        show width + 1 - i = width - i + 1 by omega, Nat.testBit_add_one]

theorem toList_toString (n : Nat) : (toString n).toList = padded 10 0 n := by
  rw [padded_zero, Nat.toString_eq_repr, Nat.toList_repr]

theorem value_zeros_append (base k : Nat) (digits : List Char) :
    value base (List.replicate k '0' ++ digits) = value base digits := by
  induction k with
  | zero => rfl
  | succ k ih =>
    have hz : digitValue '0' = 0 := by decide
    simpa [value, List.replicate_succ, hz] using ih

theorem value_padded (base width n : Nat) (hb : 1 < base) (hb' : base ≤ 16) :
    value base (padded base width n) = n := by
  rw [padded_eq, value_zeros_append, value_toDigits base n hb hb']

theorem isDigit_of_mem_padded (base width n : Nat) (hb : 1 < base) (hb' : base ≤ 16) :
    ∀ c ∈ padded base width n, isDigit base c = true := by
  intro c hc
  rw [padded_eq] at hc
  rcases List.mem_append.mp hc with hc | hc
  · have hz : digitValue '0' = 0 := by decide
    obtain rfl := List.eq_of_mem_replicate hc
    simp [isDigit, hz]
    omega
  · exact isDigit_of_mem_toDigits base n hb hb' c hc

theorem padded_ne_nil (base width n : Nat) : padded base width n ≠ [] := by
  simp [padded_eq]

theorem isNumeral_padded (base width n : Nat) (hb : 1 < base) (hb' : base ≤ 16) :
    isNumeral base (padded base width n) = true := by
  simp only [isNumeral, Bool.and_eq_true, List.all_eq_true]
  exact ⟨by simpa using padded_ne_nil base width n, isDigit_of_mem_padded base width n hb hb'⟩

/-- A sign is no digit. -/
theorem dropPlus_of_isNumeral (base : Nat) (hb : base ≤ 16) (cs : List Char)
    (h : isNumeral base cs = true) : dropPlus cs = cs := by
  unfold dropPlus
  split
  case h_2 => rfl
  case h_1 rest =>
    have hp : digitValue '+' = 16 := by decide
    simp [isNumeral, isDigit, hp] at h
    omega

theorem readBelow?_of_isNumeral (base bound : Nat) (hb : 0 < base) (hb' : base ≤ 16)
    (cs : List Char) (h : isNumeral base cs = true) :
    readBelow? base bound cs = if value base cs < bound then some (value base cs) else none := by
  have hmin := valueUpTo_eq_min base bound hb cs
  simp only [readBelow?, dropPlus_of_isNumeral base hb' cs h, h, ↓reduceIte, hmin]
  by_cases hlt : value base cs < bound
  · simp [hlt, Nat.min_eq_right (Nat.le_of_lt hlt)]
  · simp [hlt, Nat.min_eq_left (Nat.le_of_not_lt hlt)]

theorem readBelow?_padded (base bound width n : Nat) (hb : 1 < base) (hb' : base ≤ 16)
    (hn : n < bound) : readBelow? base bound (padded base width n) = some n := by
  rw [readBelow?_of_isNumeral base bound (by omega) hb' _ (isNumeral_padded base width n hb hb'),
    value_padded base width n hb hb', if_pos hn]

/-- Different numbers have different digits. -/
theorem toString_inj (m n : Nat) (h : toString m = toString n) : m = n := by
  have hd : padded 10 0 m = padded 10 0 n := by
    rw [← toList_toString, ← toList_toString, h]
  rw [← value_padded 10 0 m (by decide) (by decide), hd, value_padded 10 0 n (by decide) (by decide)]

end Hue.Numeral

import Hue.Proofs.Grammar

/-!
Immediate operands. A token is a number that fits in eight bits, a number that does not, or no
number at all. Which of these it is depends on its sign and its decimal value only, so zeros in
front change nothing, and a number of any length is found to be too large.
-/
namespace Hue

/-! ## Decimal numbers -/

namespace Numeral

/-- A token spells one number only. -/
theorem spells_unique {token : List Char} {m n : Nat} (hm : Spells Decimal token m)
    (hn : Spells Decimal token n) : m = n := by
  have hread := (readBelow?_ten_iff (max m n + 1)).mpr ⟨hm, by omega⟩
  have hread' := (readBelow?_ten_iff (max m n + 1)).mpr ⟨hn, by omega⟩
  exact Option.some.inj (hread.symm.trans hread')

end Numeral

namespace Source

open Numeral (Decimal Spells decimal_iff)

/-- A number without a minus sign: an optional plus sign before digits. -/
def Unsigned (token : List Char) (n : Nat) : Prop := Spells Decimal token n

/-- A minus sign before digits, whatever their value. -/
def Negative (token : List Char) : Prop := ∃ digits n, token = '-' :: digits ∧ Decimal digits n

def IsSign (c : Char) : Prop := c = '+' ∨ c = '-'

/-- Some tokens that are no number: nothing, a sign alone, two signs, and any token with a character
that is neither a sign nor an ASCII digit. -/
inductive NoNumber : List Char → Prop where
  | empty : NoNumber []
  | sign {c : Char} : IsSign c → NoNumber [c]
  | signs {c d : Char} {rest : List Char} : IsSign c → IsSign d → NoNumber (c :: d :: rest)
  | other {token : List Char} {c : Char} :
      c ∈ token → ¬IsSign c → c.isDigit = false → NoNumber token

theorem decimal_zeros_append {digits : List Char} {n : Nat} (h : Decimal digits n) (zeros : Nat) :
    Decimal (List.replicate zeros '0' ++ digits) n := by
  obtain ⟨hnumeral, hvalue⟩ := decimal_iff.mp h
  obtain ⟨hne, hdigits⟩ := Numeral.isNumeral_iff.mp hnumeral
  refine decimal_iff.mpr ⟨Numeral.isNumeral_iff.mpr ⟨by simp [hne], ?_⟩, ?_⟩
  · intro c hc
    rcases List.mem_append.mp hc with hc | hc
    · rw [List.eq_of_mem_replicate hc]
      decide
    · exact hdigits c hc
  · rw [Numeral.value_zeros_append, hvalue]

/-- A sign is no digit. -/
theorem not_decimal_of_sign {c : Char} (h : IsSign c) (cs : List Char) (n : Nat) :
    ¬Decimal (c :: cs) n := by
  intro hdecimal
  have hc := hdecimal.ascii c List.mem_cons_self
  rcases h with rfl | rfl <;> exact absurd hc (by decide)

theorem not_unsigned_of_negative {token : List Char} (h : Negative token) (n : Nat) :
    ¬Unsigned token n := by
  obtain ⟨digits, m, rfl, -⟩ := h
  rintro ⟨others, rfl | heq, hdecimal⟩
  · exact not_decimal_of_sign (.inr rfl) digits n hdecimal
  · cases heq

/-! ## Classes of tokens -/

/-- What is left without one sign is a numeral exactly for numbers, with or without a minus sign. -/
theorem isNumeral_dropSign_iff {token : List Char} :
    Numeral.isNumeral 10 (dropSign token) = true ↔ Negative token ∨ ∃ n, Unsigned token n := by
  constructor
  · intro h
    have hdecimal : Decimal (dropSign token) (Numeral.value 10 (dropSign token)) :=
      decimal_iff.mpr ⟨h, rfl⟩
    unfold dropSign at hdecimal
    split at hdecimal
    case h_1 cs => exact .inl ⟨cs, _, rfl, hdecimal⟩
    case h_2 cs => exact .inr ⟨_, cs, .inr rfl, hdecimal⟩
    case h_3 => exact .inr ⟨_, token, .inl rfl, hdecimal⟩
  · rintro (⟨digits, n, rfl, hdecimal⟩ | ⟨n, hunsigned⟩)
    · exact (decimal_iff.mp hdecimal).1
    · exact isNumeral_dropSign_of_spells hunsigned

section Reading

variable {line token : List Char}

theorem readImmediate_of_not_number (h : ¬(Negative token ∨ ∃ n, Unsigned token n)) :
    readImmediate line token =
      .error (.malformedOperands (String.ofList line) (.notNumber (String.ofList token))) := by
  rw [← isNumeral_dropSign_iff] at h
  rw [readImmediate, if_neg h]

/-- A number is read, or is too large. -/
theorem readImmediate_of_number (h : Negative token ∨ ∃ n, Unsigned token n) :
    (∃ imm, readImmediate line token = .ok imm ∧ Unsigned token imm.toNat) ∨
      readImmediate line token = .error (.immediateOverflow (String.ofList token)) := by
  cases hread : readImmediate line token with
  | ok imm => exact .inl ⟨imm, rfl, readImmediate_eq_ok_iff.mp hread⟩
  | error e =>
    rw [← isNumeral_dropSign_iff] at h
    rw [readImmediate, if_pos h] at hread
    split at hread
    case h_1 => cases hread
    case h_2 => exact .inr hread.symm

theorem exists_readImmediate_iff {n : Nat} :
    (∃ imm, readImmediate line token = .ok imm ∧ imm.toNat = n) ↔ Unsigned token n ∧ n ≤ 255 := by
  simp only [readImmediate_eq_ok_iff]
  constructor
  · rintro ⟨imm, hunsigned, rfl⟩
    exact ⟨hunsigned, Nat.le_of_lt_succ imm.toNat_lt⟩
  · rintro ⟨hunsigned, hle⟩
    have hn : (UInt8.ofNat n).toNat = n := UInt8.toNat_ofNat_of_lt' (Nat.lt_succ_of_le hle)
    exact ⟨UInt8.ofNat n, by rwa [hn], hn⟩

theorem readImmediate_eq_overflow_iff :
    readImmediate line token = .error (.immediateOverflow (String.ofList token)) ↔
      Negative token ∨ ∃ n, Unsigned token n ∧ 255 < n := by
  constructor
  · intro h
    by_cases hnumber : Negative token ∨ ∃ n, Unsigned token n
    case neg =>
      rw [readImmediate_of_not_number hnumber] at h
      cases h
    case pos =>
      rcases hnumber with hneg | ⟨n, hunsigned⟩
      · exact .inl hneg
      · refine .inr ⟨n, hunsigned, Nat.lt_of_not_le fun hle => ?_⟩
        obtain ⟨imm, hok, -⟩ := exists_readImmediate_iff.mpr ⟨hunsigned, hle⟩
        rw [hok] at h
        cases h
  · intro h
    have hnumber : Negative token ∨ ∃ n, Unsigned token n :=
      h.imp_right fun ⟨n, hunsigned, _⟩ => ⟨n, hunsigned⟩
    rcases readImmediate_of_number hnumber with ⟨imm, -, himm⟩ | hoverflow
    · -- the number that was read is the only one, and it fits
      rcases h with hneg | ⟨n, hunsigned, hlt⟩
      · exact absurd himm (not_unsigned_of_negative hneg imm.toNat)
      · have heq := Numeral.spells_unique himm hunsigned
        have himm' := imm.toNat_lt
        omega
    · exact hoverflow

theorem readImmediate_eq_notNumber_iff :
    readImmediate line token =
        .error (.malformedOperands (String.ofList line) (.notNumber (String.ofList token))) ↔
      ¬Negative token ∧ ¬∃ n, Unsigned token n := by
  rw [← not_or]
  refine ⟨fun h hnumber => ?_, readImmediate_of_not_number⟩
  rcases readImmediate_of_number hnumber with ⟨imm, hok, -⟩ | hoverflow
  · rw [hok] at h
    cases h
  · rw [hoverflow] at h
    cases h

end Reading

theorem not_decimal_of_noNumber {token : List Char} (h : NoNumber token) (n : Nat) :
    ¬Decimal token n := by
  intro hdecimal
  cases h with
  | empty => exact hdecimal.nonempty rfl
  | sign hsign => exact not_decimal_of_sign hsign _ n hdecimal
  | signs hsign _ => exact not_decimal_of_sign hsign _ n hdecimal
  | other hc _ hdigit =>
    rw [hdecimal.ascii _ hc] at hdigit
    cases hdigit

/-- A sign in front does not make a number of them either. -/
theorem not_decimal_of_noNumber_cons {c : Char} {digits : List Char} (hsign : IsSign c)
    (h : NoNumber (c :: digits)) (n : Nat) : ¬Decimal digits n := by
  intro hdecimal
  cases h with
  | sign _ => exact hdecimal.nonempty rfl
  | signs _ hsecond => exact not_decimal_of_sign hsecond _ n hdecimal
  | other hmem hother hdigit =>
    rcases List.mem_cons.mp hmem with rfl | hmem
    · exact hother hsign
    · rw [hdecimal.ascii _ hmem] at hdigit
      cases hdigit

theorem not_number_of_noNumber {token : List Char} (h : NoNumber token) :
    ¬Negative token ∧ ¬∃ n, Unsigned token n := by
  constructor
  · rintro ⟨digits, n, rfl, hdecimal⟩
    exact not_decimal_of_noNumber_cons (.inr rfl) h n hdecimal
  · rintro ⟨n, digits, rfl | rfl, hdecimal⟩
    · exact not_decimal_of_noNumber h n hdecimal
    · exact not_decimal_of_noNumber_cons (.inl rfl) h n hdecimal

/-- How a token is read as an immediate operand. It is a number of eight bits exactly if it is an
optional plus sign before digits of that value, with any zeros in front. It overflows exactly if it
is digits after a minus sign, or digits of a greater value. Every other token is no number. -/
theorem immediates_classified (line : List Char) :
    (∀ token n, (∃ imm, readImmediate line token = .ok imm ∧ imm.toNat = n) ↔
      Unsigned token n ∧ n ≤ 255) ∧
    (∀ token, readImmediate line token = .error (.immediateOverflow (String.ofList token)) ↔
      Negative token ∨ ∃ n, Unsigned token n ∧ 255 < n) ∧
    (∀ token, readImmediate line token =
        .error (.malformedOperands (String.ofList line) (.notNumber (String.ofList token))) ↔
      ¬Negative token ∧ ¬∃ n, Unsigned token n) ∧
    (∀ zeros digits (imm : UInt8), Decimal digits imm.toNat →
      readImmediate line (List.replicate zeros '0' ++ digits) = .ok imm) ∧
    ∀ token, NoNumber token → readImmediate line token =
      .error (.malformedOperands (String.ofList line) (.notNumber (String.ofList token))) := by
  refine ⟨fun token n => exists_readImmediate_iff, fun token => readImmediate_eq_overflow_iff,
    fun token => readImmediate_eq_notNumber_iff, ?_, ?_⟩
  · intro zeros digits imm h
    rw [readImmediate_eq_ok_iff]
    exact ⟨_, .inl rfl, decimal_zeros_append h zeros⟩
  · intro token h
    exact readImmediate_eq_notNumber_iff.mpr (not_number_of_noNumber h)

/-- A digit of another script, a negative zero, the two numbers at the bound, and more zeros than the
bound has digits. -/
theorem odd_immediates_classified :
    readImmediate "RED ٣".toList "٣".toList =
      .error (.malformedOperands "RED ٣" (.notNumber "٣")) ∧
    readImmediate [] "-0".toList = .error (.immediateOverflow "-0") ∧
    readImmediate [] "+256".toList = .error (.immediateOverflow "+256") ∧
    (∃ imm, readImmediate [] "+255".toList = .ok imm ∧ imm.toNat = 255) ∧
    readImmediate [] "0000007".toList = .ok 7 := by
  obtain ⟨-, -, -, -, hother⟩ := immediates_classified "RED ٣".toList
  obtain ⟨hread, hoverflow, -, hzeros, -⟩ := immediates_classified []
  have hdecimal {digits : List Char} (h : Numeral.isNumeral 10 digits = true) :
      Decimal digits (Numeral.value 10 digits) := decimal_iff.mpr ⟨h, rfl⟩
  refine ⟨hother _ (.other List.mem_cons_self ?_ (by decide)), ?_, ?_, ?_, ?_⟩
  · rintro (h | h) <;> exact absurd h (by decide)
  · exact (hoverflow _).mpr (.inl ⟨['0'], _, rfl, hdecimal (by decide)⟩)
  · have h256 : Decimal "256".toList 256 := hdecimal (by decide)
    exact (hoverflow _).mpr (.inr ⟨256, ⟨_, .inr rfl, h256⟩, by decide⟩)
  · have h255 : Decimal "255".toList 255 := hdecimal (by decide)
    exact (hread _ _).mpr ⟨⟨_, .inr rfl, h255⟩, by decide⟩
  · exact hzeros 6 ['7'] 7 (hdecimal (by decide))

end Source

end Hue

import Hue.Proofs.Line
import Hue.Proofs.Numeral
import Mathlib.Data.List.Forall2
import Mathlib.Data.Nat.Digits.Defs

/-!
Blanks, digits and the numbers that digits spell, said without the reader. White space is the list
of its characters. A decimal number is a row of ASCII digits with the value that the library gives
it, and a hexadecimal number a row of the sixteen digits, of which six are letters of either case.
Reading agrees with both.
-/
namespace Hue

/-! ## Blanks -/

namespace Text

/-- The characters with the Unicode property White_Space. -/
def whiteSpace : List Char :=
  ['\t', '\n', '\u000b', '\u000c', '\r', ' ', '\u0085', '\u00a0', '\u1680', '\u2000', '\u2001',
    '\u2002', '\u2003', '\u2004', '\u2005', '\u2006', '\u2007', '\u2008', '\u2009', '\u200a',
    '\u2028', '\u2029', '\u202f', '\u205f', '\u3000']

theorem isBlank_iff {c : Char} : isBlank c = true ↔ c ∈ whiteSpace := by
  constructor
  · intro h
    have hcode : c.toNat ∈ whiteSpace.map Char.toNat := by
      simp only [isBlank, blankRuns, List.any_cons, List.any_nil, Bool.or_false, Bool.or_eq_true,
        Bool.and_eq_true, decide_eq_true_eq] at h
      simp only [whiteSpace, List.map_cons, List.map_nil, List.mem_cons, Char.reduceToNat]
      omega
    obtain ⟨d, hd, heq⟩ := List.mem_map.mp hcode
    rwa [← Char.toNat_inj.mp heq]
  · exact List.all_eq_true.mp (show whiteSpace.all isBlank = true by decide) c

end Text

namespace Source

/-- What stands between tokens: commas and white space. -/
def Separates (c : Char) : Prop := c = ',' ∨ c ∈ Text.whiteSpace

theorem isSeparator_iff {c : Char} : isSeparator c = true ↔ Separates c := by
  rw [isSeparator, Separates, Bool.or_eq_true, beq_iff_eq, Text.isBlank_iff]

end Source

namespace Numeral

/-! ## Digits -/

/-- ASCII digits, at least one, and the number that they denote. -/
structure Decimal (digits : List Char) (n : Nat) : Prop where
  nonempty : digits ≠ []
  ascii : ∀ c ∈ digits, c.isDigit = true
  denotes : Nat.ofDigitChars 10 digits 0 = n

/-- A digit of base sixteen and its value, which is its place in the row of digits. -/
def HexDigit (c : Char) (d : Nat) : Prop :=
  "0123456789abcdef".toList[d]? = some c ∨ "0123456789ABCDEF".toList[d]? = some c

instance (c : Char) (d : Nat) : Decidable (HexDigit c d) :=
  inferInstanceAs (Decidable (_ ∨ _))

/-- Digits of base sixteen, at least one, and the number that they denote. -/
structure Hexadecimal (digits : List Char) (n : Nat) : Prop where
  nonempty : digits ≠ []
  denotes : ∃ values, List.Forall₂ HexDigit digits values ∧ Nat.ofDigits 16 values.reverse = n

/-- What the reader takes for digits, and the number that it takes them for. -/
def Denotes (base : Nat) (digits : List Char) (n : Nat) : Prop :=
  isNumeral base digits = true ∧ value base digits = n

theorem isNumeral_iff {base : Nat} {cs : List Char} :
    isNumeral base cs = true ↔ cs ≠ [] ∧ ∀ c ∈ cs, isDigit base c = true := by
  simp [isNumeral]

theorem digitValue_of_isDigit {c : Char} (h : c.isDigit = true) :
    digitValue c = c.toNat - '0'.toNat := by
  rw [digitValue, if_pos (Source.char_isDigit_iff.mp h)]

theorem isDigit_ten_iff {c : Char} : isDigit 10 c = true ↔ c.isDigit = true := by
  constructor
  · intro h
    rw [isDigit, decide_eq_true_eq, digitValue] at h
    split at h
    case isTrue hdigit => exact Source.char_isDigit_iff.mpr hdigit
    case isFalse =>
      split at h
      · omega
      · split at h <;> omega
  · intro h
    have hle : c.toNat ≤ '9'.toNat := (Source.char_isDigit_iff.mp h).2
    have hnine : '9'.toNat - '0'.toNat = 9 := rfl
    rw [isDigit, decide_eq_true_eq, digitValue_of_isDigit h]
    omega

/-- Decimal digits have the value that the library gives them. -/
theorem value_ten_eq {digits : List Char} (h : ∀ c ∈ digits, c.isDigit = true) :
    value 10 digits = Nat.ofDigitChars 10 digits 0 := by
  have hfold (start : Nat) : digits.foldl (fun n c => n * 10 + digitValue c) start =
      digits.foldl (fun n c => 10 * n + (c.toNat - '0'.toNat)) start := by
    induction digits generalizing start with
    | nil => rfl
    | cons c cs ih =>
      have hc := digitValue_of_isDigit (h c List.mem_cons_self)
      rw [List.foldl_cons, List.foldl_cons, hc, Nat.mul_comm start 10]
      exact ih (fun d hd => h d (List.mem_cons_of_mem c hd)) _
  exact hfold 0

theorem decimal_iff {digits : List Char} {n : Nat} : Decimal digits n ↔ Denotes 10 digits n := by
  rw [Denotes, isNumeral_iff]
  constructor
  · rintro ⟨hne, hascii, rfl⟩
    exact ⟨⟨hne, fun c hc => isDigit_ten_iff.mpr (hascii c hc)⟩, value_ten_eq hascii⟩
  · rintro ⟨⟨hne, hdigits⟩, rfl⟩
    have hascii : ∀ c ∈ digits, c.isDigit = true := fun c hc => isDigit_ten_iff.mp (hdigits c hc)
    exact ⟨hne, hascii, (value_ten_eq hascii).symm⟩

theorem hexDigit_iff {c : Char} {d : Nat} :
    HexDigit c d ↔ isDigit 16 c = true ∧ digitValue c = d := by
  constructor
  · intro h
    have hrow (row : List Char)
        (hall : (row.zipIdx.all fun p => isDigit 16 p.1 && digitValue p.1 == p.2) = true)
        (hc : row[d]? = some c) : isDigit 16 c = true ∧ digitValue c = d := by
      have hmem := List.mk_mem_zipIdx_iff_getElem?.mpr hc
      simpa using List.all_eq_true.mp hall (c, d) hmem
    rcases h with h | h
    · exact hrow _ (by decide) h
    · exact hrow _ (by decide) h
  · rintro ⟨hdigit, rfl⟩
    -- all digits are ASCII characters
    have hall : ∀ code < 128, isDigit 16 (Char.ofNat code) = true →
        HexDigit (Char.ofNat code) (digitValue (Char.ofNat code)) := by decide
    have hascii : c.toNat < 128 := by
      have hpart := Source.toNat_of_isLabelPart (Source.isLabelPart_of_isDigit (by decide) hdigit)
      omega
    have hdigit' := hall c.toNat hascii
    rw [Char.ofNat_toNat] at hdigit'
    exact hdigit' hdigit

theorem forall₂_hexDigit_iff {digits : List Char} {values : List Nat} :
    List.Forall₂ HexDigit digits values ↔
      (∀ c ∈ digits, isDigit 16 c = true) ∧ values = digits.map digitValue := by
  induction digits generalizing values with
  | nil => simp
  | cons c cs ih =>
    simp only [List.forall₂_cons_left_iff, hexDigit_iff, ih, List.forall_mem_cons, List.map_cons]
    constructor
    · rintro ⟨d, rest, ⟨hc, rfl⟩, ⟨hcs, rfl⟩, rfl⟩
      exact ⟨⟨hc, hcs⟩, rfl⟩
    · rintro ⟨⟨hc, hcs⟩, rfl⟩
      exact ⟨_, _, ⟨hc, rfl⟩, ⟨hcs, rfl⟩, rfl⟩

theorem ofDigits_map_digitValue (base : Nat) (digits : List Char) :
    Nat.ofDigits base (digits.map digitValue).reverse = value base digits := by
  rw [Nat.ofDigits_eq_foldr, List.foldr_reverse, List.foldl_map, value]
  congr 1
  funext n c
  rw [Nat.cast_id, Nat.add_comm, Nat.mul_comm]

theorem hexadecimal_iff {digits : List Char} {n : Nat} :
    Hexadecimal digits n ↔ Denotes 16 digits n := by
  rw [Denotes, isNumeral_iff]
  constructor
  · rintro ⟨hne, values, hvalues, rfl⟩
    obtain ⟨hdigits, rfl⟩ := forall₂_hexDigit_iff.mp hvalues
    exact ⟨⟨hne, hdigits⟩, (ofDigits_map_digitValue 16 digits).symm⟩
  · rintro ⟨⟨hne, hdigits⟩, rfl⟩
    exact ⟨hne, _, forall₂_hexDigit_iff.mpr ⟨hdigits, rfl⟩, ofDigits_map_digitValue 16 digits⟩

/-! ## Numbers -/

/-- A token that spells a number: digits, which may have a plus sign in front. -/
def Spells (Digits : List Char → Nat → Prop) (token : List Char) (n : Nat) : Prop :=
  ∃ digits, (token = digits ∨ token = '+' :: digits) ∧ Digits digits n

/-- Reading below a bound accepts every numeral of a smaller number, however many zeros it has. -/
theorem readBelow?_eq_some_iff (base bound : Nat) (hb : 0 < base) (hb' : base ≤ 16)
    {token : List Char} {n : Nat} :
    readBelow? base bound token = some n ↔ Spells (Denotes base) token n ∧ n < bound := by
  have hread : readBelow? base bound token = some n ↔ Denotes base (dropPlus token) n ∧ n < bound := by
    simp only [readBelow?, valueUpTo_eq_min base bound hb, Option.ite_none_right_eq_some,
      Option.some.injEq, Denotes, and_assoc]
    refine and_congr_right fun _ => ?_
    omega
  rw [hread]
  constructor
  · rintro ⟨hdenotes, hlt⟩
    refine ⟨⟨dropPlus token, ?_, hdenotes⟩, hlt⟩
    unfold dropPlus
    split
    case h_1 => exact .inr rfl
    case h_2 => exact .inl rfl
  · rintro ⟨⟨digits, htoken, hdenotes⟩, hlt⟩
    have hdrop : dropPlus token = digits := by
      rcases htoken with rfl | rfl
      · exact dropPlus_of_isNumeral base hb' token hdenotes.1
      · rfl
    rw [hdrop]
    exact ⟨hdenotes, hlt⟩

theorem readBelow?_ten_iff (bound : Nat) {token : List Char} {n : Nat} :
    readBelow? 10 bound token = some n ↔ Spells Decimal token n ∧ n < bound := by
  simp only [readBelow?_eq_some_iff 10 bound (by decide) (by decide), Spells, decimal_iff]

theorem readBelow?_sixteen_iff (bound : Nat) {token : List Char} {n : Nat} :
    readBelow? 16 bound token = some n ↔ Spells Hexadecimal token n ∧ n < bound := by
  simp only [readBelow?_eq_some_iff 16 bound (by decide) (by decide), Spells, hexadecimal_iff]

end Numeral

end Hue

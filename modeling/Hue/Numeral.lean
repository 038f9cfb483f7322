/-!
Numerals in bases up to sixteen. A numeral is read digit by digit with either case of the
letters; an optional plus sign may stand in front of it, a minus sign may not.
-/
namespace Hue.Numeral

/-- The value of a digit, and sixteen for a character that is no digit of any base. -/
def digitValue (c : Char) : Nat :=
  if '0' ≤ c ∧ c ≤ '9' then c.toNat - '0'.toNat
  else if 'a' ≤ c ∧ c ≤ 'f' then c.toNat - 'a'.toNat + 10
  else if 'A' ≤ c ∧ c ≤ 'F' then c.toNat - 'A'.toNat + 10
  else 16

def isDigit (base : Nat) (c : Char) : Bool := digitValue c < base

/-- The number that digits denote, the most significant one first. -/
def value (base : Nat) (digits : List Char) : Nat :=
  digits.foldl (fun n c => n * base + digitValue c) 0

/-- The number that digits denote, or `bound` when it is no less. No step goes past the bound, so
the work grows only with the number of digits. -/
def valueUpTo (base bound : Nat) (digits : List Char) : Nat :=
  digits.foldl (fun n c => min bound (n * base + digitValue c)) 0

private theorem min_mul_add (base bound n d : Nat) (hb : 0 < base) :
    min bound (min bound n * base + d) = min bound (n * base + d) := by
  rcases Nat.le_total n bound with h | h
  · rw [Nat.min_eq_right h]
  · have hbound : bound ≤ bound * base + d :=
      Nat.le_trans (Nat.le_mul_of_pos_right bound hb) (Nat.le_add_right _ _)
    have hn : bound ≤ n * base + d :=
      Nat.le_trans hbound (Nat.add_le_add_right (Nat.mul_le_mul_right base h) d)
    rw [Nat.min_eq_left h, Nat.min_eq_left hbound, Nat.min_eq_left hn]

private theorem foldl_min (base bound start : Nat) (hb : 0 < base) (digits : List Char) :
    digits.foldl (fun n c => min bound (n * base + digitValue c)) (min bound start) =
      min bound (digits.foldl (fun n c => n * base + digitValue c) start) := by
  induction digits generalizing start with
  | nil => rfl
  | cons c cs ih =>
    rw [List.foldl_cons, List.foldl_cons, min_mul_add base bound start _ hb]
    exact ih (start * base + digitValue c)

theorem valueUpTo_eq_min (base bound : Nat) (hb : 0 < base) (digits : List Char) :
    valueUpTo base bound digits = min bound (value base digits) := by
  simpa [valueUpTo, value] using foldl_min base bound 0 hb digits

/-- A nonempty row of digits. -/
def isNumeral (base : Nat) (cs : List Char) : Bool := !cs.isEmpty && cs.all (isDigit base)

/-- Takes one plus sign off the front. -/
def dropPlus : List Char → List Char
  | '+' :: cs => cs
  | cs => cs

/-- The number below `bound` that a numeral denotes, which may have a plus sign. -/
def readBelow? (base bound : Nat) (cs : List Char) : Option Nat :=
  if isNumeral base (dropPlus cs) then
    let n := valueUpTo base bound (dropPlus cs)
    if n < bound then some n else none
  else none

/-- The digits of a number, with zeros in front up to `width`. -/
def padded (base width n : Nat) : List Char :=
  (Nat.toDigits base n).leftpad width '0'

/-- Binary with its mark, such as `0b01001`. -/
def binary (width n : Nat) : String := "0b" ++ String.ofList (padded 2 width n)

/-- Hexadecimal with its mark, such as `0x48ff`. -/
def hexadecimal (width n : Nat) : String := "0x" ++ String.ofList (padded 16 width n)

end Hue.Numeral

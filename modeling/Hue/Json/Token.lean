import Hue.Numeral
import Hue.Text.Utf16

/-!
The tokens of a JSON text. `Token.next?` takes one token off a text that starts with no white
space, and leaves a shorter text, so that `Token.scan` ends.
-/
namespace Hue.Json

inductive Token where
  | leftBrace
  | rightBrace
  | leftBracket
  | rightBracket
  | colon
  | comma
  | null
  | bool (b : Bool)
  | number (literal : List Char)
  | string (units : List UInt16)

namespace Token

def isSpace (c : Char) : Bool := c == ' ' || c == '\t' || c == '\n' || c == '\r'

/-- The character that a letter after a backslash stands for. -/
def escape? : Char → Option Char
  | '"' => some '"'
  | '\\' => some '\\'
  | '/' => some '/'
  | 'b' => some '\x08'
  | 'f' => some '\x0c'
  | 'n' => some '\n'
  | 'r' => some '\r'
  | 't' => some '\t'
  | _ => none

/-- The units of a string literal whose opening quote is gone, and the text after its closing
quote. `done` holds the units so far, the newest first. A unit escape may name any unit. -/
def stringBody (done : List UInt16) : List Char → Option (List UInt16 × List Char)
  | [] => none
  | '"' :: cs => some (done.reverse, cs)
  | '\\' :: 'u' :: a :: b :: c :: d :: cs =>
    if [a, b, c, d].all (Numeral.isDigit 16) then
      stringBody (UInt16.ofNat (Numeral.value 16 [a, b, c, d]) :: done) cs
    else none
  | '\\' :: e :: cs =>
    match escape? e with
    | some c => stringBody (UInt16.ofNat c.toNat :: done) cs
    | none => none
  | c :: cs =>
    if c.toNat < 0x20 || c == '\\' then none
    else stringBody ((Text.Utf16.units c).reverse ++ done) cs

/-- The longest row of decimal digits in front, when there is one, and the text after it. -/
def digitRow? (cs : List Char) : Option (List Char × List Char) :=
  let row := cs.takeWhile (Numeral.isDigit 10)
  if row.isEmpty then none else some (row, cs.dropWhile (Numeral.isDigit 10))

/-- A whole number without needless zeros in front. -/
def whole? (cs : List Char) : Option (List Char × List Char) := do
  let (row, rest) ← digitRow? cs
  if row.head? = some '0' ∧ row.length > 1 then none else some (row, rest)

/-- The fraction that may follow a whole number. -/
def fraction? : List Char → Option (List Char × List Char)
  | '.' :: cs => (digitRow? cs).map fun (row, rest) => ('.' :: row, rest)
  | cs => some ([], cs)

/-- The sign that may precede the digits of an exponent. -/
def sign : List Char → List Char × List Char
  | '+' :: cs => (['+'], cs)
  | '-' :: cs => (['-'], cs)
  | cs => ([], cs)

/-- The exponent that may end a number. -/
def exponent? : List Char → Option (List Char × List Char)
  | [] => some ([], [])
  | e :: cs =>
    if e = 'e' ∨ e = 'E' then
      (digitRow? (sign cs).2).map fun (row, rest) => (e :: (sign cs).1 ++ row, rest)
    else some ([], e :: cs)

/-- A number without its sign. -/
def unsigned? (cs : List Char) : Option (List Char × List Char) := do
  let (whole, rest) ← whole? cs
  let (fraction, rest) ← fraction? rest
  let (exponent, rest) ← exponent? rest
  some (whole ++ fraction ++ exponent, rest)

/-- One token and the text after it. -/
def next? : List Char → Option (Token × List Char)
  | '\x7b' :: cs => some (.leftBrace, cs)
  | '\x7d' :: cs => some (.rightBrace, cs)
  | '[' :: cs => some (.leftBracket, cs)
  | ']' :: cs => some (.rightBracket, cs)
  | ':' :: cs => some (.colon, cs)
  | ',' :: cs => some (.comma, cs)
  | 'n' :: 'u' :: 'l' :: 'l' :: cs => some (.null, cs)
  | 't' :: 'r' :: 'u' :: 'e' :: cs => some (.bool true, cs)
  | 'f' :: 'a' :: 'l' :: 's' :: 'e' :: cs => some (.bool false, cs)
  | '"' :: cs => (stringBody [] cs).map fun (units, rest) => (.string units, rest)
  | '-' :: cs => (unsigned? cs).map fun (literal, rest) => (.number ('-' :: literal), rest)
  | cs => (unsigned? cs).map fun (literal, rest) => (.number literal, rest)

theorem stringBody_length_lt {done : List UInt16} {cs : List Char} {units : List UInt16}
    {rest : List Char} (h : stringBody done cs = some (units, rest)) :
    rest.length < cs.length := by
  fun_induction stringBody done cs with
  | case1 => simp at h
  | case2 => simp_all
  | case3 done a b c d cs _ ih =>
    have := ih h
    simp only [List.length_cons]
    omega
  | case4 => simp at h
  | case5 done e cs _ c _ ih =>
    have := ih h
    simp only [List.length_cons]
    omega
  | case6 => simp at h
  | case7 => simp at h
  | case8 done c cs _ _ _ _ ih =>
    have := ih h
    simp only [List.length_cons]
    omega

theorem digitRow?_length_lt {cs row rest : List Char} (h : digitRow? cs = some (row, rest)) :
    rest.length < cs.length := by
  simp only [digitRow?] at h
  split at h
  · simp at h
  · rename_i hrow
    simp only [Option.some.injEq, Prod.mk.injEq] at h
    obtain ⟨_, rfl⟩ := h
    have hsum := congrArg List.length
      (List.takeWhile_append_dropWhile (p := Numeral.isDigit 10) (l := cs))
    have hpos : 0 < (cs.takeWhile (Numeral.isDigit 10)).length := by
      simpa [List.isEmpty_iff, List.length_pos_iff] using hrow
    simp only [List.length_append] at hsum
    omega

theorem whole?_length_lt {cs row rest : List Char} (h : whole? cs = some (row, rest)) :
    rest.length < cs.length := by
  simp only [whole?, bind, Option.bind_eq_some_iff] at h
  obtain ⟨⟨row', rest'⟩, hrow, h⟩ := h
  split at h
  · simp at h
  · simp only [Option.some.injEq, Prod.mk.injEq] at h
    obtain ⟨_, rfl⟩ := h
    exact digitRow?_length_lt hrow

theorem fraction?_length_le {cs row rest : List Char} (h : fraction? cs = some (row, rest)) :
    rest.length ≤ cs.length := by
  unfold fraction? at h
  split at h
  · simp only [Option.map_eq_some_iff, Prod.mk.injEq] at h
    obtain ⟨⟨row', rest'⟩, hrow, _, rfl⟩ := h
    have := digitRow?_length_lt hrow
    simp only [List.length_cons]
    omega
  · simp_all

theorem sign_length_le (cs : List Char) : (sign cs).2.length ≤ cs.length := by
  unfold sign
  split <;> simp

theorem exponent?_length_le {cs row rest : List Char} (h : exponent? cs = some (row, rest)) :
    rest.length ≤ cs.length := by
  unfold exponent? at h
  split at h
  · simp_all
  · split at h
    · simp only [Option.map_eq_some_iff, Prod.mk.injEq] at h
      obtain ⟨⟨row', rest'⟩, hrow, _, rfl⟩ := h
      have hlt := Nat.lt_of_lt_of_le (digitRow?_length_lt hrow) (sign_length_le _)
      simp only [List.length_cons]
      omega
    · simp only [Option.some.injEq, Prod.mk.injEq] at h
      obtain ⟨_, rfl⟩ := h
      exact Nat.le_refl _

theorem unsigned?_length_lt {cs row rest : List Char} (h : unsigned? cs = some (row, rest)) :
    rest.length < cs.length := by
  simp only [unsigned?, bind, Option.bind_eq_some_iff] at h
  obtain ⟨⟨whole, rest1⟩, hwhole, ⟨fraction, rest2⟩, hfraction, ⟨exponent, rest3⟩,
    hexponent, h⟩ := h
  simp only [Option.some.injEq, Prod.mk.injEq] at h
  obtain ⟨_, rfl⟩ := h
  have := whole?_length_lt hwhole
  have := fraction?_length_le hfraction
  have := exponent?_length_le hexponent
  simp only at *
  omega

/-- A token is never empty. -/
theorem next?_length_lt {cs rest : List Char} {t : Token} (h : next? cs = some (t, rest)) :
    rest.length < cs.length := by
  unfold next? at h
  split at h
  case h_10 cs' =>
    simp only [Option.map_eq_some_iff, Prod.mk.injEq] at h
    obtain ⟨⟨units, rest'⟩, hbody, _, rfl⟩ := h
    have := stringBody_length_lt hbody
    simp only [List.length_cons]
    omega
  case h_11 cs' =>
    simp only [Option.map_eq_some_iff, Prod.mk.injEq] at h
    obtain ⟨⟨literal, rest'⟩, hnumber, _, rfl⟩ := h
    have := unsigned?_length_lt hnumber
    simp only [List.length_cons]
    omega
  case h_12 =>
    simp only [Option.map_eq_some_iff, Prod.mk.injEq] at h
    obtain ⟨⟨literal, rest'⟩, hnumber, _, rfl⟩ := h
    exact unsigned?_length_lt hnumber
  all_goals
    simp only [Option.some.injEq, Prod.mk.injEq] at h
    obtain ⟨_, rfl⟩ := h
    simp only [List.length_cons]
    omega

/-- Scans tokens; `done` holds the tokens so far, the newest first. -/
def scanOnto (done : List Token) (cs : List Char) : Option (List Token) :=
  match cs with
  | [] => some done.reverse
  | c :: tail =>
    if isSpace c then scanOnto done tail
    else
      match h : next? (c :: tail) with
      | some (t, rest) =>
        have := next?_length_lt h
        scanOnto (t :: done) rest
      | none => none
termination_by cs.length
decreasing_by
  · exact Nat.lt_succ_self _
  · assumption

theorem scanOnto_cons {done : List Token} {c : Char} {tail rest : List Char} {t : Token}
    (hspace : isSpace c = false) (h : next? (c :: tail) = some (t, rest)) :
    scanOnto done (c :: tail) = scanOnto (t :: done) rest := by
  rw [scanOnto, hspace]
  split
  case isTrue hfalse => cases hfalse
  case isFalse =>
    split
    case h_1 found after hfound =>
      obtain ⟨rfl, rfl⟩ := Prod.mk.inj (Option.some.inj (h.symm.trans hfound))
      rfl
    case h_2 hnone => cases h.symm.trans hnone

/-- The tokens of a whole text. -/
def scan (cs : List Char) : Option (List Token) := scanOnto [] cs

end Token

end Hue.Json

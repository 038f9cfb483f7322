/-!
UTF-16. A text is a row of sixteen-bit units; a row of units denotes a text when every high
surrogate is followed by a low one and every low surrogate follows a high one.
-/
namespace Hue.Text.Utf16

def isHigh (unit : UInt16) : Bool := 0xD800 ≤ unit && unit ≤ 0xDBFF

def isLow (unit : UInt16) : Bool := 0xDC00 ≤ unit && unit ≤ 0xDFFF

/-- One unit, or a high and a low surrogate for a code point beyond the first plane. -/
def units (c : Char) : List UInt16 :=
  if c.toNat < 0x10000 then [UInt16.ofNat c.toNat]
  else
    [UInt16.ofNat (0xD800 + (c.toNat - 0x10000) / 0x400),
     UInt16.ofNat (0xDC00 + (c.toNat - 0x10000) % 0x400)]

/-- The character of a pair of surrogates. -/
def joined (high low : UInt16) : Char :=
  Char.ofNat (0x10000 + (high.toNat - 0xD800) * 0x400 + (low.toNat - 0xDC00))

/-- Decodes units; `done` holds the characters so far, the newest first. -/
def decodeOnto (done : List Char) : List UInt16 → Option (List Char)
  | [] => some done.reverse
  | [u] => if isHigh u || isLow u then none else some (Char.ofNat u.toNat :: done).reverse
  | u :: v :: us =>
    if isHigh u then
      if isLow v then decodeOnto (joined u v :: done) us else none
    else if isLow u then none
    else decodeOnto (Char.ofNat u.toNat :: done) (v :: us)

/-- The text that a row of units denotes. -/
def decode? (us : List UInt16) : Option (List Char) := decodeOnto [] us

end Hue.Text.Utf16

import Hue.Numeral

/-!
Machine words. A word is sixteen bits, written as sixteen binary digits or as two bytes,
the high byte first.
-/
namespace Hue

abbrev Word := UInt16

namespace Word

/-- Sixteen binary digits, the most significant one first. -/
def bits (w : Word) : List Char := Numeral.padded 2 16 w.toNat

/-- The word with one more bit set. Positions count from the most significant bit. -/
def setBit (w : Word) (position : Nat) : Word := w ||| UInt16.ofNat (1 <<< (15 - position))

/-- Four hexadecimal digits after their mark. -/
def hex (w : Word) : String := Numeral.hexadecimal 4 w.toNat

/-- The two bytes of a word, the high one first. -/
def bytes (w : Word) : List UInt8 :=
  [UInt8.ofNat (w.toNat / 256), UInt8.ofNat (w.toNat % 256)]

def ofBytes (high low : UInt8) : Word := UInt16.ofNat (high.toNat * 256 + low.toNat)

end Word

/-- The bytes of a row of words. -/
def bytesOfWords (words : List Word) : List UInt8 := words.flatMap Word.bytes

/-- Collects words from pairs of bytes; `done` holds the words so far, the newest first. -/
def collectWords (done : List Word) : List UInt8 → List Word × Option UInt8
  | [] => (done.reverse, none)
  | [byte] => (done.reverse, some byte)
  | high :: low :: rest => collectWords (Word.ofBytes high low :: done) rest

/-- The words of a row of bytes, and the last byte when their number is odd. -/
def wordsOfBytes (bytes : List UInt8) : List Word × Option UInt8 := collectWords [] bytes

end Hue

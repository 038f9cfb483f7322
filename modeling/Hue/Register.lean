/-!
The eight registers, their names and their three-bit codes.
-/
namespace Hue

inductive Register where
  | r0 | r1 | r2 | r3 | r | b | g | a0
deriving DecidableEq, Repr

namespace Register

/-- Every register, in the order of the codes. -/
def all : List Register := [r0, r1, r2, r3, r, b, g, a0]

def code : Register → Nat
  | r0 => 0 | r1 => 1 | r2 => 2 | r3 => 3 | r => 4 | b => 5 | g => 6 | a0 => 7

def name : Register → String
  | r0 => "R0" | r1 => "R1" | r2 => "R2" | r3 => "R3" | r => "R" | b => "B" | g => "G" | a0 => "A0"

/-- The register with a given code. -/
def ofCode? (code : Nat) : Option Register := all.find? (·.code == code)

/-- The register with a given name. The case of ASCII letters does not matter. -/
def ofName? (cs : List Char) : Option Register :=
  let upper := String.ofList (cs.map Char.toUpper)
  all.find? fun reg => reg.name == upper

end Register

end Hue

/-!
Operand formats and the twenty opcodes. An opcode is five bits of a word; codes from twenty on
are not assigned. The format says which operands follow the opcode.
-/
namespace Hue

/-- The operands that an instruction takes. -/
inductive Format where
  | registerImmediate
  | immediate
  | register
  | threeRegisters
  | bare
  | branch
deriving DecidableEq, Repr

namespace Format

/-- The number of operands. -/
def arity : Format → Nat
  | registerImmediate => 2
  | immediate => 1
  | register => 1
  | threeRegisters => 3
  | bare => 0
  | branch => 1

/-- The operands as messages show them. -/
def usage : Format → String
  | registerImmediate => "<reg>, <imm8>"
  | immediate => "<imm8>"
  | register => "<reg>"
  | threeRegisters => "<rd>, <rs>, <rt>"
  | bare => "no operands"
  | branch => "<label>"

end Format

inductive Opcode where
  | add | sub | mul | div | and | or | not | load | store | jump
  | red | blue | green | yellow | black | white | orange | pink | gray | purple
deriving DecidableEq, Repr

namespace Opcode

/-- Every opcode, in the order of the codes. -/
def all : List Opcode :=
  [add, sub, mul, div, and, or, not, load, store, jump,
   red, blue, green, yellow, black, white, orange, pink, gray, purple]

def code : Opcode → Nat
  | add => 0 | sub => 1 | mul => 2 | div => 3 | and => 4
  | or => 5 | not => 6 | load => 7 | store => 8 | jump => 9
  | red => 10 | blue => 11 | green => 12 | yellow => 13 | black => 14
  | white => 15 | orange => 16 | pink => 17 | gray => 18 | purple => 19

def mnemonic : Opcode → String
  | add => "ADD" | sub => "SUB" | mul => "MUL" | div => "DIV" | and => "AND"
  | or => "OR" | not => "NOT" | load => "LOAD" | store => "STORE" | jump => "JUMP"
  | red => "RED" | blue => "BLUE" | green => "GREEN" | yellow => "YELLOW" | black => "BLACK"
  | white => "WHITE" | orange => "ORANGE" | pink => "PINK" | gray => "GRAY" | purple => "PURPLE"

def format : Opcode → Format
  | add | sub | mul | div | and | or | gray => .threeRegisters
  | not => .register
  | load | store | purple => .registerImmediate
  | jump => .branch
  | red | blue | green | orange => .immediate
  | yellow | black | white | pink => .bare

/-- The opcode with a given code. -/
def ofCode? (code : Nat) : Option Opcode := all.find? (·.code == code)

/-- The opcode with a given mnemonic. The case of ASCII letters does not matter. -/
def ofMnemonic? (cs : List Char) : Option Opcode :=
  let upper := String.ofList (cs.map Char.toUpper)
  all.find? fun op => op.mnemonic == upper

end Opcode

end Hue

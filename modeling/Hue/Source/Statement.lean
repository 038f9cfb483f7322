import Hue.Instruction
import Hue.Settings
import Hue.Source.Line

/-!
The body of a source line: an instruction or a word directive. Commas and blanks separate the
fields of a body, in any number. Of several faults the first one is reported in this order: the
directive, the shape of the mnemonic, the mnemonic, the number of operands, then each operand
from left to right.
-/
namespace Hue.Source

/-- What a line puts into the program: each statement is one word. -/
inductive Statement where
  | instruction (i : Instruction)
  | word (w : Word)
deriving DecidableEq, Repr

def isSeparator (c : Char) : Bool := c == ',' || Text.isBlank c

/-- A mnemonic starts with an ASCII letter and goes on with letters, digits and underscores. -/
def isMnemonic : List Char → Bool
  | [] => false
  | c :: cs => c.isAlpha && cs.all fun c => c.isAlphanum || c == '_'

def isWordDirective (token : List Char) : Bool := token.map Char.toLower == ".word".toList

/-- A number of sixteen bits, in hexadecimal after `0x` and in decimal otherwise. -/
def wordValue? : List Char → Option Word
  | '0' :: 'x' :: digits => (Numeral.readBelow? 16 65536 digits).map UInt16.ofNat
  | '0' :: 'X' :: digits => (Numeral.readBelow? 16 65536 digits).map UInt16.ofNat
  | digits => (Numeral.readBelow? 10 65536 digits).map UInt16.ofNat

/-- Takes one sign off the front. -/
def dropSign : List Char → List Char
  | '-' :: cs => cs
  | '+' :: cs => cs
  | cs => cs

/-- A decimal number of eight bits. Digits after a minus sign are a number, but none that
fits. -/
def readImmediate (line token : List Char) : Except Error UInt8 :=
  if Numeral.isNumeral 10 (dropSign token) then
    match Numeral.readBelow? 10 256 token with
    | some n => .ok (UInt8.ofNat n)
    | none => .error (.immediateOverflow (String.ofList token))
  else .error (.malformedOperands (String.ofList line) (.notNumber (String.ofList token)))

def readRegister (token : List Char) : Except Error Register :=
  match Register.ofName? token with
  | some reg => .ok reg
  | none => .error (.unknownRegister (String.ofList token))

def readTarget (line token : List Char) : Except Error Target :=
  if isLabelName token then .ok (.label (String.ofList token))
  else .error (.malformedOperands (String.ofList line) (.notLabel (String.ofList token)))

/-- The operand at a position, which counts from zero. -/
def operandAt (tokens : List (List Char)) (position : Nat) : Except Error (List Char) :=
  match tokens[position]? with
  | some token => .ok token
  | none => .error (.operandPastEnd position)

/-- The operands of a format, each from the token at its position. -/
def readFields (line : List Char) (tokens : List (List Char)) : Format → Except Error Operands
  | .registerImmediate => do
    let rd ← readRegister (← operandAt tokens 0)
    let imm ← readImmediate line (← operandAt tokens 1)
    return .registerImmediate rd imm
  | .immediate => do
    let imm ← readImmediate line (← operandAt tokens 0)
    return .immediate imm
  | .register => do
    let rd ← readRegister (← operandAt tokens 0)
    return .register rd
  | .threeRegisters => do
    let rd ← readRegister (← operandAt tokens 0)
    let rs ← readRegister (← operandAt tokens 1)
    let rt ← readRegister (← operandAt tokens 2)
    return .threeRegisters rd rs rt
  | .bare => .ok .bare
  | .branch => do
    let target ← readTarget line (← operandAt tokens 0)
    return .branch target

/-- The operands of an opcode. Their number must be that of its format. -/
def readOperands (line : List Char) (op : Opcode) (tokens : List (List Char)) :
    Except Error Operands :=
  if tokens.length = op.format.arity then readFields line tokens op.format
  else .error (.malformedOperands (String.ofList line) (.count op tokens.length))

/-- Takes the prefix of the settings off the last operand. An operand that is the prefix and
nothing else keeps it. -/
def stripOperandPrefix (settings : Settings) (tokens : List (List Char)) : List (List Char) :=
  match settings.operandPrefix, tokens.getLast? with
  | some start, some last =>
    tokens.dropLast ++ [(Text.dropLeading? start.toList last).getD last]
  | _, _ => tokens

def readInstruction (line mnemonic : List Char) (tokens : List (List Char)) :
    Except Error Instruction :=
  if isMnemonic mnemonic then
    match Opcode.ofMnemonic? mnemonic with
    | some op => (readOperands line op tokens).map (Instruction.mk op)
    | none => .error (.unknownInstruction (String.ofList mnemonic))
  else .error (.unrecognizedLine (String.ofList line))

def readWordDirective (line : List Char) : List (List Char) → Except Error Word
  | [token] =>
    match wordValue? token with
    | some w => .ok w
    | none => .error (.malformedOperands (String.ofList line) (.wordValue (String.ofList token)))
  | _ => .error (.malformedOperands (String.ofList line) .wordDirective)

/-- The statement of a body, if it has any field. Messages show `line`. -/
def readStatement (settings : Settings) (line body : List Char) :
    Except Error (Option Statement) :=
  match Text.fields isSeparator body with
  | [] => .ok none
  | head :: tokens =>
    if isWordDirective head then
      (readWordDirective line tokens).map fun w => some (.word w)
    else
      (readInstruction line head (stripOperandPrefix settings tokens)).map fun i =>
        some (.instruction i)

end Hue.Source

import Hue.Opcode
import Hue.Word

/-!
What can be wrong with a program, and the diagnostics that say where. An error is a cause;
its wording is in `Error.message` alone.
-/
namespace Hue

/-- What is wrong with the operands of a line. -/
inductive OperandFault where
  /-- A word directive does not have exactly one operand. -/
  | wordDirective
  /-- The value of a word directive is no number of sixteen bits. -/
  | wordValue (token : String)
  /-- An instruction has another number of operands than its format takes. -/
  | count (op : Opcode) (found : Nat)
  /-- An immediate is not written in digits. -/
  | notNumber (token : String)
  /-- A branch operand cannot be the name of a label. -/
  | notLabel (token : String)
deriving DecidableEq, Repr

def OperandFault.message : OperandFault → String
  | wordDirective => "expected .word <value>"
  | wordValue token => "`" ++ token ++ "` is not a 16-bit value"
  | count op found =>
    op.mnemonic ++ " takes " ++ op.format.usage ++ ", found " ++ toString found ++ " operand(s)"
  | notNumber token => "`" ++ token ++ "` is not a number"
  | notLabel token => "`" ++ token ++ "` is not a label name"

inductive Error where
  | unknownInstruction (mnemonic : String)
  | unknownRegister (name : String)
  | unknownRegisterCode (code : Nat)
  | unknownOpcode (code : Nat) (word : Word)
  | duplicateLabel (name : String) (firstLine : Nat)
  | undefinedLabel (name : String)
  | immediateOverflow (token : String)
  | addressOverflow (label : String) (address : Nat)
  | malformedOperands (line : String) (fault : OperandFault)
  | danglingTarget (target count : Nat)
  | unrecognizedLine (line : String)
  | malformedWord (text : String)
  /-- An instruction was to be packed with operands of another format than its opcode's. -/
  | operandMismatch (op : Opcode)
  /-- An operand was to be read that is not there. -/
  | operandPastEnd (position : Nat)
  /-- A line was to be cut inside a character. -/
  | splitCharacter (line : String) (offset : Nat)
  /-- A bit was to be set past the last one of a word. -/
  | bitPastEnd (position : Nat)
deriving DecidableEq, Repr

namespace Error

/-- The name of the kind of an error. -/
def kind : Error → String
  | unknownInstruction _ => "UnknownInstruction"
  | unknownRegister _ => "UnknownRegister"
  | unknownRegisterCode _ => "UnknownRegister"
  | unknownOpcode _ _ => "UnknownOpcode"
  | duplicateLabel _ _ => "DuplicateLabel"
  | undefinedLabel _ => "UndefinedLabel"
  | immediateOverflow _ => "ImmediateOverflow"
  | addressOverflow _ _ => "AddressOverflow"
  | malformedOperands _ _ => "MalformedOperands"
  | danglingTarget _ _ => "DanglingBranchTarget"
  | unrecognizedLine _ => "UnrecognizedLine"
  | malformedWord _ => "MalformedWord"
  | operandMismatch _ => "OperandMismatch"
  | operandPastEnd _ => "OperandPastEnd"
  | splitCharacter _ _ => "SplitCharacter"
  | bitPastEnd _ => "BitPastEnd"

def message : Error → String
  | unknownInstruction mnemonic => "unknown instruction `" ++ mnemonic ++ "`"
  | unknownRegister name => "unknown register `" ++ name ++ "`"
  | unknownRegisterCode code => "unknown register `" ++ Numeral.binary 3 code ++ "`"
  | unknownOpcode code word =>
    "unknown opcode " ++ Numeral.binary 5 code ++ " in word " ++ word.hex
  | duplicateLabel name firstLine =>
    "label `" ++ name ++ "` already defined on line " ++ toString firstLine
  | undefinedLabel name => "undefined label `" ++ name ++ "`"
  | immediateOverflow token => "immediate `" ++ token ++ "` does not fit in 8 bits"
  | addressOverflow label address =>
    "label `" ++ label ++ "` resolves to " ++ toString address ++
      ", beyond the 11-bit address field"
  | malformedOperands line fault => "malformed operands in `" ++ line ++ "`: " ++ fault.message
  | danglingTarget target count =>
    "branch target " ++ toString target ++ " is outside the program (" ++ toString count ++
      " instructions)"
  | unrecognizedLine line => "unrecognized line `" ++ line ++ "`"
  | malformedWord text => "malformed word `" ++ text ++ "`: expected 16 binary digits"
  | operandMismatch op => "the operands do not have the format of " ++ op.mnemonic
  | operandPastEnd position => "there is no operand " ++ toString position
  | splitCharacter line offset =>
    "byte " ++ toString offset ++ " of `" ++ line ++ "` is inside a character"
  | bitPastEnd position => "a word has no bit " ++ toString position

/-- A defect is a broken promise of the caller and not a fault of a program: it ends the work
at once, whatever the settings say. -/
def isDefect : Error → Bool
  | operandMismatch _ => true
  | operandPastEnd _ => true
  | splitCharacter _ _ => true
  | bitPastEnd _ => true
  | _ => false

end Error

inductive Severity where
  | error
  | warning
deriving DecidableEq, Repr

def Severity.name : Severity → String
  | error => "error"
  | warning => "warning"

/-- A line of a source counts from one, a word of an image from zero. -/
inductive Location where
  | line (number : Nat)
  | word (index : Nat)
deriving DecidableEq, Repr

namespace Location

def kind : Location → String
  | line _ => "line"
  | word _ => "word"

def position : Location → Nat
  | line number => number
  | word index => index

/-- Lines come before words, and each are in the order of their positions. -/
def le : Location → Location → Bool
  | line m, line n => m ≤ n
  | line _, word _ => true
  | word _, line _ => false
  | word i, word j => i ≤ j

end Location

structure Diagnostic where
  location : Location
  severity : Severity
  cause : Error
deriving DecidableEq, Repr

namespace Diagnostic

def error (location : Location) (cause : Error) : Diagnostic := ⟨location, .error, cause⟩

def warning (location : Location) (cause : Error) : Diagnostic := ⟨location, .warning, cause⟩

def isError (d : Diagnostic) : Bool := d.severity == .error

/-- The place, the severity and the message. -/
def text (d : Diagnostic) : String :=
  d.location.kind ++ " " ++ toString d.location.position ++ ": " ++ d.severity.name ++ ": " ++
    d.cause.message

end Diagnostic

end Hue

import Hue.Opcode
import Hue.Register

/-!
Instructions and their text. The operands of an instruction are not tied to its opcode here:
whether they have the opcode's format is a question of packing the instruction into a word.
-/
namespace Hue

/-- Where a branch goes: to a label that still has to be resolved, or to a word address. -/
inductive Target where
  | label (name : String)
  | address (address : Nat)
deriving DecidableEq, Repr

inductive Operands where
  | registerImmediate (rd : Register) (imm : UInt8)
  | immediate (imm : UInt8)
  | register (rd : Register)
  | threeRegisters (rd rs rt : Register)
  | bare
  | branch (target : Target)
deriving DecidableEq, Repr

def Operands.format : Operands → Format
  | registerImmediate _ _ => .registerImmediate
  | immediate _ => .immediate
  | register _ => .register
  | threeRegisters _ _ _ => .threeRegisters
  | bare => .bare
  | branch _ => .branch

structure Instruction where
  op : Opcode
  operands : Operands
deriving DecidableEq, Repr

/-- The highest address that a branch can name: the address field has eleven bits. -/
def maxAddress : Nat := 2047

/-- A position as an address, of which the sixteen low bits are kept. -/
def addressOf (position : Nat) : Nat := (UInt16.ofNat position).toNat

/-- No bit of an address that a branch can name is lost. -/
theorem addressOf_of_le {position : Nat} (h : position ≤ maxAddress) :
    addressOf position = position :=
  UInt16.toNat_ofNat_of_lt' (Nat.lt_of_le_of_lt h (by decide))

def Target.text : Target → String
  | label name => name
  | address a => toString a

/-- The operands, each in its text. -/
def Operands.texts : Operands → List String
  | registerImmediate rd imm => [rd.name, toString imm.toNat]
  | immediate imm => [toString imm.toNat]
  | register rd => [rd.name]
  | threeRegisters rd rs rt => [rd.name, rs.name, rt.name]
  | bare => []
  | branch target => [target.text]

namespace Instruction

/-- The mnemonic, then the operands with commas between them. -/
def text (i : Instruction) : String :=
  match i.operands.texts with
  | [] => i.op.mnemonic
  | texts => i.op.mnemonic ++ " " ++ ", ".intercalate texts

/-- The address that a branch goes to. A label has none yet. -/
def branchTarget? (i : Instruction) : Option Nat :=
  match i.operands with
  | .branch (.address a) => some a
  | _ => none

/-- The label that a branch names. -/
def branchLabel? (i : Instruction) : Option String :=
  match i.operands with
  | .branch (.label name) => some name
  | _ => none

end Instruction

end Hue

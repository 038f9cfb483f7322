import Hue.Error
import Hue.Instruction

/-!
Packing an instruction into a word and reading it back. The opcode takes the five high bits.
The eleven bits below hold, for each format:

* register and immediate: three bits and eight bits;
* immediate: eight low bits;
* register: three high bits;
* three registers: three bits each, from the top;
* branch: the address.

Bits that a format does not use are reserved. Packing leaves them zero, reading ignores them.
-/
namespace Hue

/-! ## Fields, with their positions counted from the lowest bit -/

namespace Word

def opcodeShift : Word := 11

def rdShift : Word := 8

def rsShift : Word := 5

def rtShift : Word := 2

def registerMask : Word := 0b111

def immediateMask : Word := 0xFF

def addressMask : Word := UInt16.ofNat maxAddress

end Word

/-- The code of a register as the bits of a word. -/
def Register.bits (reg : Register) : Word := UInt16.ofNat reg.code

/-- What is packed into a register field that the format does not use. -/
def Register.fill : Word := 0

/-! ## Packing -/

/-- The bits of the operands, in their places below the opcode. -/
def Operands.field : Operands → Except Error Word
  | registerImmediate rd imm => .ok (rd.bits <<< Word.rdShift ||| imm.toUInt16)
  | immediate imm => .ok (Register.fill <<< Word.rdShift ||| imm.toUInt16)
  | register rd => .ok (rd.bits <<< Word.rdShift)
  | threeRegisters rd rs rt =>
    .ok (rd.bits <<< Word.rdShift ||| rs.bits <<< Word.rsShift ||| rt.bits <<< Word.rtShift)
  | bare => .ok 0
  | branch (.address a) =>
    if maxAddress < a then .error (.addressOverflow (toString a) a) else .ok (UInt16.ofNat a)
  | branch (.label name) => .error (.undefinedLabel name)

/-- The word of an instruction. The operands must have the format of the opcode, and a branch
must go to an address that fits. -/
def Instruction.encode (i : Instruction) : Except Error Word :=
  if i.operands.format = i.op.format then
    i.operands.field.map fun field => UInt16.ofNat i.op.code <<< Word.opcodeShift ||| field
  else .error (.operandMismatch i.op)

/-! ## Reading -/

namespace Word

/-- The five high bits. -/
def opcodeBits (w : Word) : Nat := (w >>> opcodeShift).toUInt8.toNat

/-- The register whose code is in the three bits from `shift` on. -/
def register (w shift : Word) : Except Error Register :=
  let code := ((w >>> shift) &&& registerMask).toUInt8.toNat
  match Register.ofCode? code with
  | some reg => .ok reg
  | none => .error (.unknownRegisterCode code)

/-- The eight low bits. -/
def immediate (w : Word) : UInt8 := (w &&& immediateMask).toUInt8

/-- The operands of a format that a word holds. -/
def operands (w : Word) : Format → Except Error Operands
  | .registerImmediate => do
    let rd ← w.register rdShift
    return .registerImmediate rd w.immediate
  | .immediate => .ok (.immediate w.immediate)
  | .register => do
    let rd ← w.register rdShift
    return .register rd
  | .threeRegisters => do
    let rd ← w.register rdShift
    let rs ← w.register rsShift
    let rt ← w.register rtShift
    return .threeRegisters rd rs rt
  | .bare => .ok .bare
  | .branch => .ok (.branch (.address (w &&& addressMask).toNat))

/-- The instruction that a word holds. -/
def decode (w : Word) : Except Error Instruction :=
  match Opcode.ofCode? w.opcodeBits with
  | some op => (w.operands op.format).map (Instruction.mk op)
  | none => .error (.unknownOpcode w.opcodeBits w)

end Word

/-- The bits that a format does not use. -/
def Format.reserved : Format → Word
  | registerImmediate => 0x0000
  | immediate => 0x0700
  | register => 0x00FF
  | threeRegisters => 0x0003
  | bare => 0x07FF
  | branch => 0x0000

/-- The word with its reserved bits cleared. A word without an assigned opcode has none. -/
def Word.canonical (w : Word) : Word :=
  match Opcode.ofCode? w.opcodeBits with
  | some op => w &&& ~~~op.format.reserved
  | none => w

end Hue

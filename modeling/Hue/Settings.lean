import Hue.Json.Reader

/-!
Settings of the assembler, and how a JSON document gives them. The document is an object with
the fields `unrecognized` and `operand_prefix`, or an array with their values in that order.
What it leaves out keeps its default.
-/
namespace Hue

/-- What becomes of a line that is neither a label nor an instruction. -/
inductive Policy where
  | skip
  | fail
deriving DecidableEq, Repr

def Policy.name : Policy → String
  | skip => "skip"
  | fail => "fail"

structure Settings where
  unrecognized : Policy := .skip
  /-- A text that is taken off the front of the last operand of an instruction. -/
  operandPrefix : Option String := some "0x1F6"
deriving DecidableEq, Repr

namespace Settings

/-- The settings with unrecognized lines not allowed. -/
def strict (settings : Settings) : Settings := { settings with unrecognized := .fail }

/-- The text of a JSON string, when its surrogates pair up. -/
def text? (units : List UInt16) : Option String :=
  (Text.Utf16.decode? units).map String.ofList

def policyNamed? (units : List UInt16) : Option Policy := do
  match ← text? units with
  | "skip" => some .skip
  | "fail" => some .fail
  | _ => none

/-- A policy is its name, or an object with its name as the only key and the value null. -/
def policy? : Json (List UInt16) → Option Policy
  | .string units => policyNamed? units
  | .object [(key, .null)] => policyNamed? key
  | _ => none

def operandPrefix? : Json (List UInt16) → Option (Option String)
  | .null => some none
  | .string units => (text? units).map some
  | _ => none

/-- The setting in a field that may be absent but not repeated. -/
def field? {α : Type} (fields : List (String × Json (List UInt16))) (key : String)
    (read : Json (List UInt16) → Option α) (default : α) : Option α :=
  match fields.filter (·.1 == key) with
  | [] => some default
  | [(_, v)] => read v
  | _ => none

/-- Fields with other keys are ignored, but every key must be a text. -/
def ofFields? (fields : List (List UInt16 × Json (List UInt16))) : Option Settings := do
  let fields ← fields.mapM fun (key, v) => (text? key).map fun key => (key, v)
  let unrecognized ← field? fields "unrecognized" policy? ({} : Settings).unrecognized
  let operandPrefix ← field? fields "operand_prefix" operandPrefix? ({} : Settings).operandPrefix
  some ⟨unrecognized, operandPrefix⟩

def ofJson? : Json (List UInt16) → Option Settings
  | .object fields => ofFields? fields
  | .array [] => some {}
  | .array [u] => (policy? u).map fun unrecognized => { unrecognized }
  | .array [u, p] => do some ⟨← policy? u, ← operandPrefix? p⟩
  | _ => none

/-- The settings that a text gives. -/
def read? (cs : List Char) : Option Settings := do ofJson? (← Json.read? cs)

end Settings

end Hue

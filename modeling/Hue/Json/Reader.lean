import Hue.Json.Basic
import Hue.Json.Token

/-!
Reading a JSON document. The tokens drive a machine whose stack holds the containers that are
still open, so the depth of a document has no limit.
-/
namespace Hue.Json

/-- A container that is still open, with what it holds so far, the newest first. An object also
keeps the key whose value is being read. -/
inductive Frame where
  | array (items : List (Json (List UInt16)))
  | object (fields : List (List UInt16 × Json (List UInt16))) (key : List UInt16)

/-- What a reader has seen and what may follow. -/
inductive State where
  /-- A value must follow. -/
  | value (stack : List Frame)
  /-- An array has just been opened: its first item or its end must follow. -/
  | arrayStart (stack : List Frame)
  /-- An object has just been opened: its first key or its end must follow. -/
  | objectStart (stack : List Frame)
  /-- Another key must follow the fields so far. -/
  | key (fields : List (List UInt16 × Json (List UInt16))) (stack : List Frame)
  /-- A colon must follow the key. -/
  | colon (fields : List (List UInt16 × Json (List UInt16))) (key : List UInt16)
      (stack : List Frame)
  /-- A value is complete: its container goes on or ends. -/
  | after (v : Json (List UInt16)) (stack : List Frame)

namespace State

/-- Starts a value. -/
def start (stack : List Frame) : Token → Option State
  | .leftBracket => some (.arrayStart stack)
  | .leftBrace => some (.objectStart stack)
  | .null => some (.after .null stack)
  | .bool b => some (.after (.bool b) stack)
  | .number literal => some (.after (.number (String.ofList literal)) stack)
  | .string units => some (.after (.string units) stack)
  | _ => none

def step : State → Token → Option State
  | value stack, t => start stack t
  | arrayStart stack, .rightBracket => some (.after (.array []) stack)
  | arrayStart stack, t => start (.array [] :: stack) t
  | objectStart stack, .rightBrace => some (.after (.object []) stack)
  | objectStart stack, .string k => some (.colon [] k stack)
  | key fields stack, .string k => some (.colon fields k stack)
  | colon fields k stack, .colon => some (.value (.object fields k :: stack))
  | after v (.array items :: stack), .comma => some (.value (.array (v :: items) :: stack))
  | after v (.array items :: stack), .rightBracket =>
    some (.after (.array (v :: items).reverse) stack)
  | after v (.object fields k :: stack), .comma => some (.key ((k, v) :: fields) stack)
  | after v (.object fields k :: stack), .rightBrace =>
    some (.after (.object ((k, v) :: fields).reverse) stack)
  | _, _ => none

end State

/-- The value of a document that holds one value and white space. -/
def read? (cs : List Char) : Option (Json (List UInt16)) := do
  let tokens ← Token.scan cs
  match ← tokens.foldlM State.step (.value []) with
  | .after v [] => some v
  | _ => none

end Hue.Json

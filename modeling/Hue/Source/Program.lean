import Hue.Source.Statement

/-!
A program as its source gives it: labels and statements, each with its line. A line is read on
its own, and one that cannot be read becomes a diagnostic. Only an unrecognized line can end the
reading, and only if the settings do not allow it.
-/
namespace Hue.Source

inductive Content where
  | label (name : String)
  | statement (s : Statement)
deriving DecidableEq, Repr

structure Item where
  line : Nat
  content : Content
deriving DecidableEq, Repr

namespace Item

/-- The label that a branch in this item names. -/
def branchLabel? (item : Item) : Option String :=
  match item.content with
  | .statement (.instruction i) => i.branchLabel?
  | _ => none

/-- A statement takes one word, a label takes none. -/
def isStatement (item : Item) : Bool :=
  match item.content with
  | .statement _ => true
  | .label _ => false

end Item

/-- What one line gives: a label, and a statement or the reason why there is none. -/
structure Reading where
  label : Option String
  statement : Except Error (Option Statement)

def readLine (settings : Settings) (line : List Char) : Reading :=
  let text := stripComment line
  match splitLabel text with
  | .ok (label, body) => ⟨label, readStatement settings text body⟩
  | .error e => ⟨none, .error e⟩

namespace Reading

/-- The label comes before the statement, and stays when the statement cannot be read. -/
def items (line : Nat) (reading : Reading) : List Item :=
  let label := reading.label.toList.map fun name => ⟨line, .label name⟩
  match reading.statement with
  | .ok (some s) => label ++ [⟨line, .statement s⟩]
  | _ => label

/-- The error that ends the reading of the whole source. -/
def fatal? (policy : Policy) (reading : Reading) : Option Error :=
  match reading.statement with
  | .error (.unrecognizedLine line) =>
    if policy = .fail then some (.unrecognizedLine line) else none
  | .error e => if e.isDefect then some e else none
  | .ok _ => none

/-- An unrecognized line is a warning, any other fault an error. -/
def diagnostic? (line : Nat) (reading : Reading) : Option Diagnostic :=
  match reading.statement with
  | .error (.unrecognizedLine text) => some (.warning (.line line) (.unrecognizedLine text))
  | .error e => some (.error (.line line) e)
  | .ok _ => none

end Reading

structure Program where
  items : List Item
  diagnostics : List Diagnostic

/-- The reading of every line, with its number. -/
def readings (settings : Settings) (source : List Char) : List (Nat × Reading) :=
  ((Text.lines source).zipIdx 1).map fun (line, number) => (number, readLine settings line)

/-- The program of a source, or the first error that ends the reading. -/
def readProgram (settings : Settings) (source : List Char) : Except Error Program :=
  let readings := readings settings source
  match readings.findSome? fun (_, reading) => reading.fatal? settings.unrecognized with
  | some e => .error e
  | none =>
    .ok {
      items := readings.flatMap fun (line, reading) => reading.items line
      diagnostics := readings.filterMap fun (line, reading) => reading.diagnostic? line }

end Hue.Source

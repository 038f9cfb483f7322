import Hue.Encoding
import Hue.SymbolTable

/-!
Assembling a source into words. A line that yields no word takes no address. Branches to labels
that are not declared go first. Then branches to labels beyond the address field go, and since
that moves later labels down, the table is built again until every branch fits.
-/
namespace Hue

open Source

structure Assembly where
  words : List Word
  symbols : SymbolTable
  diagnostics : List Diagnostic

namespace Assembly

def hasErrors (a : Assembly) : Bool := a.diagnostics.any Diagnostic.isError

/-- A failure has errors and not a single word. -/
def isFailure (a : Assembly) : Bool := a.words.isEmpty && a.hasErrors

/-- A branch to a label that is not declared. -/
def undefined? (table : SymbolTable) (item : Item) : Option Error :=
  match item.branchLabel? with
  | some name => if (table.lookup? name).isNone then some (.undefinedLabel name) else none
  | none => none

/-- A branch to a label whose address does not fit the address field. -/
def overflow? (table : SymbolTable) (item : Item) : Option Error :=
  match item.branchLabel? with
  | some name =>
    match table.address? name with
    | some address =>
      if maxAddress < address then some (.addressOverflow name address) else none
    | none => none
  | none => none

/-- The items without a fault. -/
def keep (fault? : Item → Option Error) (items : List Item) : List Item :=
  items.filter fun item => (fault? item).isNone

/-- A diagnostic for each item with a fault. -/
def complaints (fault? : Item → Option Error) (items : List Item) : List Diagnostic :=
  items.filterMap fun item => (fault? item).map (Diagnostic.error (.line item.line))

/-- Items whose branches all fit, and their table. -/
structure Settled where
  table : SymbolTable
  items : List Item
  diagnostics : List Diagnostic

/-- Drops branches that do not fit until there are none. -/
def settle (items : List Item) : Except Error Settled :=
  match SymbolTable.build items with
  | .error e => .error e
  | .ok (table, _) =>
    if (keep (overflow? table) items).length < items.length then
      match settle (keep (overflow? table) items) with
      | .error e => .error e
      | .ok settled =>
        .ok { settled with
          diagnostics := complaints (overflow? table) items ++ settled.diagnostics }
    else .ok ⟨table, items, []⟩
termination_by items.length

/-- The instruction with its label replaced by the address of the label. -/
def resolve (table : SymbolTable) (i : Instruction) : Except Error Instruction :=
  match i.branchLabel? with
  | none => .ok i
  | some name =>
    match table.address? name with
    | none => .error (.undefinedLabel name)
    | some address =>
      if maxAddress < address then .error (.addressOverflow name address)
      else .ok { i with operands := .branch (.address (addressOf address)) }

def encodeStatement (table : SymbolTable) : Statement → Except Error Word
  | .word w => .ok w
  | .instruction i =>
    match resolve table i with
    | .ok i => i.encode
    | .error e => .error e

/-- The word of an item that is a statement. -/
def encodeItem? (table : SymbolTable) (item : Item) : Option (Except Error Word) :=
  match item.content with
  | .statement s => some (encodeStatement table s)
  | .label _ => none

/-- The words of items, in order. -/
def wordsOf (table : SymbolTable) (items : List Item) : List Word :=
  items.filterMap fun item => (encodeItem? table item).bind Except.toOption

/-- The error of an item whose statement has no word. -/
def encodeFault? (table : SymbolTable) (item : Item) : Option Error :=
  match encodeItem? table item with
  | some (.error e) => some e
  | _ => none

/-- Words and diagnostics of settled items. A defect ends the work. -/
def emit (settled : Settled) : Except Error (List Word × List Diagnostic) :=
  let fault? := encodeFault? settled.table
  match settled.items.findSome? fun item => (fault? item).filter Error.isDefect with
  | some e => .error e
  | none => .ok (wordsOf settled.table settled.items, complaints fault? settled.items)

/-- The diagnostics in the order of their places. -/
def inOrder (diagnostics : List Diagnostic) : List Diagnostic :=
  diagnostics.mergeSort fun d e => d.location.le e.location

/-- Words, symbols and diagnostics of a source. There are none when a label is declared twice,
or when a line is not recognized and the settings do not allow that. -/
def assemble (settings : Settings) (source : List Char) : Except Error Assembly := do
  let program ← readProgram settings source
  let (declared, _) ← SymbolTable.build program.items
  let settled ← settle (keep (undefined? declared) program.items)
  let (words, faults) ← emit settled
  return {
    words
    symbols := settled.table
    diagnostics := inOrder (program.diagnostics ++
      complaints (undefined? declared) program.items ++ settled.diagnostics ++ faults) }

end Assembly

end Hue

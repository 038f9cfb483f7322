import Hue.Json.Basic
import Hue.Listing
import Hue.SymbolTable

/-!
The report on a listing: its lines, the branches between words, the labels, and the diagnostics,
as one JSON document. Symbols have a JSON form here as well.
-/
namespace Hue

/-- A branch from the word at `source` to the address `target`. -/
structure Edge where
  source : Nat
  target : Nat
  /-- There is no label beyond the end of the program. -/
  label : Option String
  dangling : Bool
deriving DecidableEq, Repr

/-- A label that branches name. -/
structure BranchLabel where
  address : Nat
  name : String
deriving DecidableEq, Repr

namespace Listing

def edges (listing : Listing) : List Edge :=
  let count := listing.slots.length
  listing.slots.zipIdx.filterMap fun (slot, source) =>
    slot.branchTarget?.map fun target =>
      { source
        target
        label := if target ≤ count then some (labelName target) else none
        dangling := count ≤ target }

/-- The labels of all branch targets up to the end of the program. -/
def labels (listing : Listing) : List BranchLabel :=
  let inside := (branchTargets listing.slots).filter (· ≤ listing.slots.length)
  inside.map fun address => ⟨address, labelName address⟩

end Listing

namespace Json

def ofListingLine : ListingLine → Json String
  | .label name => .object [("kind", .string "label"), ("name", .string name)]
  | .instruction index word text =>
    .object [("kind", .string "insn"), ("index", .ofNat index), ("word", .ofNat word.toNat),
      ("text", .string text)]
  | .raw index word =>
    .object [("kind", .string "raw"), ("index", .ofNat index), ("word", .ofNat word.toNat)]

def ofEdge (edge : Edge) : Json String :=
  .object [("from", .ofNat edge.source), ("to", .ofNat edge.target),
    ("label", match edge.label with
      | some name => .string name
      | none => .null),
    ("dangling", .bool edge.dangling)]

def ofBranchLabel (label : BranchLabel) : Json String :=
  .object [("addr", .ofNat label.address), ("name", .string label.name)]

def ofLocation (location : Location) : Json String :=
  .object [("kind", .string location.kind), ("at", .ofNat location.position)]

def ofDiagnostic (d : Diagnostic) : Json String :=
  .object [("location", ofLocation d.location), ("severity", .string d.severity.name),
    ("kind", .string d.cause.kind), ("message", .string d.cause.message)]

def ofSymbol (symbol : Symbol) : Json String :=
  .object [("name", .string symbol.name), ("address", .ofNat symbol.address),
    ("line", .ofNat symbol.line)]

def ofLabels (listing : Listing) : Json String := .array (listing.labels.map ofBranchLabel)

def ofSymbols (table : SymbolTable) : Json String := .array (table.symbols.map ofSymbol)

/-- The whole report. -/
def ofListing (listing : Listing) : Json String :=
  .object [
    ("words", .ofNat listing.slots.length),
    ("listing", .array (listing.lines.map ofListingLine)),
    ("edges", .array (listing.edges.map ofEdge)),
    ("labels", ofLabels listing),
    ("diagnostics", .array (listing.diagnostics.map ofDiagnostic))]

end Json

end Hue

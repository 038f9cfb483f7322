import Hue.Report
import Hue.Tool.Outcome

/-!
The disassembler as a command. It reads an image, prints the diagnostics, writes the labels if
they are asked for, and then prints or writes the listing or the report.
-/
namespace Hue.Tool.Disassembler

/-- What the command puts out. -/
inductive Output where
  | listing
  | report
deriving DecidableEq, Repr

def Output.name : Output → String
  | listing => "text"
  | report => "json"

def Output.ofName? (name : String) : Option Output :=
  [listing, report].find? (·.name == name)

def command : Command where
  options := [
    { name := "input-format", accepts := fun value => (Layout.ofName? value).isSome },
    { name := "format", accepts := fun value => (Output.ofName? value).isSome },
    { name := "out", accepts := isPath },
    { name := "labels-out", accepts := isPath }]
  required := []
  operands := 1

structure Options where
  input : String
  layout : Layout
  output : Output
  out : Option String
  labels : Option String
deriving DecidableEq, Repr

def Options.ofArguments? (arguments : Arguments) : Option Options := do
  let input ← arguments.operands.head?
  let layout ← Layout.ofName? ((arguments.value? "input-format").getD "text")
  let output ← Output.ofName? ((arguments.value? "format").getD "text")
  some {
    input
    layout
    output
    out := arguments.value? "out"
    labels := arguments.value? "labels-out" }

def usageText : String :=
  "Usage: disasm [--input-format text|bin] [--format text|json] [--out <FILE>]\n" ++
  "              [--labels-out <FILE>] <WORDFILE>\n"

/-- What a listing is put out as. -/
def render (output : Output) (listing : Listing) : String :=
  match output with
  | .listing => listing.text
  | .report => (Json.ofListing listing).pretty ++ "\n"

section

variable {m : Type → Type} [Monad m] [FileAccess m]

/-- Writes the files that are asked for, and gives what is left to print. -/
def writeResult (options : Options) (listing : Listing) : ExceptT Failure m String := do
  match options.labels with
  | none => pure ()
  | some path => writeBytes .file path (Json.ofLabels listing).pretty.toUTF8
  match options.out with
  | none => return render options.output listing
  | some path =>
    writeBytes .file path (render options.output listing).toUTF8
    return ""

def runWith (options : Options) : m Outcome := do
  match ← (readImage options.layout options.input).run with
  | .error failure => return .failed "" failure
  | .ok image =>
    let notes := notesOn options.input image.diagnostics
    if image.words.isEmpty && !image.diagnostics.isEmpty then
      return .failed notes (.noValidWords options.input)
    else
      let listing := Listing.disassemble image.words
      let notes := notes ++ notesOn options.input listing.diagnostics
      match ← (writeResult options listing).run with
      | .error failure => return .failed notes failure
      | .ok text => return .success text notes

def run (args : List String) : m Outcome :=
  command.run usageText Options.ofArguments? runWith args

end

end Hue.Tool.Disassembler

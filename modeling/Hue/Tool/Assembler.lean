import Hue.Assembly
import Hue.Report
import Hue.Tool.Outcome

/-!
The assembler as a command. It reads settings and source, prints the diagnostics, and writes the
words and then the symbols. Nothing is written unless there are words or no errors.
-/
namespace Hue.Tool.Assembler

def command : Command where
  options := [
    { name := "input", letter := some 'i', accepts := isPath },
    { name := "output", letter := some 'o', accepts := isPath },
    { name := "format", accepts := fun value => (Layout.ofName? value).isSome },
    { name := "strict", takesValue := false, accepts := fun _ => true },
    { name := "config", accepts := isPath },
    { name := "symbols-out", accepts := isPath }]
  required := ["input", "output"]
  operands := 0

structure Options where
  input : String
  output : String
  layout : Layout
  strict : Bool
  settings : Option String
  symbols : Option String
deriving DecidableEq, Repr

def Options.ofArguments? (arguments : Arguments) : Option Options := do
  let input ← arguments.value? "input"
  let output ← arguments.value? "output"
  let layout ← Layout.ofName? ((arguments.value? "format").getD "text")
  some {
    input
    output
    layout
    strict := arguments.has "strict"
    settings := arguments.value? "config"
    symbols := arguments.value? "symbols-out" }

def usageText : String :=
  "Usage: asm --input <INPUT> --output <OUTPUT> [--format text|bin] [--strict]\n" ++
  "           [--config <FILE>] [--symbols-out <FILE>]\n"

section

variable {m : Type → Type} [Monad m] [FileAccess m]

def readSettings (options : Options) : ExceptT Failure m Settings := do
  let settings ← match options.settings with
    | none => pure ({} : Settings)
    | some path =>
      match Settings.read? (← readText path) with
      | some settings => pure settings
      | none => throw (.settings path)
  return if options.strict then settings.strict else settings

/-- The result of assembling the input. -/
def assembleInput (options : Options) : ExceptT Failure m Assembly := do
  let settings ← readSettings options
  let source ← readText options.input
  match Assembly.assemble settings source with
  | .ok assembly => return assembly
  | .error e => throw (.assembling options.input e)

/-- Writes the words, then the symbols if they are asked for. -/
def writeResult (options : Options) (assembly : Assembly) : ExceptT Failure m Unit := do
  if assembly.isFailure then throw (.noWords options.input)
  writeBytes (.writing options.output) options.output
    (Image.encode options.layout assembly.words)
  match options.symbols with
  | none => return ()
  | some path => writeBytes .file path (Json.ofSymbols assembly.symbols).pretty.toUTF8

def runWith (options : Options) : m Outcome := do
  match ← (assembleInput options).run with
  | .error failure => return .failed "" failure
  | .ok assembly =>
    let notes := notesOn options.input assembly.diagnostics
    match ← (writeResult options assembly).run with
    | .error failure => return .failed notes failure
    | .ok () => return .success "" notes

def run (args : List String) : m Outcome :=
  command.run usageText Options.ofArguments? runWith args

end

end Hue.Tool.Assembler

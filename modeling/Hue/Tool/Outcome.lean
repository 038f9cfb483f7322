import Hue.Error
import Hue.Image
import Hue.Tool.Arguments
import Hue.Tool.Files

/-!
How a tool ends: its status, what it prints, and the report of a failure. A report names what
failed and, under it, the cause. A tool first reads its command line; reading and writing files are
the steps of it that can fail.
-/
namespace Hue.Tool

inductive Failure where
  | reading (path : String) (cause : FileError)
  | writing (path : String) (cause : FileError)
  | file (cause : FileError)
  | settings (path : String)
  | assembling (path : String) (cause : Error)
  | oddBytes (path : String)
  | noWords (path : String)
  | noValidWords (path : String)
deriving DecidableEq, Repr

namespace Failure

def title : Failure → String
  | reading path _ => "reading " ++ path
  | writing path _ => "writing " ++ path
  | file cause => cause.message
  | settings path => "parsing " ++ path
  | assembling path _ => "assembling " ++ path
  | oddBytes path => path ++ " has an odd number of bytes"
  | noWords path => path ++ ": no words produced"
  | noValidWords path => "no valid words in " ++ path

def cause? : Failure → Option String
  | reading _ cause => some cause.message
  | writing _ cause => some cause.message
  | settings _ => some "the document does not describe settings"
  | assembling _ cause => some cause.message
  | _ => none

/-- The failure and its cause on one line. -/
def chain (failure : Failure) : String :=
  match failure.cause? with
  | some cause => failure.title ++ ": " ++ cause
  | none => failure.title

/-- The failure, and its cause in a paragraph of its own. -/
def report (failure : Failure) : String :=
  match failure.cause? with
  | some cause => "Error: " ++ failure.title ++ "\n\nCaused by:\n    " ++ cause ++ "\n"
  | none => "Error: " ++ failure.title ++ "\n"

end Failure

structure Outcome where
  status : Nat
  stdout : String
  stderr : String
deriving DecidableEq, Repr

namespace Outcome

def success (stdout notes : String) : Outcome := ⟨0, stdout, notes⟩

/-- A failure prints what was noted before it, then its report. -/
def failed (notes : String) (failure : Failure) : Outcome := ⟨1, "", notes ++ failure.report⟩

def usage (text : String) : Outcome := ⟨2, "", text⟩

end Outcome

/-- What both tools print for their version. -/
def versionText : String := "hue16-disasm 0.1.0\n"

/-- Runs a tool with the options that its command line gives, or prints what stopped the reading of
it. -/
def Command.run {m : Type → Type} [Monad m] {Options : Type} (command : Command)
    (usageText : String) (options? : Arguments → Option Options) (runWith : Options → m Outcome)
    (args : List String) : m Outcome :=
  match command.read args with
  | .error .version => return .success versionText ""
  | .error .help => return .success usageText ""
  | .error .usage => return .usage usageText
  | .ok arguments =>
    match options? arguments with
    | some options => runWith options
    | none => return .usage usageText

/-- Diagnostics about a file, one to a line. -/
def notesOn (path : String) (diagnostics : List Diagnostic) : String :=
  String.join (diagnostics.map fun d => path ++ ": " ++ d.text ++ "\n")

section

variable {m : Type → Type} [Monad m] [FileAccess m]

def readBytes (path : String) : ExceptT Failure m ByteArray := do
  match ← (FileAccess.read path : m (Except FileError ByteArray)) with
  | .ok content => return content
  | .error e => throw (.reading path e)

def readText (path : String) : ExceptT Failure m (List Char) := do
  match String.fromUTF8? (← readBytes path) with
  | some s => return s.toList
  | none => throw (.reading path .notUtf8)

/-- The words that a file holds. -/
def readImage (layout : Layout) (path : String) : ExceptT Failure m Image := do
  match Image.decode layout (← readBytes path) with
  | .ok image => return image
  | .error .notUtf8 => throw (.reading path .notUtf8)
  | .error .oddBytes => throw (.oddBytes path)

/-- Writes a file; `failure` says how to report an error. -/
def writeBytes (failure : FileError → Failure) (path : String) (content : ByteArray) :
    ExceptT Failure m Unit := do
  match ← (FileAccess.write path content : m (Except FileError Unit)) with
  | .ok () => return ()
  | .error e => throw (failure e)

end

end Hue.Tool

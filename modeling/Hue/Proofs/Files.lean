import Hue.Tool.Outcome

/-!
Stores of files. A tool runs in a state that holds the files, and a few laws say what reading and
writing do to it: reading changes nothing and gives what the file holds, and a write that succeeds
changes the one file that its path leads to. Where paths lead is left open.
-/
namespace Hue.Tool

namespace Files

variable {σ : Type} [FileAccess (StateM σ)]

/-- What is found at a path. -/
def read (s : σ) (path : String) : Except FileError ByteArray :=
  ((FileAccess.read path : StateM σ (Except FileError ByteArray)).run s).1

/-- How a write ends, and the files after it. -/
def write (s : σ) (path : String) (content : ByteArray) : Except FileError Unit × σ :=
  (FileAccess.write path content : StateM σ (Except FileError Unit)).run s

/-- The characters of a text file. -/
def text? (s : σ) (path : String) : Option (List Char) :=
  (read s path).toOption.bind fun content => (String.fromUTF8? content).map String.toList

/-- How a tool ends that is run on the files, and the files after it. -/
def exec (s : σ) (tool : StateM σ Outcome) : Outcome × σ := tool.run s

end Files

/-- The laws of a store of files. -/
class FileLaws (σ : Type) (File : outParam Type) [FileAccess (StateM σ)] where
  /-- What a file holds, if there is one. -/
  content? : σ → File → Option ByteArray
  /-- The file at the end of a path, which need not be there. -/
  LeadsTo : σ → String → File → Prop
  /-- A file can be written at the path. -/
  Writable : σ → String → Prop
  /-- Reading changes nothing. -/
  read_keeps (s : σ) (path : String) :
    ((FileAccess.read path : StateM σ (Except FileError ByteArray)).run s).2 = s
  /-- Reading gives what the file at the end of the path holds, and fails if there is none. -/
  read_eq_ok_iff {s : σ} {path : String} {content : ByteArray} :
    Files.read s path = .ok content ↔ ∃ file, LeadsTo s path file ∧ content? s file = some content
  /-- Writing works at exactly these paths, whatever is written. -/
  writable_iff {s : σ} {path : String} (content : ByteArray) :
    Writable s path ↔ ∃ after, Files.write s path content = (.ok (), after)
  /-- The file that was written has the content. -/
  content?_of_write {s after : σ} {path : String} {content : ByteArray} {file : File} :
    Files.write s path content = (.ok (), after) → LeadsTo s path file →
      content? after file = some content
  /-- Every other file is as it was. -/
  content?_of_write_of_not {s after : σ} {path : String} {content : ByteArray} {file : File} :
    Files.write s path content = (.ok (), after) → ¬ LeadsTo s path file →
      content? after file = content? s file
  /-- A write moves no path. -/
  leadsTo_of_write {s after : σ} {path : String} {content : ByteArray} :
    Files.write s path content = (.ok (), after) →
      ∀ other file, LeadsTo after other file ↔ LeadsTo s other file
  /-- A path that could be written can be written after another write. -/
  writable_of_write {s after : σ} {path other : String} {content : ByteArray} :
    Files.write s path content = (.ok (), after) → Writable s other → Writable after other

end Hue.Tool

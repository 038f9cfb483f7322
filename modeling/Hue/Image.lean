import Hue.Error
import Hue.Text.Split

/-!
Images of words: a text with sixteen binary digits to a line, or bytes with the high byte of
each word first. Blank lines of a text image are skipped, and lines that are no word are
reported.
-/
namespace Hue

/-- How an image is laid out in a file. -/
inductive Layout where
  | text
  | binary
deriving DecidableEq, Repr

def Layout.name : Layout → String
  | text => "text"
  | binary => "bin"

def Layout.ofName? (name : String) : Option Layout :=
  [text, binary].find? (·.name == name)

/-- Sets the bits of a word for which the digits have a one. The first digit is that of the bit at
`position`, and `text` is what a message shows. -/
def setBits (text : List Char) (w : Word) (position : Nat) : List Char → Except Error Word
  | [] => .ok w
  | c :: cs =>
    if c = '0' then setBits text w (position + 1) cs
    else if c = '1' then
      if position < 16 then setBits text (w.setBit position) (position + 1) cs
      else .error (.bitPastEnd position)
    else .error (.malformedWord (String.ofList text))

/-- The word that a line holds, with blanks around it. The size of its text is counted in bytes, so
the text may have fewer characters than a word has bits, but no more. -/
def readBits (line : List Char) : Except Error Word :=
  let text := Text.trim line
  if Text.byteSize text = 16 then setBits text 0 0 text
  else .error (.malformedWord (String.ofList text))

/-- The words of an image, and what was wrong with its lines. -/
structure Image where
  words : List Word
  diagnostics : List Diagnostic

namespace Image

/-- The lines of a text image that are not blank, with their numbers. -/
def numberedLines (cs : List Char) : List (List Char × Nat) :=
  ((Text.lines cs).zipIdx 1).filter fun (line, _) => !(Text.trim line).isEmpty

def ofText (cs : List Char) : Image where
  words := (numberedLines cs).filterMap fun (line, _) => (readBits line).toOption
  diagnostics := (numberedLines cs).filterMap fun (line, number) =>
    match readBits line with
    | .ok _ => none
    | .error e => some (.error (.line number) e)

/-- One word to a line, each with a line feed after it. -/
def toText (words : List Word) : List Char := words.flatMap fun w => w.bits ++ ['\n']

/-- The content of a file that holds words. -/
def encode (layout : Layout) (words : List Word) : ByteArray :=
  match layout with
  | .text => (String.ofList (toText words)).toUTF8
  | .binary => ⟨(bytesOfWords words).toArray⟩

/-- Why the content of a file is no image. -/
inductive Fault where
  | notUtf8
  | oddBytes
deriving DecidableEq, Repr

/-- The image that a file holds. -/
def decode (layout : Layout) (content : ByteArray) : Except Fault Image :=
  match layout with
  | .text =>
    match String.fromUTF8? content with
    | some s => .ok (ofText s.toList)
    | none => .error .notUtf8
  | .binary =>
    match wordsOfBytes content.data.toList with
    | (words, none) => .ok ⟨words, []⟩
    | (_, some _) => .error .oddBytes

end Image

end Hue

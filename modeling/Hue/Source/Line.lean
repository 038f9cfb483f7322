import Hue.Error
import Hue.Text.Split

/-!
The parts of a source line: a comment, a label, and the body after them.
-/
namespace Hue.Source

/-- A line without its comment and the blanks around it. A hash sign that starts a line makes
all of it a comment; elsewhere a comment starts at a semicolon. -/
def stripComment (line : List Char) : List Char :=
  if (Text.trimStart line).head? = some '#' then []
  else Text.trim (line.takeWhile (· != ';'))

def isLabelStart (c : Char) : Bool := c.isAlpha || c == '_' || c == '.'

def isLabelPart (c : Char) : Bool := c.isAlphanum || c == '_' || c == '.'

/-- A label is an ASCII letter, underscore or dot, then any of these and digits. -/
def isLabelName : List Char → Bool
  | [] => false
  | c :: cs => isLabelStart c && cs.all isLabelPart

/-- The label in front of a line and the body after it. A label is the first field when that
ends in a colon. The body starts as many bytes into the line as the label is long, which is right
for a line without blanks in front. -/
def splitLabel (line : List Char) : Except Error (Option String × List Char) :=
  let head := Text.firstField line
  if head.getLast? = some ':' then
    if isLabelName head.dropLast then
      match Text.dropBytes? (Text.byteSize head) line with
      | some rest => .ok (some (String.ofList head.dropLast), Text.trim rest)
      | none => .error (.splitCharacter (String.ofList line) (Text.byteSize head))
    else .error (.unrecognizedLine (String.ofList line))
  else .ok (none, line)

end Hue.Source

import Hue.Text.Blank

/-!
Cutting a text into pieces: at separators, at line ends, and at a byte offset.
Every piece list is a fold over the characters, so no piece is ever looked up by position.
-/
namespace Hue.Text

/-- Puts a character in front of the first piece. -/
def consPiece (c : Char) : List (List Char) → List (List Char)
  | [] => [[c]]
  | piece :: pieces => (c :: piece) :: pieces

/-- The pieces between the characters that satisfy `p`. There is one more piece than there
are such characters, and pieces may be empty. -/
def splitWhere (p : Char → Bool) (cs : List Char) : List (List Char) :=
  cs.foldr (fun c pieces => if p c then [] :: pieces else consPiece c pieces) [[]]

/-- The nonempty pieces between the characters that satisfy `p`. -/
def fields (p : Char → Bool) (cs : List Char) : List (List Char) :=
  (splitWhere p cs).filter fun piece => !piece.isEmpty

/-- The first field of a text cut at blanks, empty when there is none. -/
def firstField (cs : List Char) : List Char :=
  (trimStart cs).takeWhile fun c => !isBlank c

/-- A line without the carriage return that ends it. -/
def dropReturn (line : List Char) : List Char :=
  if line.getLast? = some '\r' then line.dropLast else line

/-- The lines of a text. A line ends at a line feed, and a carriage return right before that
line feed belongs to the line end. What follows the last line feed is a line of its own unless
it is empty, and keeps its carriage return. -/
def lines (cs : List Char) : List (List Char) :=
  let pieces := splitWhere (· == '\n') cs
  pieces.dropLast.map dropReturn ++ (pieces.getLast?.toList.filter fun piece => !piece.isEmpty)

/-- The number of bytes of the UTF-8 form of a text. -/
def byteSize (cs : List Char) : Nat := cs.foldr (fun c size => c.utf8Size + size) 0

/-- The text from byte offset `n` of its UTF-8 form on. There is none when the offset lies
inside a character or past the end. -/
def dropBytes? : Nat → List Char → Option (List Char)
  | 0, cs => some cs
  | _ + 1, [] => none
  | n + 1, c :: cs =>
    if c.utf8Size ≤ n + 1 then dropBytes? (n + 1 - c.utf8Size) cs else none

/-- The text after its leading part `start`, when it has that leading part and something
follows it. -/
def dropLeading? (start cs : List Char) : Option (List Char) :=
  if start.isPrefixOf cs && start.length < cs.length then some (cs.drop start.length) else none

end Hue.Text

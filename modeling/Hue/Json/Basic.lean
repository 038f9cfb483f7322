/-!
JSON values and their indented layout. The type of strings is a parameter: a document that is
written holds texts, while one that is read holds UTF-16 units, since an escape may name half
of a surrogate pair.
-/
namespace Hue

/-- A JSON value with strings of type `σ`. A number is its literal. -/
inductive Json (σ : Type) where
  | null
  | bool (b : Bool)
  | number (literal : String)
  | string (s : σ)
  | array (items : List (Json σ))
  | object (fields : List (σ × Json σ))

namespace Json

def ofNat {σ : Type} (n : Nat) : Json σ := .number (toString n)

/-- The escape of a character inside a string literal, or the character itself. -/
def escaped (c : Char) : List Char :=
  match c with
  | '"' => ['\\', '"']
  | '\\' => ['\\', '\\']
  | '\x08' => ['\\', 'b']
  | '\t' => ['\\', 't']
  | '\n' => ['\\', 'n']
  | '\x0c' => ['\\', 'f']
  | '\r' => ['\\', 'r']
  | c =>
    if c.toNat < 0x20 then ['\\', 'u'] ++ (Nat.toDigits 16 c.toNat).leftpad 4 '0' else [c]

def quoted (s : String) : String := String.ofList ('"' :: s.toList.flatMap escaped ++ ['"'])

/-- The entries of a container, each on a line of its own two columns inside the brackets. -/
def block (depth : Nat) (first last : String) (entries : List String) : String :=
  if entries.isEmpty then first ++ last
  else
    let margin := "".pushn ' ' (2 * depth)
    first ++ "\n" ++ ",\n".intercalate (entries.map fun entry => margin ++ "  " ++ entry) ++
      "\n" ++ margin ++ last

mutual

/-- The layout of a value that stands `depth` containers deep. -/
def layout (depth : Nat) : Json String → String
  | null => "null"
  | bool true => "true"
  | bool false => "false"
  | number literal => literal
  | string s => quoted s
  | array items => block depth "[" "]" (layoutItems (depth + 1) items)
  | object fields => block depth "\x7b" "\x7d" (layoutFields (depth + 1) fields)

def layoutItems (depth : Nat) : List (Json String) → List String
  | [] => []
  | item :: items => layout depth item :: layoutItems depth items

def layoutFields (depth : Nat) : List (String × Json String) → List String
  | [] => []
  | (key, item) :: fields =>
    (quoted key ++ ": " ++ layout depth item) :: layoutFields depth fields

end

/-- The value with one entry to a line and two columns of indentation. -/
def pretty (v : Json String) : String := layout 0 v

end Json

end Hue

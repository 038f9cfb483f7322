import Hue.Encoding

/-!
Disassembling words into a listing. Every address that a branch goes to gets a label named after
it, in front of the word there, and branches name these labels. A branch to the end of the
program has a label after the last word; one that goes further is listed as a raw word.
-/
namespace Hue

/-- A word with its instruction, or a word that holds none. -/
inductive Slot where
  | decoded (word : Word) (instruction : Instruction)
  | raw (word : Word)
deriving DecidableEq, Repr

namespace Slot

def ofWord (w : Word) : Slot :=
  match w.decode with
  | .ok i => .decoded w i
  | .error _ => .raw w

def word : Slot → Word
  | decoded w _ => w
  | raw w => w

def branchTarget? : Slot → Option Nat
  | decoded _ i => i.branchTarget?
  | raw _ => none

end Slot

/-- A diagnostic for each word that holds no instruction. -/
def decodeFaults (words : List Word) : List Diagnostic :=
  words.zipIdx.filterMap fun (w, index) =>
    match w.decode with
    | .ok _ => none
    | .error e => some (.error (.word index) e)

/-- Inserts a number into an ascending row, unless it is there. -/
def insertAscending (n : Nat) : List Nat → List Nat
  | [] => [n]
  | m :: ms =>
    if n < m then n :: m :: ms
    else if n = m then m :: ms
    else m :: insertAscending n ms

/-- The addresses that branches go to, ascending and without repetition. -/
def branchTargets (slots : List Slot) : List Nat :=
  (slots.filterMap Slot.branchTarget?).foldr insertAscending []

/-- The name of the label at an address. -/
def labelName (address : Nat) : String := "BRANCH" ++ toString address

/-- The instruction with the address that it goes to replaced by the label there. -/
def Instruction.named (i : Instruction) : Instruction :=
  match i.branchTarget? with
  | some address => { i with operands := .branch (.label (labelName address)) }
  | none => i

inductive ListingLine where
  | label (name : String)
  | instruction (index : Nat) (word : Word) (text : String)
  | raw (index : Nat) (word : Word)
deriving DecidableEq, Repr

def ListingLine.text : ListingLine → String
  | label name => name ++ ":"
  | instruction _ _ text => text
  | raw _ word => ".word " ++ word.hex

structure Listing where
  slots : List Slot
  lines : List ListingLine
  diagnostics : List Diagnostic

namespace Listing

/-- The label at a position, if a branch goes there and can name it. -/
def labelLines (targets : List Nat) (position : Nat) : List ListingLine :=
  if position ≤ maxAddress ∧ targets.contains (addressOf position) then
    [.label (labelName (addressOf position))]
  else []

/-- The line of a slot in a program of `count` words. -/
def slotLine (count index : Nat) : Slot → ListingLine
  | .raw w => .raw index w
  | .decoded w i =>
    match i.branchTarget? with
    | some target =>
      if count < target then .raw index w else .instruction index w i.named.text
    | none => .instruction index w i.named.text

/-- A branch to the end of the program or beyond. -/
def dangling? (count index : Nat) (slot : Slot) : Option Diagnostic :=
  match slot.branchTarget? with
  | some target =>
    if count ≤ target then some (.warning (.word index) (.danglingTarget target count)) else none
  | none => none

/-- The listing of slots, with a warning for each branch out of the program. -/
def ofSlots (slots : List Slot) : Listing :=
  let targets := branchTargets slots
  let count := slots.length
  { slots
    lines :=
      (slots.zipIdx.flatMap fun (slot, index) =>
        labelLines targets index ++ [slotLine count index slot]) ++ labelLines targets count
    diagnostics := slots.zipIdx.filterMap fun (slot, index) => dangling? count index slot }

/-- The listing of words. Words that hold no instruction are reported first. -/
def disassemble (words : List Word) : Listing :=
  let listing := ofSlots (words.map Slot.ofWord)
  { listing with diagnostics := decodeFaults words ++ listing.diagnostics }

def hasErrors (listing : Listing) : Bool := listing.diagnostics.any Diagnostic.isError

/-- Every line, each with a line feed after it. -/
def text (listing : Listing) : String :=
  String.join (listing.lines.map fun line => line.text ++ "\n")

end Listing

end Hue

import Hue.Text.Split
import Hue.Tool.Files

/-!
A directory held in memory, with files and no directories in it. A path is followed name by name
from the directory. Nothing is known of what lies outside: no file is found there, and what is
written there is not kept.
-/
namespace Hue.Tool

structure Directory where
  files : List (String × ByteArray)

namespace Directory

def get? (dir : Directory) (name : String) : Option ByteArray := dir.files.lookup name

/-- The directory with one file put in, in the place of one of that name. -/
def put (dir : Directory) (name : String) (content : ByteArray) : Directory :=
  ⟨(name, content) :: dir.files.filter (·.1 != name)⟩

/-- The most bytes that a path may have. -/
def pathLimit : Nat := 4095

/-- The most bytes that a name on a path may have. -/
def nameLimit : Nat := 255

/-- A directory on the way of a path: the one that is modelled, or any other. -/
inductive Folder where
  | here
  | outside
deriving DecidableEq, Repr

/-- Where a path leads: to a directory, or to an entry of one, which need not exist. -/
inductive Place where
  | directory
  | entry (folder : Folder) (name : String)
deriving DecidableEq, Repr

/-- The content of the file of a name. -/
def readEntry (dir : Directory) (folder : Folder) (name : String) :
    Except FileError ByteArray :=
  if nameLimit < name.utf8ByteSize then .error .nameTooLong
  else
    match folder, dir.get? name with
    | .here, some content => .ok content
    | _, _ => .error .notFound

/-- Puts a file of a name. -/
def writeEntry (dir : Directory) (folder : Folder) (name : String) (content : ByteArray) :
    Except FileError Directory :=
  if nameLimit < name.utf8ByteSize then .error .nameTooLong
  else
    match folder with
    | .here => .ok (dir.put name content)
    | .outside => .ok dir

/-- Why a path cannot go on through an entry. -/
def barrier (dir : Directory) (folder : Folder) (name : String) : FileError :=
  match dir.readEntry folder name with
  | .ok _ => .notDirectory
  | .error e => e

/-- Follows names from a directory. A dot stays there and two dots lead out of it. -/
def follow (dir : Directory) (folder : Folder) : List String → Except FileError Place
  | [] => .ok .directory
  | name :: names =>
    if name = "." then dir.follow folder names
    else if name = ".." then dir.follow .outside names
    else if names.isEmpty then .ok (.entry folder name)
    else .error (dir.barrier folder name)

/-- The names between the slashes of a path. -/
def pathNames (path : String) : List String :=
  (Text.fields (· == '/') path.toList).map String.ofList

def startsWithSlash (path : String) : Bool := path.toList.head? == some '/'

def endsWithSlash (path : String) : Bool := path.toList.getLast? == some '/'

def place (dir : Directory) (path : String) : Except FileError Place :=
  if pathLimit < path.utf8ByteSize then .error .nameTooLong
  else dir.follow (if startsWithSlash path then .outside else .here) (pathNames path)

/-- The content of the file that a path names. An entry with a slash after it has to be a
directory. -/
def read (dir : Directory) (path : String) : Except FileError ByteArray :=
  match dir.place path with
  | .error e => .error e
  | .ok .directory => .error .isDirectory
  | .ok (.entry folder name) =>
    if endsWithSlash path then .error (dir.barrier folder name) else dir.readEntry folder name

/-- The directory after a file is written. No file is made from a name with a slash after it,
whether there is one or not. -/
def write (dir : Directory) (path : String) (content : ByteArray) : Except FileError Directory :=
  match dir.place path with
  | .error e => .error e
  | .ok .directory => .error .isDirectory
  | .ok (.entry folder name) =>
    if endsWithSlash path then .error .isDirectory else dir.writeEntry folder name content

end Directory

instance : FileAccess (StateM Directory) where
  read path := do return (← get).read path
  write path content := do
    match (← get).write path content with
    | .ok dir => set dir; return .ok ()
    | .error e => return .error e

end Hue.Tool

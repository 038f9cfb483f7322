import Hue.Text.Split

/-!
Command lines. Arguments are read from left to right, and the first one that cannot be accepted,
or that asks for help or the version, ends the reading. An option is given at most once. Its
value follows it as the next argument, after an equals sign, or right after its letter. A value
in an argument of its own does not start with a dash, a lone dash excepted. Two dashes end the
options.
-/
namespace Hue.Tool

/-- An option of a command. A switch takes no value. -/
structure CommandOption where
  name : String
  letter : Option Char := none
  takesValue : Bool := true
  /-- The values that the option allows. -/
  accepts : String → Bool

structure Command where
  options : List CommandOption
  /-- The names of the options that must be given. -/
  required : List String
  /-- The number of operands, which are all needed. -/
  operands : Nat

/-- Options with their values, and operands. -/
structure Arguments where
  options : List (String × String) := []
  operands : List String := []
deriving DecidableEq, Repr

/-- Why the arguments do not lead to a run. -/
inductive Stop where
  | usage
  | help
  | version
deriving DecidableEq, Repr

/-- Any text but the empty one can be a path. -/
def isPath (value : String) : Bool := !value.isEmpty

/-- The outer form of an argument. -/
inductive Shape where
  | escape
  | long (name : String) (value : Option String)
  | short (letter : Char) (rest : List Char)
  | plain

def Shape.ofArgument (arg : String) : Shape :=
  match arg.toList with
  | ['-', '-'] => .escape
  | '-' :: '-' :: cs =>
    let name := cs.takeWhile (· != '=')
    .long (String.ofList name)
      (if cs.contains '=' then some (String.ofList (cs.drop (name.length + 1))) else none)
  | '-' :: c :: cs => .short c cs
  | _ => .plain

/-- What an argument leads to: more arguments read, an option that needs the next argument for
its value, or the end of the options. -/
inductive Step where
  | taken (arguments : Arguments)
  | needsValue (opt : CommandOption)
  | endOfOptions

namespace Arguments

def value? (arguments : Arguments) (name : String) : Option String :=
  arguments.options.lookup name

def has (arguments : Arguments) (name : String) : Bool := (arguments.value? name).isSome

/-- Adds an option with a value that it allows. -/
def give (arguments : Arguments) (opt : CommandOption) (value : String) :
    Except Stop Arguments :=
  if arguments.has opt.name || !opt.accepts value then .error .usage
  else .ok { arguments with options := arguments.options ++ [(opt.name, value)] }

end Arguments

namespace Command

def longOption (command : Command) (arguments : Arguments) (name : String)
    (value : Option String) : Except Stop Step :=
  match command.options.find? (·.name == name), value with
  | some opt, some value =>
    if opt.takesValue then (arguments.give opt value).map .taken else .error .usage
  | some opt, none =>
    if opt.takesValue then .ok (.needsValue opt) else (arguments.give opt "").map .taken
  | none, none =>
    if name == "help" then .error .help
    else if name == "version" then .error .version
    else .error .usage
  | none, some _ => .error .usage

def shortOption (command : Command) (arguments : Arguments) (letter : Char) (rest : List Char) :
    Except Stop Step :=
  match command.options.find? (·.letter == some letter), rest with
  | some opt, [] => .ok (.needsValue opt)
  | some opt, '=' :: value => (arguments.give opt (String.ofList value)).map .taken
  | some opt, value => (arguments.give opt (String.ofList value)).map .taken
  | none, _ =>
    if letter = 'h' then .error .help
    else if letter = 'V' then .error .version
    else .error .usage

def operand (command : Command) (arguments : Arguments) (value : String) :
    Except Stop Arguments :=
  if arguments.operands.length < command.operands && isPath value then
    .ok { arguments with operands := arguments.operands ++ [value] }
  else .error .usage

/-- Reads one argument. -/
def step (command : Command) (arguments : Arguments) (arg : String) : Except Stop Step :=
  match Shape.ofArgument arg with
  | .escape => .ok .endOfOptions
  | .long name value => command.longOption arguments name value
  | .short letter rest => command.shortOption arguments letter rest
  | .plain => (command.operand arguments arg).map .taken

/-- Whether an argument can be the value of the option before it. -/
def isValue (arg : String) : Bool :=
  match Shape.ofArgument arg with
  | .plain => true
  | _ => false

def scan (command : Command) (arguments : Arguments) : List String → Except Stop Arguments
  | [] => .ok arguments
  | arg :: args =>
    match command.step arguments arg with
    | .error stop => .error stop
    | .ok (.taken arguments) => scan command arguments args
    | .ok .endOfOptions => args.foldlM command.operand arguments
    | .ok (.needsValue opt) =>
      match args with
      | [] => .error .usage
      | value :: args =>
        if isValue value then
          match arguments.give opt value with
          | .error stop => .error stop
          | .ok arguments => scan command arguments args
        else .error .usage

/-- The arguments of a complete command line. -/
def read (command : Command) (args : List String) : Except Stop Arguments :=
  match command.scan {} args with
  | .error stop => .error stop
  | .ok arguments =>
    if command.required.all arguments.has && arguments.operands.length = command.operands then
      .ok arguments
    else .error .usage

end Command

end Hue.Tool

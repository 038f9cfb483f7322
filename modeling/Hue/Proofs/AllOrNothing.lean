import Hue.Proofs.Accounting
import Hue.Proofs.Arguments
import Hue.Proofs.Directory
import Hue.Proofs.Outcome
import Hue.Tool.Assembler

/-!
The assembler writes all or nothing. Everything that can refuse a run is looked at before the
first file is written, so a refused run leaves the files as they were; any other run writes the
words, whatever lines were rejected on the way, and prints a line about each of these.
-/
namespace Hue.Tool.Assembler

open Source Files FileLaws

/-! ## What the command line says -/

theorem wellFormed_command : command.WellFormed where
  named := by decide
  lettered := by simp [command]
  names := by simp [command]
  letters := by simp [command]

/-- The command line can be read and asks for a run with the options. -/
def Asks (args : List String) (options : Options) : Prop :=
  command.Asks Options.ofArguments? args options

/-- The options of a run, as the words of the command line say them. -/
structure Says (args : List String) (options : Options) : Prop where
  input : ∀ path, Gives args "input" (some 'i') path ↔ path = options.input
  output : ∀ path, Gives args "output" (some 'o') path ↔ path = options.output
  binary : Gives args "format" none "bin" ↔ options.layout = .binary
  strict : "--strict" ∈ optionWords args ↔ options.strict = true
  settings : ∀ path, Gives args "config" none path ↔ options.settings = some path
  symbols : ∀ path, Gives args "symbols-out" none path ↔ options.symbols = some path

theorem ofArguments?_eq_some {arguments : Arguments} {options : Options}
    (h : Options.ofArguments? arguments = some options) :
    arguments.value? "input" = some options.input ∧
      arguments.value? "output" = some options.output ∧
      Layout.ofName? ((arguments.value? "format").getD "text") = some options.layout ∧
      arguments.has "strict" = options.strict ∧ arguments.value? "config" = options.settings ∧
      arguments.value? "symbols-out" = options.symbols := by
  simp only [Options.ofArguments?, bind, Option.bind_eq_some_iff] at h
  obtain ⟨input, hinput, output, houtput, layout, hlayout, h⟩ := h
  obtain rfl := Option.some.inj h
  exact ⟨hinput, houtput, hlayout, rfl, rfl, rfl⟩

theorem layout_eq_binary_iff {format : Option String} {layout : Layout}
    (h : Layout.ofName? (format.getD "text") = some layout) :
    format = some "bin" ↔ layout = .binary := by
  have hname : layout.name = format.getD "text" := by simpa using List.find?_some h
  constructor
  · rintro rfl
    cases layout with
    | text => exact absurd hname (by decide)
    | binary => rfl
  · rintro rfl
    cases format with
    | none => exact absurd hname (by decide)
    | some name => exact congrArg some hname.symm

theorem says_of_asks {args : List String} {options : Options} (h : Asks args options) :
    Says args options := by
  obtain ⟨arguments, hread, hoptions⟩ := h
  obtain ⟨hinput, houtput, hlayout, hstrict, hsettings, hsymbols⟩ := ofArguments?_eq_some hoptions
  have hgives (position : Nat) {opt : CommandOption} {value : String}
      (hopt : command.options[position]? = some opt) (htakes : opt.takesValue = true) :
      arguments.value? opt.name = some value ↔ Gives args opt.name opt.letter value :=
    Command.value?_iff_gives wellFormed_command hread (List.mem_of_getElem? hopt) htakes
  have hswitch {opt : CommandOption} (hopt : command.options[3]? = some opt)
      (htakes : opt.takesValue = false) :
      arguments.has opt.name = true ↔ "--" ++ opt.name ∈ optionWords args :=
    Command.has_iff_mem wellFormed_command hread (List.mem_of_getElem? hopt) htakes
  refine ⟨fun path => ?_, fun path => ?_, ?_, ?_, fun path => ?_, fun path => ?_⟩
  · rw [← hgives 0 rfl rfl, hinput, Option.some.injEq, eq_comm]
  · rw [← hgives 1 rfl rfl, houtput, Option.some.injEq, eq_comm]
  · rw [← hgives 2 rfl rfl]
    exact layout_eq_binary_iff hlayout
  · rw [← hstrict]
    exact (hswitch rfl rfl).symm
  · rw [← hgives 4 rfl rfl, hsettings]
  · rw [← hgives 5 rfl rfl, hsymbols]

/-- A command line that was read gives everything that a run needs. -/
theorem exists_asks {args : List String} {arguments : Arguments}
    (h : command.read args = .ok arguments) : ∃ options, Asks args options := by
  obtain ⟨-, -, hrequired, -⟩ := Command.read_eq_ok wellFormed_command h
  obtain ⟨input, hinput⟩ := Option.isSome_iff_exists.mp (hrequired "input" (by decide))
  obtain ⟨output, houtput⟩ := Option.isSome_iff_exists.mp (hrequired "output" (by decide))
  obtain ⟨layout, hlayout⟩ : ∃ layout,
      Layout.ofName? ((arguments.value? "format").getD "text") = some layout := by
    cases hformat : arguments.value? "format" with
    | none => exact ⟨.text, by decide⟩
    | some value =>
      obtain ⟨opt, hopt, hname, haccepts⟩ := Command.accepts_of_value? wellFormed_command h hformat
      simp only [command, List.mem_cons, List.not_mem_nil, or_false] at hopt
      rcases hopt with rfl | rfl | rfl | rfl | rfl | rfl
      case inr.inr.inl => exact Option.isSome_iff_exists.mp haccepts
      all_goals exact absurd hname (by decide)
  exact ⟨_, arguments, h, by simp only [Options.ofArguments?, hinput, houtput, hlayout]; rfl⟩

/-! ## What a run reads -/

section

variable {σ : Type} [FileAccess (StateM σ)]

/-- The settings that a run starts from: those of the file that the command line names, or the usual
ones. -/
inductive Starts (s : σ) (options : Options) : Settings → Prop where
  | usual : options.settings = none → Starts s options ⟨.skip, some "0x1F6"⟩
  | file {path : String} {text : List Char} {settings : Settings} :
      options.settings = some path → text? s path = some text →
      Settings.read? text = some settings → Starts s options settings

/-- The settings of a run: those it starts from, but a strict run allows no unrecognized line. -/
def Effective (s : σ) (options : Options) (settings : Settings) : Prop :=
  ∃ start, Starts s options start ∧ settings.operandPrefix = start.operandPrefix ∧
    settings.unrecognized = if options.strict then .fail else start.unrecognized

def start? (s : σ) (options : Options) : Option Settings :=
  match options.settings with
  | none => some {}
  | some path => (text? s path).bind Settings.read?

/-- The settings of a run, if they can be read. -/
def settings? (s : σ) (options : Options) : Option Settings :=
  (start? s options).bind fun start => some (if options.strict then start.strict else start)

/-- The result of assembling the input under the settings, if there is one. -/
def assembled? (s : σ) (options : Options) : Option Assembly := do
  let settings ← settings? s options
  let source ← text? s options.input
  (Assembly.assemble settings source).toOption

theorem start?_eq_some_iff {s : σ} {options : Options} {start : Settings} :
    start? s options = some start ↔ Starts s options start := by
  unfold start?
  constructor
  · intro h
    split at h
    case h_1 hnone =>
      cases h
      exact .usual hnone
    case h_2 path hpath =>
      obtain ⟨text, htext, hread⟩ := Option.bind_eq_some_iff.mp h
      exact .file hpath htext hread
  · intro h
    cases h with
    | usual hnone =>
      rw [hnone]
    | file hpath htext hread =>
      rw [hpath]
      exact Option.bind_eq_some_iff.mpr ⟨_, htext, hread⟩

theorem settings?_eq_some_iff {s : σ} {options : Options} {settings : Settings} :
    settings? s options = some settings ↔ Effective s options settings := by
  have hstrict (start : Settings) :
      (if options.strict then start.strict else start) = settings ↔
        settings.operandPrefix = start.operandPrefix ∧
          settings.unrecognized = if options.strict then .fail else start.unrecognized := by
    obtain ⟨unrecognized, operandPrefix⟩ := settings
    obtain ⟨policy, startPrefix⟩ := start
    cases options.strict <;> simp [Settings.strict, and_comm, eq_comm]
  simp only [settings?, Option.bind_eq_some_iff, Option.some.injEq, hstrict, start?_eq_some_iff,
    Effective]

/-- Settings are missing only where a file is named that cannot be read, or does not hold any. -/
theorem settings?_eq_none_iff {s : σ} {options : Options} :
    settings? s options = none ↔ ∃ path, options.settings = some path ∧
      (text? s path = none ∨ ∃ text, text? s path = some text ∧ Settings.read? text = none) := by
  unfold settings? start?
  split
  case h_1 hnone => simp [hnone]
  case h_2 path hpath =>
    cases htext : text? s path with
    | none => simp [hpath, htext]
    | some text => cases hread : Settings.read? text <;> simp [hpath, htext, hread]

/-! ## What refuses a run -/

/-- The run has nothing to write: something that it reads is missing or wrong, or there are errors
and not a single word. -/
inductive Refused (s : σ) (options : Options) : Prop where
  | settingsUnread {path : String} (hpath : options.settings = some path) (h : text? s path = none)
  | settingsWrong {path : String} {text : List Char} (hpath : options.settings = some path)
      (htext : text? s path = some text) (h : Settings.read? text = none)
  | input (h : text? s options.input = none)
  | assembling {settings : Settings} {source : List Char} {e : Error}
      (hsettings : Effective s options settings) (hsource : text? s options.input = some source)
      (h : Assembly.assemble settings source = .error e)
  | noWords {settings : Settings} {source : List Char} {a : Assembly}
      (hsettings : Effective s options settings) (hsource : text? s options.input = some source)
      (h : Assembly.assemble settings source = .ok a)
      (hwords : a.words = []) (herror : ∃ d ∈ a.diagnostics, d.severity = .error)

theorem isFailure_iff (a : Assembly) :
    a.isFailure = true ↔ a.words = [] ∧ ∃ d ∈ a.diagnostics, d.severity = .error := by
  simp [Assembly.isFailure, Assembly.hasErrors, Diagnostic.isError]

theorem assembled?_of_assemble {s : σ} {options : Options} {settings : Settings}
    {source : List Char} (hsettings : Effective s options settings)
    (hsource : text? s options.input = some source) :
    assembled? s options = (Assembly.assemble settings source).toOption := by
  simp [assembled?, settings?_eq_some_iff.mpr hsettings, hsource]

/-- A run that is not refused has an assembly to write. -/
theorem exists_assembly_of_not_refused {s : σ} {options : Options} (h : ¬ Refused s options) :
    ∃ settings source a, Effective s options settings ∧ text? s options.input = some source ∧
      Assembly.assemble settings source = .ok a ∧ a.isFailure = false := by
  cases hsettings : settings? s options with
  | none =>
    obtain ⟨path, hpath, htext | ⟨text, htext, hread⟩⟩ := settings?_eq_none_iff.mp hsettings
    · exact absurd (.settingsUnread hpath htext) h
    · exact absurd (.settingsWrong hpath htext hread) h
  | some settings =>
    rw [settings?_eq_some_iff] at hsettings
    cases hsource : text? s options.input with
    | none => exact absurd (.input hsource) h
    | some source =>
      cases hassemble : Assembly.assemble settings source with
      | error e => exact absurd (.assembling hsettings hsource hassemble) h
      | ok a =>
        refine ⟨settings, source, a, hsettings, rfl, hassemble, ?_⟩
        rw [← Bool.not_eq_true, isFailure_iff]
        rintro ⟨hwords, herror⟩
        exact h (.noWords hsettings hsource hassemble hwords herror)

/-! ## What a run prints -/

/-- Diagnostics about lines of a file and the text that shows them, one line for each in their
order. -/
inductive Notes (path : String) : List Diagnostic → String → Prop where
  | none : Notes path [] ""
  | error {number : Nat} {cause : Error} {diagnostics : List Diagnostic} {text : String} :
      Notes path diagnostics text →
      Notes path (⟨.line number, .error, cause⟩ :: diagnostics)
        (path ++ ": line " ++ toString number ++ ": error: " ++ cause.message ++ "\n" ++ text)
  | warning {number : Nat} {cause : Error} {diagnostics : List Diagnostic} {text : String} :
      Notes path diagnostics text →
      Notes path (⟨.line number, .warning, cause⟩ :: diagnostics)
        (path ++ ": line " ++ toString number ++ ": warning: " ++ cause.message ++ "\n" ++ text)

theorem notes_notesOn (path : String) {diagnostics : List Diagnostic} {numbers : List Nat}
    (h : diagnostics.map Diagnostic.location = numbers.map Location.line) :
    Notes path diagnostics (notesOn path diagnostics) := by
  induction diagnostics generalizing numbers with
  | nil => exact .none
  | cons d diagnostics ih =>
    obtain ⟨number, numbers, rfl, hnumber, hrest⟩ := List.map_eq_cons_iff.mp h.symm
    obtain ⟨location, severity, cause⟩ := d
    obtain rfl : Location.line number = location := hnumber
    have hline (severity : Severity) :
        notesOn path (⟨.line number, severity, cause⟩ :: diagnostics) =
          path ++ ": line " ++ toString number ++ (": " ++ severity.name ++ ": ") ++
            cause.message ++ "\n" ++ notesOn path diagnostics := by
      rw [notesOn, List.map_cons, String.join_cons]
      apply String.toList_inj.mp
      simp [Diagnostic.text, Location.kind, Location.position, notesOn]
    rw [hline]
    cases severity with
    | error => exact .error (ih hrest.symm)
    | warning => exact .warning (ih hrest.symm)

end

/-! ## Running -/

section

variable {σ File : Type} [FileAccess (StateM σ)] [laws : FileLaws σ File]

include laws

theorem reads_readSettings (options : Options) (s : σ) :
    Reads (readSettings options) s (settings? s options) := by
  have hstrict (start : Settings) :=
    Reads.pure (if options.strict then start.strict else start) s
  unfold readSettings settings? start?
  cases options.settings with
  | none => exact Reads.bind (Reads.pure _ s) hstrict
  | some path =>
    dsimp only
    rw [Option.bind_assoc]
    apply Reads.bind (reads_readText path s)
    intro cs
    cases Settings.read? cs with
    | none => exact Reads.bind (Reads.throw _ s) hstrict
    | some start => exact Reads.bind (Reads.pure start s) hstrict

theorem reads_assembleInput (options : Options) (s : σ) :
    Reads (assembleInput options) s (assembled? s options) := by
  apply Reads.bind (reads_readSettings options s)
  intro settings
  apply Reads.bind (reads_readText options.input s)
  intro source
  cases Assembly.assemble settings source with
  | error e => exact Reads.throw _ s
  | ok a => exact Reads.pure a s

theorem runWith_of_unread {s : σ} {options : Options} (h : assembled? s options = none) :
    ∃ stderr, exec s (runWith options) = (⟨1, "", stderr⟩, s) := by
  have hread := reads_assembleInput options s
  rw [h] at hread
  obtain ⟨failure, hrun⟩ := hread.run_none
  exact ⟨_, run_bind_eq hrun⟩

/-- Every failure is found before a file is written. -/
theorem runWith_of_refused {s : σ} {options : Options} (h : Refused s options) :
    ∃ stderr, exec s (runWith options) = (⟨1, "", stderr⟩, s) := by
  have hunset (h : settings? s options = none) : assembled? s options = none := by
    simp [assembled?, h]
  cases h with
  | settingsUnread hpath h =>
    exact runWith_of_unread (hunset (settings?_eq_none_iff.mpr ⟨_, hpath, .inl h⟩))
  | settingsWrong hpath htext h =>
    exact runWith_of_unread (hunset (settings?_eq_none_iff.mpr ⟨_, hpath, .inr ⟨_, htext, h⟩⟩))
  | input h => exact runWith_of_unread (by simp [assembled?, h])
  | assembling hsettings hsource h =>
    exact runWith_of_unread (by rw [assembled?_of_assemble hsettings hsource, h]; rfl)
  | @noWords settings source a hsettings hsource h hwords herror =>
    have hread := reads_assembleInput options s
    rw [assembled?_of_assemble hsettings hsource, h] at hread
    have hfailure : a.isFailure = true := (isFailure_iff a).mpr ⟨hwords, herror⟩
    have hwrite : (writeResult options a : ExceptT Failure (StateM σ) Unit).run.run s =
        (.error (.noWords options.input), s) := by
      rw [writeResult, if_pos hfailure]
      rfl
    exact ⟨_, (run_bind_eq hread.run_some).trans (run_bind_eq hwrite)⟩

theorem runWith_of_written {s after : σ} {options : Options} {a : Assembly}
    (ha : assembled? s options = some a)
    (hwrite : (writeResult options a : ExceptT Failure (StateM σ) Unit).run.run s =
      (.ok (), after)) :
    exec s (runWith options) = (⟨0, "", notesOn options.input a.diagnostics⟩, after) := by
  have hread := reads_assembleInput options s
  rw [ha] at hread
  exact (run_bind_eq hread.run_some).trans (run_bind_eq hwrite)

end

/-! ## Writing -/

section

variable {σ File : Type} [FileAccess (StateM σ)] [FileLaws σ File]

/-- What the files are after a run has written the result of assembling. -/
structure Written (s after : σ) (options : Options) (a : Assembly) : Prop where
  /-- The words are in the output file, unless the symbols went to the same file. -/
  output : ∀ file, LeadsTo s options.output file →
    (∀ path ∈ options.symbols, ¬ LeadsTo s path file) →
      content? after file = some (Image.encode options.layout a.words)
  symbols : ∀ path ∈ options.symbols, ∀ file, LeadsTo s path file →
    content? after file = some (Json.ofSymbols a.symbols).pretty.toUTF8
  others : ∀ file, ¬ LeadsTo s options.output file →
    (∀ path ∈ options.symbols, ¬ LeadsTo s path file) → content? after file = content? s file

theorem exists_written {s : σ} {options : Options} {a : Assembly} (hok : a.isFailure = false)
    (hout : Writable s options.output) (hsym : ∀ path ∈ options.symbols, Writable s path) :
    ∃ after, (writeResult options a : ExceptT Failure (StateM σ) Unit).run.run s =
      (.ok (), after) ∧ Written s after options a := by
  obtain ⟨middle, hfirst⟩ := (writable_iff (Image.encode options.layout a.words)).mp hout
  have hwords := run_writeBytes hfirst (.writing options.output)
  unfold writeResult
  rw [if_neg (by simp [hok])]
  cases hsymbols : options.symbols with
  | none =>
    refine ⟨middle, run_bind_ok hwords, ?_, ?_, ?_⟩
    · intro file hfile _
      exact content?_of_write hfirst hfile
    · simp [hsymbols]
    · intro file hfile _
      exact content?_of_write_of_not hfirst hfile
  | some path =>
    obtain ⟨after, hsecond⟩ := (writable_iff (Json.ofSymbols a.symbols).pretty.toUTF8).mp
      (writable_of_write hfirst (hsym path hsymbols))
    -- where a path leads is the same before and after the first write
    have hpath (file : File) := leadsTo_of_write hfirst path file
    refine ⟨after, (run_bind_ok hwords).trans (run_writeBytes hsecond _), ?_, ?_, ?_⟩
    · intro file hfile hother
      rw [content?_of_write_of_not hsecond ((hpath file).not.mpr (hother path hsymbols))]
      exact content?_of_write hfirst hfile
    · intro path' hpath' file hfile
      obtain rfl : path = path' := by simpa [hsymbols] using hpath'
      exact content?_of_write hsecond ((hpath file).mpr hfile)
    · intro file hfile hother
      rw [content?_of_write_of_not hsecond ((hpath file).not.mpr (hother path hsymbols))]
      exact content?_of_write_of_not hfirst hfile

/-- A run on a command line that can be read has the options that the line says. It either is
refused and changes no file, or assembles its input under the settings in effect, writes the words,
and prints one line about each line that was rejected, in their order. -/
theorem writes_all_or_nothing {args : List String} {arguments : Arguments}
    (hargs : command.read args = .ok arguments) (s : σ) :
    ∃ options, Says args options ∧
      (Refused s options → ∃ stderr, exec s (run args) = (⟨1, "", stderr⟩, s)) ∧
      (¬ Refused s options → Writable s options.output →
        (∀ path ∈ options.symbols, Writable s path) →
        ∃ settings source a stderr after, Effective s options settings ∧
          text? s options.input = some source ∧ Assembly.assemble settings source = .ok a ∧
          exec s (run args) = (⟨0, "", stderr⟩, after) ∧
          Notes options.input a.diagnostics stderr ∧
          (∃ numbers : List Nat, a.diagnostics.map Diagnostic.location =
            numbers.map Location.line ∧ numbers.Pairwise (· < ·)) ∧
          Written s after options a) := by
  obtain ⟨options, hasks⟩ := exists_asks hargs
  have hrun : (run args : StateM σ Outcome) = runWith options :=
    Command.run_of_asks hasks usageText runWith
  rw [hrun]
  refine ⟨options, says_of_asks hasks, runWith_of_refused, ?_⟩
  intro hrefused hout hsym
  obtain ⟨settings, source, a, hsettings, hsource, hassemble, hok⟩ :=
    exists_assembly_of_not_refused hrefused
  obtain ⟨after, hwrite, hwritten⟩ := exists_written hok hout hsym
  have ha : assembled? s options = some a := by
    rw [assembled?_of_assemble hsettings hsource, hassemble]
    rfl
  obtain ⟨numbers, hlines, hascending⟩ := Assembly.ascending_diagnostics hassemble
  exact ⟨settings, source, a, _, after, hsettings, hsource, hassemble, runWith_of_written ha hwrite,
    notes_notesOn options.input hlines, ⟨numbers, hlines, hascending⟩, hwritten⟩

end

/-! ## A strict run -/

def strictLine : List String :=
  ["-i", "a.s", "--output=a.bin", "--format", "bin", "--strict", "--config", "a.json",
    "--symbols-out=a.map"]

def strictOptions : Options := ⟨"a.s", "a.bin", .binary, true, some "a.json", some "a.map"⟩

/-- An operand with the prefix of the settings, and two lines that are rejected. -/
def strictSource : String := "LOAD R1, 0x25\nLOAD R9, 1\nL: JUMP nowhere\nJUMP L\n"

def strictAssembled : Assembly where
  words := [0x3905, 0x4801]
  symbols := .ofSymbols [⟨"L", 1, 3⟩]
  diagnostics := [.error (.line 2) (.unknownRegister "R9"),
    .error (.line 3) (.undefinedLabel "nowhere")]

/-- Settings that skip unrecognized lines, and an old file in the place of the output. -/
def strictFiles (source : String) : Directory :=
  ⟨[("a.bin", ⟨#[7]⟩), ("a.json", "[\"skip\",\"0x2\"]".toUTF8), ("a.s", source.toUTF8)]⟩

theorem says_strictLine {options : Options} (h : Says strictLine options) :
    options = strictOptions := by
  have hplain {word : String} (hword : Command.isValue word = true) : Plain word :=
    Command.isValue_iff.mp hword
  have hinput := (h.input "a.s").mp ⟨_, .letter rfl (hplain rfl), [], _, rfl⟩
  have houtput := (h.output "a.bin").mp ⟨_, .nameEquals, ["-i", "a.s"], _, rfl⟩
  have hlayout := h.binary.mp
    ⟨_, .name (hplain rfl), ["-i", "a.s", "--output=a.bin"], _, rfl⟩
  have hstrict := h.strict.mp (by decide)
  have hsettings := (h.settings "a.json").mp ⟨_, .name (hplain rfl),
    ["-i", "a.s", "--output=a.bin", "--format", "bin", "--strict"], _, rfl⟩
  have hsymbols := (h.symbols "a.map").mp ⟨_, .nameEquals, ["-i", "a.s", "--output=a.bin",
    "--format", "bin", "--strict", "--config", "a.json"], _, rfl⟩
  obtain ⟨input, output, layout, strict, settings, symbols⟩ := options
  simp_all [strictOptions]

theorem text?_strictFiles (source : String) :
    text? (strictFiles source) "a.s" = some source.toList ∧
      text? (strictFiles source) "a.json" = some "[\"skip\",\"0x2\"]".toList :=
  ⟨text?_of_read (Directory.files_read_of_leadsTo ⟨rfl, rfl, by decide⟩ rfl),
    text?_of_read (Directory.files_read_of_leadsTo ⟨rfl, rfl, by decide⟩ rfl)⟩

theorem read?_settings : Settings.read? "[\"skip\",\"0x2\"]".toList = some ⟨.skip, some "0x2"⟩ := by
  have hopen : Json.Token.next? "[\"skip\",\"0x2\"]".toList =
      some (.leftBracket, "\"skip\",\"0x2\"]".toList) := rfl
  have hpolicy : Json.Token.next? "\"skip\",\"0x2\"]".toList =
      some (.string [115, 107, 105, 112], ",\"0x2\"]".toList) := rfl
  have hcomma : Json.Token.next? ",\"0x2\"]".toList = some (.comma, "\"0x2\"]".toList) := rfl
  have hoperand : Json.Token.next? "\"0x2\"]".toList =
      some (.string [48, 120, 50], "]".toList) := rfl
  have hclose : Json.Token.next? "]".toList = some (.rightBracket, []) := rfl
  have hscan : Json.Token.scan "[\"skip\",\"0x2\"]".toList =
      some [.leftBracket, .string [115, 107, 105, 112], .comma, .string [48, 120, 50],
        .rightBracket] := by
    refine (Json.Token.scanOnto_cons rfl hopen).trans ?_
    refine (Json.Token.scanOnto_cons rfl hpolicy).trans ?_
    refine (Json.Token.scanOnto_cons rfl hcomma).trans ?_
    refine (Json.Token.scanOnto_cons rfl hoperand).trans ?_
    refine (Json.Token.scanOnto_cons rfl hclose).trans ?_
    rw [Json.Token.scanOnto]
    rfl
  rw [Settings.read?, Json.read?, hscan]
  rfl

theorem effective_strictFiles_iff {source : String} {settings : Settings} :
    Effective (strictFiles source) strictOptions settings ↔ settings = ⟨.fail, some "0x2"⟩ := by
  have htext := (text?_strictFiles source).2
  constructor
  · rintro ⟨start, hstart, hoperand, hpolicy⟩
    cases hstart with
    | usual hnone => cases hnone
    | file hpath htext' hread =>
      obtain rfl := Option.some.inj hpath
      obtain rfl := Option.some.inj (htext.symm.trans htext')
      obtain rfl := Option.some.inj (read?_settings.symm.trans hread)
      obtain ⟨unrecognized, operandPrefix⟩ := settings
      obtain rfl : operandPrefix = _ := hoperand
      obtain rfl : unrecognized = _ := hpolicy
      rfl
  · rintro rfl
    exact ⟨_, .file rfl htext read?_settings, rfl, rfl⟩

theorem assemble_strictSource :
    Assembly.assemble ⟨.fail, some "0x2"⟩ strictSource.toList = .ok strictAssembled := by
  let front : List Item :=
    [⟨1, .statement (.instruction ⟨.load, .registerImmediate .r1 5⟩)⟩, ⟨3, .label "L"⟩]
  let dropped : Item := ⟨3, .statement (.instruction ⟨.jump, .branch (.label "nowhere")⟩)⟩
  let back : List Item := [⟨4, .statement (.instruction ⟨.jump, .branch (.label "L")⟩)⟩]
  have hread : readProgram ⟨.fail, some "0x2"⟩ strictSource.toList =
      .ok ⟨front ++ dropped :: back, [.error (.line 2) (.unknownRegister "R9")]⟩ := rfl
  have hbuild : SymbolTable.build (front ++ dropped :: back) =
      .ok (strictAssembled.symbols, 3) := rfl
  have hkeep : Assembly.keep (Assembly.undefined? strictAssembled.symbols)
      (front ++ dropped :: back) = front ++ back := rfl
  have hsettle : Assembly.settle (Assembly.keep (Assembly.undefined? strictAssembled.symbols)
      (front ++ dropped :: back)) = .ok ⟨strictAssembled.symbols, front ++ back, []⟩ := by
    rw [hkeep]
    exact Assembly.settle_of_fit rfl (by decide)
  have hwords : Assembly.wordsOf strictAssembled.symbols (front ++ back) =
      strictAssembled.words := rfl
  have hcomplaints : Assembly.complaints (Assembly.undefined? strictAssembled.symbols)
      (front ++ dropped :: back) = [.error (.line 3) (.undefinedLabel "nowhere")] := rfl
  have hsort : Assembly.inOrder strictAssembled.diagnostics = strictAssembled.diagnostics :=
    List.mergeSort_of_pairwise (by decide)
  rw [Assembly.assemble_of_stages hread hbuild hsettle, hcomplaints, hwords]
  exact congrArg (fun ds => Except.ok { strictAssembled with diagnostics := ds }) hsort

theorem not_refused_strictFiles : ¬ Refused (strictFiles strictSource) strictOptions := by
  obtain ⟨hsource, hsettings⟩ := text?_strictFiles strictSource
  intro h
  cases h with
  | settingsUnread hpath h =>
    obtain rfl := Option.some.inj hpath
    cases hsettings.symm.trans h
  | settingsWrong hpath htext h =>
    obtain rfl := Option.some.inj hpath
    obtain rfl := Option.some.inj (hsettings.symm.trans htext)
    cases read?_settings.symm.trans h
  | input h => cases hsource.symm.trans h
  | assembling heffective hsource' h =>
    obtain rfl := effective_strictFiles_iff.mp heffective
    obtain rfl := Option.some.inj (hsource.symm.trans hsource')
    cases assemble_strictSource.symm.trans h
  | noWords heffective hsource' h hwords _ =>
    obtain rfl := effective_strictFiles_iff.mp heffective
    obtain rfl := Option.some.inj (hsource.symm.trans hsource')
    obtain rfl := Except.ok.inj (assemble_strictSource.symm.trans h)
    cases hwords

/-- The settings of the file would skip the unrecognized line of the first source, but a strict run
refuses it. The second source has two lines that are rejected, and its other lines are written. -/
theorem strictLine_writes_all_or_nothing :
    (∃ stderr, exec (strictFiles "LOAD R1, 0x25\n...\n") (run strictLine) =
      (⟨1, "", stderr⟩, strictFiles "LOAD R1, 0x25\n...\n")) ∧
    ∃ after, exec (strictFiles strictSource) (run strictLine) =
        (⟨0, "", "a.s: line 2: error: unknown register `R9`\n" ++
          "a.s: line 3: error: undefined label `nowhere`\n"⟩, after) ∧
      after.get? "a.bin" = some ⟨#[0x39, 0x05, 0x48, 0x01]⟩ ∧
      after.get? "a.map" = some (Json.ofSymbols (.ofSymbols [⟨"L", 1, 3⟩])).pretty.toUTF8 ∧
      after.get? "a.s" = some strictSource.toUTF8 := by
  have hargs : command.read strictLine = .ok ⟨[("input", "a.s"), ("output", "a.bin"),
    ("format", "bin"), ("strict", ""), ("config", "a.json"), ("symbols-out", "a.map")], []⟩ := rfl
  constructor
  · obtain ⟨options, hsays, hrefused, -⟩ :=
      writes_all_or_nothing hargs (strictFiles "LOAD R1, 0x25\n...\n")
    obtain rfl := says_strictLine hsays
    exact hrefused (.assembling (effective_strictFiles_iff.mpr rfl) (text?_strictFiles _).1 rfl)
  · obtain ⟨options, hsays, -, hwritten⟩ := writes_all_or_nothing hargs (strictFiles strictSource)
    obtain rfl := says_strictLine hsays
    have hbin : (strictFiles strictSource).LeadsTo "a.bin" .here "a.bin" := ⟨rfl, rfl, by decide⟩
    have hmap : (strictFiles strictSource).LeadsTo "a.map" .here "a.map" := ⟨rfl, rfl, by decide⟩
    have hwritable : ∀ path ∈ strictOptions.symbols, Writable (strictFiles strictSource) path := by
      rintro path ⟨⟩
      exact ⟨.here, "a.map", hmap⟩
    have hapart {name : String} (hname : name ≠ "a.map") :
        ∀ path ∈ strictOptions.symbols, ¬ LeadsTo (strictFiles strictSource) path name := by
      rintro path ⟨⟩ hleads
      exact hname (hmap.unique hleads).2.symm
    obtain ⟨settings, source, a, stderr, after, heffective, hsource, hassemble, hrun, hnotes, -,
      hfiles⟩ := hwritten not_refused_strictFiles ⟨.here, "a.bin", hbin⟩ hwritable
    obtain rfl := effective_strictFiles_iff.mp heffective
    obtain rfl := Option.some.inj ((text?_strictFiles _).1.symm.trans hsource)
    obtain rfl := Except.ok.inj (assemble_strictSource.symm.trans hassemble)
    obtain ⟨⟩ | ⟨⟨⟩ | ⟨⟨⟩⟩⟩ := hnotes
    refine ⟨after, hrun, ?_, ?_, ?_⟩
    · exact hfiles.output "a.bin" hbin (hapart (by decide))
    · exact hfiles.symbols "a.map" rfl "a.map" hmap
    · refine hfiles.others "a.s" (fun hleads => ?_) (hapart (by decide))
      exact absurd (hbin.unique hleads).2 (by decide)

end Hue.Tool.Assembler

import Hue.Proofs.AllOrNothing
import Hue.Proofs.RoundTrip
import Hue.Tool.Disassembler

/-!
The two tools, one after the other. The disassembler prints the same listing whichever layout the
image has, and the assembler makes of that listing an image of the same words in any layout, but
for the reserved bits.
-/
namespace Hue.Tool

open Files FileLaws

/-! ## The disassembler -/

namespace Disassembler

/-- The command line can be read and asks for a run with the options. -/
def Asks (args : List String) (options : Options) : Prop :=
  command.Asks Options.ofArguments? args options

/-- A run that prints the listing of an image. -/
def listingOf (layout : Layout) (input : String) : Options := ⟨input, layout, .listing, none, none⟩

theorem runWith_listingOf {σ File : Type} [FileAccess (StateM σ)] [FileLaws σ File]
    {layout : Layout} {input : String} {s : σ} {words : List Word}
    (h : read s input = .ok (Image.encode layout words)) :
    exec s (runWith (listingOf layout input)) =
      (⟨0, (Listing.disassemble words).text,
        notesOn input (Listing.disassemble words).diagnostics⟩, s) := by
  have hread := run_readImage h (Image.decode_encode layout words)
  have hwrite : (writeResult (listingOf layout input) (Listing.disassemble words) :
      ExceptT Failure (StateM σ) String).run.run s =
        (.ok (Listing.disassemble words).text, s) := rfl
  have hnotes : notesOn input [] ++ notesOn input (Listing.disassemble words).diagnostics =
      notesOn input (Listing.disassemble words).diagnostics := String.empty_append
  refine (run_bind_eq hread).trans ?_
  -- Without diagnostics an image may be empty.
  dsimp only
  rw [if_neg (by simp), run_bind_eq hwrite]
  exact congrArg (fun notes => (Outcome.success (Listing.disassemble words).text notes, s)) hnotes

theorem asks_listingOf (layout : Layout) {input : String} (hpath : isPath input = true)
    (hvalue : Command.isValue input = true) :
    Asks ["--input-format", layout.name, input] (listingOf layout input) := by
  let formatted : Arguments := { options := [("input-format", layout.name)] }
  let complete : Arguments := { formatted with operands := [input] }
  have hlayout : Layout.ofName? layout.name = some layout := by cases layout <;> rfl
  have hformat : command.scan {} (("--" ++ "input-format") :: layout.name :: [input]) =
      command.scan formatted [input] := by
    refine Command.scan_long "input-format" layout.name (by decide) (by decide) rfl rfl ?_ ?_ _
    · cases layout <;> rfl
    · exact Command.give_eq_ok_iff.mpr ⟨rfl, by simp [hlayout], rfl⟩
  have hinput : command.scan formatted [input] = .ok complete := by
    have hoperand : command.operand formatted input = .ok complete := by
      simp [Command.operand, command, formatted, complete, hpath]
    rw [Command.scan_plain hvalue hoperand, Command.scan]
  refine ⟨complete, Command.read_of_scan (hformat.trans hinput) rfl rfl, ?_⟩
  cases layout <;> rfl

end Disassembler

/-! ## The assembler -/

namespace Assembler

/-- A run with the usual settings that writes an image and nothing else. -/
def imageOf (layout : Layout) (input output : String) : Options :=
  ⟨input, output, layout, false, none, none⟩

/-- There is no file for the symbols. -/
theorem forall_symbols_imageOf (layout : Layout) (input output : String) {P : String → Prop} :
    ∀ path ∈ (imageOf layout input output).symbols, P path := by
  intro path h
  cases h

theorem asks_imageOf (layout : Layout) {input output : String} (hinput : isPath input = true)
    (houtput : isPath output = true) (hinput' : Command.isValue input = true)
    (houtput' : Command.isValue output = true) :
    Asks ["--input", input, "--output", output, "--format", layout.name]
      (imageOf layout input output) := by
  let first : Arguments := { options := [("input", input)] }
  let second : Arguments := { options := [("input", input), ("output", output)] }
  let complete : Arguments :=
    { options := [("input", input), ("output", output), ("format", layout.name)] }
  have hlayout : Layout.ofName? layout.name = some layout := by cases layout <;> rfl
  have hfirst : command.scan {}
      (("--" ++ "input") :: input :: ["--output", output, "--format", layout.name]) =
        command.scan first ["--output", output, "--format", layout.name] := by
    refine Command.scan_long "input" input (by decide) (by decide) rfl rfl hinput' ?_ _
    exact Command.give_eq_ok_iff.mpr ⟨rfl, hinput, rfl⟩
  have hsecond : command.scan first
      (("--" ++ "output") :: output :: ["--format", layout.name]) =
        command.scan second ["--format", layout.name] := by
    refine Command.scan_long "output" output (by decide) (by decide) rfl rfl houtput' ?_ _
    exact Command.give_eq_ok_iff.mpr ⟨rfl, houtput, rfl⟩
  have hthird : command.scan second (("--" ++ "format") :: layout.name :: []) =
      command.scan complete [] := by
    refine Command.scan_long "format" layout.name (by decide) (by decide) rfl rfl ?_ ?_ _
    · cases layout <;> rfl
    · exact Command.give_eq_ok_iff.mpr ⟨rfl, by simp [hlayout], rfl⟩
  have hscan := hfirst.trans (hsecond.trans (hthird.trans (by rw [Command.scan])))
  refine ⟨complete, Command.read_of_scan hscan rfl rfl, ?_⟩
  cases layout <;> rfl

/-- Without diagnostics a run says nothing and writes its words, also when there are none. -/
theorem runWith_imageOf {σ File : Type} [FileAccess (StateM σ)] [FileLaws σ File] (layout : Layout)
    {input output : String} {s : σ} {source : List Char} {words : List Word} {table : SymbolTable}
    (hsource : text? s input = some source)
    (hassemble : Assembly.assemble {} source = .ok ⟨words, table, []⟩) (hout : Writable s output) :
    ∃ after, exec s (runWith (imageOf layout input output)) = (⟨0, "", ""⟩, after) ∧
      Written s after (imageOf layout input output) ⟨words, table, []⟩ := by
  have hok : Assembly.isFailure ⟨words, table, []⟩ = false := by
    simp [Assembly.isFailure, Assembly.hasErrors]
  have hassembled : assembled? s (imageOf layout input output) = some ⟨words, table, []⟩ := by
    have hsettings : Effective s (imageOf layout input output) {} := ⟨_, .usual rfl, rfl, rfl⟩
    rw [assembled?_of_assemble hsettings hsource, hassemble]
    rfl
  obtain ⟨after, hwrite, hwritten⟩ :=
    exists_written hok hout (forall_symbols_imageOf layout input output)
  exact ⟨after, runWith_of_written hassembled hwrite, hwritten⟩

end Assembler

/-! ## Both -/

open Disassembler Assembler in
/-- The listing that is printed does not depend on the layout of the image, and assembling it gives
the words back in any layout, without their reserved bits. Any command line that asks for these
runs will do, and the plain ones do ask for them. -/
theorem tools_keep_words (σ : Type) {File : Type} [FileAccess (StateM σ)] [FileLaws σ File]
    (words : List Word) :
    (∀ layout args input, ∀ s : σ, Disassembler.Asks args (listingOf layout input) →
      read s input = .ok (Image.encode layout words) →
      exec s (Disassembler.run args) =
        (⟨0, (Listing.disassemble words).text,
          notesOn input (Listing.disassemble words).diagnostics⟩, s)) ∧
    (∀ layout args input output, ∀ s : σ,
      Assembler.Asks args (imageOf layout input output) →
      read s input = .ok (Listing.disassemble words).text.toUTF8 → Writable s output →
      ∃ after, exec s (Assembler.run args) = (⟨0, "", ""⟩, after) ∧
        (∀ file, LeadsTo s output file →
          content? after file = some (Image.encode layout (words.map Word.canonical))) ∧
        ∀ file, ¬ LeadsTo s output file → content? after file = content? s file) ∧
    ∀ layout input output, isPath input → Command.isValue input →
      isPath output → Command.isValue output →
      Disassembler.Asks ["--input-format", layout.name, input] (listingOf layout input) ∧
      Assembler.Asks ["--input", input, "--output", output, "--format", layout.name]
        (imageOf layout input output) := by
  refine ⟨?_, ?_, ?_⟩
  · intro layout args input s hasks hread
    rw [Disassembler.run, Command.run_of_asks hasks]
    exact runWith_listingOf hread
  · intro layout args input output s hasks hread hout
    obtain ⟨table, hassemble⟩ := Listing.assemble_text Settings.plainPrefix_default words
    obtain ⟨after, hrun, hwritten⟩ :=
      runWith_imageOf layout (text?_of_read hread) hassemble hout
    rw [Assembler.run, Command.run_of_asks hasks]
    refine ⟨after, hrun, ?_, ?_⟩
    · intro file hfile
      exact hwritten.output file hfile (forall_symbols_imageOf layout input output)
    · intro file hfile
      exact hwritten.others file hfile (forall_symbols_imageOf layout input output)
  · intro layout input output hinput hinput' houtput houtput'
    exact ⟨asks_listingOf layout hinput hinput',
      asks_imageOf layout hinput houtput hinput' houtput'⟩

/-- A reserved bit and a word without an instruction, from bytes to digits in a directory. -/
theorem pink_tools_keep_words :
    exec (⟨[("a.bin", Image.encode .binary [0x8801, 0xA800])]⟩ : Directory)
        (Disassembler.run ["--input-format", "bin", "a.bin"]) =
      (⟨0, "PINK\n.word 0xa800\n",
          "a.bin: word 1: error: unknown opcode 0b10101 in word 0xa800\n"⟩,
        ⟨[("a.bin", Image.encode .binary [0x8801, 0xA800])]⟩) ∧
    ∃ after, exec (⟨[("a.s", "PINK\n.word 0xa800\n".toUTF8)]⟩ : Directory)
          (Assembler.run ["--input", "a.s", "--output", "a.txt", "--format", "text"]) =
        (⟨0, "", ""⟩, after) ∧
      after.get? "a.txt" = some "1000100000000000\n1010100000000000\n".toUTF8 := by
  obtain ⟨hlist, hassemble, hasks⟩ := tools_keep_words Directory [0x8801, 0xA800]
  have htext : (Listing.disassemble [0x8801, 0xA800]).text = "PINK\n.word 0xa800\n" := by decide
  constructor
  · have hread : read (⟨[("a.bin", Image.encode .binary [0x8801, 0xA800])]⟩ : Directory) "a.bin" =
        .ok (Image.encode .binary [0x8801, 0xA800]) :=
      Directory.files_read_of_leadsTo ⟨rfl, rfl, by decide⟩ rfl
    have hrun := hlist .binary _ "a.bin" _ (hasks .binary "a.bin" "a.bin" rfl rfl rfl rfl).1 hread
    have hnotes : notesOn "a.bin" (Listing.disassemble [0x8801, 0xA800]).diagnostics =
        "a.bin: word 1: error: unknown opcode 0b10101 in word 0xa800\n" := by decide
    rw [htext, hnotes] at hrun
    exact hrun
  · have hread : read (⟨[("a.s", "PINK\n.word 0xa800\n".toUTF8)]⟩ : Directory) "a.s" =
        .ok (Listing.disassemble [0x8801, 0xA800]).text.toUTF8 := by
      rw [htext]
      exact Directory.files_read_of_leadsTo ⟨rfl, rfl, by decide⟩ rfl
    have hleads (dir : Directory) : dir.LeadsTo "a.txt" .here "a.txt" := ⟨rfl, rfl, by decide⟩
    obtain ⟨after, hrun, hwords, -⟩ := hassemble .text _ "a.s" "a.txt" _
      (hasks .text "a.s" "a.txt" rfl rfl rfl rfl).2 hread ⟨.here, "a.txt", hleads _⟩
    exact ⟨after, hrun, (hwords "a.txt" (hleads _)).trans (by decide)⟩

end Hue.Tool

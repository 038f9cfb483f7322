import Hue.Proofs.Totality

/-!
Fatal errors. Two things alone keep a source from being assembled. One is a line that is not
recognized, and only the policy makes that fatal. The other is a label that is declared twice, and
it does not matter whether the lines with its declarations hold anything else that can be read.
-/
namespace Hue.Source

/-- The labels in front of the lines of a source, each with its line. -/
def declaredLabels (source : List Char) : List (Nat × String) :=
  ((Text.lines source).zipIdx 1).filterMap fun p =>
    match splitLabel (stripComment p.1) with
    | .ok (some name, _) => some (p.2, name)
    | _ => none

/-- The text of an unrecognized line that is only warned of. -/
def unrecognizedText? (d : Diagnostic) : Option String :=
  match d.severity, d.cause with
  | .warning, .unrecognizedLine text => some text
  | _, _ => none

section Reading

variable {settings : Settings} {source : List Char} {program : Program}

theorem labelsOf_of_readProgram (h : readProgram settings source = .ok program) :
    labelsOf program.items = declaredLabels source := by
  obtain ⟨-, rfl⟩ := readProgram_eq_ok_iff.mp h
  rw [labelsOf_flatMap_items, readings, List.filterMap_map, declaredLabels]
  congr 1
  funext p
  cases hs : splitLabel (stripComment p.1) with
  | error e => simp [readLine_of_splitLabel_error settings hs]
  | ok parts =>
    obtain ⟨label, body⟩ := parts
    cases label <;> simp [readLine_of_splitLabel settings hs]

/-- The warnings of a program are of its unrecognized lines, in their order. -/
theorem findSome?_unrecognizedText (h : readProgram settings source = .ok program) :
    program.diagnostics.findSome? unrecognizedText? = firstUnrecognized? settings source := by
  have hline (line : Nat) (reading : Reading) :
      (reading.diagnostic? line).bind unrecognizedText? = reading.unrecognized? := by
    unfold Reading.diagnostic? Reading.unrecognized?
    cases reading.statement with
    | ok s => rfl
    | error e => cases e <;> rfl
  obtain ⟨-, rfl⟩ := readProgram_eq_ok_iff.mp h
  rw [← List.head?_filterMap, List.filterMap_filterMap, List.head?_filterMap, firstUnrecognized?]
  congr 1
  funext r
  exact hline r.1 r.2

end Reading

/-- A lenient policy lets every source be read. -/
theorem exists_readProgram_skip (start : Option String) (source : List Char) :
    ∃ program, readProgram ⟨.skip, start⟩ source = .ok program := by
  cases h : readProgram ⟨.skip, start⟩ source with
  | ok program => exact ⟨program, rfl⟩
  | error e => cases (readProgram_eq_error_iff.mp h).1

/-- Without unrecognized lines the policy makes no difference. -/
theorem readProgram_fail {start : Option String} {source : List Char} {program : Program}
    (hskip : readProgram ⟨.skip, start⟩ source = .ok program)
    (hnone : firstUnrecognized? ⟨.skip, start⟩ source = none) :
    readProgram ⟨.fail, start⟩ source = .ok program := by
  -- a reading depends on the prefix of the settings alone
  have hsame : firstUnrecognized? ⟨.fail, start⟩ source = none := hnone
  cases h : readProgram ⟨.fail, start⟩ source with
  | ok other =>
    obtain ⟨-, rfl⟩ := readProgram_eq_ok_iff.mp h
    obtain ⟨-, rfl⟩ := readProgram_eq_ok_iff.mp hskip
    rfl
  | error e =>
    obtain ⟨-, text, htext, -⟩ := readProgram_eq_error_iff.mp h
    simp [hsame] at htext

end Hue.Source

namespace Hue.Assembly

open Source

/-- Under the strict policy the first unrecognized line is the error, before any label counts. -/
theorem assemble_fail_eq_unrecognized_iff {start : Option String} {source : List Char}
    {text : String} :
    assemble ⟨.fail, start⟩ source = .error (.unrecognizedLine text) ↔
      firstUnrecognized? ⟨.fail, start⟩ source = some text := by
  rw [assemble_eq_error_iff, readProgram_eq_error_iff]
  constructor
  · rintro (⟨-, other, hother, heq⟩ | ⟨program, -, hbuild⟩)
    · rw [hother, Error.unrecognizedLine.inj heq]
    · obtain ⟨-, -, first, -, name, -, -, -, heq⟩ := SymbolTable.build_eq_error_iff.mp hbuild
      simp at heq
  · exact fun h => .inl ⟨rfl, text, h, rfl⟩

/-- Under the lenient policy the first repeated label is the error, and there is no other. -/
theorem assemble_skip_eq_error_iff {start : Option String} {source : List Char} {e : Error} :
    assemble ⟨.skip, start⟩ source = .error e ↔
      ∃ before after first line name, declaredLabels source = before ++ (line, name) :: after ∧
        (before.map Prod.snd).Nodup ∧ (first, name) ∈ before ∧ e = .duplicateLabel name first := by
  obtain ⟨program, hread⟩ := exists_readProgram_skip start source
  rw [assemble_eq_error_iff, ← labelsOf_of_readProgram hread, ← SymbolTable.build_eq_error_iff]
  simp [hread]

theorem assemble_skip_fails_iff (start : Option String) (source : List Char) :
    (∃ e, assemble ⟨.skip, start⟩ source = .error e) ↔
      ¬((declaredLabels source).map Prod.snd).Nodup := by
  obtain ⟨program, hread⟩ := exists_readProgram_skip start source
  have hiff (e : Error) : assemble ⟨.skip, start⟩ source = .error e ↔
      SymbolTable.build program.items = .error e := by
    rw [assemble_eq_error_iff]
    simp [hread]
  simp only [hiff, ← labelsOf_of_readProgram hread]
  exact SymbolTable.exists_build_eq_error_iff

/-- What ends an assembly under each policy. Under the strict one it is the first line that the
lenient one warns of as unrecognized, and without such a line the policies agree. Under the lenient
one it is the first label that is declared again, and building tables again never fails. -/
theorem fatal_errors_exactly (start : Option String) (source : List Char) :
    ∃ program, readProgram ⟨.skip, start⟩ source = .ok program ∧
      (∀ text, assemble ⟨.fail, start⟩ source = .error (.unrecognizedLine text) ↔
        program.diagnostics.findSome? unrecognizedText? = some text) ∧
      (program.diagnostics.findSome? unrecognizedText? = none →
        assemble ⟨.fail, start⟩ source = assemble ⟨.skip, start⟩ source) ∧
      ((∃ e, assemble ⟨.skip, start⟩ source = .error e) ↔
        ¬((declaredLabels source).map Prod.snd).Nodup) ∧
      (∀ e, assemble ⟨.skip, start⟩ source = .error e ↔
        ∃ before after first line name,
          declaredLabels source = before ++ (line, name) :: after ∧
          (before.map Prod.snd).Nodup ∧ (first, name) ∈ before ∧
          e = .duplicateLabel name first) ∧
      ∀ declared count, SymbolTable.build program.items = .ok (declared, count) →
        ∃ settled tables,
          settleRecorded (keep (undefined? declared) program.items) = .ok (settled, tables) := by
  obtain ⟨program, hread⟩ := exists_readProgram_skip start source
  refine ⟨program, hread, ?_, ?_, assemble_skip_fails_iff start source,
    fun e => assemble_skip_eq_error_iff, fun declared count => exists_settleRecorded⟩
  · intro text
    rw [findSome?_unrecognizedText hread, assemble_fail_eq_unrecognized_iff]
    rfl
  · intro hnone
    rw [findSome?_unrecognizedText hread] at hnone
    simp only [assemble, hread, readProgram_fail hread hnone]

/-- A label that is declared again on a line with a fault, and an unrecognized line between. -/
def labelTwice : List Char := "A:\n...\nA: LOAD\n".toList

theorem labelTwice_fatal_errors :
    assemble ⟨.fail, none⟩ labelTwice = .error (.unrecognizedLine "...") ∧
      assemble ⟨.skip, none⟩ labelTwice = .error (.duplicateLabel "A" 1) := by
  obtain ⟨program, hread, hfail, -, -, hskip, -⟩ := fatal_errors_exactly none labelTwice
  have hprogram : readProgram ⟨.skip, none⟩ labelTwice =
      .ok ⟨[⟨1, .label "A"⟩, ⟨3, .label "A"⟩],
        [.warning (.line 2) (.unrecognizedLine "..."),
          .error (.line 3) (.malformedOperands "A: LOAD" (.count .load 0))]⟩ := rfl
  rw [hprogram] at hread
  obtain rfl := Except.ok.inj hread
  exact ⟨(hfail "...").mpr rfl,
    (hskip _).mpr ⟨[(1, "A")], [], 1, 3, "A", rfl, by decide, by decide, rfl⟩⟩

end Hue.Assembly

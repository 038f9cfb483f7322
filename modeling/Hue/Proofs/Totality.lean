import Hue.Proofs.Settling

/-!
Assembling never breaks down. Whatever the source and the settings are, it ends in an assembly or
in one of two errors: a line that is not recognized, or a label that is declared twice. Once the
labels are known to be distinct nothing can fail any more, and every statement that is left after
settling has a word.
-/
namespace Hue.Assembly

open Source

/-- Where every branch finds its label there are as many words as statements. -/
theorem length_wordsOf {table : SymbolTable} {items : List Item} (hread : ReadableItems items)
    (hresolved : Resolved table items) :
    (wordsOf table items).length = items.countP Item.isStatement := by
  have hlines := congrArg List.length (map_fst_placeWords hread hresolved)
  rw [statementLines, List.length_map, List.length_map, ← List.countP_eq_length_filter] at hlines
  rw [← map_snd_placeWords, List.length_map, hlines]

section Stages

variable {settings : Settings} {source : List Char} {program : Program} {declared : SymbolTable}
  {count : Nat}

/-- Items with distinct labels are settled. -/
theorem exists_settleRecorded {items : List Item}
    (hbuild : SymbolTable.build items = .ok (declared, count)) :
    ∃ settled tables,
      settleRecorded (keep (undefined? declared) items) = .ok (settled, tables) := by
  obtain ⟨first, total, next, left, hfirst, hnext⟩ := exists_two_tables hbuild
  exact ⟨_, _, settleRecorded_of_build hfirst hnext⟩

/-- The stages after the first table cannot fail. -/
theorem assemble_of_settle {settled : Settled}
    (hread : readProgram settings source = .ok program)
    (hbuild : SymbolTable.build program.items = .ok (declared, count))
    (hsettle : settle (keep (undefined? declared) program.items) = .ok settled) :
    ∃ a, assemble settings source = .ok a ∧ a.symbols = settled.table ∧
      a.words.length = settled.items.countP Item.isStatement := by
  obtain ⟨hreadable, hresolved⟩ := encodable_of_settle hread hbuild hsettle
  exact ⟨_, assemble_of_stages hread hbuild hsettle, rfl, length_wordsOf hreadable hresolved⟩

end Stages

/-- Assembling fails exactly when reading or the first table fails. -/
theorem assemble_eq_error_iff {settings : Settings} {source : List Char} {e : Error} :
    assemble settings source = .error e ↔
      readProgram settings source = .error e ∨
        ∃ program, readProgram settings source = .ok program ∧
          SymbolTable.build program.items = .error e := by
  cases hread : readProgram settings source with
  | error fault =>
    have hfail : assemble settings source = .error fault := by
      simp only [assemble, hread, bind, Except.bind]
    simp [hfail]
  | ok program =>
    cases hbuild : SymbolTable.build program.items with
    | error fault =>
      have hfail : assemble settings source = .error fault := by
        simp only [assemble, hread, hbuild, bind, Except.bind]
      simp [hfail, hbuild]
    | ok built =>
      obtain ⟨declared, count⟩ := built
      obtain ⟨settled, tables, hsettle⟩ := exists_settleRecorded hbuild
      obtain ⟨a, ha, -, -⟩ := assemble_of_settle hread hbuild (settle_of_settleRecorded hsettle)
      simp [ha, hbuild]

/-- The three ways in which assembling can end. -/
theorem assemble_cases (settings : Settings) (source : List Char) :
    (∃ a, assemble settings source = .ok a) ∨
      (∃ text, assemble settings source = .error (.unrecognizedLine text)) ∨
      ∃ name line, assemble settings source = .error (.duplicateLabel name line) := by
  cases h : assemble settings source with
  | ok a => exact .inl ⟨a, rfl⟩
  | error e =>
    rcases assemble_eq_error_iff.mp h with hread | ⟨program, -, hbuild⟩
    · obtain ⟨-, text, -, rfl⟩ := readProgram_eq_error_iff.mp hread
      exact .inr (.inl ⟨text, rfl⟩)
    · obtain ⟨-, -, first, -, name, -, -, -, rfl⟩ := SymbolTable.build_eq_error_iff.mp hbuild
      exact .inr (.inr ⟨name, first, rfl⟩)

/-- Operands are looked for only where the number of tokens says that there are any. -/
theorem isDefect_of_readOperands {line : List Char} {op : Opcode} {tokens : List (List Char)}
    {e : Error} (h : readOperands line op tokens = .error e) : e.isDefect = false :=
  Error.isDefect_of_isLineFault
    (Error.isLineFault_of_isOperandFault (isOperandFault_of_readOperands h))

/-- Assembling ends in an assembly or in one of two errors. A line is trimmed when its label is
split off, and then cutting it after its first field does not cut a character. No operand is looked
for that is not there. Every instruction that is left after settling is resolved to one with operands
of the format of its opcode, every statement has a word, and there are as many words as the last
table counts statements. -/
theorem assembling_never_breaks_down (settings : Settings) (source : List Char) :
    ((∃ a, assemble settings source = .ok a) ∨
      (∃ text, assemble settings source = .error (.unrecognizedLine text)) ∨
      ∃ name line, assemble settings source = .error (.duplicateLabel name line)) ∧
    (∀ line, Text.trim (stripComment line) = stripComment line) ∧
    (∀ line, Text.trim line = line →
      ∃ rest, Text.dropBytes? (Text.byteSize (Text.firstField line)) line = some rest ∧
        line = Text.firstField line ++ rest) ∧
    (∀ line op tokens e, readOperands line op tokens = .error e → e.isDefect = false) ∧
    ∀ program declared count, readProgram settings source = .ok program →
      SymbolTable.build program.items = .ok (declared, count) →
        ∃ settled tables a,
          settle (keep (undefined? declared) program.items) = .ok settled ∧
          settleRecorded (keep (undefined? declared) program.items) = .ok (settled, tables) ∧
          (∀ line i, ⟨line, .statement (.instruction i)⟩ ∈ settled.items →
            ∃ j, resolve settled.table i = .ok j ∧ j.op = i.op ∧
              j.operands.format = j.op.format ∧ ∃ w, j.encode = .ok w) ∧
          (∀ line s, ⟨line, .statement s⟩ ∈ settled.items →
            ∃ w, encodeStatement settled.table s = .ok w) ∧
          assemble settings source = .ok a ∧
          tables.getLast? = some (a.symbols, a.words.length) := by
  refine ⟨assemble_cases settings source, trim_stripComment, ?_,
    fun line op tokens e => isDefect_of_readOperands, ?_⟩
  · intro line htrim
    have hstart : Text.trimStart line = line := by rw [← htrim, Text.trimStart_trim]
    exact ⟨_, Text.dropBytes?_firstField hstart, (Text.firstField_append hstart).symm⟩
  · intro program declared count hread hbuild
    obtain ⟨settled, tables, hrecorded⟩ := exists_settleRecorded hbuild
    have hsettle := settle_of_settleRecorded hrecorded
    obtain ⟨hreadable, hresolved⟩ := encodable_of_settle hread hbuild hsettle
    obtain ⟨a, ha, hsymbols, hlength⟩ := assemble_of_settle hread hbuild hsettle
    refine ⟨settled, tables, a, hsettle, hrecorded, ?_, ?_, ha, ?_⟩
    · exact fun line i hitem => exists_resolve hreadable hresolved hitem rfl
    · exact fun line s hitem => exists_encodeStatement hreadable hresolved hitem rfl
    · rw [hsymbols, hlength, getLast?_of_settleRecorded hrecorded]

/-- A label behind a blank of three bytes. Cutting this line as it stands after the two bytes of
its label would cut the blank. -/
def wideBlank : List Char := "\u3000L: PINK\n".toList

theorem wideBlank_never_breaks_down :
    splitLabel "\u3000L: PINK".toList = .error (.splitCharacter "\u3000L: PINK" 2) ∧
      ∃ a, assemble {} wideBlank = .ok a ∧ a.symbols = .ofSymbols [⟨"L", 0, 1⟩] ∧
        a.words.length = 1 := by
  let items : List Item := [⟨1, .label "L"⟩, ⟨1, .statement (.instruction ⟨.pink, .bare⟩)⟩]
  have hread : readProgram {} wideBlank = .ok ⟨items, []⟩ := rfl
  have hbuild : SymbolTable.build items = .ok (.ofSymbols [⟨"L", 0, 1⟩], 1) := rfl
  obtain ⟨settled, tables, a, -, hrecorded, -, -, ha, hlast⟩ :=
    (assembling_never_breaks_down {} wideBlank).2.2.2.2 _ _ _ hread hbuild
  have hkeep : keep (undefined? (.ofSymbols [⟨"L", 0, 1⟩])) items = items := rfl
  rw [hkeep, settleRecorded_of_fit hbuild (by decide)] at hrecorded
  obtain ⟨-, rfl⟩ := Prod.mk.inj (Except.ok.inj hrecorded)
  obtain ⟨hsymbols, hlength⟩ := Prod.mk.inj (Option.some.inj hlast)
  exact ⟨rfl, a, ha, hsymbols.symm, hlength.symm⟩

end Hue.Assembly

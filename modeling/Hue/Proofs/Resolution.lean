import Hue.Proofs.Assembly
import Mathlib.Data.List.Forall2

/-!
Labels and branches of an assembly. The statements that survive stand one to one beside the words,
in the order of their lines. The address of a label is the number of them before its line, and a
branch holds the address of the label that it names.
-/
namespace Hue.Assembly

open Source

/-! ## Surviving statements -/

/-- The statements of a source on lines without a diagnostic, each with its line. -/
def survivors (settings : Settings) (source : List Char) (a : Assembly) : List (Nat × Statement) :=
  (readings settings source).filterMap fun (line, reading) =>
    if reportsLine a.diagnostics line then none else reading.statement?.map (line, ·)

/-- The statement that an item is, with its line. -/
def placed? (item : Item) : Option (Nat × Statement) :=
  match item.content with
  | .statement s => some (item.line, s)
  | .label _ => none

@[simp] theorem placed?_statement (line : Nat) (s : Statement) :
    placed? ⟨line, .statement s⟩ = some (line, s) := rfl

@[simp] theorem placed?_label (line : Nat) (name : String) :
    placed? ⟨line, .label name⟩ = none := rfl

theorem survivors_eq {settings : Settings} {source : List Char} {program : Program}
    (hread : readProgram settings source = .ok program) (a : Assembly) :
    a.survivors settings source = (without a.diagnostics program.items).filterMap placed? := by
  have hplaced (line : Nat) (reading : Reading) :
      (reading.items line).filterMap placed? = reading.statement?.toList.map (line, ·) := by
    rw [Reading.items_eq]
    cases reading.label <;> cases reading.statement? <;> rfl
  obtain ⟨-, rfl⟩ := readProgram_eq_ok_iff.mp hread
  rw [survivors, without, List.filter_flatMap, List.filterMap_flatMap,
    List.filterMap_eq_flatMap_toList]
  congr 1
  funext r
  obtain ⟨line, reading⟩ := r
  rw [← without, Reading.without_items, hplaced]
  cases hr : reportsLine a.diagnostics line with
  | true => simp [hr, Reading.strike, Reading.statement?]
  | false => cases hs : reading.statement? <;> simp [hr, hs]

theorem mem_survivors {settings : Settings} {source : List Char} {a : Assembly} {line : Nat}
    {s : Statement} :
    (line, s) ∈ a.survivors settings source ↔
      reportsLine a.diagnostics line = false ∧
        ∃ reading, (line, reading) ∈ readings settings source ∧
          reading.statement = .ok (some s) := by
  rw [survivors, List.mem_filterMap]
  constructor
  · rintro ⟨⟨number, reading⟩, hr, hp⟩
    simp only [Option.ite_none_left_eq_some, Bool.not_eq_true, Option.map_eq_some_iff] at hp
    obtain ⟨hfree, t, ht, heq⟩ := hp
    obtain ⟨rfl, rfl⟩ := Prod.mk.inj heq
    exact ⟨hfree, reading, hr, Reading.statement?_eq_some_iff.mp ht⟩
  · rintro ⟨hfree, reading, hr, hs⟩
    refine ⟨(line, reading), hr, ?_⟩
    simp [hfree, Reading.statement?_eq_some_iff.mpr hs]

/-- Surviving statements are in the order of their lines. -/
theorem pairwise_survivors (settings : Settings) (source : List Char) (a : Assembly) :
    ((a.survivors settings source).map Prod.fst).Pairwise (· < ·) := by
  have hline {line : Nat} {reading : Reading} {p : Nat × Statement}
      (h : (if reportsLine a.diagnostics line then none else reading.statement?.map (line, ·)) =
        some p) : p.1 = line := by
    split at h
    · simp at h
    · obtain ⟨s, -, rfl⟩ := Option.map_eq_some_iff.mp h
      rfl
  rw [List.pairwise_map, survivors, List.pairwise_filterMap]
  apply (pairwise_readings settings source).imp
  intro x y hlt p hp q hq
  rw [hline hp, hline hq]
  exact hlt

theorem forall₂_wordsOf {table : SymbolTable} {items : List Item}
    (hread : ReadableItems items) (hresolved : Resolved table items) :
    List.Forall₂ (fun p w => encodeStatement table p.2 = .ok w) (items.filterMap placed?)
      (wordsOf table items) := by
  induction items with
  | nil => exact .nil
  | cons item items ih =>
    have hrest := ih (hread.mono (by simp +contextual)) fun other ho => hresolved other (by simp [ho])
    obtain ⟨line, content⟩ := item
    cases content with
    | label name => exact hrest
    | statement s =>
      obtain ⟨w, hw⟩ := exists_encodeStatement hread hresolved List.mem_cons_self rfl
      rw [wordsOf_cons_statement hw, List.filterMap_cons, placed?_statement]
      exact .cons hw hrest

section Survivors

variable {settings : Settings} {source : List Char} {a : Assembly}

/-- Each surviving statement has one word, in the same order. -/
theorem forall₂_survivors (h : assemble settings source = .ok a) :
    List.Forall₂ (fun p w => encodeStatement a.symbols p.2 = .ok w)
      (a.survivors settings source) a.words := by
  obtain ⟨program, hread, -, -, hresolved, hwords⟩ := assemble_spec h
  rw [survivors_eq hread, hwords]
  exact forall₂_wordsOf
    ((readableItems_of_readProgram hread).mono fun item hitem => (mem_without.mp hitem).1) hresolved

theorem readable_of_mem_survivors {line : Nat} {i : Instruction}
    (hmem : (line, .instruction i) ∈ a.survivors settings source) : i.Readable := by
  obtain ⟨-, reading, hr, hs⟩ := mem_survivors.mp hmem
  exact readable_of_mem_readings hr hs

theorem address?_of_mem_survivors (h : assemble settings source = .ok a) {line : Nat}
    {i : Instruction} (hmem : (line, .instruction i) ∈ a.survivors settings source) {name : String}
    (hname : i.branchLabel? = some name) :
    ∃ address ≤ maxAddress, a.symbols.address? name = some address := by
  obtain ⟨program, hread, -, -, hresolved, -⟩ := assemble_spec h
  rw [survivors_eq hread] at hmem
  obtain ⟨⟨number, content⟩, hitem, hp⟩ := List.mem_filterMap.mp hmem
  cases content with
  | label other => simp at hp
  | statement s =>
    obtain ⟨rfl, rfl⟩ : number = line ∧ s = .instruction i := by simpa using hp
    exact hresolved _ hitem name hname

/-- The address of a symbol is the number of surviving statements on the lines before it. -/
theorem address_eq_countP_survivors (h : assemble settings source = .ok a) {symbol : Symbol}
    (hmem : symbol ∈ a.symbols.symbols) :
    symbol.address = (a.survivors settings source).countP fun p => p.1 < symbol.line := by
  obtain ⟨program, hread, -, hbuild, -, -⟩ := assemble_spec h
  obtain ⟨-, htable, -⟩ := SymbolTable.build_eq_ok_iff.mp hbuild
  rw [htable] at hmem
  have ho : Ordered (without a.diagnostics program.items) := (ordered_of_readProgram hread).filter _
  rw [SymbolTable.address_eq_countP ho hmem, survivors_eq hread, List.countP_filterMap,
    Nat.zero_add]
  congr 1
  funext item
  obtain ⟨line, content⟩ := item
  cases content <;> simp

theorem map_symbols (h : assemble settings source = .ok a) :
    a.symbols.symbols.map (fun s => (s.line, s.name)) =
      (readings settings source).filterMap fun r => r.2.label.map (r.1, ·) := by
  obtain ⟨program, hread, -, hbuild, -, -⟩ := assemble_spec h
  obtain ⟨-, htable, -⟩ := SymbolTable.build_eq_ok_iff.mp hbuild
  rw [htable]
  simp only [SymbolTable.symbols_ofSymbols, SymbolTable.map_declarations, labelsOf_without]
  obtain ⟨-, rfl⟩ := readProgram_eq_ok_iff.mp hread
  exact labelsOf_flatMap_items _

/-- The word of a surviving statement has the same number. -/
theorem word_of_survivor (h : assemble settings source = .ok a) {k : Nat} {p : Nat × Statement}
    (hk : (a.survivors settings source)[k]? = some p) :
    ∃ w, a.words[k]? = some w ∧ encodeStatement a.symbols p.2 = .ok w := by
  obtain ⟨hlength, hword⟩ := List.forall₂_iff_get.mp (forall₂_survivors h)
  obtain ⟨hlt, rfl⟩ := List.getElem?_eq_some_iff.mp hk
  have hlt' : k < a.words.length := hlength ▸ hlt
  exact ⟨a.words.get ⟨k, hlt'⟩, by simp [hlt'], hword k hlt hlt'⟩

/-- A branch to a label is a jump, and its word holds the address of the label. -/
theorem branch_word (h : assemble settings source = .ok a) {k line : Nat} {i : Instruction}
    {name : String} (hk : (a.survivors settings source)[k]? = some (line, .instruction i))
    (hname : i.branchLabel? = some name) :
    ∃ address ≤ maxAddress, a.symbols.address? name = some address ∧
      a.words[k]? = some (UInt16.ofNat Opcode.jump.code <<< 11 ||| UInt16.ofNat address) := by
  have hmem := List.mem_of_getElem? hk
  obtain ⟨address, hle, haddress⟩ := address?_of_mem_survivors h hmem hname
  obtain ⟨w, hword, hw⟩ := word_of_survivor h hk
  refine ⟨address, hle, haddress, ?_⟩
  have hop : i.op = .jump := by
    apply Opcode.eq_jump_of_format
    rw [← (readable_of_mem_survivors hmem).1, operands_of_branchLabel? hname]
    rfl
  have henc : encodeStatement a.symbols (.instruction i) =
      .ok (UInt16.ofNat Opcode.jump.code <<< 11 ||| UInt16.ofNat address) := by
    simp [encodeStatement, resolve_of_address? hname haddress hle, Instruction.encode, hop,
      Operands.format, Opcode.format, Operands.field, Nat.not_lt.mpr hle, Word.opcodeShift, Except.map]
  rw [henc] at hw
  rw [hword, ← Except.ok.inj hw]

end Survivors

/-- In an ascending row the numbers below a bound come first. -/
theorem lt_countP_iff {lines : List Nat} (h : lines.Pairwise (· < ·)) {k line : Nat}
    (hk : lines[k]? = some line) (bound : Nat) :
    k < lines.countP (· < bound) ↔ line < bound := by
  induction lines generalizing k with
  | nil => simp at hk
  | cons first lines ih =>
    obtain ⟨hfirst, hrest⟩ := List.pairwise_cons.mp h
    by_cases hlt : first < bound
    · rw [List.countP_cons_of_pos (by simpa using hlt)]
      cases k with
      | zero =>
        obtain rfl : first = line := by simpa using hk
        simp [hlt]
      | succ k => rw [Nat.succ_lt_succ_iff, ih hrest (by simpa using hk)]
    · have hzero : (first :: lines).countP (· < bound) = 0 := by
        rw [List.countP_eq_zero]
        intro n hn
        rcases List.mem_cons.mp hn with rfl | hn'
        · simpa using hlt
        · simpa using (Nat.le_of_not_lt hlt).trans (hfirst n hn').le
      have hle : first ≤ line := by
        rcases List.mem_cons.mp (List.mem_of_getElem? hk) with rfl | hmem
        · exact Nat.le_refl _
        · exact (hfirst line hmem).le
      omega

/-- A jump over a line that is dropped, one back to the label of that line, and a label at the
end. -/
def jumpsAround : List Char := "JUMP end\nL: JUMP nowhere\nPINK\nJUMP L\nend:\n".toList

def jumpsAssembled : Assembly where
  words := [0x4803, 0x8800, 0x4801]
  symbols := .ofSymbols [⟨"L", 1, 2⟩, ⟨"end", 3, 5⟩]
  diagnostics := [.error (.line 2) (.undefinedLabel "nowhere")]

theorem assemble_jumpsAround : assemble {} jumpsAround = .ok jumpsAssembled := by
  let declared : SymbolTable := .ofSymbols [⟨"L", 1, 2⟩, ⟨"end", 4, 5⟩]
  let front : List Item :=
    [⟨1, .statement (.instruction ⟨.jump, .branch (.label "end")⟩)⟩, ⟨2, .label "L"⟩]
  let dropped : Item := ⟨2, .statement (.instruction ⟨.jump, .branch (.label "nowhere")⟩)⟩
  let back : List Item :=
    [⟨3, .statement (.instruction ⟨.pink, .bare⟩)⟩,
      ⟨4, .statement (.instruction ⟨.jump, .branch (.label "L")⟩)⟩, ⟨5, .label "end"⟩]
  have hread : readProgram {} jumpsAround = .ok ⟨front ++ dropped :: back, []⟩ := rfl
  have hbuild : SymbolTable.build (front ++ dropped :: back) = .ok (declared, 4) := rfl
  have hkeep : keep (undefined? declared) (front ++ dropped :: back) = front ++ back := rfl
  -- the line that is dropped moves the last label down
  have hsettle : settle (keep (undefined? declared) (front ++ dropped :: back)) =
      .ok ⟨jumpsAssembled.symbols, front ++ back, []⟩ := by
    rw [hkeep]
    exact settle_of_fit rfl (by decide)
  have hwords : wordsOf jumpsAssembled.symbols (front ++ back) = jumpsAssembled.words := rfl
  have hcomplaints : complaints (undefined? declared) (front ++ dropped :: back) =
      jumpsAssembled.diagnostics := rfl
  have hsort : inOrder jumpsAssembled.diagnostics = jumpsAssembled.diagnostics :=
    List.mergeSort_singleton _
  rw [assemble_of_stages hread hbuild hsettle, hcomplaints, hwords]
  exact congrArg (fun ds => Except.ok { jumpsAssembled with diagnostics := ds }) hsort

theorem survivors_jumpsAround :
    jumpsAssembled.survivors {} jumpsAround =
      [(1, .instruction ⟨.jump, .branch (.label "end")⟩), (3, .instruction ⟨.pink, .bare⟩),
        (4, .instruction ⟨.jump, .branch (.label "L")⟩)] := by decide

/-- Words come from surviving statements in the order of their lines. A label has the number of the
first word after it as its address, which is the number of all words when there is none. A branch
is a jump to the address of the label that it names. -/
theorem labels_and_branches_resolve {settings : Settings} {source : List Char} {a : Assembly}
    (h : assemble settings source = .ok a) :
    ((a.survivors settings source).map Prod.fst).Pairwise (· < ·) ∧
      List.Forall₂ (fun p w => encodeStatement a.symbols p.2 = .ok w)
        (a.survivors settings source) a.words ∧
      a.symbols.symbols.map (fun s => (s.line, s.name)) =
        (readings settings source).filterMap (fun r => r.2.label.map (r.1, ·)) ∧
      (∀ symbol ∈ a.symbols.symbols,
        symbol.address = (a.survivors settings source).countP (fun p => p.1 < symbol.line) ∧
          ∀ k line s, (a.survivors settings source)[k]? = some (line, s) →
            (k < symbol.address ↔ line < symbol.line)) ∧
      ∀ (k line : Nat) (i : Instruction) (name : String),
        (a.survivors settings source)[k]? = some (line, .instruction i) →
        i.branchLabel? = some name →
          ∃ address ≤ maxAddress, a.symbols.address? name = some address ∧
            a.words[k]? = some (UInt16.ofNat Opcode.jump.code <<< 11 ||| UInt16.ofNat address) := by
  have hsorted := pairwise_survivors settings source a
  refine ⟨hsorted, forall₂_survivors h, map_symbols h, ?_, fun k line i name => branch_word h⟩
  intro symbol hsymbol
  have haddress := address_eq_countP_survivors h hsymbol
  refine ⟨haddress, ?_⟩
  intro k line s hk
  have hline : ((a.survivors settings source).map Prod.fst)[k]? = some line := by simp [hk]
  have hcount : ((a.survivors settings source).map Prod.fst).countP (· < symbol.line) =
      (a.survivors settings source).countP fun p => p.1 < symbol.line := List.countP_map
  rw [haddress, ← hcount]
  exact lt_countP_iff hsorted hline symbol.line

theorem jumpsAround_resolves :
    assemble {} jumpsAround = .ok jumpsAssembled ∧
      ((jumpsAssembled.survivors {} jumpsAround).map Prod.fst = [1, 3, 4]) ∧
      (∀ symbol ∈ jumpsAssembled.symbols.symbols, symbol.address =
        (jumpsAssembled.survivors {} jumpsAround).countP (fun p => p.1 < symbol.line)) ∧
      ∃ address ≤ maxAddress, jumpsAssembled.symbols.address? "end" = some address ∧
        jumpsAssembled.words[0]? =
          some (UInt16.ofNat Opcode.jump.code <<< 11 ||| UInt16.ofNat address) := by
  obtain ⟨-, -, -, hsymbols, hbranches⟩ := labels_and_branches_resolve assemble_jumpsAround
  have hjump : (jumpsAssembled.survivors {} jumpsAround)[0]? =
      some (1, .instruction ⟨.jump, .branch (.label "end")⟩) := by
    rw [survivors_jumpsAround]
    rfl
  exact ⟨assemble_jumpsAround, by rw [survivors_jumpsAround]; rfl,
    fun symbol hs => (hsymbols symbol hs).1, hbranches 0 1 _ "end" hjump rfl⟩

end Hue.Assembly

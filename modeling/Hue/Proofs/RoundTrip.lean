import Hue.Proofs.Listing
import Hue.Proofs.Resolution
import Mathlib.Data.List.Nodup

/-!
Listings as sources. Every line of a listing is read back as the label, word or instruction that
it shows. Its labels get the addresses that they are named after, so each branch is resolved to
the address that it had, and assembling a listing gives the listed words without their reserved
bits.
-/
namespace Hue

open Source Assembly

/-! ## Lines of a listing as lines of a source -/

/-- A branch to an address becomes one to a label, and nothing else changes. -/
theorem Instruction.readable_named {w : Word} {i : Instruction} (h : w.decode = .ok i) :
    i.named.Readable := by
  have hf := Word.format_of_decode h
  cases ht : i.branchTarget? with
  | none =>
    rw [named_of_not_branch ht]
    exact ⟨hf, fun target hb => absurd hb (Word.not_branch_of_decode h ht target)⟩
  | some target =>
    rw [named_of_branch ht]
    refine ⟨?_, ?_⟩
    · rw [← hf, (Word.branch_of_decode h ht).1]
      rfl
    · rintro _ ⟨rfl⟩
      exact ⟨_, rfl, isLabelName_labelName target⟩

/-- What a line of a listing stands for in a source. -/
def ListingLine.content : ListingLine → Content
  | label name => .label name
  | raw _ w => .statement (.word w)
  | instruction _ w _ =>
    match w.decode with
    | .ok i => .statement (.instruction i.named)
    | .error _ => .statement (.word w)

theorem ListingLine.content_instruction {w : Word} {i : Instruction} (h : w.decode = .ok i)
    (index : Nat) (text : String) :
    (instruction index w text).content = .statement (.instruction i.named) := by
  simp [content, h]

/-- The reading of a line that holds just a label or a statement. -/
def Source.Content.reading : Content → Reading
  | .label name => ⟨some name, .ok none⟩
  | .statement s => ⟨none, .ok (some s)⟩

/-- A line that is read back, and whose text has no line end in it. -/
structure ListingLine.Faithful (settings : Settings) (line : ListingLine) : Prop where
  reading : readLine settings line.text.toList = line.content.reading
  oneLine : ∀ c ∈ line.text.toList, c ≠ '\n' ∧ c ≠ '\r'

theorem ListingLine.faithful_label (settings : Settings) (address : Nat) :
    (label (labelName address)).Faithful settings := by
  have hname := isLabelName_labelName address
  refine ⟨readLine_label settings hname, ?_⟩
  intro c hc
  simp only [text, String.toList_append, List.mem_append] at hc
  rcases hc with hc | hc
  · exact not_lineEnd_of_isLabelPart ((isField_of_isLabelName hname).2 c hc)
  · obtain rfl : c = ':' := by simpa using hc
    decide

theorem ListingLine.faithful_raw (settings : Settings) (index : Nat) (w : Word) :
    (raw index w).Faithful settings := by
  refine ⟨readLine_word settings w, ?_⟩
  intro c hc
  simp only [text, String.toList_append, List.mem_append] at hc
  rcases hc with hc | hc
  · have hplain : ".word ".toList.all (fun c => c != '\n' && c != '\r') = true := by decide
    simpa using List.all_eq_true.mp hplain c hc
  · exact not_lineEnd_of_isLabelPart ((isField_hex w).2 c hc)

theorem ListingLine.faithful_instruction {settings : Settings} (hs : settings.PlainPrefix)
    {w : Word} {i : Instruction} (h : w.decode = .ok i) (index : Nat) :
    (instruction index w i.named.text).Faithful settings := by
  have hr := Instruction.readable_named h
  refine ⟨?_, ?_⟩
  · rw [content_instruction h]
    exact readLine_text hs hr
  · intro c hc
    rcases mem_text hr hc with hpart | rfl | rfl
    · exact not_lineEnd_of_isLabelPart hpart
    · decide
    · decide

namespace Listing

theorem faithful_of_mem_linesFrom {settings : Settings} (hs : settings.PlainPrefix)
    {targets : List Nat} {count start : Nat} {words : List Word} {line : ListingLine}
    (h : line ∈ linesFrom targets count start (words.map Slot.ofWord)) :
    line.Faithful settings := by
  rcases mem_linesFrom h with ⟨address, rfl⟩ | ⟨slot, hslot, index, rfl⟩
  · exact ListingLine.faithful_label settings address
  · obtain ⟨w, -, rfl⟩ := List.mem_map.mp hslot
    rcases slotLine_cases count index w with ⟨hline, -⟩ | ⟨i, hi, -, hline⟩
    · rw [hline]
      exact ListingLine.faithful_raw settings index w
    · rw [hline]
      exact ListingLine.faithful_instruction hs hi index

/-- The items that lines stand for, the first of them on line `number`. -/
def itemsFrom (number : Nat) (lines : List ListingLine) : List Item :=
  (lines.zipIdx number).map fun (line, n) => ⟨n, line.content⟩

theorem itemsFrom_cons (number : Nat) (line : ListingLine) (lines : List ListingLine) :
    itemsFrom number (line :: lines) = ⟨number, line.content⟩ :: itemsFrom (number + 1) lines := rfl

/-- Lines that are read back make a program without diagnostics. -/
theorem readProgram_text {settings : Settings} {listing : Listing}
    (h : ∀ line ∈ listing.lines, line.Faithful settings) :
    readProgram settings listing.text.toList = .ok ⟨itemsFrom 1 listing.lines, []⟩ := by
  have hlines : Text.lines listing.text.toList = listing.lines.map (·.text.toList) := by
    rw [toList_text]
    apply Text.lines_flatMap
    intro cs hcs
    obtain ⟨line, hline, rfl⟩ := List.mem_map.mp hcs
    exact ⟨fun hmem => ((h line hline).oneLine _ hmem).1 rfl,
      fun hlast => ((h line hline).oneLine _ (List.mem_of_getLast? hlast)).2 rfl⟩
  have hreadings : readings settings listing.text.toList =
      (listing.lines.zipIdx 1).map fun (line, n) => (n, line.content.reading) := by
    rw [readings, hlines, List.zipIdx_map, List.map_map]
    apply List.map_congr_left
    rintro ⟨line, n⟩ hmem
    exact congrArg (n, ·) (h line (List.fst_mem_of_mem_zipIdx hmem)).reading
  have hitems (n : Nat) (content : Content) : content.reading.items n = [⟨n, content⟩] := by
    cases content <;> rfl
  have hquiet (n : Nat) (content : Content) : content.reading.diagnostic? n = none := by
    cases content <;> rfl
  have hfatal (policy : Policy) (content : Content) : content.reading.fatal? policy = none := by
    cases content <;> rfl
  rw [readProgram_eq_ok_iff, hreadings]
  refine ⟨?_, ?_⟩
  · intro r hr
    obtain ⟨⟨line, n⟩, -, rfl⟩ := List.mem_map.mp hr
    exact hfatal settings.unrecognized line.content
  · rw [List.flatMap_map, List.filterMap_map, itemsFrom, List.map_eq_flatMap]
    simp only [hitems, hquiet, Function.comp_def, List.filterMap_none]

/-! ## Labels -/

theorem exists_content_slotLine (count index : Nat) (slot : Slot) :
    ∃ s, (slotLine count index slot).content = .statement s := by
  cases hline : slotLine count index slot with
  | label name =>
    have hindex := index?_slotLine count index slot
    simp [hline, ListingLine.index?, ListingLine.numbered?] at hindex
  | raw n w => exact ⟨.word w, rfl⟩
  | instruction n w text => cases h : w.decode <;> simp [ListingLine.content, h]

/-- The labels among the lines are those of the targets that have one, each at its address. -/
theorem map_declarations_linesFrom (targets : List Nat) (count number index : Nat)
    (slots : List Slot) :
    (SymbolTable.declarations index (itemsFrom number (linesFrom targets count index slots))).map
        (fun s => (s.name, s.address)) =
      ((List.range' index (slots.length + 1)).filter fun address =>
        address ≤ maxAddress ∧ targets.contains address).map fun address =>
          (labelName address, address) := by
  induction slots generalizing index number with
  | nil =>
    rw [linesFrom, labelLines_eq]
    split
    case isTrue h => simp_all [itemsFrom, ListingLine.content, SymbolTable.declarations]
    case isFalse h => simp_all [itemsFrom, SymbolTable.declarations]
  | cons slot slots ih =>
    obtain ⟨s, hs⟩ := exists_content_slotLine count index slot
    rw [List.length_cons, List.range'_succ, linesFrom]
    by_cases h : index ≤ maxAddress ∧ targets.contains index = true
    · rw [labelLines_eq, if_pos h, List.singleton_append, itemsFrom_cons, itemsFrom_cons, hs,
        List.filter_cons_of_pos (by simpa using h), List.map_cons, ← ih (number + 1 + 1)]
      rfl
    · rw [labelLines_eq, if_neg h, List.nil_append, itemsFrom_cons, hs,
        List.filter_cons_of_neg (by simpa using h), ← ih (number + 1)]
      rfl

/-- The items of a listing have a table, in which each label has the address in its name. -/
theorem build_linesFrom (targets : List Nat) (count : Nat) (slots : List Slot) :
    ∃ table words, SymbolTable.build (itemsFrom 1 (linesFrom targets count 0 slots)) =
        .ok (table, words) ∧
      ∀ target ∈ targets, target ≤ maxAddress → target ≤ slots.length →
        table.address? (labelName target) = some target := by
  have hpairs := map_declarations_linesFrom targets count 1 0 slots
  generalize itemsFrom 1 (linesFrom targets count 0 slots) = items at hpairs ⊢
  have hnames : ((SymbolTable.declarations 0 items).map Symbol.name).Nodup := by
    have hfst := congrArg (List.map Prod.fst) hpairs
    rw [List.map_map, List.map_map] at hfst
    change (SymbolTable.declarations 0 items).map Symbol.name = _ at hfst
    rw [hfst]
    exact (List.Nodup.filter _ List.nodup_range').map fun a b => labelName_inj
  refine ⟨_, _, SymbolTable.build_eq_ok_iff.mpr ⟨?_, rfl, rfl⟩, ?_⟩
  · rwa [← SymbolTable.map_name_declarations 0]
  · intro target hmem hfits hle
    rw [SymbolTable.address?_eq_some_iff (by rwa [SymbolTable.symbols_ofSymbols])]
    have hpair : (labelName target, target) ∈
        (SymbolTable.declarations 0 items).map fun s => (s.name, s.address) := by
      rw [hpairs]
      refine List.mem_map.mpr ⟨target, List.mem_filter.mpr ⟨?_, by simp [hmem, hfits]⟩, rfl⟩
      simp only [List.mem_range'_1]
      omega
    obtain ⟨symbol, hsymbol, heq⟩ := List.mem_map.mp hpair
    obtain ⟨hname, haddress⟩ := Prod.mk.inj heq
    exact ⟨symbol, hsymbol, hname, haddress⟩

/-! ## Words -/

theorem encodeStatement_named {table : SymbolTable} {w : Word} {i : Instruction}
    (h : w.decode = .ok i)
    (ht : ∀ target, i.branchTarget? = some target →
      table.address? (labelName target) = some target) :
    encodeStatement table (.instruction i.named) = .ok w.canonical := by
  cases hb : i.branchTarget? with
  | none =>
    have hlabel : i.branchLabel? = none := by
      cases hl : i.branchLabel? with
      | none => rfl
      | some name =>
        exact absurd (operands_of_branchLabel? hl) (Word.not_branch_of_decode h hb _)
    rw [Instruction.named_of_not_branch hb]
    simp only [encodeStatement, resolve, hlabel]
    exact Word.encode_of_decode h
  | some target =>
    obtain ⟨hoperands, hle, -⟩ := Word.branch_of_decode h hb
    have hlabel : i.named.branchLabel? = some (labelName target) := by
      rw [Instruction.named_of_branch hb]
      rfl
    have hback : resolve table i.named = .ok i := by
      rw [resolve_of_address? hlabel (ht target hb) hle, Instruction.named_of_branch hb, ← hoperands]
    simp only [encodeStatement, hback]
    exact Word.encode_of_decode h

section Words

variable {table : SymbolTable} {targets : List Nat} {count : Nat} {words : List Word}

/-- Each branch of `words` within the program has a label that the table resolves. -/
def Names (table : SymbolTable) (count : Nat) (words : List Word) : Prop :=
  ∀ w ∈ words, ∀ i, w.decode = .ok i → ∀ target, i.branchTarget? = some target →
    target ≤ count → table.address? (labelName target) = some target

theorem encode_slotLine (h : Names table count words) {w : Word} (hw : w ∈ words) (index : Nat) :
    ∃ s, (slotLine count index (Slot.ofWord w)).content = .statement s ∧
      encodeStatement table s = .ok w.canonical := by
  rcases slotLine_cases count index w with ⟨hline, hcanonical⟩ | ⟨i, hi, hwithin, hline⟩
  · refine ⟨.word w, by rw [hline]; rfl, ?_⟩
    rw [hcanonical]
    rfl
  · refine ⟨.instruction i.named, by rw [hline, ListingLine.content_instruction hi], ?_⟩
    exact encodeStatement_named hi fun target ht => h w hw i hi target ht (hwithin target ht)

theorem wordsOf_linesFrom (h : Names table count words) (number index : Nat) :
    wordsOf table (itemsFrom number (linesFrom targets count index (words.map Slot.ofWord))) =
      words.map Word.canonical := by
  induction words generalizing number index with
  | nil =>
    rw [List.map_nil, linesFrom, labelLines_eq]
    split <;> rfl
  | cons w words ih =>
    obtain ⟨s, hs, hw⟩ := encode_slotLine h List.mem_cons_self index
    have hrest := fun n => ih (fun v hv => h v (List.mem_cons_of_mem w hv)) n (index + 1)
    rw [List.map_cons, linesFrom, labelLines_eq]
    split
    · rw [List.singleton_append, itemsFrom_cons, itemsFrom_cons, hs]
      simp only [ListingLine.content, wordsOf_cons_label]
      rw [wordsOf_cons_statement hw, hrest, List.map_cons]
    · rw [List.nil_append, itemsFrom_cons, hs, wordsOf_cons_statement hw, hrest, List.map_cons]

theorem resolved_linesFrom (h : Names table count words) (number index : Nat) :
    Resolved table
      (itemsFrom number (linesFrom targets count index (words.map Slot.ofWord))) := by
  intro item hitem name hname
  obtain ⟨⟨line, n⟩, hmem, rfl⟩ := List.mem_map.mp hitem
  rcases mem_linesFrom (List.fst_mem_of_mem_zipIdx hmem) with ⟨address, rfl⟩ | ⟨slot, hs, k, rfl⟩
  · simp [ListingLine.content, Item.branchLabel?] at hname
  · obtain ⟨w, hw, rfl⟩ := List.mem_map.mp hs
    rcases slotLine_cases count k w with ⟨hline, -⟩ | ⟨i, hi, hwithin, hline⟩
    · simp [hline, ListingLine.content, Item.branchLabel?] at hname
    · simp only [hline, ListingLine.content_instruction hi, Item.branchLabel?] at hname
      cases ht : i.branchTarget? with
      | none =>
        rw [Instruction.named_of_not_branch ht] at hname
        exact absurd (operands_of_branchLabel? hname) (Word.not_branch_of_decode hi ht _)
      | some target =>
        rw [Instruction.named_of_branch ht] at hname
        obtain rfl : labelName target = name := by simpa [Instruction.branchLabel?] using hname
        exact ⟨target, (Word.branch_of_decode hi ht).2.1, h w hw i hi target ht (hwithin target ht)⟩

end Words

/-- A listing is read back as the items that its lines stand for. -/
theorem readProgram_disassemble {settings : Settings} (hs : settings.PlainPrefix)
    (words : List Word) :
    readProgram settings (disassemble words).text.toList =
      .ok ⟨itemsFrom 1 (disassemble words).lines, []⟩ := by
  apply readProgram_text
  intro line hline
  rw [lines_disassemble] at hline
  exact faithful_of_mem_linesFrom hs hline

/-- A listing is assembled into the listed words without their reserved bits. -/
theorem assemble_text {settings : Settings} (hs : settings.PlainPrefix) (words : List Word) :
    ∃ table, assemble settings (disassemble words).text.toList =
      .ok ⟨words.map Word.canonical, table, []⟩ := by
  have hread := readProgram_disassemble hs words
  obtain ⟨table, total, hbuild, haddress⟩ := build_linesFrom
    (branchTargets (words.map Slot.ofWord)) words.length (words.map Slot.ofWord)
  rw [lines_disassemble] at hread
  have hnames : Names table words.length words := by
    intro w hw i hi target ht hle
    have htarget : target ∈ branchTargets (words.map Slot.ofWord) :=
      mem_branchTargets.mpr ⟨Slot.ofWord w, List.mem_map_of_mem hw, by
        simp [Slot.ofWord, hi, Slot.branchTarget?, ht]⟩
    exact haddress target htarget (Word.branch_of_decode hi ht).2.1 (by simpa using hle)
  refine ⟨table, ?_⟩
  rw [assemble_of_resolved hread hbuild (resolved_linesFrom hnames 1 0), wordsOf_linesFrom hnames]

/-- Assembling a listing gives the listed words back without their reserved bits, and nothing to
report. So it gives the very same words exactly when no reserved bit was set. -/
theorem listing_reassembles {settings : Settings} (hs : settings.PlainPrefix)
    (words : List Word) :
    ∃ a, assemble settings (disassemble words).text.toList = .ok a ∧ a.diagnostics = [] ∧
      a.words = words.map Word.canonical ∧
      (a.words = words ↔ ∀ w ∈ words, ∀ op, Opcode.ofCode? w.opcodeBits = some op →
        w &&& op.format.reserved = 0) := by
  obtain ⟨table, h⟩ := assemble_text hs words
  refine ⟨_, h, rfl, rfl, ?_⟩
  have hfixed := List.map_inj_left (f := Word.canonical) (g := id) (l := words)
  rw [List.map_id] at hfixed
  simp only [hfixed, Word.canonical_eq_self_iff, id]

/-- A jump to the end, a reserved bit, a word without an instruction and a jump beyond the end. -/
theorem mixed_listing_reassembles :
    ({} : Settings).PlainPrefix ∧
      (disassemble [0x4804, 0x8801, 0xA800, 0x4FFF]).text =
        "JUMP BRANCH4\nPINK\n.word 0xa800\n.word 0x4fff\nBRANCH4:\n" ∧
      ∃ a, assemble {} (disassemble [0x4804, 0x8801, 0xA800, 0x4FFF]).text.toList = .ok a ∧
        a.diagnostics = [] ∧ a.words = [0x4804, 0x8800, 0xA800, 0x4FFF] := by
  obtain ⟨a, h, hquiet, hwords, -⟩ :=
    listing_reassembles Settings.plainPrefix_default [0x4804, 0x8801, 0xA800, 0x4FFF]
  exact ⟨Settings.plainPrefix_default, by decide, a, h, hquiet, hwords.trans (by decide)⟩

end Listing

end Hue

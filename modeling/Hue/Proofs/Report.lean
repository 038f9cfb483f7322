import Hue.Proofs.Decoding
import Hue.Proofs.RoundTrip
import Hue.Report
import Mathlib.Data.List.Sort

/-!
The report on a listing agrees with the listing. Its labels are the lines with labels, in their
order and at their addresses, and they are the symbols of the listing as a source. Its branches are
the jumps among the words, a branch has a label exactly when its word is listed as an instruction,
and the branches out of the program are those that the diagnostics warn of.
-/
namespace Hue

open Source Assembly

/-- Whether a line shows an instruction. -/
def ListingLine.isInstruction : ListingLine → Bool
  | instruction _ _ _ => true
  | _ => false

/-- The word whose branch a diagnostic says to go out of the program. -/
def Diagnostic.danglingWord? (d : Diagnostic) : Option Nat :=
  match d.location, d.cause with
  | .word index, .danglingTarget _ _ => some index
  | _, _ => none

/-! ## Targets in ascending order -/

theorem pairwise_insertAscending (n : Nat) {row : List Nat} (h : row.Pairwise (· < ·)) :
    (insertAscending n row).Pairwise (· < ·) := by
  induction row with
  | nil => exact List.pairwise_singleton _ n
  | cons m row ih =>
    obtain ⟨hfirst, hrest⟩ := List.pairwise_cons.mp h
    unfold insertAscending
    split
    case isTrue hlt =>
      refine List.pairwise_cons.mpr ⟨?_, h⟩
      intro k hk
      rcases List.mem_cons.mp hk with rfl | hk
      · exact hlt
      · exact hlt.trans (hfirst k hk)
    case isFalse hnot =>
      split
      case isTrue => exact h
      case isFalse hne =>
        refine List.pairwise_cons.mpr ⟨?_, ih hrest⟩
        intro k hk
        rcases mem_insertAscending.mp hk with rfl | hk
        · omega
        · exact hfirst k hk

theorem pairwise_branchTargets (slots : List Slot) : (branchTargets slots).Pairwise (· < ·) := by
  unfold branchTargets
  induction slots.filterMap Slot.branchTarget? with
  | nil => exact .nil
  | cons first targets ih => exact pairwise_insertAscending first ih

/-- Where every target fits the address field, the targets up to the end of a program are the
addresses up to there that get a label. -/
theorem filter_branchTargets {slots : List Slot}
    (hfit : ∀ target ∈ branchTargets slots, target ≤ maxAddress) (count : Nat) :
    (branchTargets slots).filter (· ≤ count) =
      (List.range' 0 (count + 1)).filter fun address =>
        address ≤ maxAddress ∧ (branchTargets slots).contains address := by
  have hrange : ((List.range' 0 (count + 1)).filter fun address =>
      address ≤ maxAddress ∧ (branchTargets slots).contains address).Pairwise (· < ·) :=
    List.Pairwise.filter _ List.pairwise_lt_range'
  apply ((pairwise_branchTargets slots).filter _).eq_of_mem_iff hrange
  intro target
  simp only [List.mem_filter, List.mem_range'_1, List.contains_iff_mem, decide_eq_true_eq]
  constructor
  · rintro ⟨hmem, hle⟩
    exact ⟨by omega, hfit target hmem, hmem⟩
  · rintro ⟨hlt, -, hmem⟩
    exact ⟨hmem, by omega⟩

/-- A word branches exactly when it holds a jump to an address. -/
theorem Slot.branchTarget?_ofWord {w : Word} {target : Nat} :
    (ofWord w).branchTarget? = some target ↔
      w.decode = .ok ⟨.jump, .branch (.address target)⟩ := by
  cases h : w.decode with
  | error e => simp [ofWord, h, branchTarget?]
  | ok i =>
    simp only [ofWord, h, branchTarget?, Except.ok.injEq]
    constructor
    · intro ht
      have hoperands := (Word.branch_of_decode h ht).1
      have hop : i.op = .jump := by
        apply Opcode.eq_jump_of_format
        rw [← Word.format_of_decode h, hoperands]
        rfl
      obtain ⟨op, operands⟩ := i
      rw [show op = .jump from hop, show operands = _ from hoperands]
    · rintro rfl
      rfl

theorem target_le_of_mem_branchTargets {words : List Word} {target : Nat}
    (h : target ∈ branchTargets (words.map Slot.ofWord)) : target ≤ maxAddress := by
  obtain ⟨slot, hslot, ht⟩ := mem_branchTargets.mp h
  obtain ⟨w, -, rfl⟩ := List.mem_map.mp hslot
  exact (Word.branch_of_decode (Slot.branchTarget?_ofWord.mp ht) rfl).2.1

namespace Listing

/-! ## Labels -/

/-- The labels among lines, each with the number of words that are listed before it. There are
`index` words before the first line. -/
def labelPlaces (index : Nat) : List ListingLine → List (String × Nat)
  | [] => []
  | .label name :: lines => (name, index) :: labelPlaces index lines
  | .instruction _ _ _ :: lines => labelPlaces (index + 1) lines
  | .raw _ _ :: lines => labelPlaces (index + 1) lines

theorem label_mem_of_mem_labelPlaces {index address : Nat} {name : String}
    {lines : List ListingLine} (h : (name, address) ∈ labelPlaces index lines) :
    .label name ∈ lines := by
  induction lines generalizing index with
  | nil => simp [labelPlaces] at h
  | cons line lines ih =>
    cases line with
    | label other =>
      rcases List.mem_cons.mp h with heq | h
      · obtain ⟨rfl, -⟩ := Prod.mk.inj heq
        exact List.mem_cons_self
      · exact List.mem_cons_of_mem _ (ih h)
    | instruction n w text => exact List.mem_cons_of_mem _ (ih h)
    | raw n w => exact List.mem_cons_of_mem _ (ih h)

/-- The lines stand for items with these labels at these addresses. -/
theorem map_declarations_itemsFrom (number index : Nat) (lines : List ListingLine) :
    (SymbolTable.declarations index (itemsFrom number lines)).map (fun s => (s.name, s.address)) =
      labelPlaces index lines := by
  induction lines generalizing number index with
  | nil => rfl
  | cons line lines ih =>
    rw [itemsFrom_cons]
    cases line with
    | label name =>
      rw [labelPlaces, ← ih (number + 1) index]
      rfl
    | raw n w => exact ih (number + 1) (index + 1)
    | instruction n w text =>
      obtain ⟨s, hs⟩ : ∃ s, (ListingLine.instruction n w text).content = .statement s := by
        cases h : w.decode <;> simp [ListingLine.content, h]
      rw [hs]
      exact ih (number + 1) (index + 1)

theorem labelPlaces_linesFrom (targets : List Nat) (count index : Nat) (slots : List Slot) :
    labelPlaces index (linesFrom targets count index slots) =
      ((List.range' index (slots.length + 1)).filter fun address =>
        address ≤ maxAddress ∧ targets.contains address).map fun address =>
          (labelName address, address) := by
  rw [← map_declarations_itemsFrom 1, map_declarations_linesFrom]

/-- The labels of the report are those of the lines. -/
theorem map_labels_disassemble (words : List Word) :
    (disassemble words).labels.map (fun l => (l.name, l.address)) =
      labelPlaces 0 (disassemble words).lines := by
  have hfit : ∀ target ∈ branchTargets (words.map Slot.ofWord), target ≤ maxAddress :=
    fun target => target_le_of_mem_branchTargets
  have hinside := filter_branchTargets hfit (words.map Slot.ofWord).length
  rw [lines_disassemble, labelPlaces_linesFrom, ← hinside]
  exact List.map_map

/-- The symbols of a listing that is assembled are its labels. -/
theorem map_symbols_of_assemble_text {settings : Settings} (hs : settings.PlainPrefix)
    {words : List Word} {a : Assembly}
    (h : assemble settings (disassemble words).text.toList = .ok a) (hquiet : a.diagnostics = []) :
    a.symbols.symbols.map (fun s => (s.name, s.address)) =
      labelPlaces 0 (disassemble words).lines := by
  obtain ⟨program, hread, -, hbuild, -, -⟩ := assemble_spec h
  rw [readProgram_disassemble hs] at hread
  obtain rfl := Except.ok.inj hread
  rw [hquiet, without_eq_self (by simp [reportsLine])] at hbuild
  rw [(SymbolTable.build_eq_ok_iff.mp hbuild).2.1, ← map_declarations_itemsFrom 1]
  rfl

/-! ## Branches -/

theorem mem_edges_disassemble {words : List Word} {e : Edge} :
    e ∈ (disassemble words).edges ↔
      ∃ w, words[e.source]? = some w ∧ w.decode = .ok ⟨.jump, .branch (.address e.target)⟩ ∧
        e.label = (if e.target ≤ words.length then some (labelName e.target) else none) ∧
        e.dangling = decide (words.length ≤ e.target) := by
  obtain ⟨source, target, label, dangling⟩ := e
  have hslots : (disassemble words).slots = words.map Slot.ofWord := rfl
  simp only [edges, hslots, List.length_map, List.zipIdx_map, List.filterMap_map,
    List.mem_filterMap, Function.comp_apply, Prod.map, id, Option.map_eq_some_iff,
    Slot.branchTarget?_ofWord, Edge.mk.injEq]
  constructor
  · rintro ⟨⟨w, k⟩, hmem, other, hw, rfl, rfl, rfl, rfl⟩
    exact ⟨w, List.mk_mem_zipIdx_iff_getElem?.mp hmem, hw, rfl, rfl⟩
  · rintro ⟨w, hk, hw, hlabel, hdangling⟩
    exact ⟨(w, source), List.mk_mem_zipIdx_iff_getElem?.mpr hk, target, hw, rfl, rfl, hlabel.symm,
      hdangling.symm⟩

theorem exists_edge_iff {words : List Word} {source target : Nat} :
    (∃ e ∈ (disassemble words).edges, e.source = source ∧ e.target = target) ↔
      ∃ w, words[source]? = some w ∧ w.decode = .ok ⟨.jump, .branch (.address target)⟩ := by
  constructor
  · rintro ⟨e, he, rfl, rfl⟩
    obtain ⟨w, hk, hw, -⟩ := mem_edges_disassemble.mp he
    exact ⟨w, hk, hw⟩
  · rintro ⟨w, hk, hw⟩
    let e : Edge := ⟨source, target, if target ≤ words.length then some (labelName target) else none,
      words.length ≤ target⟩
    exact ⟨e, mem_edges_disassemble.mpr ⟨w, hk, hw, rfl, rfl⟩, rfl, rfl⟩

/-- Branches are in the order of their words, and no word has two. -/
theorem pairwise_edges (listing : Listing) : (listing.edges.map Edge.source).Pairwise (· < ·) := by
  have hidx : (listing.slots.zipIdx.map Prod.snd).Pairwise (· < ·) := by
    rw [List.zipIdx_map_snd]
    exact List.pairwise_lt_range'
  rw [List.pairwise_map, edges, List.pairwise_filterMap]
  apply (List.pairwise_map.mp hidx).imp
  intro p q hlt e he f hf
  obtain ⟨target, -, rfl⟩ := Option.map_eq_some_iff.mp he
  obtain ⟨other, -, rfl⟩ := Option.map_eq_some_iff.mp hf
  exact hlt

/-- A jump is listed as an instruction exactly when its target is not beyond the end. -/
theorem isInstruction_slotLine {w : Word} {target : Nat}
    (h : w.decode = .ok ⟨.jump, .branch (.address target)⟩) (count index : Nat) :
    (slotLine count index (Slot.ofWord w)).isInstruction = decide (target ≤ count) := by
  by_cases hle : target ≤ count
  · rw [slotLine_of_decode h fun other ho => Option.some.inj ho ▸ hle]
    simp [ListingLine.isInstruction, hle]
  · have hraw : slotLine count index (Slot.ofWord w) = .raw index w := by
      simp [Slot.ofWord, h, slotLine, Instruction.branchTarget?, Nat.not_le.mp hle]
    simp [hraw, ListingLine.isInstruction, hle]

/-- The label of a branch within the program stands at its target. -/
theorem mem_labelPlaces_of_jump {words : List Word} {w : Word} (hw : w ∈ words) {target : Nat}
    (h : w.decode = .ok ⟨.jump, .branch (.address target)⟩) (hle : target ≤ words.length) :
    (labelName target, target) ∈ labelPlaces 0 (disassemble words).lines := by
  have hmem : target ∈ branchTargets (words.map Slot.ofWord) :=
    mem_branchTargets.mpr ⟨_, List.mem_map_of_mem hw, Slot.branchTarget?_ofWord.mpr h⟩
  rw [← map_labels_disassemble]
  refine List.mem_map.mpr ⟨⟨target, labelName target⟩, List.mem_map.mpr ⟨target, ?_, rfl⟩, rfl⟩
  rw [List.mem_filter]
  exact ⟨hmem, by simpa [disassemble, ofSlots] using hle⟩

/-- A branch has a label exactly when its word is listed as an instruction, and that label stands
at the target. -/
theorem label_of_mem_edges {words : List Word} {e : Edge} (h : e ∈ (disassemble words).edges) :
    ∃ line, (disassemble words).lines.filter (·.index? == some e.source) = [line] ∧
      e.label.isSome = line.isInstruction ∧
      ∀ name, e.label = some name →
        .label name ∈ (disassemble words).lines ∧
          (name, e.target) ∈ labelPlaces 0 (disassemble words).lines := by
  obtain ⟨w, hk, hw, hlabel, -⟩ := mem_edges_disassemble.mp h
  refine ⟨_, filter_index_disassemble hk, ?_, ?_⟩
  · rw [isInstruction_slotLine hw, hlabel]
    by_cases hle : e.target ≤ words.length <;> simp [hle]
  · intro name hname
    rw [hlabel] at hname
    obtain ⟨hle, hsome⟩ := Option.ite_none_right_eq_some.mp hname
    obtain rfl := Option.some.inj hsome
    have hplace := mem_labelPlaces_of_jump (List.mem_of_getElem? hk) hw hle
    exact ⟨label_mem_of_mem_labelPlaces hplace, hplace⟩

/-! ## Branches out of the program -/

theorem filterMap_danglingWord_decodeFaults (words : List Word) :
    (decodeFaults words).filterMap Diagnostic.danglingWord? = [] := by
  rw [List.filterMap_eq_nil_iff]
  intro d hd
  obtain ⟨⟨w, index⟩, -, hd⟩ := List.mem_filterMap.mp hd
  cases h : w.decode with
  | ok i => simp [h] at hd
  | error e =>
    obtain rfl : Diagnostic.error (.word index) e = d := by simpa [h] using hd
    rw [(Word.decode_eq_error_iff.mp h).2]
    rfl

/-- A branch is marked as dangling exactly when there is a warning about it. -/
theorem map_source_dangling_ofSlots (slots : List Slot) :
    ((ofSlots slots).edges.filter Edge.dangling).map Edge.source =
      (ofSlots slots).diagnostics.filterMap Diagnostic.danglingWord? := by
  simp only [edges, ofSlots, List.filter_filterMap, List.map_filterMap, List.filterMap_filterMap]
  congr 1
  funext p
  cases ht : p.1.branchTarget? with
  | none => simp [dangling?, ht]
  | some target =>
    by_cases hle : slots.length ≤ target
    · simp [dangling?, ht, hle, Diagnostic.warning, Diagnostic.danglingWord?]
    · simp [dangling?, ht, hle]

theorem map_source_dangling (words : List Word) :
    ((disassemble words).edges.filter Edge.dangling).map Edge.source =
      (disassemble words).diagnostics.filterMap Diagnostic.danglingWord? := by
  have hdiagnostics : (disassemble words).diagnostics =
      decodeFaults words ++ (ofSlots (words.map Slot.ofWord)).diagnostics := rfl
  rw [hdiagnostics, List.filterMap_append, filterMap_danglingWord_decodeFaults, List.nil_append]
  exact map_source_dangling_ofSlots (words.map Slot.ofWord)

/-- The report, the listing, the diagnostics and the assembler agree. The labels are those of the
lines and of the listing as a source. The branches are the jumps in the order of their words; a
branch has a label, which stands at its target, exactly when its word is listed as an instruction;
and those marked as dangling are those with a warning. -/
theorem report_agrees_with_listing (words : List Word) :
    (disassemble words).labels.map (fun l => (l.name, l.address)) =
        labelPlaces 0 (disassemble words).lines ∧
      (∃ a, assemble {} (disassemble words).text.toList = .ok a ∧
        (disassemble words).labels.map (fun l => (l.name, l.address)) =
          a.symbols.symbols.map fun s => (s.name, s.address)) ∧
      ((disassemble words).edges.map Edge.source).Pairwise (· < ·) ∧
      (∀ source target,
        (∃ e ∈ (disassemble words).edges, e.source = source ∧ e.target = target) ↔
          ∃ w, words[source]? = some w ∧ w.decode = .ok ⟨.jump, .branch (.address target)⟩) ∧
      (∀ e ∈ (disassemble words).edges,
        ∃ line, (disassemble words).lines.filter (·.index? == some e.source) = [line] ∧
          e.label.isSome = line.isInstruction ∧
          ∀ name, e.label = some name →
            .label name ∈ (disassemble words).lines ∧
              (name, e.target) ∈ labelPlaces 0 (disassemble words).lines) ∧
      ((disassemble words).edges.filter Edge.dangling).map Edge.source =
        (disassemble words).diagnostics.filterMap Diagnostic.danglingWord? := by
  have hlabels := map_labels_disassemble words
  obtain ⟨table, h⟩ := assemble_text Settings.plainPrefix_default words
  have hsymbols := map_symbols_of_assemble_text Settings.plainPrefix_default h rfl
  exact ⟨hlabels, ⟨_, h, hlabels.trans hsymbols.symm⟩, pairwise_edges _,
    fun source target => exists_edge_iff, fun e => label_of_mem_edges, map_source_dangling words⟩

/-- A jump to the end, one beyond it and one back to the start. -/
def threeJumps : List Word := [0x4803, 0x4809, 0x4800]

theorem threeJumps_report_agrees :
    (disassemble threeJumps).text =
        "BRANCH0:\nJUMP BRANCH3\n.word 0x4809\nJUMP BRANCH0\nBRANCH3:\n" ∧
      (∃ a, assemble {} (disassemble threeJumps).text.toList = .ok a ∧
        a.symbols.symbols.map (fun s => (s.name, s.address)) = [("BRANCH0", 0), ("BRANCH3", 3)]) ∧
      (∃ line, (disassemble threeJumps).lines.filter (·.index? == some 1) = [line] ∧
        line.isInstruction = false) ∧
      .label "BRANCH3" ∈ (disassemble threeJumps).lines ∧
      (disassemble threeJumps).diagnostics.filterMap Diagnostic.danglingWord? = [0, 1] := by
  obtain ⟨-, ⟨a, ha, hsymbols⟩, -, -, hedges, hdangling⟩ := report_agrees_with_listing threeJumps
  obtain ⟨line, hline, hraw, -⟩ := hedges ⟨1, 9, none, true⟩ (by decide)
  obtain ⟨-, -, -, hnames⟩ := hedges ⟨0, 3, some "BRANCH3", true⟩ (by decide)
  exact ⟨by decide, ⟨a, ha, hsymbols.symm.trans (by decide)⟩, ⟨line, hline, hraw.symm⟩,
    (hnames "BRANCH3" rfl).1, hdangling.symm.trans (by decide)⟩

end Listing

end Hue

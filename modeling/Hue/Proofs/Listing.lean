import Hue.Listing
import Hue.Proofs.Encoding
import Hue.Proofs.Line
import Hue.Proofs.Numeral

/-!
The lines of a listing. Each word has one line, in the order of the words. In front of it stands a
label if a branch goes there, and the names of labels tell their addresses apart.
-/
namespace Hue

/-! ## Targets and their labels -/

theorem mem_insertAscending {n m : Nat} {row : List Nat} :
    m ∈ insertAscending n row ↔ m = n ∨ m ∈ row := by
  induction row with
  | nil => simp [insertAscending]
  | cons first row ih =>
    unfold insertAscending
    split
    case isTrue => simp
    case isFalse =>
      split
      case isTrue h => simp [h]
      case isFalse => simp only [List.mem_cons, ih, or_left_comm]

/-- The targets are the addresses that branches go to. -/
theorem mem_branchTargets {slots : List Slot} {target : Nat} :
    target ∈ branchTargets slots ↔ ∃ slot ∈ slots, slot.branchTarget? = some target := by
  rw [← List.mem_filterMap, branchTargets]
  induction slots.filterMap Slot.branchTarget? with
  | nil => simp
  | cons first targets ih => rw [List.foldr_cons, mem_insertAscending, ih, List.mem_cons]

theorem labelName_inj {a b : Nat} (h : labelName a = labelName b) : a = b :=
  Numeral.toString_inj a b (String.append_right_inj "BRANCH" |>.mp h)

theorem isLabelName_labelName (address : Nat) :
    Source.isLabelName (labelName address).toList = true := by
  have hdigits := Numeral.isDigit_of_mem_padded 10 0 address (by decide) (by decide)
  have hall : ∀ c ∈ (toString address).toList, Source.isLabelPart c = true := by
    rw [Numeral.toList_toString]
    exact fun c hc => Source.isLabelPart_of_isDigit (by decide) (hdigits c hc)
  have hname : (labelName address).toList =
      'B' :: ("RANCH".toList ++ (toString address).toList) := by
    simp [labelName]
  rw [hname, Source.isLabelName, List.all_append, Bool.and_eq_true, Bool.and_eq_true,
    List.all_eq_true (p := Source.isLabelPart) (l := (toString address).toList)]
  exact ⟨by decide, by decide, hall⟩

theorem Instruction.named_of_branch {i : Instruction} {target : Nat}
    (h : i.branchTarget? = some target) :
    i.named = { i with operands := .branch (.label (labelName target)) } := by
  simp [named, h]

theorem Instruction.named_of_not_branch {i : Instruction} (h : i.branchTarget? = none) :
    i.named = i := by
  simp [named, h]

/-! ## Lines -/

/-- The number and the word that a line shows. A label shows none. -/
def ListingLine.numbered? : ListingLine → Option (Nat × Word)
  | label _ => none
  | instruction index word _ => some (index, word)
  | raw index word => some (index, word)

/-- The number of the word that a line shows. -/
def ListingLine.index? (line : ListingLine) : Option Nat := line.numbered?.map Prod.fst

namespace Listing

/-- The lines of slots, the first of which has the number `index`. -/
def linesFrom (targets : List Nat) (count index : Nat) : List Slot → List ListingLine
  | [] => labelLines targets index
  | slot :: slots =>
    labelLines targets index ++ slotLine count index slot ::
      linesFrom targets count (index + 1) slots

theorem lines_ofSlots (slots : List Slot) :
    (ofSlots slots).lines = linesFrom (branchTargets slots) slots.length 0 slots := by
  have hfrom (targets : List Nat) (count index : Nat) (slots : List Slot) :
      ((slots.zipIdx index).flatMap fun p =>
        labelLines targets p.2 ++ [slotLine count p.2 p.1]) ++
          labelLines targets (index + slots.length) = linesFrom targets count index slots := by
    induction slots generalizing index with
    | nil => rfl
    | cons slot slots ih =>
      rw [linesFrom, ← ih (index + 1), List.zipIdx_cons, List.flatMap_cons, List.length_cons,
        Nat.add_right_comm index 1, ← Nat.add_assoc]
      simp
  rw [← hfrom, Nat.zero_add]
  rfl

theorem lines_disassemble (words : List Word) :
    (disassemble words).lines =
      linesFrom (branchTargets (words.map Slot.ofWord)) words.length 0 (words.map Slot.ofWord) := by
  rw [← List.length_map (f := Slot.ofWord), ← lines_ofSlots]
  rfl

/-- A position that fits the address field is its own address. -/
theorem labelLines_eq (targets : List Nat) (position : Nat) :
    labelLines targets position =
      if position ≤ maxAddress ∧ targets.contains position then [.label (labelName position)]
      else [] := by
  by_cases h : position ≤ maxAddress
  · rw [labelLines, addressOf_of_le h]
  · simp [labelLines, h]

theorem eq_label_of_mem_labelLines {targets : List Nat} {address : Nat} {line : ListingLine}
    (h : line ∈ labelLines targets address) : line = .label (labelName address) := by
  rw [labelLines_eq] at h
  split at h
  case isTrue => exact List.mem_singleton.mp h
  case isFalse => simp at h

theorem numbered?_slotLine (count index : Nat) (slot : Slot) :
    (slotLine count index slot).numbered? = some (index, slot.word) := by
  cases slot with
  | raw w => rfl
  | decoded w i =>
    cases ht : i.branchTarget? with
    | none => simp [slotLine, ht, ListingLine.numbered?, Slot.word]
    | some target =>
      simp only [slotLine, ht]
      split <;> rfl

@[simp] theorem index?_slotLine (count index : Nat) (slot : Slot) :
    (slotLine count index slot).index? = some index := by
  rw [ListingLine.index?, numbered?_slotLine, Option.map_some]

theorem filter_index_linesFrom (targets : List Nat) (count start k : Nat) (slots : List Slot) :
    (linesFrom targets count start slots).filter (·.index? == some k) =
      if start ≤ k then (slots[k - start]?).toList.map (slotLine count k) else [] := by
  have hlabels (address : Nat) :
      (labelLines targets address).filter (·.index? == some k) = [] := by
    rw [List.filter_eq_nil_iff]
    intro line hline
    simp [eq_label_of_mem_labelLines hline, ListingLine.index?, ListingLine.numbered?]
  induction slots generalizing start with
  | nil => simp [linesFrom, hlabels]
  | cons slot slots ih =>
    rw [linesFrom, List.filter_append, hlabels, List.nil_append, List.filter_cons, ih,
      index?_slotLine]
    rcases Nat.lt_trichotomy start k with hlt | rfl | hgt
    · obtain ⟨d, rfl⟩ := Nat.exists_eq_add_of_lt hlt
      have hne : (some start == some (start + d + 1)) = false := by simp; omega
      have hsub : start + d + 1 - start = d + 1 := by omega
      have hsub' : start + d + 1 - (start + 1) = d := by omega
      rw [if_neg (by simp [hne]), if_pos (by omega), if_pos (by omega), hsub, hsub',
        List.getElem?_cons_succ]
    · rw [if_pos (by simp), if_neg (Nat.not_succ_le_self start), if_pos (Nat.le_refl start)]
      simp
    · have hne : (some start == some k) = false := by simp; omega
      rw [if_neg (by simp [hne]), if_neg (by omega), if_neg (by omega)]

/-- Each word has exactly one line. -/
theorem filter_index_disassemble {words : List Word} {k : Nat} {w : Word}
    (h : words[k]? = some w) :
    (disassemble words).lines.filter (·.index? == some k) =
      [slotLine words.length k (Slot.ofWord w)] := by
  rw [lines_disassemble, filter_index_linesFrom]
  simp [h]

/-- The line of an instruction whose target, if it has one, is within the program. -/
theorem slotLine_of_decode {count : Nat} {w : Word} {i : Instruction} (h : w.decode = .ok i)
    (ht : ∀ target, i.branchTarget? = some target → target ≤ count) (index : Nat) :
    slotLine count index (Slot.ofWord w) = .instruction index w i.named.text := by
  simp only [Slot.ofWord, h, slotLine]
  cases hb : i.branchTarget? with
  | none => rfl
  | some target => simp [Nat.not_lt.mpr (ht target hb)]

/-- A word is listed raw, and then all of its bits count, or as its instruction. -/
theorem slotLine_cases (count index : Nat) (w : Word) :
    (slotLine count index (Slot.ofWord w) = .raw index w ∧ w.canonical = w) ∨
      ∃ i, w.decode = .ok i ∧ (∀ target, i.branchTarget? = some target → target ≤ count) ∧
        slotLine count index (Slot.ofWord w) = .instruction index w i.named.text := by
  cases h : w.decode with
  | error e => exact .inl ⟨by simp [Slot.ofWord, h, slotLine], Word.canonical_of_decode_error h⟩
  | ok i =>
    by_cases hfar : ∃ target, i.branchTarget? = some target ∧ count < target
    · obtain ⟨target, hb, hlt⟩ := hfar
      refine .inl ⟨?_, (Word.branch_of_decode h hb).2.2⟩
      simp [Slot.ofWord, h, slotLine, hb, hlt]
    · have ht : ∀ target, i.branchTarget? = some target → target ≤ count := by
        intro target hb
        rw [← Nat.not_lt]
        exact fun hlt => hfar ⟨target, hb, hlt⟩
      exact .inr ⟨i, rfl, ht, slotLine_of_decode h ht index⟩

theorem mem_linesFrom {targets : List Nat} {count start : Nat} {slots : List Slot}
    {line : ListingLine} (h : line ∈ linesFrom targets count start slots) :
    (∃ address, line = .label (labelName address)) ∨
      ∃ slot ∈ slots, ∃ index, line = slotLine count index slot := by
  induction slots generalizing start with
  | nil => exact .inl ⟨start, eq_label_of_mem_labelLines h⟩
  | cons slot slots ih =>
    rw [linesFrom, List.mem_append, List.mem_cons] at h
    rcases h with h | rfl | h
    · exact .inl ⟨start, eq_label_of_mem_labelLines h⟩
    · exact .inr ⟨slot, by simp, start, rfl⟩
    · rcases ih h with hl | ⟨other, ho, index, rfl⟩
      · exact .inl hl
      · exact .inr ⟨other, by simp [ho], index, rfl⟩

/-- The errors of a listing are the words without an instruction. -/
theorem hasErrors_disassemble_eq_false_iff (words : List Word) :
    (disassemble words).hasErrors = false ↔ ∀ w ∈ words, ∃ i, w.decode = .ok i := by
  have hdangling : (ofSlots (words.map Slot.ofWord)).diagnostics.any Diagnostic.isError = false := by
    rw [List.any_eq_false]
    intro d hd
    obtain ⟨⟨slot, index⟩, -, hd⟩ := List.mem_filterMap.mp hd
    simp only [dangling?] at hd
    split at hd
    case h_1 target _ =>
      obtain ⟨-, hwarning⟩ := Option.ite_none_right_eq_some.mp hd
      obtain rfl := Option.some.inj hwarning
      simp [Diagnostic.isError, Diagnostic.warning]
    case h_2 => simp at hd
  have hfaults : (decodeFaults words).any Diagnostic.isError = false ↔
      ∀ w ∈ words, ∃ i, w.decode = .ok i := by
    rw [List.any_eq_false]
    constructor
    · intro h w hw
      cases hdecode : w.decode with
      | ok i => exact ⟨i, rfl⟩
      | error e =>
        obtain ⟨index, hindex⟩ := List.mem_iff_getElem?.mp hw
        have hfault : Diagnostic.error (.word index) e ∈ decodeFaults words :=
          List.mem_filterMap.mpr
            ⟨(w, index), List.mk_mem_zipIdx_iff_getElem?.mpr hindex, by simp [hdecode]⟩
        exact absurd rfl (h _ hfault)
    · intro h d hd
      obtain ⟨⟨w, index⟩, hmem, hd⟩ := List.mem_filterMap.mp hd
      obtain ⟨i, hi⟩ := h w (List.fst_mem_of_mem_zipIdx hmem)
      simp [hi] at hd
  rw [← hfaults, hasErrors, disassemble, List.any_append, hdangling, Bool.or_false]

theorem toList_text (listing : Listing) :
    listing.text.toList = (listing.lines.map (·.text.toList)).flatMap (· ++ ['\n']) := by
  rw [text]
  induction listing.lines with
  | nil => rfl
  | cons line lines ih => simp [String.join_cons, ih]

end Listing

end Hue

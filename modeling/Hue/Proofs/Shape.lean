import Hue.Proofs.Listing

/-!
The shape of a listing. Without its labels a listing has one line for each slot, in the order of the
slots. Each address up to the end that a branch goes to has one label, right before the line there.
A slot that holds no instruction, or that branches beyond the end, is listed raw, and every branch
to the end or beyond is warned of. All this holds at any length: the address field bounds the
targets, and not the program.
-/
namespace Hue

namespace ListingLine

def isRaw : ListingLine → Bool
  | raw _ _ => true
  | _ => false

end ListingLine

namespace Slot

/-- A slot that holds no instruction. -/
def isRaw : Slot → Bool
  | raw _ => true
  | decoded _ _ => false

end Slot

namespace Listing

/-! ## One line for each slot -/

theorem filterMap_numbered_labelLines (targets : List Nat) (address : Nat) :
    (labelLines targets address).filterMap ListingLine.numbered? = [] := by
  rw [List.filterMap_eq_nil_iff]
  intro line hline
  rw [eq_label_of_mem_labelLines hline]
  rfl

theorem filterMap_numbered_linesFrom (targets : List Nat) (count index : Nat) (slots : List Slot) :
    (linesFrom targets count index slots).filterMap ListingLine.numbered? =
      (slots.zipIdx index).map fun p => (p.2, p.1.word) := by
  induction slots generalizing index with
  | nil => exact filterMap_numbered_labelLines targets index
  | cons slot slots ih =>
    rw [linesFrom, List.filterMap_append, filterMap_numbered_labelLines, List.nil_append,
      List.filterMap_cons_some (numbered?_slotLine count index slot), ih (index + 1),
      List.zipIdx_cons, List.map_cons]

/-- A slot is listed raw if it holds no instruction, or one that branches beyond the end. -/
theorem isRaw_slotLine_iff (count index : Nat) (slot : Slot) :
    (slotLine count index slot).isRaw = true ↔
      slot.isRaw = true ∨ ∃ target, slot.branchTarget? = some target ∧ count < target := by
  cases slot with
  | raw w => simp [slotLine, ListingLine.isRaw, Slot.isRaw]
  | decoded w i =>
    cases ht : i.branchTarget? with
    | none => simp [slotLine, ht, ListingLine.isRaw, Slot.isRaw, Slot.branchTarget?]
    | some target =>
      by_cases hlt : count < target
      · simp [slotLine, ht, hlt, ListingLine.isRaw, Slot.branchTarget?]
      · simp [slotLine, ht, hlt, ListingLine.isRaw, Slot.isRaw, Slot.branchTarget?]

theorem text_named_of_branch {i : Instruction} {target : Nat} (h : i.branchTarget? = some target) :
    i.named.text = i.op.mnemonic ++ " BRANCH" ++ toString target := by
  have hmark : " BRANCH" = " " ++ "BRANCH" := by decide
  rw [Instruction.named_of_branch h, hmark, ← String.append_assoc, String.append_assoc]
  rfl

/-- A slot that is not listed raw shows its instruction, with a label for the address in it. -/
theorem slotLine_of_not_raw {count index : Nat} {slot : Slot}
    (h : (slotLine count index slot).isRaw = false) :
    ∃ i, slot = .decoded slot.word i ∧
      slotLine count index slot = .instruction index slot.word i.named.text := by
  cases slot with
  | raw w => simp [slotLine, ListingLine.isRaw] at h
  | decoded w i =>
    refine ⟨i, rfl, ?_⟩
    cases ht : i.branchTarget? with
    | none => simp [slotLine, ht, Slot.word]
    | some target =>
      simp only [slotLine, ht] at h ⊢
      split at h
      case isTrue => simp [ListingLine.isRaw] at h
      case isFalse hlt => simp [hlt, Slot.word]

/-! ## Labels -/

theorem slotLine_ne_label (count index : Nat) (slot : Slot) (name : String) :
    slotLine count index slot ≠ .label name := by
  intro heq
  simpa [heq, ListingLine.index?, ListingLine.numbered?] using index?_slotLine count index slot

theorem count_label_labelLines (targets : List Nat) (index address : Nat) :
    (labelLines targets index).count (.label (labelName address)) =
      if address = index ∧ address ≤ maxAddress ∧ address ∈ targets then 1 else 0 := by
  by_cases heq : address = index
  · subst heq
    simp only [labelLines_eq, List.contains_iff_mem, true_and]
    split <;> simp
  · have hnot : ListingLine.label (labelName address) ∉ labelLines targets index := by
      intro hmem
      exact heq (labelName_inj (ListingLine.label.inj (eq_label_of_mem_labelLines hmem)))
    rw [List.count_eq_zero_of_not_mem hnot, if_neg fun h => heq h.1]

/-- The lines from `index` on have one label for each target from there to the end that fits the
address field, and no other. -/
theorem count_label_linesFrom (targets : List Nat) (count index address : Nat) (slots : List Slot) :
    (linesFrom targets count index slots).count (.label (labelName address)) =
      if (index ≤ address ∧ address ≤ index + slots.length) ∧
        address ≤ maxAddress ∧ address ∈ targets then 1 else 0 := by
  induction slots generalizing index with
  | nil =>
    rw [linesFrom, count_label_labelLines, List.length_nil, Nat.add_zero]
    have hiff : (address = index) = (index ≤ address ∧ address ≤ index) :=
      propext ⟨fun h => by omega, fun h => by omega⟩
    simp only [hiff]
  | cons slot slots ih =>
    rw [linesFrom, List.count_append, count_label_labelLines,
      List.count_cons_of_ne (slotLine_ne_label count index slot _), ih (index + 1),
      List.length_cons]
    by_cases hlabel : address ≤ maxAddress ∧ address ∈ targets
    · -- the label is before this slot's line or among those that follow, never both
      simp only [hlabel, and_true]
      rcases Nat.lt_trichotomy address index with hlt | rfl | hgt
      · rw [if_neg (by omega), if_neg (by omega), if_neg (by omega)]
      · rw [if_pos rfl, if_neg (by omega), if_pos (by omega)]
      · rw [if_neg (by omega), Nat.zero_add]
        congr 1
        simp only [eq_iff_iff]
        omega
    · simp [hlabel]

theorem label_mem_linesFrom_iff {targets : List Nat} {count index address : Nat}
    {slots : List Slot} :
    .label (labelName address) ∈ linesFrom targets count index slots ↔
      (index ≤ address ∧ address ≤ index + slots.length) ∧
        address ≤ maxAddress ∧ address ∈ targets := by
  rw [← List.count_pos_iff, count_label_linesFrom]
  split <;> simp_all

/-- What follows the label of an address is the line there, or nothing at the end. -/
theorem after_label_linesFrom {targets : List Nat} {count index address : Nat} {slots : List Slot}
    {before after : List ListingLine}
    (h : linesFrom targets count index slots = before ++ .label (labelName address) :: after) :
    (address < index + slots.length →
        ∃ line rest, after = line :: rest ∧ line.index? = some address) ∧
      (address = index + slots.length → after = []) := by
  induction slots generalizing index before with
  | nil =>
    rw [linesFrom, labelLines_eq] at h
    split at h
    case isTrue =>
      cases before with
      | nil =>
        obtain ⟨hname, rfl⟩ := List.cons.inj h
        obtain rfl := labelName_inj (ListingLine.label.inj hname)
        exact ⟨fun hlt => absurd hlt (by simp), fun _ => rfl⟩
      | cons line before => simp at h
    case isFalse => simp at h
  | cons slot slots ih =>
    -- the slot's own line is no label, so what follows it settles the matter
    have hrest {front : List ListingLine}
        (hline : slotLine count index slot :: linesFrom targets count (index + 1) slots =
          front ++ .label (labelName address) :: after) :
        (address < index + (slots.length + 1) →
            ∃ line rest, after = line :: rest ∧ line.index? = some address) ∧
          (address = index + (slots.length + 1) → after = []) := by
      cases front with
      | nil => exact absurd (List.cons.inj hline).1 (slotLine_ne_label count index slot _)
      | cons line front =>
        rw [← Nat.add_assoc, Nat.add_right_comm]
        exact ih (List.cons.inj hline).2
    rw [linesFrom, labelLines_eq] at h
    rw [List.length_cons]
    split at h
    case isFalse => exact hrest h
    case isTrue =>
      cases before with
      | nil =>
        obtain ⟨hname, rfl⟩ := List.cons.inj h
        obtain rfl := labelName_inj (ListingLine.label.inj hname)
        exact ⟨fun _ => ⟨_, _, rfl, index?_slotLine count index slot⟩,
          fun heq => absurd heq (by omega)⟩
      | cons line before => exact hrest (List.cons.inj h).2

/-! ## Warnings -/

theorem dangling?_eq_some_iff {count index : Nat} {slot : Slot} {d : Diagnostic} :
    dangling? count index slot = some d ↔
      ∃ target, slot.branchTarget? = some target ∧ count ≤ target ∧
        d = .warning (.word index) (.danglingTarget target count) := by
  unfold dangling?
  cases slot.branchTarget? with
  | none => simp
  | some target =>
    simp only [Option.ite_none_right_eq_some, Option.some.injEq, exists_eq_left']
    exact and_congr_right fun _ => eq_comm

theorem mem_diagnostics_ofSlots {slots : List Slot} {d : Diagnostic} :
    d ∈ (ofSlots slots).diagnostics ↔
      ∃ index slot target, slots[index]? = some slot ∧ slot.branchTarget? = some target ∧
        slots.length ≤ target ∧
          d = .warning (.word index) (.danglingTarget target slots.length) := by
  simp only [ofSlots, List.mem_filterMap, Prod.exists, List.mk_mem_zipIdx_iff_getElem?,
    dangling?_eq_some_iff, ← exists_and_left]
  exact exists_comm

/-- Warnings are in the order of their slots, and no slot has two. -/
theorem pairwise_diagnostics_ofSlots (slots : List Slot) :
    ((ofSlots slots).diagnostics.map fun d => d.location.position).Pairwise (· < ·) := by
  have hidx : (slots.zipIdx.map Prod.snd).Pairwise (· < ·) := by
    rw [List.zipIdx_map_snd]
    exact List.pairwise_lt_range'
  rw [List.pairwise_map, ofSlots, List.pairwise_filterMap]
  apply (List.pairwise_map.mp hidx).imp
  intro p q hlt d hd e he
  obtain ⟨-, -, -, rfl⟩ := dangling?_eq_some_iff.mp hd
  obtain ⟨-, -, -, rfl⟩ := dangling?_eq_some_iff.mp he
  exact hlt

/-- The shape of the listing of slots whose branches all fit the address field. -/
theorem listing_has_shape {slots : List Slot}
    (hfit : ∀ slot ∈ slots, ∀ target, slot.branchTarget? = some target → target ≤ maxAddress) :
    (ofSlots slots).lines.filterMap ListingLine.numbered? =
        slots.zipIdx.map (fun p => (p.2, p.1.word)) ∧
      (∀ name, .label name ∈ (ofSlots slots).lines →
        ∃ address : Nat, name = "BRANCH" ++ toString address) ∧
      (∀ address : Nat, .label ("BRANCH" ++ toString address) ∈ (ofSlots slots).lines ↔
        (∃ slot ∈ slots, slot.branchTarget? = some address) ∧ address ≤ slots.length) ∧
      (∀ address : Nat, (ofSlots slots).lines.count (.label ("BRANCH" ++ toString address)) ≤ 1) ∧
      (∀ (address : Nat) before after,
        (ofSlots slots).lines = before ++ .label ("BRANCH" ++ toString address) :: after →
          (address < slots.length →
            ∃ line rest, after = line :: rest ∧ line.index? = some address) ∧
          (address = slots.length → after = [])) ∧
      (∀ index slot, slots[index]? = some slot →
        ∃ line, (ofSlots slots).lines.filter (·.index? == some index) = [line] ∧
          (line.isRaw = true ↔
            slot.isRaw = true ∨
              ∃ target, slot.branchTarget? = some target ∧ slots.length < target) ∧
          (line.isRaw = false →
            ∃ i text, slot = .decoded slot.word i ∧ line = .instruction index slot.word text ∧
              (∀ target, i.branchTarget? = some target →
                text = i.op.mnemonic ++ " BRANCH" ++ toString target) ∧
              (i.branchTarget? = none → text = i.text))) ∧
      (∀ d, d ∈ (ofSlots slots).diagnostics ↔
        ∃ index slot target, slots[index]? = some slot ∧ slot.branchTarget? = some target ∧
          slots.length ≤ target ∧
          d = .warning (.word index) (.danglingTarget target slots.length)) ∧
      ((ofSlots slots).diagnostics.map fun d => d.location.position).Pairwise (· < ·) := by
  have hname (address : Nat) : "BRANCH" ++ toString address = labelName address := rfl
  simp only [hname, lines_ofSlots]
  refine ⟨filterMap_numbered_linesFrom _ _ _ _, ?_, ?_, ?_, ?_, ?_,
    fun d => mem_diagnostics_ofSlots, pairwise_diagnostics_ofSlots slots⟩
  · intro name hname
    rcases mem_linesFrom hname with ⟨address, heq⟩ | ⟨slot, -, index, heq⟩
    · exact ⟨address, ListingLine.label.inj heq⟩
    · exact absurd heq.symm (slotLine_ne_label _ _ _ _)
  · intro address
    rw [label_mem_linesFrom_iff, mem_branchTargets, Nat.zero_add]
    constructor
    · rintro ⟨⟨-, hle⟩, -, ht⟩
      exact ⟨ht, hle⟩
    · rintro ⟨⟨slot, hslot, ht⟩, hle⟩
      exact ⟨⟨Nat.zero_le _, hle⟩, hfit slot hslot address ht, slot, hslot, ht⟩
  · intro address
    rw [count_label_linesFrom]
    split <;> omega
  · intro address before after h
    simpa using after_label_linesFrom h
  · intro index slot hslot
    refine ⟨slotLine slots.length index slot, ?_, isRaw_slotLine_iff _ _ _, fun hraw => ?_⟩
    · rw [filter_index_linesFrom]
      simp [hslot]
    · obtain ⟨i, hi, hline⟩ := slotLine_of_not_raw hraw
      exact ⟨i, _, hi, hline, fun target ht => text_named_of_branch ht,
        fun ht => by rw [Instruction.named_of_not_branch ht]⟩

/-- A jump to the start and one to the highest address, and then more words than sixteen bits can
count. -/
def longSlots : List Slot :=
  .decoded 0x4800 ⟨.jump, .branch (.address 0)⟩ ::
    .decoded 0x4FFF ⟨.jump, .branch (.address 2047)⟩ :: List.replicate 70000 (.raw 0xA800)

/-- A jump to the end and one beyond it, with a word between them that holds no instruction. -/
def shortSlots : List Slot :=
  [.decoded 0x4803 ⟨.jump, .branch (.address 3)⟩, .raw 0xA800,
    .decoded 0x4809 ⟨.jump, .branch (.address 9)⟩]

theorem long_and_short_listing_shape :
    .label "BRANCH0" ∈ (ofSlots longSlots).lines ∧
      (ofSlots longSlots).lines.count (.label "BRANCH0") ≤ 1 ∧
      .label "BRANCH2047" ∈ (ofSlots longSlots).lines ∧
      (ofSlots shortSlots).lines.filterMap ListingLine.numbered? =
        [(0, 0x4803), (1, 0xA800), (2, 0x4809)] ∧
      .label "BRANCH9" ∉ (ofSlots shortSlots).lines ∧
      (∃ line, (ofSlots shortSlots).lines.filter (·.index? == some 0) = [line] ∧
        line.isRaw = false) ∧
      (∃ line, (ofSlots shortSlots).lines.filter (·.index? == some 2) = [line] ∧
        line.isRaw = true) ∧
      .warning (.word 0) (.danglingTarget 3 3) ∈ (ofSlots shortSlots).diagnostics := by
  have hlong : ∀ slot ∈ longSlots, ∀ target, slot.branchTarget? = some target →
      target ≤ maxAddress := by
    intro slot hslot target ht
    simp only [longSlots, List.mem_cons, List.mem_replicate] at hslot
    rcases hslot with rfl | rfl | ⟨-, rfl⟩
    · obtain rfl := Option.some.inj ht
      decide
    · obtain rfl := Option.some.inj ht
      decide
    · cases ht
  have hshort : ∀ slot ∈ shortSlots, ∀ target, slot.branchTarget? = some target →
      target ≤ maxAddress := by
    simp [shortSlots, Slot.branchTarget?, Instruction.branchTarget?, maxAddress]
  obtain ⟨-, -, hlabels, honce, -⟩ := listing_has_shape hlong
  obtain ⟨hentries, -, hnames, -, -, hraw, hwarned, -⟩ := listing_has_shape hshort
  have hlength : longSlots.length = 70000 + 1 + 1 := by
    rw [longSlots, List.length_cons, List.length_cons, List.length_replicate]
  obtain ⟨first, hfirst, hiff, -⟩ := hraw 0 _ rfl
  obtain ⟨last, hlast, hiff', -⟩ := hraw 2 _ rfl
  refine ⟨(hlabels 0).mpr ⟨⟨_, List.mem_cons_self, rfl⟩, Nat.zero_le _⟩, honce 0,
    (hlabels 2047).mpr ⟨⟨_, List.mem_cons_of_mem _ List.mem_cons_self, rfl⟩, by omega⟩, hentries,
    fun hmem => absurd ((hnames 9).mp hmem).2 (by decide), ⟨first, hfirst, ?_⟩,
    ⟨last, hlast, hiff'.mpr (.inr ⟨9, rfl, by decide⟩)⟩,
    (hwarned _).mpr ⟨0, _, 3, rfl, rfl, by decide, rfl⟩⟩
  rw [← Bool.not_eq_true, hiff]
  rintro (h | ⟨target, ht, hlt⟩)
  · cases h
  · obtain rfl := Option.some.inj ht
    exact absurd hlt (by decide)

end Listing

end Hue

import Hue.Proofs.RoundTrip
import Hue.Report

/-!
A listing is a fixed point of assembling and listing again. What comes back are the listed words
without their reserved bits, and a listing shows nothing of these: not in its text, not in its
diagnostics, and not in the branches and labels of its report.
-/
namespace Hue

open Assembly

/-! ## Reserved bits are not read -/

theorem Word.decode_canonical (w : Word) : w.canonical.decode = w.decode := by
  cases h : w.decode with
  | ok i => exact Instruction.decode_of_encode (encode_of_decode h)
  | error e => rw [canonical_of_decode_error h, h]

/-- Clearing reserved bits changes no branch. -/
theorem Slot.branchTarget?_canonical (w : Word) :
    (ofWord w.canonical).branchTarget? = (ofWord w).branchTarget? := by
  simp only [ofWord, Word.decode_canonical]
  cases w.decode <;> rfl

theorem decodeFaults_canonical (words : List Word) :
    decodeFaults (words.map Word.canonical) = decodeFaults words := by
  simp only [decodeFaults, List.zipIdx_map, List.filterMap_map, Function.comp_def, Prod.map,
    Word.decode_canonical, id]

theorem branchTargets_canonical (words : List Word) :
    branchTargets ((words.map Word.canonical).map Slot.ofWord) =
      branchTargets (words.map Slot.ofWord) := by
  simp only [branchTargets, List.filterMap_map, Function.comp_def, Slot.branchTarget?_canonical]

namespace Listing

/-- A raw word keeps all of its bits, and an instruction is shown by what its word holds. -/
theorem text_slotLine_canonical (count index : Nat) (w : Word) :
    (slotLine count index (Slot.ofWord w.canonical)).text =
      (slotLine count index (Slot.ofWord w)).text := by
  rcases slotLine_cases count index w with ⟨-, hsame⟩ | ⟨i, hi, hwithin, hline⟩
  · rw [hsame]
  · have hcanonical : w.canonical.decode = .ok i := w.decode_canonical.trans hi
    rw [hline, slotLine_of_decode hcanonical hwithin]
    rfl

theorem map_text_linesFrom (targets : List Nat) (count index : Nat) (words : List Word) :
    (linesFrom targets count index ((words.map Word.canonical).map Slot.ofWord)).map
        ListingLine.text =
      (linesFrom targets count index (words.map Slot.ofWord)).map ListingLine.text := by
  induction words generalizing index with
  | nil => rfl
  | cons w words ih =>
    simp only [List.map_cons, linesFrom, List.map_append, text_slotLine_canonical, ih (index + 1)]

theorem text_canonical (words : List Word) :
    (disassemble (words.map Word.canonical)).text = (disassemble words).text := by
  have hlines : (disassemble (words.map Word.canonical)).lines.map ListingLine.text =
      (disassemble words).lines.map ListingLine.text := by
    rw [lines_disassemble, lines_disassemble, branchTargets_canonical, List.length_map,
      map_text_linesFrom]
  have hjoin (listing : Listing) : listing.text =
      String.join ((listing.lines.map ListingLine.text).map (· ++ "\n")) := by
    rw [text, List.map_map]
    rfl
  rw [hjoin, hjoin, hlines]

theorem diagnostics_canonical (words : List Word) :
    (disassemble (words.map Word.canonical)).diagnostics = (disassemble words).diagnostics := by
  simp only [disassemble, ofSlots, decodeFaults_canonical, dangling?, List.length_map,
    List.zipIdx_map, List.filterMap_map, Function.comp_def, Prod.map, Slot.branchTarget?_canonical,
    id]

theorem edges_canonical (words : List Word) :
    (disassemble (words.map Word.canonical)).edges = (disassemble words).edges := by
  simp only [disassemble, ofSlots, edges, List.length_map, List.zipIdx_map, List.filterMap_map,
    Function.comp_def, Prod.map, Slot.branchTarget?_canonical, id]

theorem labels_canonical (words : List Word) :
    (disassemble (words.map Word.canonical)).labels = (disassemble words).labels := by
  simp only [disassemble, ofSlots, labels, branchTargets_canonical, List.length_map]

/-- Listing the words that a listing is assembled into gives the same text, diagnostics, branches
and labels, also where reserved bits are lost on the way. -/
theorem listing_is_fixed_point (words : List Word) :
    ∃ a, assemble {} (disassemble words).text.toList = .ok a ∧
      a.words = words.map Word.canonical ∧
      (disassemble a.words).text = (disassemble words).text ∧
      (disassemble a.words).diagnostics = (disassemble words).diagnostics ∧
      (disassemble a.words).edges = (disassemble words).edges ∧
      (disassemble a.words).labels = (disassemble words).labels := by
  obtain ⟨table, h⟩ := assemble_text Settings.plainPrefix_default words
  exact ⟨_, h, rfl, text_canonical words, diagnostics_canonical words, edges_canonical words,
    labels_canonical words⟩

end Listing

end Hue

import Hue.Proofs.Image

/-!
Images as text. A line holds a word exactly when it is the sixteen digits of that word with blanks
around them, and every other line that is not blank is reported with its number. So an image is
read line by line, and an image that was written is read back.
-/
namespace Hue

/-! ## Lines -/

namespace Text

/-- The lines of a text. Each but the last ends in a line feed, which may have a carriage return
before it. The last one need not end, but then it is not empty. -/
inductive HasLines : List Char → List (List Char) → Prop where
  | none : HasLines [] []
  | last {line : List Char} : line ≠ [] → '\n' ∉ line → HasLines line [line]
  | feed {line rest : List Char} {lines : List (List Char)} :
      '\n' ∉ line → line.getLast? ≠ some '\r' → HasLines rest lines →
      HasLines (line ++ '\n' :: rest) (line :: lines)
  | returnFeed {line rest : List Char} {lines : List (List Char)} :
      '\n' ∉ line → HasLines rest lines →
      HasLines (line ++ '\r' :: '\n' :: rest) (line :: lines)

theorem lines_of_not_mem {cs : List Char} (hne : cs ≠ []) (h : '\n' ∉ cs) : lines cs = [cs] := by
  have hsplit := splitWhere_of_forall_not (beq_of_not_mem h)
  simp [lines, hsplit, hne]

/-- A line feed ends the first line. -/
theorem lines_append_cons {piece : List Char} (h : '\n' ∉ piece) (rest : List Char) :
    lines (piece ++ '\n' :: rest) = dropReturn piece :: lines rest := by
  have hcomplete : (piece ++ ['\n']).getLast? = some '\n' := List.getLast?_concat
  have hfirst : lines (piece ++ ['\n']) = [dropReturn piece] := by
    have hsplit : splitWhere (· == '\n') (piece ++ ['\n']) = [piece, []] :=
      splitWhere_append_cons [] (beq_of_not_mem h) rfl
    simp [lines, hsplit]
  have hsplit := lines_append (.inr hcomplete) rest
  rwa [List.append_assoc, List.singleton_append, hfirst, List.singleton_append] at hsplit

theorem dropReturn_append (line : List Char) : dropReturn (line ++ ['\r']) = line := by
  simp [dropReturn]

theorem HasLines.eq_lines {cs : List Char} {ls : List (List Char)} (h : HasLines cs ls) :
    ls = lines cs := by
  induction h with
  | none => rfl
  | last hne hfree => rw [lines_of_not_mem hne hfree]
  | feed hfree hlast _ ih => rw [lines_append_cons hfree, dropReturn_eq_self hlast, ih]
  | @returnFeed line rest lines hfree _ ih =>
    have hfree' : '\n' ∉ line ++ ['\r'] := by simpa using hfree
    have hcut := lines_append_cons hfree' rest
    rw [List.append_assoc, List.singleton_append, dropReturn_append] at hcut
    rw [hcut, ih]

/-- Every text has its lines. -/
theorem exists_hasLines (cs : List Char) : ∃ ls, HasLines cs ls := by
  induction hn : cs.length using Nat.strongRecOn generalizing cs with
  | ind n ih =>
    by_cases hfeed : '\n' ∈ cs
    case neg =>
      by_cases hne : cs = []
      · exact ⟨[], hne ▸ .none⟩
      · exact ⟨[cs], .last hne hfeed⟩
    case pos =>
      -- cut at the first line feed, and see what stands before it
      obtain ⟨piece, rest, rfl, hfree⟩ := List.eq_append_cons_of_mem hfeed
      rw [List.length_append, List.length_cons] at hn
      obtain ⟨ls, hls⟩ := ih rest.length (by omega) rest rfl
      by_cases hreturn : piece.getLast? = some '\r'
      · obtain ⟨line, rfl⟩ := List.getLast?_eq_some_iff.mp hreturn
        rw [List.append_assoc, List.singleton_append]
        exact ⟨line :: ls, .returnFeed (by simpa using hfree) hls⟩
      · exact ⟨piece :: ls, .feed hfree hreturn hls⟩

theorem hasLines_iff {cs : List Char} {ls : List (List Char)} :
    HasLines cs ls ↔ ls = lines cs := by
  refine ⟨HasLines.eq_lines, ?_⟩
  rintro rfl
  obtain ⟨ls, hls⟩ := exists_hasLines cs
  exact hls.eq_lines ▸ hls

theorem trim_eq_nil_iff {cs : List Char} : trim cs = [] ↔ ∀ c ∈ cs, isBlank c = true := by
  rw [trim, trimEnd, List.reverse_eq_nil_iff, List.dropWhile_eq_nil_iff]
  constructor
  · intro h
    -- what is left in front of the first character that is no blank is empty
    have hnil : trimStart cs = [] := by
      cases hs : trimStart cs with
      | nil => rfl
      | cons c rest =>
        have hblank := h c (by simp [hs])
        rw [isBlank_of_head?_trimStart (by rw [hs]; rfl)] at hblank
        cases hblank
    exact List.dropWhile_eq_nil_iff.mp hnil
  · intro h c hc
    exact h c (List.dropWhile_subset _ (List.mem_reverse.mp hc))

end Text

namespace Image

/-! ## Line by line -/

/-- What lines of an image hold, the first of them with the given number. A blank line holds
nothing, the digits of a word with blanks around them are that word, and for any other line there
is a diagnostic that shows it. -/
inductive LinesHold : Nat → List (List Char) → List Word → List Diagnostic → Prop where
  | none {number : Nat} : LinesHold number [] [] []
  | blank {number : Nat} {line : List Char} {lines : List (List Char)} {words : List Word}
      {diagnostics : List Diagnostic} :
      (∀ c ∈ line, Text.isBlank c = true) → LinesHold (number + 1) lines words diagnostics →
      LinesHold number (line :: lines) words diagnostics
  | word {number : Nat} {line : List Char} {lines : List (List Char)} {w : Word}
      {words : List Word} {diagnostics : List Diagnostic} :
      Text.trim line = w.bits → LinesHold (number + 1) lines words diagnostics →
      LinesHold number (line :: lines) (w :: words) diagnostics
  | fault {number : Nat} {line : List Char} {lines : List (List Char)} {words : List Word}
      {diagnostics : List Diagnostic} :
      (∃ c ∈ line, Text.isBlank c = false) → (∀ w : Word, Text.trim line ≠ w.bits) →
      LinesHold (number + 1) lines words diagnostics →
      LinesHold number (line :: lines) words
        (.error (.line number) (.malformedWord (String.ofList (Text.trim line))) :: diagnostics)

section OfLines

variable (number : Nat) {line : List Char} (lines : List (List Char))

theorem ofLines_of_blank (h : ∀ c ∈ line, Text.isBlank c = true) :
    ofLines number (line :: lines) = ofLines (number + 1) lines := by
  simp [ofLines, List.zipIdx_cons, Text.trim_eq_nil_iff.mpr h]

theorem ofLines_of_fault (hline : ∃ c ∈ line, Text.isBlank c = false)
    (h : ∀ w : Word, Text.trim line ≠ w.bits) :
    ofLines number (line :: lines) =
      ⟨(ofLines (number + 1) lines).words,
        .error (.line number) (.malformedWord (String.ofList (Text.trim line))) ::
          (ofLines (number + 1) lines).diagnostics⟩ := by
  have hne : (Text.trim line).isEmpty = false := by
    rw [List.isEmpty_eq_false_iff, ne_eq, Text.trim_eq_nil_iff]
    intro hblank
    obtain ⟨c, hc, hcb⟩ := hline
    rw [hblank c hc] at hcb
    cases hcb
  simp [ofLines, List.zipIdx_cons, hne, readBits_of_ne h, Except.toOption]

end OfLines

/-- Every row of lines holds what is read from it. -/
theorem linesHold_ofLines (number : Nat) (lines : List (List Char)) :
    LinesHold number lines (ofLines number lines).words (ofLines number lines).diagnostics := by
  induction lines generalizing number with
  | nil => exact .none
  | cons line lines ih =>
    by_cases hblank : ∀ c ∈ line, Text.isBlank c = true
    case pos =>
      rw [ofLines_of_blank number lines hblank]
      exact .blank hblank (ih (number + 1))
    case neg =>
      have hline : ∃ c ∈ line, Text.isBlank c = false := by simpa using hblank
      by_cases hword : ∃ w : Word, Text.trim line = w.bits
      · obtain ⟨w, hw⟩ := hword
        rw [ofLines_of_word number lines hw]
        exact .word hw (ih (number + 1))
      · have hfault : ∀ w : Word, Text.trim line ≠ w.bits := fun w hw => hword ⟨w, hw⟩
        rw [ofLines_of_fault number lines hline hfault]
        exact .fault hline hfault (ih (number + 1))

/-- A row of lines holds nothing else. -/
theorem LinesHold.eq_ofLines {number : Nat} {lines : List (List Char)} {words : List Word}
    {diagnostics : List Diagnostic} (h : LinesHold number lines words diagnostics) :
    ofLines number lines = ⟨words, diagnostics⟩ := by
  induction h with
  | none => rfl
  | blank hblank _ ih => rw [ofLines_of_blank _ _ hblank, ih]
  | word hw _ ih => rw [ofLines_of_word _ _ hw, ih]
  | fault hline hfault _ ih => rw [ofLines_of_fault _ _ hline hfault, ih]

theorem linesHold_iff {number : Nat} {lines : List (List Char)} {words : List Word}
    {diagnostics : List Diagnostic} :
    LinesHold number lines words diagnostics ↔ ofLines number lines = ⟨words, diagnostics⟩ := by
  refine ⟨LinesHold.eq_ofLines, fun h => ?_⟩
  have hholds := linesHold_ofLines number lines
  rwa [h] at hholds

/-! ## The format -/

/-- Reading a text image. One word is read exactly from its sixteen digits, the most significant
bit first, and any other text is reported as it stands without the blanks around it; no text
makes a bit be set past the end of a word. An image holds what its lines hold, counted from one,
and an image that was written holds its words. -/
theorem text_image_read_exactly :
    (∀ (w : Word) (i : Nat), i < 16 →
      w.bits[i]? = some (if w.toBitVec.getMsbD i then '1' else '0')) ∧
    (∀ line (w : Word), readBits line = .ok w ↔ Text.trim line = w.bits) ∧
    (∀ line, (∀ w : Word, Text.trim line ≠ w.bits) →
      readBits line = .error (.malformedWord (String.ofList (Text.trim line)))) ∧
    (∀ line position, readBits line ≠ .error (.bitPastEnd position)) ∧
    (∀ cs lines, Text.HasLines cs lines ↔ lines = Text.lines cs) ∧
    (∀ cs words diagnostics,
      ofText cs = ⟨words, diagnostics⟩ ↔ LinesHold 1 (Text.lines cs) words diagnostics) ∧
    ∀ words, ofText (toText words) = ⟨words, []⟩ := by
  refine ⟨fun w i hi => w.getElem?_bits hi, fun line w => readBits_eq_ok_iff,
    fun line => readBits_of_ne, ?_, fun cs lines => Text.hasLines_iff, ?_, ofText_toText⟩
  · intro line position h
    rcases readBits_cases line with ⟨w, hok, -⟩ | herror
    · rw [hok] at h
      cases h
    · rw [herror] at h
      cases h
  · intro cs words diagnostics
    rw [ofText_eq_ofLines, linesHold_iff]

/-- A line with a carriage return, a wide blank, and sixteen bytes that are six digits. -/
theorem wide_digits_read_exactly :
    Text.byteSize "１１１１１1".toList = 16 ∧
    readBits "１１１１１1".toList = .error (.malformedWord "１１１１１1") ∧
    ofText "0000000000000101\r\n\u3000\n１１１１１1\n".toList =
      ⟨[5], [.error (.line 3) (.malformedWord "１１１１１1")]⟩ := by
  obtain ⟨-, -, hne, -, -, hholds, -⟩ := text_image_read_exactly
  have htrim : Text.trim "１１１１１1".toList = "１１１１１1".toList := by decide
  have hword (w : Word) : Text.trim "１１１１１1".toList ≠ w.bits := by
    intro h
    have hlength := congrArg List.length h
    rw [htrim, w.length_bits] at hlength
    exact absurd hlength (by decide)
  have hcut : Text.lines "0000000000000101\r\n\u3000\n１１１１１1\n".toList =
      ["0000000000000101".toList, "\u3000".toList, "１１１１１1".toList] := by decide
  refine ⟨by decide, hne _ hword, ?_⟩
  rw [hholds, hcut]
  refine .word (by decide) (.blank (List.all_eq_true.mp (by decide)) ?_)
  exact .fault ⟨'1', by decide, by decide⟩ hword .none

end Image

end Hue

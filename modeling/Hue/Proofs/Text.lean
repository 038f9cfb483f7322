import Hue.Text.Split

/-!
Pieces, fields and lines of a text. A text without separators is one piece, and a separator after
it starts the next piece, so joining pieces and cutting at the separators are inverse.
-/
namespace Hue.Text

/-! ## Blanks around a text -/

theorem trimStart_of_head? {cs : List Char} (h : ∀ c, cs.head? = some c → isBlank c = false) :
    trimStart cs = cs := by
  cases cs with
  | nil => rfl
  | cons c cs => simp [trimStart, h c rfl]

theorem trimEnd_of_getLast? {cs : List Char}
    (h : ∀ c, cs.getLast? = some c → isBlank c = false) : trimEnd cs = cs := by
  have hr : trimStart cs.reverse = cs.reverse :=
    trimStart_of_head? (by simpa [List.head?_reverse] using h)
  rw [trimEnd, ← trimStart, hr, List.reverse_reverse]

theorem trim_of_ends {cs : List Char} (hs : ∀ c, cs.head? = some c → isBlank c = false)
    (he : ∀ c, cs.getLast? = some c → isBlank c = false) : trim cs = cs := by
  rw [trim, trimStart_of_head? hs, trimEnd_of_getLast? he]

theorem isBlank_of_head?_trimStart {cs : List Char} {c : Char}
    (h : (trimStart cs).head? = some c) : isBlank c = false := by
  have hhead := List.head?_dropWhile_not isBlank cs
  rw [← trimStart, h] at hhead
  simpa using hhead

theorem trimEnd_prefix (cs : List Char) : trimEnd cs <+: cs := by
  rw [← List.reverse_suffix, trimEnd, List.reverse_reverse]
  exact List.dropWhile_suffix _

theorem isBlank_of_getLast?_trimEnd {cs : List Char} {c : Char}
    (h : (trimEnd cs).getLast? = some c) : isBlank c = false := by
  rw [trimEnd, List.getLast?_reverse] at h
  exact isBlank_of_head?_trimStart h

theorem trim_subset (cs : List Char) : trim cs ⊆ cs := by
  intro c hc
  have hfront := trimEnd_prefix (trimStart cs)
  exact List.dropWhile_subset _ (hfront.subset hc)

theorem head?_trimStart_of_trim {cs : List Char} {c : Char} (h : (trim cs).head? = some c) :
    (trimStart cs).head? = some c := by
  obtain ⟨rest, hrest⟩ := trimEnd_prefix (trimStart cs)
  rw [← hrest, List.head?_append, ← trim, h]
  rfl

theorem isBlank_of_head?_trim {cs : List Char} {c : Char} (h : (trim cs).head? = some c) :
    isBlank c = false :=
  isBlank_of_head?_trimStart (head?_trimStart_of_trim h)

/-- The first character that is no blank stays the first one when more text follows. -/
theorem head?_trimStart_append {cs : List Char} {c : Char} (h : (trimStart cs).head? = some c)
    (rest : List Char) : (trimStart (cs ++ rest)).head? = some c := by
  rw [trimStart] at h ⊢
  rw [List.dropWhile_append]
  split
  case isTrue hnil => simp [List.isEmpty_iff.mp hnil] at h
  case isFalse => rw [List.head?_append, h, Option.some_or]

theorem trimStart_trim (cs : List Char) : trimStart (trim cs) = trim cs :=
  trimStart_of_head? fun _ => isBlank_of_head?_trim

/-- A trimmed text has no blanks around it. -/
theorem trim_trim (cs : List Char) : trim (trim cs) = trim cs :=
  trim_of_ends (fun _ => isBlank_of_head?_trim) fun _ => isBlank_of_getLast?_trimEnd

theorem trimEnd_append_blank (cs : List Char) {c : Char} (h : isBlank c = true) :
    trimEnd (cs ++ [c]) = trimEnd cs := by
  simp [trimEnd, h]

/-- A blank at the end of a text goes with the blanks around it. -/
theorem trim_append_blank (cs : List Char) {c : Char} (h : isBlank c = true) :
    trim (cs ++ [c]) = trim cs := by
  rw [trim, trim, trimStart, trimStart, List.dropWhile_append]
  split
  case isTrue hnil =>
    rw [List.isEmpty_iff.mp hnil]
    simp [h]
  case isFalse => exact trimEnd_append_blank _ h

theorem head?_trimStart_append_blank (cs : List Char) {c : Char} (h : isBlank c = true) :
    (trimStart (cs ++ [c])).head? = (trimStart cs).head? := by
  rw [trimStart, trimStart, List.dropWhile_append]
  split
  case isTrue hnil =>
    rw [List.isEmpty_iff.mp hnil]
    simp [h]
  case isFalse hne =>
    cases hd : cs.dropWhile isBlank with
    | nil => simp [hd] at hne
    | cons d ds => rfl

/-! ## Pieces -/

/-- What follows the characters without `p` starts with one that has it. -/
theorem of_dropWhile_eq_cons {p : Char → Bool} {cs rest : List Char} {c : Char}
    (h : cs.dropWhile (fun c => !p c) = c :: rest) : p c = true := by
  have hhead := List.head?_dropWhile_not (fun c => !p c) cs
  simpa [h] using hhead

theorem splitWhere_eq_splitOnP (p : Char → Bool) (cs : List Char) :
    splitWhere p cs = cs.splitOnP p := by
  induction cs with
  | nil => rfl
  | cons c cs ih =>
    rw [List.splitOnP_cons_eq_if_modifyHead, ← ih]
    have hne : splitWhere p cs ≠ [] := ih ▸ List.splitOnP_ne_nil p cs
    cases hs : splitWhere p cs with
    | nil => exact absurd hs hne
    | cons piece pieces =>
      simp only [splitWhere, List.foldr_cons] at hs ⊢
      rw [hs]
      rfl

theorem splitWhere_of_forall_not {p : Char → Bool} {cs : List Char}
    (h : ∀ c ∈ cs, p c = false) : splitWhere p cs = [cs] := by
  rw [splitWhere_eq_splitOnP, List.splitOnP_eq_singleton h]

theorem beq_of_not_mem {sep : Char} {cs : List Char} (h : sep ∉ cs) :
    ∀ c ∈ cs, (c == sep) = false := by
  intro c hc
  simp only [beq_eq_false_iff_ne, ne_eq]
  rintro rfl
  exact h hc

theorem splitWhere_append_cons {p : Char → Bool} {piece : List Char} {sep : Char}
    (rest : List Char) (h : ∀ c ∈ piece, p c = false) (hsep : p sep = true) :
    splitWhere p (piece ++ sep :: rest) = piece :: splitWhere p rest := by
  rw [splitWhere_eq_splitOnP, splitWhere_eq_splitOnP,
    List.splitOnP_append_cons_of_forall_mem h sep hsep]

/-- A piece has no separator in it. -/
theorem not_of_mem_splitWhere {p : Char → Bool} {cs piece : List Char}
    (h : piece ∈ splitWhere p cs) : ∀ c ∈ piece, p c = false := by
  rw [splitWhere_eq_splitOnP] at h
  induction cs generalizing piece with
  | nil =>
    obtain rfl : piece = [] := by simpa using h
    simp
  | cons d cs ih =>
    rw [List.splitOnP_cons_eq_if_modifyHead] at h
    split at h
    case isTrue hd =>
      rcases List.mem_cons.mp h with rfl | h
      · simp
      · exact ih h
    case isFalse hd =>
      cases hs : cs.splitOnP p with
      | nil => exact absurd hs (List.splitOnP_ne_nil p cs)
      | cons first others =>
        rw [hs, List.modifyHead_cons] at h
        rcases List.mem_cons.mp h with rfl | h
        · intro c hc
          rcases List.mem_cons.mp hc with rfl | hc
          · simpa using hd
          · exact ih (by simp [hs]) c hc
        · exact ih (by simp [hs, h])

/-- Pieces joined by a separator are cut apart again. -/
theorem splitWhere_intercalate (sep : Char) {pieces : List (List Char)} (hne : pieces ≠ [])
    (h : ∀ piece ∈ pieces, sep ∉ piece) :
    splitWhere (· == sep) ([sep].intercalate pieces) = pieces := by
  rw [splitWhere_eq_splitOnP, ← List.splitOn_eq_splitOnP, List.splitOn_intercalate sep h hne]

/-! ## Fields -/

theorem fields_of_forall_not {p : Char → Bool} {cs : List Char} (hne : cs ≠ [])
    (h : ∀ c ∈ cs, p c = false) : fields p cs = [cs] := by
  simp [fields, splitWhere_of_forall_not h, hne]

theorem fields_cons {p : Char → Bool} {sep : Char} (rest : List Char) (hsep : p sep = true) :
    fields p (sep :: rest) = fields p rest := by
  have h : splitWhere p ([] ++ sep :: rest) = [] :: splitWhere p rest :=
    splitWhere_append_cons rest (by simp) hsep
  rw [List.nil_append] at h
  simp [fields, h]

theorem fields_append_cons {p : Char → Bool} {piece : List Char} {sep : Char}
    (rest : List Char) (hne : piece ≠ []) (h : ∀ c ∈ piece, p c = false) (hsep : p sep = true) :
    fields p (piece ++ sep :: rest) = piece :: fields p rest := by
  simp [fields, splitWhere_append_cons rest h hsep, hne]

/-! ## Lines -/

theorem dropReturn_eq_self {line : List Char} (h : line.getLast? ≠ some '\r') :
    dropReturn line = line := by
  simp [dropReturn, h]

/-- Lines that all end in a line feed are read back. -/
theorem lines_flatMap (ls : List (List Char))
    (h : ∀ line ∈ ls, '\n' ∉ line ∧ line.getLast? ≠ some '\r') :
    lines (ls.flatMap (· ++ ['\n'])) = ls := by
  have hsplit : splitWhere (· == '\n') (ls.flatMap (· ++ ['\n'])) = ls ++ [[]] := by
    induction ls with
    | nil => rfl
    | cons line ls ih =>
      have hfree := beq_of_not_mem (h line (by simp)).1
      rw [List.flatMap_cons, List.append_assoc, List.singleton_append,
        splitWhere_append_cons _ hfree (by decide), ih (fun l hl => h l (by simp [hl]))]
      rfl
  have hkeep : ls.map dropReturn = ls := by
    conv => rhs; rw [← List.map_id ls]
    exact List.map_congr_left fun line hl => dropReturn_eq_self (h line hl).2
  simp [lines, hsplit, hkeep]

/-- Lines that are complete stay as they are when more text follows. -/
theorem lines_append {cs : List Char} (h : cs = [] ∨ cs.getLast? = some '\n') (more : List Char) :
    lines (cs ++ more) = lines cs ++ lines more := by
  rcases h with rfl | h
  · rfl
  · obtain ⟨init, rfl⟩ := List.getLast?_eq_some_iff.mp h
    have hsplit (rest : List Char) : splitWhere (· == '\n') (init ++ '\n' :: rest) =
        splitWhere (· == '\n') init ++ splitWhere (· == '\n') rest := by
      simp only [splitWhere_eq_splitOnP]
      exact List.splitOnP_append_cons init rest (by decide)
    have hne : splitWhere (· == '\n') more ≠ [] := by
      rw [splitWhere_eq_splitOnP]
      exact List.splitOnP_ne_nil _ _
    obtain ⟨front, last, hmore⟩ := (List.eq_nil_or_concat _).resolve_left hne
    have hempty : splitWhere (· == '\n') [] = [[]] := rfl
    simp [lines, hsplit, hempty, hmore]

/-! ## Bytes -/

theorem byteSize_cons (c : Char) (cs : List Char) :
    byteSize (c :: cs) = c.utf8Size + byteSize cs := rfl

/-- Every character takes a byte at least. -/
theorem length_le_byteSize (cs : List Char) : cs.length ≤ byteSize cs := by
  induction cs with
  | nil => exact Nat.le_refl 0
  | cons c cs ih =>
    have hpos := c.utf8Size_pos
    rw [byteSize_cons, List.length_cons]
    omega

theorem byteSize_eq_length {cs : List Char} (h : ∀ c ∈ cs, c.utf8Size = 1) :
    byteSize cs = cs.length := by
  induction cs with
  | nil => rfl
  | cons c cs ih =>
    rw [byteSize_cons, List.length_cons, h c List.mem_cons_self,
      ih fun d hd => h d (List.mem_cons_of_mem c hd)]
    omega

theorem dropBytes?_byteSize (cs rest : List Char) :
    dropBytes? (byteSize cs) (cs ++ rest) = some rest := by
  induction cs with
  | nil => simp [byteSize, dropBytes?]
  | cons c cs ih =>
    have hsize := byteSize_cons c cs
    have hpos := c.utf8Size_pos
    obtain ⟨n, hn⟩ : ∃ n, byteSize (c :: cs) = n + 1 :=
      ⟨c.utf8Size + byteSize cs - 1, by omega⟩
    rw [hn, List.cons_append, dropBytes?, if_pos (by omega),
      show n + 1 - c.utf8Size = byteSize cs by omega, ih]

/-- A text without blanks in front starts with its first field. -/
theorem firstField_append {cs : List Char} (h : trimStart cs = cs) :
    firstField cs ++ cs.dropWhile (fun c => !isBlank c) = cs := by
  rw [firstField, h, List.takeWhile_append_dropWhile]

/-- Cutting such a text after its first field never falls inside a character. -/
theorem dropBytes?_firstField {cs : List Char} (h : trimStart cs = cs) :
    dropBytes? (byteSize (firstField cs)) cs = some (cs.dropWhile fun c => !isBlank c) := by
  have hcut := dropBytes?_byteSize (firstField cs) (cs.dropWhile fun c => !isBlank c)
  rwa [firstField_append h] at hcut

end Hue.Text

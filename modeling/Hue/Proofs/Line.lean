import Hue.Proofs.Text
import Hue.Source.Statement
import Mathlib.Data.List.TakeWhile

/-!
Lines made of fields. Every field of a printed line consists of the characters that a label may
have, and those are neither blanks nor separators nor marks of a comment. So such a line has no
comment and no label, and cutting it gives the fields it was made of.
-/
namespace Hue.Source

/-! ## Characters of a field -/

theorem char_isDigit_iff {c : Char} : c.isDigit = true ↔ '0' ≤ c ∧ c ≤ '9' := by
  show (decide ('0' ≤ c) && decide (c ≤ '9')) = true ↔ _
  simp only [Bool.and_eq_true, decide_eq_true_eq]

theorem isLabelPart_iff {c : Char} :
    isLabelPart c = true ↔
      ((('A' ≤ c ∧ c ≤ 'Z' ∨ 'a' ≤ c ∧ c ≤ 'z') ∨ '0' ≤ c ∧ c ≤ '9') ∨ c = '_') ∨ c = '.' := by
  have hupper : c.isUpper = true ↔ 'A' ≤ c ∧ c ≤ 'Z' := decide_eq_true_iff
  have hlower : c.isLower = true ↔ 'a' ≤ c ∧ c ≤ 'z' := by
    show (decide ('a' ≤ c) && decide (c ≤ 'z')) = true ↔ _
    simp only [Bool.and_eq_true, decide_eq_true_eq]
  show (((c.isUpper || c.isLower) || c.isDigit) || c == '_' || c == '.') = true ↔ _
  simp only [Bool.or_eq_true, hupper, hlower, char_isDigit_iff, beq_iff_eq]

theorem toNat_of_isLabelPart {c : Char} (h : isLabelPart c = true) :
    c.toNat = 46 ∨ (48 ≤ c.toNat ∧ c.toNat ≤ 57) ∨ (65 ≤ c.toNat ∧ c.toNat ≤ 90) ∨
      c.toNat = 95 ∨ (97 ≤ c.toNat ∧ c.toNat ≤ 122) := by
  rcases isLabelPart_iff.mp h with (((h | h) | h) | rfl) | rfl
  · exact .inr (.inr (.inl h))
  · exact .inr (.inr (.inr (.inr h)))
  · exact .inr (.inl h)
  · exact .inr (.inr (.inr (.inl rfl)))
  · exact .inl rfl

theorem isLabelPart_of_isLabelStart {c : Char} (h : isLabelStart c = true) :
    isLabelPart c = true := by
  simp only [isLabelStart, isLabelPart, Char.isAlphanum, Bool.or_eq_true] at h ⊢
  rcases h with (h | h) | h
  · exact .inl (.inl (.inl h))
  · exact .inl (.inr h)
  · exact .inr h

theorem isBlank_of_isLabelPart {c : Char} (h : isLabelPart c = true) :
    Text.isBlank c = false := by
  have hc := toNat_of_isLabelPart h
  simp only [Text.isBlank, Text.blankRuns, List.any_cons, List.any_nil, Bool.or_false,
    Bool.or_eq_false_iff, Bool.and_eq_false_iff, decide_eq_false_iff_not]
  omega

theorem ne_of_isLabelPart {c d : Char} (h : isLabelPart c = true) (hd : isLabelPart d = false) :
    c ≠ d := by
  rintro rfl
  simp [h] at hd

theorem isSeparator_of_isLabelPart {c : Char} (h : isLabelPart c = true) :
    isSeparator c = false := by
  simp [isSeparator, isBlank_of_isLabelPart h, ne_of_isLabelPart h (d := ',') (by decide)]

theorem not_lineEnd_of_isLabelPart {c : Char} (h : isLabelPart c = true) : c ≠ '\n' ∧ c ≠ '\r' :=
  ⟨ne_of_isLabelPart h (by decide), ne_of_isLabelPart h (by decide)⟩

/-- A field of a printed line. -/
def IsField (cs : List Char) : Prop := cs ≠ [] ∧ ∀ c ∈ cs, isLabelPart c = true

theorem isField_of_isLabelName {cs : List Char} (h : isLabelName cs = true) : IsField cs := by
  cases cs with
  | nil => simp [isLabelName] at h
  | cons c cs =>
    simp only [isLabelName, Bool.and_eq_true, List.all_eq_true] at h
    refine ⟨by simp, ?_⟩
    intro d hd
    rcases List.mem_cons.mp hd with rfl | hd
    · exact isLabelPart_of_isLabelStart h.1
    · exact h.2 d hd

theorem isLabelPart_of_isDigit {base : Nat} (hb : base ≤ 16) {c : Char}
    (h : Numeral.isDigit base c = true) : isLabelPart c = true := by
  simp only [Numeral.isDigit, Numeral.digitValue] at h
  rw [isLabelPart_iff]
  split at h
  case isTrue hd => exact .inl (.inl (.inr hd))
  case isFalse =>
    split at h
    case isTrue hl =>
      refine .inl (.inl (.inl (.inr ⟨hl.1, ?_⟩)))
      exact Char.le_trans hl.2 (by decide)
    case isFalse =>
      split at h
      case isTrue hu =>
        refine .inl (.inl (.inl (.inl ⟨hu.1, ?_⟩)))
        exact Char.le_trans hu.2 (by decide)
      case isFalse => exact absurd (of_decide_eq_true h) (by omega)

/-! ## Comments and labels -/

/-- A line without a comment and without blanks around it stays as it is. -/
theorem stripComment_eq_self {line : List Char} (hsemi : ';' ∉ line)
    (hhead : ∀ c, line.head? = some c → Text.isBlank c = false ∧ c ≠ '#')
    (hlast : ∀ c, line.getLast? = some c → Text.isBlank c = false) :
    stripComment line = line := by
  have htrim : Text.trimStart line = line := Text.trimStart_of_head? fun c hc => (hhead c hc).1
  have htake : line.takeWhile (· != ';') = line := by
    rw [List.takeWhile_eq_self_iff]
    intro c hc
    simp only [bne_iff_ne, ne_eq]
    rintro rfl
    exact hsemi hc
  have hhash : line.head? ≠ some '#' := fun h => (hhead '#' h).2 rfl
  rw [stripComment, htrim, if_neg hhash, htake]
  exact Text.trim_of_ends (fun c hc => (hhead c hc).1) hlast

/-- A blank that ends a line goes with the comment and the blanks before it. -/
theorem stripComment_append_blank (line : List Char) {c : Char} (h : Text.isBlank c = true) :
    stripComment (line ++ [c]) = stripComment line := by
  have hsemi : c ≠ ';' := by
    rintro rfl
    exact absurd h (by decide)
  rw [stripComment, stripComment, Text.head?_trimStart_append_blank line h, List.takeWhile_append]
  split
  case isTrue => rfl
  case isFalse =>
    split
    case isTrue hall =>
      rw [List.takeWhile_cons_of_pos (by simpa using hsemi), List.takeWhile_nil,
        Text.trim_append_blank line h, (List.takeWhile_prefix _).eq_of_length hall]
    case isFalse => rfl

/-- What is left of a line has no blanks around it. -/
theorem trim_stripComment (line : List Char) :
    Text.trim (stripComment line) = stripComment line := by
  rw [stripComment]
  split
  case isTrue => rfl
  case isFalse => exact Text.trim_trim _

/-- What is left of a line has no comment any more. -/
theorem stripComment_stripComment (line : List Char) :
    stripComment (stripComment line) = stripComment line := by
  by_cases hhash : (Text.trimStart line).head? = some '#'
  · simp only [stripComment, hhash, ↓reduceIte]
    rfl
  have hstrip : stripComment line = Text.trim (line.takeWhile (· != ';')) := if_neg hhash
  apply stripComment_eq_self
  · intro hmem
    rw [hstrip] at hmem
    have htake : ';' ∈ line.takeWhile (· != ';') := Text.trim_subset _ hmem
    simpa using List.mem_takeWhile_imp htake
  · intro c hc
    rw [hstrip] at hc
    refine ⟨Text.isBlank_of_head?_trim hc, ?_⟩
    rintro rfl
    -- a hash sign in front of what is left is in front of the line
    have hfront := Text.head?_trimStart_append (Text.head?_trimStart_of_trim hc)
      (line.dropWhile (· != ';'))
    rw [List.takeWhile_append_dropWhile] at hfront
    exact hhash hfront
  · intro c hc
    rw [hstrip] at hc
    exact Text.isBlank_of_getLast?_trimEnd hc

theorem trimStart_stripComment (line : List Char) :
    Text.trimStart (stripComment line) = stripComment line := by
  rw [← trim_stripComment, Text.trimStart_trim]

/-- On a line without blanks in front the cut never falls inside a character. -/
theorem splitLabel_eq {line : List Char} (h : Text.trimStart line = line) :
    splitLabel line =
      if (Text.firstField line).getLast? = some ':' then
        if isLabelName (Text.firstField line).dropLast then
          .ok (some (String.ofList (Text.firstField line).dropLast),
            Text.trim (line.dropWhile fun c => !Text.isBlank c))
        else .error (.unrecognizedLine (String.ofList line))
      else .ok (none, line) := by
  simp only [splitLabel, Text.dropBytes?_firstField h]

/-- A line without blanks in front can only fail to be split because its first field ends in a
colon and is no label. -/
theorem eq_of_splitLabel_error {line : List Char} {e : Error} (h : Text.trimStart line = line)
    (he : splitLabel line = .error e) : e = .unrecognizedLine (String.ofList line) := by
  rw [splitLabel_eq h] at he
  split at he
  case isTrue =>
    split at he
    case isTrue => simp at he
    case isFalse => exact (Except.error.inj he).symm
  case isFalse => simp at he

theorem splitLabel_of_not_mem {line : List Char} (h : ':' ∉ line) :
    splitLabel line = .ok (none, line) := by
  have hlast : (Text.firstField line).getLast? ≠ some ':' := by
    intro hl
    have hmem : ':' ∈ Text.trimStart line :=
      List.takeWhile_subset _ (List.mem_of_getLast? hl)
    exact h (List.dropWhile_subset _ hmem)
  simp [splitLabel, hlast]

section LabelLine

variable {name : List Char}

theorem not_blank_of_mem_label (h : isLabelName name = true) :
    ∀ c ∈ name ++ [':'], Text.isBlank c = false := by
  intro c hc
  rcases List.mem_append.mp hc with hc | hc
  · exact isBlank_of_isLabelPart ((isField_of_isLabelName h).2 c hc)
  · rw [List.mem_singleton.mp hc]
    decide

theorem stripComment_label (h : isLabelName name = true) :
    stripComment (name ++ [':']) = name ++ [':'] := by
  obtain ⟨hne, hall⟩ := isField_of_isLabelName h
  have hblank := not_blank_of_mem_label h
  apply stripComment_eq_self
  · intro hmem
    rcases List.mem_append.mp hmem with hmem | hmem
    · exact ne_of_isLabelPart (hall ';' hmem) (d := ';') (by decide) rfl
    · simp at hmem
  · intro c hc
    have hmem := List.mem_of_head? hc
    refine ⟨hblank c hmem, ?_⟩
    obtain rfl : name.head hne = c := by
      simpa [List.head?_append, List.head?_eq_some_head hne] using hc
    exact ne_of_isLabelPart (hall _ (List.head_mem hne)) (by decide)
  · exact fun c hc => hblank c (List.mem_of_getLast? hc)

/-- A name with a colon after it is a label without a body. -/
theorem splitLabel_label (h : isLabelName name = true) :
    splitLabel (name ++ [':']) = .ok (some (String.ofList name), []) := by
  have hblank := not_blank_of_mem_label h
  have hstart : Text.trimStart (name ++ [':']) = name ++ [':'] :=
    Text.trimStart_of_head? fun c hc => hblank c (List.mem_of_head? hc)
  have hfirst : Text.firstField (name ++ [':']) = name ++ [':'] := by
    rw [Text.firstField, hstart, List.takeWhile_eq_self_iff]
    intro c hc
    simp [hblank c hc]
  have hrest : Text.dropBytes? (Text.byteSize (name ++ [':'])) (name ++ [':']) = some [] := by
    simpa using Text.dropBytes?_byteSize (name ++ [':']) []
  simp only [splitLabel, hfirst, List.getLast?_concat, ↓reduceIte, List.dropLast_concat, h, hrest]
  rfl

end LabelLine

/-! ## Lines of fields -/

/-- A field, and after a blank any others with commas between them. -/
def joinFields (head : List Char) : List (List Char) → List Char
  | [] => head
  | tokens => head ++ ' ' :: [',', ' '].intercalate tokens

private theorem intercalate_cons_cons (token next : List Char) (tokens : List (List Char)) :
    [',', ' '].intercalate (token :: next :: tokens) =
      token ++ ',' :: ' ' :: [',', ' '].intercalate (next :: tokens) := by
  simp [List.intercalate, List.intersperse]

private theorem mem_intercalate {tokens : List (List Char)} (h : ∀ cs ∈ tokens, IsField cs)
    {c : Char} (hc : c ∈ [',', ' '].intercalate tokens) :
    isLabelPart c = true ∨ c = ',' ∨ c = ' ' := by
  induction tokens with
  | nil => simp at hc
  | cons token tokens ih =>
    cases tokens with
    | nil => exact .inl ((h token (by simp)).2 c (by simpa using hc))
    | cons next tokens =>
      simp only [intercalate_cons_cons, List.mem_append, List.mem_cons] at hc
      rcases hc with hc | hc | hc | hc
      · exact .inl ((h token (by simp)).2 c hc)
      · exact .inr (.inl hc)
      · exact .inr (.inr hc)
      · exact ih (fun cs hcs => h cs (by simp [hcs])) hc

private theorem fields_intercalate (tokens : List (List Char)) (h : ∀ cs ∈ tokens, IsField cs) :
    Text.fields isSeparator ([',', ' '].intercalate tokens) = tokens := by
  have hsep (cs : List Char) (hcs : IsField cs) : ∀ c ∈ cs, isSeparator c = false :=
    fun c hc => isSeparator_of_isLabelPart (hcs.2 c hc)
  induction tokens with
  | nil => rfl
  | cons token tokens ih =>
    have ht := h token (by simp)
    cases tokens with
    | nil => simpa using Text.fields_of_forall_not ht.1 (hsep token ht)
    | cons next tokens =>
      rw [intercalate_cons_cons, Text.fields_append_cons _ ht.1 (hsep token ht) (by decide),
        Text.fields_cons _ (by decide), ih (fun cs hcs => h cs (by simp [hcs]))]

private theorem getLast?_intercalate (token : List Char) (tokens : List (List Char))
    (h : ∀ cs ∈ token :: tokens, IsField cs) :
    ∃ c, ([',', ' '].intercalate (token :: tokens)).getLast? = some c ∧ isLabelPart c = true := by
  induction tokens generalizing token with
  | nil =>
    obtain ⟨hne, hall⟩ := h token (by simp)
    refine ⟨token.getLast hne, ?_, hall _ (List.getLast_mem hne)⟩
    simpa using List.getLast?_eq_some_getLast hne
  | cons next tokens ih =>
    obtain ⟨c, hc, hpart⟩ := ih next (fun cs hcs => h cs (by simp [hcs]))
    refine ⟨c, ?_, hpart⟩
    rw [intercalate_cons_cons, List.getLast?_append]
    simp [List.getLast?_cons, hc]

section JoinedLine

variable {head : List Char} {tokens : List (List Char)}

theorem mem_joinFields (hh : IsField head) (ht : ∀ cs ∈ tokens, IsField cs) {c : Char}
    (hc : c ∈ joinFields head tokens) : isLabelPart c = true ∨ c = ',' ∨ c = ' ' := by
  cases tokens with
  | nil => exact .inl (hh.2 c hc)
  | cons token tokens =>
    simp only [joinFields, List.mem_append, List.mem_cons] at hc
    rcases hc with hc | hc | hc
    · exact .inl (hh.2 c hc)
    · exact .inr (.inr hc)
    · exact mem_intercalate ht hc

theorem not_mem_joinFields (hh : IsField head) (ht : ∀ cs ∈ tokens, IsField cs) (c : Char)
    (hc : isLabelPart c = false) (hcomma : c ≠ ',') (hblank : c ≠ ' ') :
    c ∉ joinFields head tokens := by
  intro hmem
  rcases mem_joinFields hh ht hmem with h | h | h
  · simp [hc] at h
  · exact hcomma h
  · exact hblank h

theorem head?_joinFields (hh : IsField head) (tokens : List (List Char)) :
    ∃ c, (joinFields head tokens).head? = some c ∧ isLabelPart c = true := by
  obtain ⟨hne, hall⟩ := hh
  refine ⟨head.head hne, ?_, hall _ (List.head_mem hne)⟩
  cases tokens with
  | nil => exact List.head?_eq_some_head hne
  | cons token tokens => simp [joinFields, List.head?_append, List.head?_eq_some_head hne]

theorem getLast?_joinFields (hh : IsField head) (ht : ∀ cs ∈ tokens, IsField cs) :
    ∃ c, (joinFields head tokens).getLast? = some c ∧ isLabelPart c = true := by
  cases tokens with
  | nil =>
    obtain ⟨hne, hall⟩ := hh
    exact ⟨head.getLast hne, List.getLast?_eq_some_getLast hne, hall _ (List.getLast_mem hne)⟩
  | cons token tokens =>
    obtain ⟨c, hc, hpart⟩ := getLast?_intercalate token tokens ht
    refine ⟨c, ?_, hpart⟩
    rw [joinFields, List.getLast?_append]
    · simp [List.getLast?_cons, hc]
    · simp

theorem fields_joinFields (hh : IsField head) (ht : ∀ cs ∈ tokens, IsField cs) :
    Text.fields isSeparator (joinFields head tokens) = head :: tokens := by
  have hsep : ∀ c ∈ head, isSeparator c = false :=
    fun c hc => isSeparator_of_isLabelPart (hh.2 c hc)
  cases tokens with
  | nil => exact Text.fields_of_forall_not hh.1 hsep
  | cons token tokens =>
    rw [joinFields, Text.fields_append_cons _ hh.1 hsep (by decide), fields_intercalate _ ht]
    simp

theorem stripComment_joinFields (hh : IsField head) (ht : ∀ cs ∈ tokens, IsField cs) :
    stripComment (joinFields head tokens) = joinFields head tokens := by
  obtain ⟨first, hfirst, hfp⟩ := head?_joinFields hh tokens
  obtain ⟨last, hlast, hlp⟩ := getLast?_joinFields hh ht
  apply stripComment_eq_self
  · exact not_mem_joinFields hh ht ';' (by decide) (by decide) (by decide)
  · intro c hc
    obtain rfl : first = c := by simpa [hfirst] using hc
    exact ⟨isBlank_of_isLabelPart hfp, ne_of_isLabelPart hfp (by decide)⟩
  · intro c hc
    obtain rfl : last = c := by simpa [hlast] using hc
    exact isBlank_of_isLabelPart hlp

theorem splitLabel_joinFields (hh : IsField head) (ht : ∀ cs ∈ tokens, IsField cs) :
    splitLabel (joinFields head tokens) = .ok (none, joinFields head tokens) :=
  splitLabel_of_not_mem (not_mem_joinFields hh ht ':' (by decide) (by decide) (by decide))

end JoinedLine

end Hue.Source

import Hue.Proofs.Grammar

/-!
The label in front of a line. A line without blanks around it has no label, or it is a name, a
colon, blanks and the rest of it, or it is not recognized. These cases exclude each other, and no
part of the line but the colon and the blanks is lost.
-/
namespace Hue

/-! ## Blanks around a text -/

namespace Text

/-- A text without blanks around it. -/
structure Trimmed (cs : List Char) : Prop where
  front : ∀ c, cs.head? = some c → isBlank c = false
  back : ∀ c, cs.getLast? = some c → isBlank c = false

theorem trimmed_trim (cs : List Char) : Trimmed (trim cs) :=
  ⟨fun _ => isBlank_of_head?_trim, fun _ => isBlank_of_getLast?_trimEnd⟩

theorem Trimmed.trim_eq {cs : List Char} (h : Trimmed cs) : trim cs = cs :=
  trim_of_ends h.front h.back

theorem Trimmed.trimStart_eq {cs : List Char} (h : Trimmed cs) : trimStart cs = cs :=
  trimStart_of_head? h.front

theorem trim_append_of_blank {blanks : List Char} (h : ∀ c ∈ blanks, isBlank c = true)
    (cs : List Char) : trim (blanks ++ cs) = trim cs := by
  rw [trim, trim, trimStart, trimStart, List.dropWhile_append_of_pos h]

/-- A text whose end is no blank loses only blanks in front. -/
theorem exists_blanks_of_trim {cs : List Char}
    (h : ∀ c, cs.getLast? = some c → isBlank c = false) :
    ∃ blanks, cs = blanks ++ trim cs ∧ ∀ c ∈ blanks, isBlank c = true := by
  have hcut : cs.takeWhile isBlank ++ trimStart cs = cs := List.takeWhile_append_dropWhile
  have hend : trim cs = trimStart cs := by
    apply trimEnd_of_getLast?
    intro c hc
    apply h
    rw [← hcut, List.getLast?_append, hc, Option.some_or]
  rw [hend]
  exact ⟨cs.takeWhile isBlank, hcut.symm, fun c hc => List.mem_takeWhile_imp hc⟩

/-! ## The first token -/

/-- What follows the first token is nothing or starts with a blank. -/
theorem firstField_append_of_blank {token rest : List Char} (htoken : ∀ c ∈ token, isBlank c = false)
    (hrest : ∀ c, rest.head? = some c → isBlank c = true)
    (hstart : trimStart (token ++ rest) = token ++ rest) :
    firstField (token ++ rest) = token ∧
      (token ++ rest).dropWhile (fun c => !isBlank c) = rest := by
  have hpos : ∀ c ∈ token, (!isBlank c) = true := fun c hc => by simp [htoken c hc]
  rw [firstField, hstart, List.takeWhile_append_of_pos hpos, List.dropWhile_append_of_pos hpos]
  cases rest with
  | nil => simp
  | cons c cs => simp [hrest c rfl]

/-- The first field of a line is its first token. -/
theorem exists_hasTokens_firstField {line : List Char} (hne : line ≠ [])
    (h : trimStart line = line) :
    ∃ others, HasTokens (· ∈ whiteSpace) line (firstField line :: others) := by
  have hcut := firstField_append h
  have hfree : ∀ c ∈ firstField line, c ∉ whiteSpace := by
    intro c hc
    rw [firstField, h] at hc
    rw [← isBlank_iff]
    simpa using List.mem_takeWhile_imp hc
  have htoken : firstField line ≠ [] := by
    obtain ⟨c, cs, rfl⟩ := List.exists_cons_of_ne_nil hne
    have hc : isBlank c = false := isBlank_of_head?_trimStart (by rw [h]; rfl)
    simp [firstField, h, hc]
  cases hrest : line.dropWhile fun c => !isBlank c with
  | nil =>
    rw [hrest, List.append_nil] at hcut
    rw [hcut] at hfree ⊢
    exact ⟨[], .last hne hfree⟩
  | cons c rest =>
    have hc : c ∈ whiteSpace := isBlank_iff.mp (of_dropWhile_eq_cons hrest)
    obtain ⟨tokens, htokens⟩ := exists_hasTokens isBlank_iff rest
    rw [hrest] at hcut
    have hnext := HasTokens.next htoken hfree hc htokens
    rw [hcut] at hnext
    exact ⟨tokens, hnext⟩

/-- After the first token there are blanks, and what trimming leaves; without a blank the line ends
there. -/
theorem exists_blanks_after_token {line rest : List Char} (h : Trimmed line)
    (hrest : line.dropWhile (fun c => !isBlank c) = rest) :
    ∃ blanks, rest = blanks ++ trim rest ∧ (∀ c ∈ blanks, isBlank c = true) ∧
      (blanks ≠ [] ∨ trim rest = []) := by
  have hcut := firstField_append h.trimStart_eq
  rw [hrest] at hcut
  have hback : ∀ c, rest.getLast? = some c → isBlank c = false := by
    intro c hc
    apply h.back
    rw [← hcut, List.getLast?_append, hc, Option.some_or]
  obtain ⟨blanks, hblanks, hall⟩ := exists_blanks_of_trim hback
  refine ⟨blanks, hblanks, hall, ?_⟩
  cases blanks with
  | cons b bs => exact .inl (by simp)
  | nil =>
    -- the rest would start with a character that is a blank and none
    right
    cases htrim : trim rest with
    | nil => rfl
    | cons c cs =>
      have hfront := (trimmed_trim rest).front c (by rw [htrim]; rfl)
      rw [hblanks, htrim, List.nil_append] at hrest
      rw [of_dropWhile_eq_cons hrest] at hfront
      cases hfront

end Text

namespace Source

/-! ## Lines with and without a label -/

/-- A line that is empty, or whose first token does not end in a colon. -/
def Unlabelled (line : List Char) : Prop :=
  line = [] ∨ ∃ token others,
    Text.HasTokens (· ∈ Text.whiteSpace) line (token :: others) ∧ token.getLast? ≠ some ':'

/-- A line that is a name, a colon, blanks, and the rest. Without a blank there is no rest. -/
structure Labelled (line : List Char) (name : String) (rest : List Char) : Prop where
  isName : isLabelName name.toList = true
  trimmed : Text.Trimmed rest
  parts : ∃ blanks, line = name.toList ++ ':' :: (blanks ++ rest) ∧
    (∀ c ∈ blanks, Text.isBlank c = true) ∧ (blanks ≠ [] ∨ rest = [])

theorem unlabelled_iff {line : List Char} (h : Text.trimStart line = line) :
    Unlabelled line ↔ (Text.firstField line).getLast? ≠ some ':' := by
  constructor
  · rintro (rfl | ⟨token, others, htokens, hcolon⟩)
    · exact fun hlast => nomatch hlast
    · have hne : line ≠ [] := by
        rintro rfl
        have hnil := htokens.eq_fields Text.isBlank_iff
        cases hnil
      obtain ⟨tokens, hfirst⟩ := Text.exists_hasTokens_firstField hne h
      have heq := (htokens.eq_fields Text.isBlank_iff).trans (hfirst.eq_fields Text.isBlank_iff).symm
      rwa [(List.cons.inj heq).1] at hcolon
  · intro hcolon
    by_cases hne : line = []
    · exact .inl hne
    · obtain ⟨others, htokens⟩ := Text.exists_hasTokens_firstField hne h
      exact .inr ⟨_, others, htokens, hcolon⟩

/-- The parts of a labelled line are found again. -/
theorem splitLabel_of_labelled {line rest : List Char} {name : String}
    (hline : Text.trimStart line = line) (h : Labelled line name rest) :
    splitLabel line = .ok (some name, rest) := by
  obtain ⟨hname, hrest, blanks, hparts, hblanks, hsep⟩ := h
  have hcut : line = (name.toList ++ [':']) ++ (blanks ++ rest) := by rw [hparts]; simp
  have hnext : ∀ c, (blanks ++ rest).head? = some c → Text.isBlank c = true := by
    intro c hc
    cases blanks with
    | nil =>
      rw [hsep.resolve_left (by simp)] at hc
      cases hc
    | cons b bs =>
      cases hc
      exact hblanks c List.mem_cons_self
  rw [hcut] at hline
  obtain ⟨hfirst, htail⟩ :=
    Text.firstField_append_of_blank (not_blank_of_mem_label hname) hnext hline
  rw [hcut, splitLabel_eq hline, hfirst, htail, List.getLast?_concat, if_pos rfl,
    List.dropLast_concat, if_pos hname, Text.trim_append_of_blank hblanks, hrest.trim_eq,
    String.ofList_toList]

theorem labelled_of_splitLabel {line rest : List Char} {name : String} (hline : Text.Trimmed line)
    (h : splitLabel line = .ok (some name, rest)) : Labelled line name rest := by
  have hcut := Text.firstField_append hline.trimStart_eq
  rw [splitLabel_eq hline.trimStart_eq] at h
  split at h
  case isFalse => cases h
  case isTrue hcolon =>
    split at h
    case isFalse => cases h
    case isTrue hname =>
      obtain ⟨token, htoken⟩ := List.getLast?_eq_some_iff.mp hcolon
      rw [htoken, List.dropLast_concat] at h hname
      rw [htoken, List.append_assoc, List.singleton_append] at hcut
      obtain ⟨hn, rfl⟩ := Prod.mk.inj (Except.ok.inj h)
      obtain rfl := Option.some.inj hn
      obtain ⟨blanks, hblanks, hall, hsep⟩ := Text.exists_blanks_after_token hline rfl
      refine ⟨by rwa [String.toList_ofList], Text.trimmed_trim _, blanks, ?_, hall, hsep⟩
      rw [← hblanks, String.toList_ofList]
      exact hcut.symm

theorem splitLabel_eq_some_iff {line rest : List Char} {name : String}
    (hline : Text.Trimmed line) :
    splitLabel line = .ok (some name, rest) ↔ Labelled line name rest :=
  ⟨labelled_of_splitLabel hline, splitLabel_of_labelled hline.trimStart_eq⟩

theorem splitLabel_eq_none_iff {line rest : List Char} (hline : Text.Trimmed line) :
    splitLabel line = .ok (none, rest) ↔ rest = line ∧ Unlabelled line := by
  rw [unlabelled_iff hline.trimStart_eq, splitLabel_eq hline.trimStart_eq]
  split
  case isFalse hcolon => simp [hcolon, eq_comm]
  case isTrue hcolon => split <;> simp [hcolon]

/-- Splitting a line without blanks around it. There is no label exactly when the line is empty or
its first token does not end in a colon, and then the line is the body. There is one exactly when
the line is a name, a colon, blanks and the body. Every other line is reported whole, and no line
is cut inside a character. -/
theorem label_split_exactly {line : List Char} (hline : Text.Trimmed line) :
    (∀ rest, splitLabel line = .ok (none, rest) ↔ rest = line ∧ Unlabelled line) ∧
    (∀ name rest, splitLabel line = .ok (some name, rest) ↔ Labelled line name rest) ∧
    (∀ e, splitLabel line = .error e ↔
      e = .unrecognizedLine (String.ofList line) ∧ ¬Unlabelled line ∧
        ¬∃ name rest, Labelled line name rest) := by
  refine ⟨fun rest => splitLabel_eq_none_iff hline, fun name rest => splitLabel_eq_some_iff hline,
    fun e => ⟨fun h => ⟨?_, ?_, ?_⟩, ?_⟩⟩
  · exact eq_of_splitLabel_error hline.trimStart_eq h
  · intro hun
    rw [(splitLabel_eq_none_iff hline).mpr ⟨rfl, hun⟩] at h
    cases h
  · rintro ⟨name, rest, hlabel⟩
    rw [(splitLabel_eq_some_iff hline).mpr hlabel] at h
    cases h
  · rintro ⟨rfl, hun, hlabel⟩
    cases hsplit : splitLabel line with
    | error e => rw [eq_of_splitLabel_error hline.trimStart_eq hsplit]
    | ok parts =>
      obtain ⟨label, rest⟩ := parts
      cases label with
      | none => exact absurd ((splitLabel_eq_none_iff hline).mp hsplit).2 hun
      | some name => exact absurd ⟨name, rest, (splitLabel_eq_some_iff hline).mp hsplit⟩ hlabel

/-- Blanks of several bytes after the colon, a colon in front of the next word, and a colon inside
the first token. -/
theorem wide_blanks_split_exactly :
    splitLabel "a.1:\u3000\u2003PINK :".toList = .ok (some "a.1", "PINK :".toList) ∧
    splitLabel "L:PINK".toList = .ok (none, "L:PINK".toList) ∧
    (splitLabel "a:b: PINK".toList = .error (.unrecognizedLine "a:b: PINK") ∧
      ¬∃ name rest, Labelled "a:b: PINK".toList name rest) := by
  have htrimmed {cs : List Char} (h : Text.trim cs = cs) : Text.Trimmed cs :=
    h ▸ Text.trimmed_trim cs
  obtain ⟨-, hlabel, -⟩ := label_split_exactly
    (htrimmed (show Text.trim "a.1:\u3000\u2003PINK :".toList = _ by decide))
  obtain ⟨hbody, -, -⟩ := label_split_exactly
    (htrimmed (show Text.trim "L:PINK".toList = _ by decide))
  obtain ⟨-, -, herror⟩ := label_split_exactly
    (htrimmed (show Text.trim "a:b: PINK".toList = _ by decide))
  refine ⟨?_, ?_, rfl, ((herror _).mp rfl).2.2⟩
  · refine (hlabel _ _).mpr ⟨by decide, htrimmed (by decide), "\u3000\u2003".toList, rfl, ?_, ?_⟩
    · exact List.all_eq_true.mp (by decide)
    · exact .inl (by decide)
  · refine (hbody _).mpr ⟨rfl, .inr ⟨"L:PINK".toList, [], .last (by decide) ?_, by decide⟩⟩
    have hall : ("L:PINK".toList.all fun c => decide (c ∉ Text.whiteSpace)) = true := by decide
    simpa using hall

end Source

end Hue

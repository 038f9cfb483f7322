import Hue.Proofs.Grammar

/-!
Separators and letter case. Of a body only its tokens count, and not what separates them. Of a token
only the letters count, and not their case: in the directive, in a mnemonic, in a register, and in
the mark and the digits of a hexadecimal number. A label is the exception and stays as it is written.
-/
namespace Hue

/-! ## Characters -/

namespace Text

/-- A character that is no letter has one case only. -/
theorem eq_of_toLower_eq {c d : Char} (hd : d.isAlpha = false) (h : c.toLower = d.toLower) :
    c = d := by
  have hc : c.isAlpha = false := by
    rw [← Char.isAlpha_toLower_eq_isAlpha, h, Char.isAlpha_toLower_eq_isAlpha, hd]
  have hupper {x : Char} (hx : x.isAlpha = false) : ¬x.isUpper = true := by
    intro hup
    rw [Char.isAlpha, hup, Bool.true_or] at hx
    cases hx
  rwa [Char.toLower_eq_of_not_isUpper (hupper hc), Char.toLower_eq_of_not_isUpper (hupper hd)] at h

/-- A character is the upper or the lower case of its lower case. -/
theorem eq_or_eq_toUpper_of_toLower_eq {c d : Char} (h : c.toLower = d) :
    c = d ∨ c = d.toUpper := by
  by_cases hc : c.isUpper = true
  · right
    have hlower : ¬c.isLower = true := Char.not_isLower_of_isUpper hc
    rw [← h, Char.toUpper_toLower_eq_toUpper, Char.toUpper_eq_of_not_isLower hlower]
  · left
    rw [← h, Char.toLower_eq_of_not_isUpper hc]

theorem SameLetters.exists_cons {cs ds : List Char} {d : Char} (h : SameLetters cs (d :: ds)) :
    ∃ c rest, cs = c :: rest ∧ c.toLower = d.toLower ∧ SameLetters rest ds :=
  List.map_eq_cons_iff.mp h

theorem SameLetters.ne_nil {cs ds : List Char} (h : SameLetters cs ds) (hds : ds ≠ []) :
    cs ≠ [] := by
  rintro rfl
  exact hds (List.map_eq_nil_iff.mp h.symm)

end Text

/-! ## Numbers -/

namespace Numeral

theorem digitValue_toLower (c : Char) : digitValue c.toLower = digitValue c := by
  by_cases hc : c.isUpper = true
  · have hall : ∀ n < 26, digitValue (Char.ofNat (n + 65)).toLower =
        digitValue (Char.ofNat (n + 65)) := by decide
    have hrange : 65 ≤ c.toNat ∧ c.toNat ≤ 90 := of_decide_eq_true hc
    have hletter := hall (c.toNat - 65) (by omega)
    rwa [Nat.sub_add_cancel hrange.1, Char.ofNat_toNat] at hletter
  · rw [Char.toLower_eq_of_not_isUpper hc]

theorem isDigit_toLower (base : Nat) (c : Char) : isDigit base c.toLower = isDigit base c := by
  rw [isDigit, isDigit, digitValue_toLower]

theorem value_of_sameLetters (base : Nat) {cs ds : List Char} (h : Text.SameLetters cs ds) :
    value base cs = value base ds := by
  have hlower (digits : List Char) : value base (digits.map Char.toLower) = value base digits := by
    simp only [value, List.foldl_map, digitValue_toLower]
  rw [← hlower cs, h, hlower ds]

theorem Denotes.of_sameLetters {base : Nat} {cs digits : List Char} {n : Nat}
    (hs : Text.SameLetters cs digits) (h : Denotes base digits n) : Denotes base cs n := by
  obtain ⟨hnumeral, rfl⟩ := h
  obtain ⟨hne, hdigits⟩ := isNumeral_iff.mp hnumeral
  exact ⟨isNumeral_iff.mpr ⟨hs.ne_nil hne, hs.forall_mem (isDigit_toLower base) hdigits⟩,
    value_of_sameLetters base hs⟩

theorem Decimal.of_sameLetters {cs digits : List Char} {n : Nat} (hs : Text.SameLetters cs digits)
    (h : Decimal digits n) : Decimal cs n :=
  decimal_iff.mpr ((decimal_iff.mp h).of_sameLetters hs)

theorem Hexadecimal.of_sameLetters {cs digits : List Char} {n : Nat}
    (hs : Text.SameLetters cs digits) (h : Hexadecimal digits n) : Hexadecimal cs n :=
  hexadecimal_iff.mpr ((hexadecimal_iff.mp h).of_sameLetters hs)

/-- The digits of a number may be in either case, and a sign has no other case. -/
theorem spells_of_sameLetters {Digits : List Char → Nat → Prop}
    (hcase : ∀ {cs digits n}, Text.SameLetters cs digits → Digits digits n → Digits cs n)
    {cs token : List Char} {n : Nat} (hs : Text.SameLetters cs token) (h : Spells Digits token n) :
    Spells Digits cs n := by
  obtain ⟨digits, rfl | rfl, hdigits⟩ := h
  · exact ⟨cs, .inl rfl, hcase hs hdigits⟩
  · obtain ⟨sign, rest, rfl, hsign, hrest⟩ := hs.exists_cons
    obtain rfl := Text.eq_of_toLower_eq (by decide) hsign
    exact ⟨rest, .inr rfl, hcase hrest hdigits⟩

end Numeral

namespace Source

/-- The mark of a hexadecimal number may be in either case as well. -/
theorem spellsWord_of_sameLetters {cs token : List Char} {w : Word}
    (hs : Text.SameLetters cs token) (h : SpellsWord token w) : SpellsWord cs w := by
  rcases h with ⟨digits, htoken, hdigits⟩ | hdecimal
  · obtain ⟨mark, rfl, hmark⟩ : ∃ mark, token = '0' :: mark :: digits ∧ mark.toLower = 'x' := by
      rcases htoken with rfl | rfl
      · exact ⟨'x', rfl, by decide⟩
      · exact ⟨'X', rfl, by decide⟩
    obtain ⟨zero, marked, rfl, hzero, hrest⟩ := hs.exists_cons
    obtain rfl := Text.eq_of_toLower_eq (by decide) hzero
    obtain ⟨other, rest, rfl, hother, hsame⟩ := hrest.exists_cons
    refine .inl ⟨rest, ?_, Numeral.spells_of_sameLetters .of_sameLetters hsame hdigits⟩
    rcases Text.eq_or_eq_toUpper_of_toLower_eq (hother.trans hmark) with rfl | rfl
    · exact .inl rfl
    · exact .inr rfl
  · exact .inr (Numeral.spells_of_sameLetters .of_sameLetters hs hdecimal)

/-! ## Operands and bodies -/

/-- Operands other than labels may be in either case. -/
theorem writtenAs_of_sameLetters {f : Format} {others tokens : List (List Char)}
    {operands : Operands} (hs : List.Forall₂ Text.SameLetters others tokens)
    (h : WrittenAs f tokens operands) (hf : f ≠ .branch) : WrittenAs f others operands := by
  cases h with
  | registerImmediate hrd himm =>
    obtain _ | ⟨hfirst, _ | ⟨hsecond, ⟨⟩⟩⟩ := hs
    exact .registerImmediate (hfirst.trans hrd)
      (Numeral.spells_of_sameLetters .of_sameLetters hsecond himm)
  | immediate himm =>
    obtain _ | ⟨hfirst, ⟨⟩⟩ := hs
    exact .immediate (Numeral.spells_of_sameLetters .of_sameLetters hfirst himm)
  | register hrd =>
    obtain _ | ⟨hfirst, ⟨⟩⟩ := hs
    exact .register (hfirst.trans hrd)
  | threeRegisters hrd hrs hrt =>
    obtain _ | ⟨hfirst, _ | ⟨hsecond, _ | ⟨hthird, ⟨⟩⟩⟩⟩ := hs
    exact .threeRegisters (hfirst.trans hrd) (hsecond.trans hrs) (hthird.trans hrt)
  | bare =>
    obtain ⟨⟩ := hs
    exact .bare
  | branch hname => exact absurd rfl hf

/-- A label may not: tokens that differ in its case are written as another branch. -/
theorem writtenAs_branch_iff_same_label {others tokens : List (List Char)} {operands : Operands}
    (hs : List.Forall₂ Text.SameLetters others tokens) (h : WrittenAs .branch tokens operands) :
    WrittenAs .branch others operands ↔ others[0]? = tokens[0]? := by
  cases h with
  | branch hname =>
    constructor
    · intro hother
      cases hother
      rfl
    · intro hlabel
      obtain _ | ⟨-, ⟨⟩⟩ := hs
      obtain rfl := Option.some.inj hlabel
      exact .branch hname

section Body

variable {settings : Settings} {body other head first : List Char}
  {operands others : List (List Char)}

theorem readStatement_word_of_sameLetters (line shown : List Char)
    (hbody : Text.fields isSeparator body = head :: operands)
    (hother : Text.fields isSeparator other = first :: others)
    (hhead : Text.SameLetters first head) (hs : List.Forall₂ Text.SameLetters others operands)
    {w : Word} (h : readStatement settings line body = .ok (some (.word w))) :
    readStatement settings shown other = .ok (some (.word w)) := by
  obtain ⟨hdirective, token, rfl, hvalue⟩ := (readStatement_eq_word_iff line hbody).mp h
  obtain _ | ⟨htoken, ⟨⟩⟩ := hs
  exact (readStatement_eq_word_iff shown hother).mpr
    ⟨hhead.trans hdirective, _, rfl, spellsWord_of_sameLetters htoken hvalue⟩

/-- Where the mnemonics are the same up to their case and no prefix is taken off, only the operands
decide whether both bodies are the same instruction. -/
theorem readStatement_instruction_iff_of_sameLetters (line shown : List Char)
    (hnone : settings.operandPrefix = none)
    (hbody : Text.fields isSeparator body = head :: operands)
    (hother : Text.fields isSeparator other = first :: others)
    (hhead : Text.SameLetters first head) {i : Instruction}
    (h : readStatement settings line body = .ok (some (.instruction i))) :
    WrittenAs i.op.format operands i.operands ∧
      (readStatement settings shown other = .ok (some (.instruction i)) ↔
        WrittenAs i.op.format others i.operands) := by
  have hstrip (tokens : List (List Char)) : stripOperandPrefix settings tokens = tokens := by
    simp [stripOperandPrefix, hnone]
  obtain ⟨hname, hwritten⟩ := (readStatement_eq_instruction_iff line hbody).mp h
  rw [hstrip] at hwritten
  rw [readStatement_eq_instruction_iff shown hother, hstrip]
  exact ⟨hwritten, and_iff_right (hhead.trans hname)⟩

end Body

/-- Two bodies with the same tokens up to the case of letters are read as the same statement,
whatever separates the tokens, if the first is read at all and the settings take no prefix off. Of a
branch the label has to be the same in its case as well, and then too nothing else matters. -/
theorem separators_and_case_are_free {settings : Settings}
    (hnone : settings.operandPrefix = none) {body other : List Char}
    {tokens others : List (List Char)} (hbody : Text.HasTokens Separates body tokens)
    (hother : Text.HasTokens Separates other others)
    (hsame : List.Forall₂ Text.SameLetters others tokens) (line shown : List Char) :
    (∀ x, readStatement settings line body = .ok x →
      (∀ i, x = some (.instruction i) → i.op.format ≠ .branch) →
        readStatement settings shown other = .ok x) ∧
    (∀ i, readStatement settings line body = .ok (some (.instruction i)) →
      i.op.format = .branch →
        (readStatement settings shown other = .ok (some (.instruction i)) ↔
          others[1]? = tokens[1]?)) := by
  have hb := (hasTokens_iff_fields.mp hbody).symm
  have ho := (hasTokens_iff_fields.mp hother).symm
  cases hsame with
  | nil =>
    have hread : readStatement settings line body = .ok none := readStatement_eq_none_iff.mpr hb
    refine ⟨?_, ?_⟩
    · intro x hx _
      rw [← hx, hread]
      exact readStatement_eq_none_iff.mpr ho
    · intro i hi
      simp [hread] at hi
  | cons hhead hrest =>
    have hinstruction {i : Instruction} :=
      readStatement_instruction_iff_of_sameLetters line shown hnone hb ho hhead (i := i)
    refine ⟨?_, ?_⟩
    · intro x hx hbranch
      match x with
      | none => simp [readStatement_eq_none_iff, hb] at hx
      | some (.word w) => exact readStatement_word_of_sameLetters line shown hb ho hhead hrest hx
      | some (.instruction i) =>
        obtain ⟨hwritten, hiff⟩ := hinstruction hx
        exact hiff.mpr (writtenAs_of_sameLetters hrest hwritten (hbranch i rfl))
    · intro i hi hbranch
      obtain ⟨hwritten, hiff⟩ := hinstruction hi
      rw [hbranch] at hwritten hiff
      exact hiff.trans (writtenAs_branch_iff_same_label hrest hwritten)

/-- The directive, the mark of the number and its digits in the other case, and commas for blanks.
A jump stays the same with its mnemonic in another case, but not with its label. -/
theorem odd_case_and_commas_are_free :
    readStatement ⟨.skip, none⟩ [] ",.Word,\t,0XaBcD,".toList = .ok (some (.word 0xABCD)) ∧
      readStatement ⟨.skip, none⟩ [] "juMP,Loop".toList =
        .ok (some (.instruction ⟨.jump, .branch (.label "Loop")⟩)) ∧
      readStatement ⟨.skip, none⟩ [] "JUMP loop".toList ≠
        .ok (some (.instruction ⟨.jump, .branch (.label "Loop")⟩)) := by
  have hword : Text.HasTokens Separates ".word 0xabcd".toList
      [".word".toList, "0xabcd".toList] := hasTokens_iff_fields.mpr (by decide)
  have hodd : Text.HasTokens Separates ",.Word,\t,0XaBcD,".toList
      [".Word".toList, "0XaBcD".toList] := hasTokens_iff_fields.mpr (by decide)
  have hjump : Text.HasTokens Separates "JUMP Loop".toList ["JUMP".toList, "Loop".toList] :=
    hasTokens_iff_fields.mpr (by decide)
  have hcomma : Text.HasTokens Separates "juMP,Loop".toList ["juMP".toList, "Loop".toList] :=
    hasTokens_iff_fields.mpr (by decide)
  have hlabel : Text.HasTokens Separates "JUMP loop".toList ["JUMP".toList, "loop".toList] :=
    hasTokens_iff_fields.mpr (by decide)
  have hnone : (⟨.skip, none⟩ : Settings).operandPrefix = none := rfl
  refine ⟨?_, ?_, ?_⟩
  · exact (separators_and_case_are_free hnone hword hodd
      (.cons (by decide) (.cons (by decide) .nil)) [] []).1 _ rfl (by simp)
  · exact ((separators_and_case_are_free hnone hjump hcomma
      (.cons (by decide) (.cons (by decide) .nil)) [] []).2 _ rfl rfl).mpr rfl
  · exact ((separators_and_case_are_free hnone hjump hlabel
      (.cons (by decide) (.cons (by decide) .nil)) [] []).2 _ rfl rfl).not.mpr (by decide)

end Source

end Hue

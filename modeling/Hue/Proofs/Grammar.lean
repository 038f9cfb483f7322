import Hue.Proofs.Accounting
import Hue.Proofs.Fault
import Hue.Proofs.Spelling
import Mathlib

/-!
The grammar of a body. Commas and blanks cut a body into tokens. No token is no statement, a word
directive takes one number, and an instruction is a mnemonic of the table with operands of its
opcode's format. Reading accepts exactly these, and a body is not recognized exactly when its first
token is neither the directive nor shaped like a mnemonic.
-/
namespace Hue

/-! ## Tokens -/

namespace Text

/-- Two texts that differ at most in the case of ASCII letters. -/
def SameLetters (cs ds : List Char) : Prop := cs.map Char.toLower = ds.map Char.toLower

instance (cs ds : List Char) : Decidable (SameLetters cs ds) :=
  inferInstanceAs (Decidable (cs.map Char.toLower = ds.map Char.toLower))

theorem sameLetters_iff_toUpper {cs ds : List Char} :
    SameLetters cs ds ↔ cs.map Char.toUpper = ds.map Char.toUpper := by
  constructor
  · intro h
    have hupper := congrArg (List.map Char.toUpper) h
    simpa only [List.map_map, Function.comp_def, Char.toUpper_toLower_eq_toUpper] using hupper
  · intro h
    have hlower := congrArg (List.map Char.toLower) h
    simpa only [SameLetters, List.map_map, Function.comp_def, Char.toLower_toUpper_eq_toLower]
      using hlower

/-- What holds of characters whatever their case passes to texts of the same letters. -/
theorem SameLetters.forall_mem {p : Char → Bool} (hp : ∀ c : Char, p c.toLower = p c)
    {cs ds : List Char} (h : SameLetters cs ds) (hds : ∀ d ∈ ds, p d = true) :
    ∀ c ∈ cs, p c = true := by
  intro c hc
  have hmem : c.toLower ∈ ds.map Char.toLower := h ▸ List.mem_map_of_mem hc
  obtain ⟨d, hd, heq⟩ := List.mem_map.mp hmem
  rw [← hp, ← heq, hp]
  exact hds d hd

/-- The tokens of a text: its longest pieces without a separator, in order. -/
inductive HasTokens (Separates : Char → Prop) : List Char → List (List Char) → Prop where
  | none : HasTokens Separates [] []
  | skip {c : Char} {cs : List Char} {tokens : List (List Char)} :
      Separates c → HasTokens Separates cs tokens → HasTokens Separates (c :: cs) tokens
  | last {token : List Char} :
      token ≠ [] → (∀ c ∈ token, ¬Separates c) → HasTokens Separates token [token]
  | next {token cs : List Char} {c : Char} {tokens : List (List Char)} :
      token ≠ [] → (∀ d ∈ token, ¬Separates d) → Separates c → HasTokens Separates cs tokens →
      HasTokens Separates (token ++ c :: cs) (token :: tokens)

section Tokens

variable {Separates : Char → Prop} {separator : Char → Bool}
  (hsep : ∀ {c : Char}, separator c = true ↔ Separates c)

include hsep

theorem HasTokens.eq_fields {cs : List Char} {tokens : List (List Char)}
    (h : HasTokens Separates cs tokens) : tokens = fields separator cs := by
  have hfree' {token : List Char} (hfree : ∀ c ∈ token, ¬Separates c) :
      ∀ c ∈ token, separator c = false :=
    fun c hc => Bool.eq_false_iff.mpr (hsep.not.mpr (hfree c hc))
  induction h with
  | none => rfl
  | skip hc _ ih => rw [fields_cons _ (hsep.mpr hc), ih]
  | last hne hfree => rw [fields_of_forall_not hne (hfree' hfree)]
  | next hne hfree hc _ ih => rw [fields_append_cons _ hne (hfree' hfree) (hsep.mpr hc), ih]

/-- Every text has its tokens. -/
theorem exists_hasTokens (cs : List Char) : ∃ tokens, HasTokens Separates cs tokens := by
  induction hn : cs.length using Nat.strongRecOn generalizing cs with
  | ind n ih =>
    -- cut after the characters in front that are no separators
    have hcut := List.takeWhile_append_dropWhile (p := fun c => !separator c) (l := cs)
    have hfree : ∀ c ∈ cs.takeWhile (fun c => !separator c), ¬Separates c :=
      fun c hc => hsep.not.mp (by simpa using List.mem_takeWhile_imp hc)
    cases hrest : cs.dropWhile fun c => !separator c with
    | nil =>
      rw [hrest, List.append_nil] at hcut
      rw [hcut] at hfree
      by_cases hne : cs = []
      · exact ⟨[], hne ▸ .none⟩
      · exact ⟨[cs], .last hne hfree⟩
    | cons c rest =>
      have hc : Separates c := hsep.mp (of_dropWhile_eq_cons hrest)
      rw [hrest] at hcut
      have hlength := congrArg List.length hcut
      rw [List.length_append, List.length_cons] at hlength
      obtain ⟨tokens, htokens⟩ := ih rest.length (by omega) rest rfl
      rw [← hcut]
      by_cases hne : cs.takeWhile (fun c => !separator c) = []
      · rw [hne]
        exact ⟨tokens, .skip hc htokens⟩
      · exact ⟨_ :: tokens, .next hne hfree hc htokens⟩

/-- Cutting a text into fields gives its tokens, and a text has no others. -/
theorem hasTokens_iff {cs : List Char} {tokens : List (List Char)} :
    HasTokens Separates cs tokens ↔ tokens = fields separator cs := by
  refine ⟨HasTokens.eq_fields hsep, ?_⟩
  rintro rfl
  obtain ⟨tokens, htokens⟩ := exists_hasTokens hsep cs
  exact htokens.eq_fields hsep ▸ htokens

end Tokens

theorem dropLeading?_eq_some_iff {start cs rest : List Char} :
    dropLeading? start cs = some rest ↔ cs = start ++ rest ∧ rest ≠ [] := by
  simp only [dropLeading?, Option.ite_none_right_eq_some, Bool.and_eq_true,
    List.isPrefixOf_iff_prefix, decide_eq_true_eq, Option.some.injEq]
  constructor
  · rintro ⟨⟨⟨tail, rfl⟩, hlt⟩, rfl⟩
    rw [List.drop_left]
    refine ⟨rfl, ?_⟩
    rintro rfl
    simp at hlt
  · rintro ⟨rfl, hne⟩
    refine ⟨⟨⟨rest, rfl⟩, ?_⟩, List.drop_left⟩
    rw [List.length_append]
    exact Nat.lt_add_of_pos_right (List.length_pos_of_ne_nil hne)

end Text

/-! ## Names -/

theorem Register.ofName?_eq_some_iff {token : List Char} {reg : Register} :
    ofName? token = some reg ↔ Text.SameLetters token reg.name.toList := by
  have hname (other : Register) : other.name.toList.map Char.toUpper = other.name.toList := by
    cases other <;> decide
  rw [Text.sameLetters_iff_toUpper, hname]
  constructor
  · intro h
    have hfound : reg.name = String.ofList (token.map Char.toUpper) := by
      simpa using List.find?_some h
    rw [hfound, String.toList_ofList]
  · intro h
    simp only [ofName?, h, String.ofList_toList]
    cases reg <;> decide

theorem Opcode.ofMnemonic?_eq_some_iff {token : List Char} {op : Opcode} :
    ofMnemonic? token = some op ↔ Text.SameLetters token op.mnemonic.toList := by
  have hname (other : Opcode) :
      other.mnemonic.toList.map Char.toUpper = other.mnemonic.toList := by
    cases other <;> decide
  rw [Text.sameLetters_iff_toUpper, hname]
  constructor
  · intro h
    have hfound : op.mnemonic = String.ofList (token.map Char.toUpper) := by
      simpa using List.find?_some h
    rw [hfound, String.toList_ofList]
  · intro h
    simp only [ofMnemonic?, h, String.ofList_toList]
    cases op <;> decide

namespace Source

/-- The shape of a mnemonic: an ASCII letter, then letters, digits and underscores. -/
def MnemonicShape (token : List Char) : Prop :=
  ∃ first rest, token = first :: rest ∧ first.isAlpha = true ∧
    ∀ c ∈ rest, c.isAlphanum = true ∨ c = '_'

theorem isMnemonic_iff {token : List Char} : isMnemonic token = true ↔ MnemonicShape token := by
  cases token with
  | nil => simp [isMnemonic, MnemonicShape]
  | cons first rest => simp [isMnemonic, MnemonicShape]

theorem isMnemonic_of_sameLetters {token : List Char} {op : Opcode}
    (h : Text.SameLetters token op.mnemonic.toList) : isMnemonic token = true := by
  have hletters : ∀ d ∈ op.mnemonic.toList, d.isAlpha = true := by
    rw [← List.all_eq_true]
    cases op <;> decide
  have halpha := h.forall_mem Char.isAlpha_toLower_eq_isAlpha hletters
  cases token with
  | nil =>
    have hempty := congrArg List.length h
    cases op <;> simp [Opcode.mnemonic] at hempty
  | cons first rest =>
    rw [isMnemonic_iff]
    refine ⟨first, rest, rfl, halpha first List.mem_cons_self, fun c hc => .inl ?_⟩
    rw [Char.isAlphanum, halpha c (List.mem_cons_of_mem _ hc), Bool.true_or]

/-- The word directive, in any case. -/
def IsDirective (token : List Char) : Prop := Text.SameLetters token ".word".toList

theorem isWordDirective_iff {token : List Char} :
    isWordDirective token = true ↔ IsDirective token := by
  have hlower : ".word".toList.map Char.toLower = ".word".toList := by decide
  rw [IsDirective, Text.SameLetters, hlower, isWordDirective, beq_iff_eq]

/-- No mnemonic of the table is the directive. -/
theorem not_isDirective_of_sameLetters {token : List Char} {op : Opcode}
    (h : Text.SameLetters token op.mnemonic.toList) : ¬IsDirective token := by
  intro hword
  have heq : op.mnemonic.toList.map Char.toLower = ".word".toList.map Char.toLower :=
    h.symm.trans hword
  revert heq
  cases op <;> decide

/-! ## Operands -/

/-- Tokens that are written as the operands of a format: one token for each operand, in the class
that its place demands. -/
inductive WrittenAs : Format → List (List Char) → Operands → Prop where
  | registerImmediate {first second : List Char} {rd : Register} {imm : UInt8} :
      Text.SameLetters first rd.name.toList → Numeral.Spells Numeral.Decimal second imm.toNat →
      WrittenAs .registerImmediate [first, second] (.registerImmediate rd imm)
  | immediate {token : List Char} {imm : UInt8} :
      Numeral.Spells Numeral.Decimal token imm.toNat → WrittenAs .immediate [token] (.immediate imm)
  | register {token : List Char} {rd : Register} :
      Text.SameLetters token rd.name.toList → WrittenAs .register [token] (.register rd)
  | threeRegisters {first second third : List Char} {rd rs rt : Register} :
      Text.SameLetters first rd.name.toList → Text.SameLetters second rs.name.toList →
      Text.SameLetters third rt.name.toList →
      WrittenAs .threeRegisters [first, second, third] (.threeRegisters rd rs rt)
  | bare : WrittenAs .bare [] .bare
  | branch {name : String} :
      isLabelName name.toList = true → WrittenAs .branch [name.toList] (.branch (.label name))

theorem WrittenAs.length_eq {f : Format} {tokens : List (List Char)} {operands : Operands}
    (h : WrittenAs f tokens operands) : tokens.length = f.arity := by
  cases h <;> rfl

theorem readRegister_eq_ok_iff {token : List Char} {reg : Register} :
    readRegister token = .ok reg ↔ Text.SameLetters token reg.name.toList := by
  rw [← Register.ofName?_eq_some_iff, readRegister]
  cases Register.ofName? token <;> simp

theorem isNumeral_dropSign_of_spells {token : List Char} {n : Nat}
    (h : Numeral.Spells Numeral.Decimal token n) : Numeral.isNumeral 10 (dropSign token) = true := by
  obtain ⟨digits, htoken, hdecimal⟩ := h
  have hnum := (Numeral.decimal_iff.mp hdecimal).1
  rcases htoken with rfl | rfl
  · rwa [dropSign_of_isNumeral hnum]
  · exact hnum

theorem readImmediate_eq_ok_iff {line token : List Char} {imm : UInt8} :
    readImmediate line token = .ok imm ↔ Numeral.Spells Numeral.Decimal token imm.toNat := by
  have hbelow : Numeral.readBelow? 10 256 token = some imm.toNat ↔
      Numeral.Spells Numeral.Decimal token imm.toNat := by
    rw [Numeral.readBelow?_ten_iff, and_iff_left imm.toNat_lt]
  rw [← hbelow, readImmediate]
  constructor
  · intro h
    split at h
    case isFalse => simp at h
    case isTrue =>
      split at h
      case h_2 => simp at h
      case h_1 n hn =>
        obtain rfl := Except.ok.inj h
        have hlt : n < 256 := ((Numeral.readBelow?_ten_iff 256).mp hn).2
        rwa [UInt8.toNat_ofNat_of_lt' hlt]
  · intro h
    rw [if_pos (isNumeral_dropSign_of_spells (hbelow.mp h)), h]
    simp

theorem readTarget_eq_ok_iff {line token : List Char} {target : Target} :
    readTarget line token = .ok target ↔
      isLabelName token = true ∧ target = .label (String.ofList token) := by
  unfold readTarget
  split
  case isTrue h => simp [h, eq_comm]
  case isFalse h => simp [h]

theorem writtenAs_of_readOperands {line : List Char} {op : Opcode} {tokens : List (List Char)}
    {operands : Operands} (h : readOperands line op tokens = .ok operands) :
    WrittenAs op.format tokens operands := by
  rw [readOperands_eq_match] at h
  unfold matchOperands at h
  split at h
  case h_1 hf =>
    obtain ⟨rd, hrd, h⟩ := bind_eq_ok.mp h
    obtain ⟨imm, himm, h⟩ := bind_eq_ok.mp h
    obtain rfl := Except.ok.inj h
    rw [hf]
    exact .registerImmediate (readRegister_eq_ok_iff.mp hrd) (readImmediate_eq_ok_iff.mp himm)
  case h_2 hf =>
    obtain ⟨imm, himm, h⟩ := bind_eq_ok.mp h
    obtain rfl := Except.ok.inj h
    rw [hf]
    exact .immediate (readImmediate_eq_ok_iff.mp himm)
  case h_3 hf =>
    obtain ⟨rd, hrd, h⟩ := bind_eq_ok.mp h
    obtain rfl := Except.ok.inj h
    rw [hf]
    exact .register (readRegister_eq_ok_iff.mp hrd)
  case h_4 hf =>
    obtain ⟨rd, hrd, h⟩ := bind_eq_ok.mp h
    obtain ⟨rs, hrs, h⟩ := bind_eq_ok.mp h
    obtain ⟨rt, hrt, h⟩ := bind_eq_ok.mp h
    obtain rfl := Except.ok.inj h
    rw [hf]
    exact .threeRegisters (readRegister_eq_ok_iff.mp hrd) (readRegister_eq_ok_iff.mp hrs)
      (readRegister_eq_ok_iff.mp hrt)
  case h_5 hf =>
    obtain rfl := Except.ok.inj h
    rw [hf]
    exact .bare
  case h_6 token hf =>
    obtain ⟨target, htarget, h⟩ := bind_eq_ok.mp h
    obtain rfl := Except.ok.inj h
    obtain ⟨hname, rfl⟩ := readTarget_eq_ok_iff.mp htarget
    have hwritten : WrittenAs .branch [(String.ofList token).toList]
        (.branch (.label (String.ofList token))) := .branch (by rwa [String.toList_ofList])
    rwa [String.toList_ofList, ← hf] at hwritten
  case h_7 => simp at h

/-- The operands of an opcode are read exactly from tokens that are written as operands of its
format. -/
theorem readOperands_eq_ok_iff (line : List Char) {op : Opcode} {tokens : List (List Char)}
    {operands : Operands} :
    readOperands line op tokens = .ok operands ↔ WrittenAs op.format tokens operands := by
  refine ⟨writtenAs_of_readOperands, ?_⟩
  rw [readOperands_eq_match]
  generalize hf : op.format = f
  intro h
  cases h with
  | registerImmediate hrd himm =>
    simp only [matchOperands, hf, readRegister_eq_ok_iff.mpr hrd, readImmediate_eq_ok_iff.mpr himm]
    rfl
  | immediate himm =>
    simp only [matchOperands, hf, readImmediate_eq_ok_iff.mpr himm]
    rfl
  | register hrd =>
    simp only [matchOperands, hf, readRegister_eq_ok_iff.mpr hrd]
    rfl
  | threeRegisters hrd hrs hrt =>
    simp only [matchOperands, hf, readRegister_eq_ok_iff.mpr hrd, readRegister_eq_ok_iff.mpr hrs,
      readRegister_eq_ok_iff.mpr hrt]
    rfl
  | bare => simp only [matchOperands, hf]
  | branch hname =>
    simp only [matchOperands, hf, readTarget_label line hname]
    rfl

/-- The last token is the prefix with more after it, and `init` are the tokens before it. -/
def Prefixed (start : Option String) (tokens init : List (List Char)) (rest : List Char) : Prop :=
  ∃ text, start = some text ∧ tokens = init ++ [text.toList ++ rest] ∧ rest ≠ []

/-- Taking a prefix off: the last token loses it once, if more than the prefix stands there, and
otherwise nothing changes. -/
def PrefixTaken (start : Option String) (tokens stripped : List (List Char)) : Prop :=
  (∃ init rest, Prefixed start tokens init rest ∧ stripped = init ++ [rest]) ∨
    ((¬∃ init rest, Prefixed start tokens init rest) ∧ stripped = tokens)

theorem stripOperandPrefix_of_prefixed {settings : Settings} {tokens init : List (List Char)}
    {rest : List Char} (h : Prefixed settings.operandPrefix tokens init rest) :
    stripOperandPrefix settings tokens = init ++ [rest] := by
  obtain ⟨text, htext, rfl, hne⟩ := h
  have hdrop : Text.dropLeading? text.toList (text.toList ++ rest) = some rest :=
    Text.dropLeading?_eq_some_iff.mpr ⟨rfl, hne⟩
  simp [stripOperandPrefix, htext, hdrop]

theorem stripOperandPrefix_of_not_prefixed {settings : Settings} {tokens : List (List Char)}
    (h : ¬∃ init rest, Prefixed settings.operandPrefix tokens init rest) :
    stripOperandPrefix settings tokens = tokens := by
  unfold stripOperandPrefix
  split
  case h_2 => rfl
  case h_1 text last htext hlast =>
    obtain ⟨init, rfl⟩ := List.getLast?_eq_some_iff.mp hlast
    rw [List.dropLast_concat]
    cases hdrop : Text.dropLeading? text.toList last with
    | none => rfl
    | some rest =>
      obtain ⟨rfl, hne⟩ := Text.dropLeading?_eq_some_iff.mp hdrop
      exact absurd ⟨init, rest, text, htext, rfl, hne⟩ h

theorem prefixTaken_iff {settings : Settings} {tokens stripped : List (List Char)} :
    PrefixTaken settings.operandPrefix tokens stripped ↔
      stripped = stripOperandPrefix settings tokens := by
  constructor
  · rintro (⟨init, rest, hprefixed, rfl⟩ | ⟨hnot, rfl⟩)
    · exact (stripOperandPrefix_of_prefixed hprefixed).symm
    · exact (stripOperandPrefix_of_not_prefixed hnot).symm
  · rintro rfl
    by_cases h : ∃ init rest, Prefixed settings.operandPrefix tokens init rest
    · obtain ⟨init, rest, hprefixed⟩ := h
      exact .inl ⟨init, rest, hprefixed, stripOperandPrefix_of_prefixed hprefixed⟩
    · exact .inr ⟨h, stripOperandPrefix_of_not_prefixed h⟩

/-! ## Statements -/

/-- The number of a word directive: hexadecimal after its mark, and decimal otherwise. -/
def SpellsWord (token : List Char) (w : Word) : Prop :=
  (∃ digits, (token = '0' :: 'x' :: digits ∨ token = '0' :: 'X' :: digits) ∧
    Numeral.Spells Numeral.Hexadecimal digits w.toNat) ∨ Numeral.Spells Numeral.Decimal token w.toNat

theorem wordValue?_eq_some_iff {token : List Char} {w : Word} :
    wordValue? token = some w ↔ SpellsWord token w := by
  have hmap {read : Option Nat} {Spelled : Nat → Prop}
      (hread : ∀ {n : Nat}, read = some n ↔ Spelled n ∧ n < 65536) :
      read.map UInt16.ofNat = some w ↔ Spelled w.toNat := by
    simp only [Option.map_eq_some_iff, hread]
    constructor
    · rintro ⟨n, ⟨hspelled, hlt⟩, rfl⟩
      rwa [UInt16.toNat_ofNat_of_lt' hlt]
    · intro hspelled
      exact ⟨w.toNat, ⟨hspelled, w.toNat_lt⟩, UInt16.ofNat_toNat⟩
  -- the mark of a hexadecimal number is no digit, so no token is read both ways
  have hmark {c : Char} (hc : c.isDigit = false) {digits : List Char} {n : Nat} :
      ¬Numeral.Spells Numeral.Decimal ('0' :: c :: digits) n := by
    rintro ⟨others, rfl | heq, hdecimal⟩
    · simp [hdecimal.ascii c (by simp)] at hc
    · simp at heq
  unfold SpellsWord wordValue?
  split
  case h_1 digits =>
    rw [hmap (Numeral.readBelow?_sixteen_iff 65536)]
    simp [hmark (c := 'x') (by decide)]
  case h_2 digits =>
    rw [hmap (Numeral.readBelow?_sixteen_iff 65536)]
    simp [hmark (c := 'X') (by decide)]
  case h_3 hx hX =>
    rw [hmap (Numeral.readBelow?_ten_iff 65536)]
    refine ⟨.inr, ?_⟩
    rintro (⟨digits, rfl | rfl, -⟩ | h)
    · exact absurd rfl (hx digits)
    · exact absurd rfl (hX digits)
    · exact h

theorem readWordDirective_eq_ok_iff (line : List Char) {tokens : List (List Char)} {w : Word} :
    readWordDirective line tokens = .ok w ↔ ∃ token, tokens = [token] ∧ SpellsWord token w := by
  unfold readWordDirective
  split
  case h_1 token =>
    simp only [List.cons.injEq, and_true, exists_eq_left', ← wordValue?_eq_some_iff]
    cases wordValue? token <;> simp
  case h_2 hnot =>
    simp only [reduceCtorEq, false_iff]
    rintro ⟨token, rfl, -⟩
    exact hnot token rfl

theorem readInstruction_eq_ok_iff {line mnemonic : List Char} {tokens : List (List Char)}
    {i : Instruction} :
    readInstruction line mnemonic tokens = .ok i ↔
      Text.SameLetters mnemonic i.op.mnemonic.toList ∧ WrittenAs i.op.format tokens i.operands := by
  obtain ⟨op, operands⟩ := i
  simp only [← readOperands_eq_ok_iff line]
  constructor
  · intro h
    unfold readInstruction at h
    split at h
    case isFalse => simp at h
    case isTrue =>
      split at h
      case h_2 => simp at h
      case h_1 other hother =>
        obtain ⟨read, hread, heq⟩ := map_eq_ok.mp h
        obtain ⟨rfl, rfl⟩ := Instruction.mk.inj heq
        exact ⟨Opcode.ofMnemonic?_eq_some_iff.mp hother, hread⟩
  · rintro ⟨hname, hread⟩
    simp only [readInstruction, isMnemonic_of_sameLetters hname, ↓reduceIte,
      Opcode.ofMnemonic?_eq_some_iff.mpr hname, hread]
    rfl

/-- Operands are not looked at before the mnemonic has its shape. -/
theorem readInstruction_eq_unrecognized_iff {line mnemonic : List Char}
    {tokens : List (List Char)} {text : String} :
    readInstruction line mnemonic tokens = .error (.unrecognizedLine text) ↔
      ¬MnemonicShape mnemonic ∧ text = String.ofList line := by
  rw [← isMnemonic_iff]
  unfold readInstruction
  split
  case isFalse hshape => simp [hshape, eq_comm]
  case isTrue hshape =>
    simp only [hshape, not_true_eq_false, false_and, iff_false]
    split
    case h_1 =>
      intro h
      cases isOperandFault_of_readOperands (map_eq_error.mp h)
    case h_2 => simp

/-- The tokens of a body are the fields that its reader cuts it into. -/
theorem hasTokens_iff_fields {body : List Char} {tokens : List (List Char)} :
    Text.HasTokens Separates body tokens ↔ tokens = Text.fields isSeparator body :=
  Text.hasTokens_iff isSeparator_iff

section Body

variable {settings : Settings} {body head : List Char} {operands : List (List Char)}

theorem readStatement_of_directive (line : List Char)
    (hbody : Text.fields isSeparator body = head :: operands) (h : IsDirective head) :
    readStatement settings line body =
      (readWordDirective line operands).map fun w => some (.word w) := by
  simp only [readStatement, hbody, isWordDirective_iff.mpr h, ↓reduceIte]

theorem readStatement_of_not_directive (line : List Char)
    (hbody : Text.fields isSeparator body = head :: operands) (h : ¬IsDirective head) :
    readStatement settings line body =
      (readInstruction line head (stripOperandPrefix settings operands)).map fun i =>
        some (.instruction i) := by
  rw [← isWordDirective_iff, Bool.not_eq_true] at h
  simp only [readStatement, hbody, h, Bool.false_eq_true, ↓reduceIte]

theorem readStatement_eq_word_iff (line : List Char)
    (hbody : Text.fields isSeparator body = head :: operands) {w : Word} :
    readStatement settings line body = .ok (some (.word w)) ↔
      IsDirective head ∧ ∃ token, operands = [token] ∧ SpellsWord token w := by
  by_cases h : IsDirective head
  · simp [readStatement_of_directive line hbody h, h, map_eq_ok, readWordDirective_eq_ok_iff]
  · simp [readStatement_of_not_directive line hbody h, h, map_eq_ok]

theorem readStatement_eq_instruction_iff (line : List Char)
    (hbody : Text.fields isSeparator body = head :: operands) {i : Instruction} :
    readStatement settings line body = .ok (some (.instruction i)) ↔
      Text.SameLetters head i.op.mnemonic.toList ∧
        WrittenAs i.op.format (stripOperandPrefix settings operands) i.operands := by
  by_cases h : IsDirective head
  · have hname : ¬Text.SameLetters head i.op.mnemonic.toList :=
      fun hname => not_isDirective_of_sameLetters hname h
    simp [readStatement_of_directive line hbody h, hname, map_eq_ok]
  · simp [readStatement_of_not_directive line hbody h, map_eq_ok, readInstruction_eq_ok_iff]

theorem readStatement_eq_unrecognized_iff (line : List Char)
    (hbody : Text.fields isSeparator body = head :: operands) {text : String} :
    readStatement settings line body = .error (.unrecognizedLine text) ↔
      (¬IsDirective head ∧ ¬MnemonicShape head) ∧ text = String.ofList line := by
  by_cases h : IsDirective head
  · simp only [readStatement_of_directive line hbody h, map_eq_error, h, not_true_eq_false,
      false_and, iff_false]
    intro hread
    cases isOperandFault_of_readWordDirective hread
  · simp [readStatement_of_not_directive line hbody h, h, map_eq_error,
      readInstruction_eq_unrecognized_iff]

end Body

/-- What a body is read as, by its tokens. Without a token it is nothing. With the directive and one
number after it, it is that word. With a mnemonic of the table it is an instruction exactly if the
operands, less the prefix of the settings, are as many as its format takes and each is in the class
of its place. The line is not recognized exactly if the first token is neither the directive nor
shaped like a mnemonic. -/
theorem body_grammar (settings : Settings) (line body : List Char) :
    ∃ tokens, Text.HasTokens Separates body tokens ∧
      (∀ others, Text.HasTokens Separates body others → others = tokens) ∧
      (readStatement settings line body = .ok none ↔ tokens = []) ∧
      (∀ w, readStatement settings line body = .ok (some (.word w)) ↔
        ∃ head value, tokens = [head, value] ∧ IsDirective head ∧ SpellsWord value w) ∧
      (∀ i, readStatement settings line body = .ok (some (.instruction i)) ↔
        ∃ head operands stripped, tokens = head :: operands ∧
          Text.SameLetters head i.op.mnemonic.toList ∧
          PrefixTaken settings.operandPrefix operands stripped ∧
          stripped.length = i.op.format.arity ∧
          WrittenAs i.op.format stripped i.operands) ∧
      ∀ text, readStatement settings line body = .error (.unrecognizedLine text) ↔
        text = String.ofList line ∧
          ∃ head operands, tokens = head :: operands ∧
            ¬IsDirective head ∧ ¬MnemonicShape head := by
  refine ⟨Text.fields isSeparator body, hasTokens_iff_fields.mpr rfl,
    fun others => hasTokens_iff_fields.mp, readStatement_eq_none_iff, ?_⟩
  cases hbody : Text.fields isSeparator body with
  | nil => simp [readStatement, hbody]
  | cons head operands =>
    refine ⟨?_, ?_, ?_⟩
    · intro w
      rw [readStatement_eq_word_iff line hbody]
      constructor
      · rintro ⟨hword, token, rfl, hvalue⟩
        exact ⟨head, token, rfl, hword, hvalue⟩
      · rintro ⟨_, token, heq, hword, hvalue⟩
        obtain ⟨rfl, rfl⟩ := List.cons.inj heq
        exact ⟨hword, token, rfl, hvalue⟩
    · intro i
      rw [readStatement_eq_instruction_iff line hbody]
      constructor
      · rintro ⟨hname, hwritten⟩
        exact ⟨head, operands, _, rfl, hname, prefixTaken_iff.mpr rfl, hwritten.length_eq, hwritten⟩
      · rintro ⟨_, _, stripped, heq, hname, htaken, -, hwritten⟩
        obtain ⟨rfl, rfl⟩ := List.cons.inj heq
        rw [← prefixTaken_iff.mp htaken]
        exact ⟨hname, hwritten⟩
    · intro text
      rw [readStatement_eq_unrecognized_iff line hbody]
      constructor
      · rintro ⟨hnot, rfl⟩
        exact ⟨rfl, head, operands, rfl, hnot⟩
      · rintro ⟨rfl, _, _, heq, hnot⟩
        obtain ⟨rfl, rfl⟩ := List.cons.inj heq
        exact ⟨hnot, rfl⟩

/-- The prefix is taken off once, and then a plus sign and zeros are part of the number. -/
example : readStatement {} [] "Store r1,\t0x1F6+042".toList =
    .ok (some (.instruction ⟨.store, .registerImmediate .r1 42⟩)) := rfl

end Source

end Hue

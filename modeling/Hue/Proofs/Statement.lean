import Hue.Proofs.Line
import Hue.Proofs.Numeral
import Hue.Proofs.Result
import Hue.Source.Program

/-!
Printing a line and reading it back. An instruction that a source can hold has operands of its
opcode's format and branches to labels only. Reading gives no others, and the text of each is read
as that instruction, as long as the settings take no prefix off a printed operand.
-/
namespace Hue

/-- What a source can hold: operands of the opcode's format, and labels as targets. -/
def Instruction.Readable (i : Instruction) : Prop :=
  i.operands.format = i.op.format ∧
    ∀ target, i.operands = .branch target →
      ∃ name, target = .label name ∧ Source.isLabelName name.toList = true

/-- The prefix of the settings, if there is any, is empty or starts with the digit zero. No
printed operand but zero itself starts so. -/
def Settings.PlainPrefix (settings : Settings) : Prop :=
  ∀ start, settings.operandPrefix = some start → ∀ c, start.toList.head? = some c → c = '0'

theorem Settings.plainPrefix_default : ({} : Settings).PlainPrefix := by
  intro start h c hc
  obtain rfl := Option.some.inj h
  exact (Option.some.inj hc).symm

namespace Source

/-! ## Operands without positions -/

/-- Reading operands by the shape of the row of tokens, without positions. -/
def matchOperands (line : List Char) (op : Opcode) (tokens : List (List Char)) :
    Except Error Operands :=
  match op.format, tokens with
  | .registerImmediate, [rd, imm] => do
    let rd ← readRegister rd
    let imm ← readImmediate line imm
    return .registerImmediate rd imm
  | .immediate, [imm] => do
    let imm ← readImmediate line imm
    return .immediate imm
  | .register, [rd] => do
    let rd ← readRegister rd
    return .register rd
  | .threeRegisters, [rd, rs, rt] => do
    let rd ← readRegister rd
    let rs ← readRegister rs
    let rt ← readRegister rt
    return .threeRegisters rd rs rt
  | .bare, [] => .ok .bare
  | .branch, [target] => do
    let target ← readTarget line target
    return .branch target
  | _, _ => .error (.malformedOperands (String.ofList line) (.count op tokens.length))

/-- Once the number of tokens is right, each position has its token. -/
theorem readOperands_eq_match (line : List Char) (op : Opcode) (tokens : List (List Char)) :
    readOperands line op tokens = matchOperands line op tokens := by
  unfold readOperands matchOperands
  generalize op.format = f
  rcases tokens with _ | ⟨first, _ | ⟨second, _ | ⟨third, _ | ⟨fourth, tokens⟩⟩⟩⟩
  all_goals cases f <;> rfl

/-! ## Reading gives readable instructions -/

theorem isLabelName_of_readTarget {line token : List Char} {target : Target}
    (h : readTarget line token = .ok target) :
    ∃ name, target = .label name ∧ isLabelName name.toList = true := by
  unfold readTarget at h
  split at h
  case isTrue hname =>
    obtain rfl := Except.ok.inj h
    exact ⟨String.ofList token, rfl, by simpa using hname⟩
  case isFalse => simp at h

/-- Each format reads operands of its own kind only. -/
theorem readable_of_readOperands {line : List Char} {op : Opcode} {tokens : List (List Char)}
    {operands : Operands} (h : readOperands line op tokens = .ok operands) :
    (Instruction.mk op operands).Readable := by
  rw [readOperands_eq_match] at h
  unfold matchOperands at h
  split at h
  case h_1 hf =>
    obtain ⟨rd, -, h⟩ := bind_eq_ok.mp h
    obtain ⟨imm, -, h⟩ := bind_eq_ok.mp h
    obtain rfl := Except.ok.inj h
    exact ⟨hf.symm, by simp⟩
  case h_2 hf =>
    obtain ⟨imm, -, h⟩ := bind_eq_ok.mp h
    obtain rfl := Except.ok.inj h
    exact ⟨hf.symm, by simp⟩
  case h_3 hf =>
    obtain ⟨rd, -, h⟩ := bind_eq_ok.mp h
    obtain rfl := Except.ok.inj h
    exact ⟨hf.symm, by simp⟩
  case h_4 hf =>
    obtain ⟨rd, -, h⟩ := bind_eq_ok.mp h
    obtain ⟨rs, -, h⟩ := bind_eq_ok.mp h
    obtain ⟨rt, -, h⟩ := bind_eq_ok.mp h
    obtain rfl := Except.ok.inj h
    exact ⟨hf.symm, by simp⟩
  case h_5 hf =>
    obtain rfl := Except.ok.inj h
    exact ⟨hf.symm, by simp⟩
  case h_6 hf =>
    obtain ⟨target, htarget, h⟩ := bind_eq_ok.mp h
    obtain rfl := Except.ok.inj h
    refine ⟨hf.symm, ?_⟩
    rintro _ ⟨rfl⟩
    exact isLabelName_of_readTarget htarget
  case h_7 => simp at h

theorem readable_of_readInstruction {line mnemonic : List Char} {tokens : List (List Char)}
    {i : Instruction} (h : readInstruction line mnemonic tokens = .ok i) : i.Readable := by
  unfold readInstruction at h
  split at h
  case isFalse => simp at h
  case isTrue =>
    split at h
    case h_2 => simp at h
    case h_1 op _ =>
      obtain ⟨operands, hread, rfl⟩ := map_eq_ok.mp h
      exact readable_of_readOperands hread

theorem readable_of_readStatement {settings : Settings} {line body : List Char} {i : Instruction}
    (h : readStatement settings line body = .ok (some (.instruction i))) : i.Readable := by
  unfold readStatement at h
  split at h
  case h_1 => simp at h
  case h_2 head tokens _ =>
    split at h
    case isTrue =>
      obtain ⟨w, -, hw⟩ := map_eq_ok.mp h
      simp at hw
    case isFalse =>
      obtain ⟨j, hj, hij⟩ := map_eq_ok.mp h
      obtain rfl : j = i := by simpa using hij
      exact readable_of_readInstruction hj

theorem readLine_of_splitLabel (settings : Settings) {line body : List Char}
    {label : Option String} (h : splitLabel (stripComment line) = .ok (label, body)) :
    readLine settings line = ⟨label, readStatement settings (stripComment line) body⟩ := by
  simp [readLine, h]

theorem readLine_of_splitLabel_error (settings : Settings) {line : List Char} {e : Error}
    (h : splitLabel (stripComment line) = .error e) :
    readLine settings line = ⟨none, .error e⟩ := by
  simp [readLine, h]

theorem readable_of_readLine {settings : Settings} {line : List Char} {i : Instruction}
    (h : (readLine settings line).statement = .ok (some (.instruction i))) : i.Readable := by
  cases hs : splitLabel (stripComment line) with
  | error e =>
    rw [readLine_of_splitLabel_error settings hs] at h
    simp at h
  | ok parts =>
    rw [readLine_of_splitLabel settings hs] at h
    exact readable_of_readStatement h

/-! ## Printed operands are read back -/

theorem readRegister_name (reg : Register) : readRegister reg.name.toList = .ok reg := by
  cases reg <;> rfl

/-- A sign is no digit. -/
theorem dropSign_of_isNumeral {cs : List Char} (h : Numeral.isNumeral 10 cs = true) :
    dropSign cs = cs := by
  unfold dropSign
  split
  case h_1 => simp [Numeral.isNumeral, Numeral.isDigit, Numeral.digitValue] at h
  case h_2 => simp [Numeral.isNumeral, Numeral.isDigit, Numeral.digitValue] at h
  case h_3 => rfl

theorem readImmediate_toString (line : List Char) (imm : UInt8) :
    readImmediate line (toString imm.toNat).toList = .ok imm := by
  have hnum := Numeral.isNumeral_padded 10 0 imm.toNat (by decide) (by decide)
  have hread := Numeral.readBelow?_padded 10 256 0 imm.toNat (by decide) (by decide) imm.toNat_lt
  rw [Numeral.toList_toString, readImmediate, dropSign_of_isNumeral hnum, if_pos hnum, hread]
  simp

theorem readTarget_label (line : List Char) {name : String}
    (h : isLabelName name.toList = true) : readTarget line name.toList = .ok (.label name) := by
  simp [readTarget, h]

theorem readOperands_texts (line : List Char) {i : Instruction} (h : i.Readable) :
    readOperands line i.op (i.operands.texts.map String.toList) = .ok i.operands := by
  obtain ⟨op, operands⟩ := i
  obtain ⟨hf, hbranch⟩ := h
  rw [readOperands_eq_match]
  cases operands with
  | registerImmediate rd imm =>
    simp only [matchOperands, ← hf, Operands.format, Operands.texts, List.map_cons, List.map_nil,
      readRegister_name, readImmediate_toString]
    rfl
  | immediate imm =>
    simp only [matchOperands, ← hf, Operands.format, Operands.texts, List.map_cons, List.map_nil,
      readImmediate_toString]
    rfl
  | register rd =>
    simp only [matchOperands, ← hf, Operands.format, Operands.texts, List.map_cons, List.map_nil,
      readRegister_name]
    rfl
  | threeRegisters rd rs rt =>
    simp only [matchOperands, ← hf, Operands.format, Operands.texts, List.map_cons, List.map_nil,
      readRegister_name]
    rfl
  | bare => simp only [matchOperands, ← hf, Operands.format, Operands.texts, List.map_nil]
  | branch target =>
    obtain ⟨name, rfl, hname⟩ := hbranch target rfl
    simp only [matchOperands, ← hf, Operands.format, Operands.texts, Target.text, List.map_cons,
      List.map_nil, readTarget_label line hname]
    rfl

/-! ## Printed lines are read back -/

theorem isField_mnemonic (op : Opcode) : IsField op.mnemonic.toList := by
  refine ⟨by cases op <;> decide, ?_⟩
  rw [← List.all_eq_true]
  cases op <;> decide

theorem isField_registerName (reg : Register) : IsField reg.name.toList := by
  refine ⟨by cases reg <;> decide, ?_⟩
  rw [← List.all_eq_true]
  cases reg <;> decide

theorem isField_toString (n : Nat) : IsField (toString n).toList := by
  rw [Numeral.toList_toString]
  refine ⟨Numeral.padded_ne_nil 10 0 n, ?_⟩
  intro c hc
  exact isLabelPart_of_isDigit (by decide)
    (Numeral.isDigit_of_mem_padded 10 0 n (by decide) (by decide) c hc)

theorem isField_of_mem_texts {i : Instruction} (h : i.Readable) :
    ∀ cs ∈ i.operands.texts.map String.toList, IsField cs := by
  obtain ⟨op, operands⟩ := i
  obtain ⟨-, hbranch⟩ := h
  cases operands with
  | registerImmediate rd imm =>
    simp only [Operands.texts, List.map_cons, List.map_nil, List.forall_mem_cons]
    exact ⟨isField_registerName rd, isField_toString _, by simp⟩
  | immediate imm =>
    simp only [Operands.texts, List.map_cons, List.map_nil, List.forall_mem_cons]
    exact ⟨isField_toString _, by simp⟩
  | register rd =>
    simp only [Operands.texts, List.map_cons, List.map_nil, List.forall_mem_cons]
    exact ⟨isField_registerName rd, by simp⟩
  | threeRegisters rd rs rt =>
    simp only [Operands.texts, List.map_cons, List.map_nil, List.forall_mem_cons]
    exact ⟨isField_registerName rd, isField_registerName rs, isField_registerName rt, by simp⟩
  | bare => simp [Operands.texts]
  | branch target =>
    obtain ⟨name, rfl, hname⟩ := hbranch target rfl
    simp only [Operands.texts, Target.text, List.map_cons, List.map_nil, List.forall_mem_cons]
    exact ⟨isField_of_isLabelName hname, by simp⟩

/-- Zero is the only printed operand that starts with the digit zero. -/
theorem eq_zero_of_last_text {i : Instruction} (h : i.Readable) {last : List Char}
    (hlast : (i.operands.texts.map String.toList).getLast? = some last)
    (hzero : last.head? = some '0') : last = ['0'] := by
  have hnum (n : Nat) (hn : (toString n).toList.head? = some '0') : (toString n).toList = ['0'] := by
    rw [Numeral.toList_toString, Numeral.padded_zero] at hn ⊢
    rw [Numeral.eq_zero_of_head?_toDigits 10 n (by decide) hn, Nat.toDigits_zero]
  have hreg (reg : Register) : reg.name.toList.head? ≠ some '0' := by
    cases reg <;> decide
  obtain ⟨op, operands⟩ := i
  obtain ⟨-, hbranch⟩ := h
  cases operands with
  | registerImmediate rd imm =>
    obtain rfl : (toString imm.toNat).toList = last := by simpa [Operands.texts] using hlast
    exact hnum imm.toNat hzero
  | immediate imm =>
    obtain rfl : (toString imm.toNat).toList = last := by simpa [Operands.texts] using hlast
    exact hnum imm.toNat hzero
  | register rd =>
    obtain rfl : rd.name.toList = last := by simpa [Operands.texts] using hlast
    exact absurd hzero (hreg rd)
  | threeRegisters rd rs rt =>
    obtain rfl : rt.name.toList = last := by simpa [Operands.texts] using hlast
    exact absurd hzero (hreg rt)
  | bare => simp [Operands.texts] at hlast
  | branch target =>
    obtain ⟨name, rfl, hname⟩ := hbranch target rfl
    obtain rfl : name.toList = last := by simpa [Operands.texts, Target.text] using hlast
    cases hn : name.toList with
    | nil => simp [hn] at hzero
    | cons c cs =>
      obtain rfl : c = '0' := by simpa [hn] using hzero
      rw [hn] at hname
      exact absurd hname (by simp [isLabelName, isLabelStart])

theorem stripOperandPrefix_eq_self {settings : Settings} (hs : settings.PlainPrefix)
    {tokens : List (List Char)}
    (h : ∀ last, tokens.getLast? = some last → last.head? = some '0' → last = ['0']) :
    stripOperandPrefix settings tokens = tokens := by
  unfold stripOperandPrefix
  split
  case h_2 => rfl
  case h_1 start last hstart hlast =>
    have hkeep : (Text.dropLeading? start.toList last).getD last = last := by
      cases hcs : start.toList with
      | nil =>
        unfold Text.dropLeading?
        split <;> simp
      | cons c cs =>
        obtain rfl : c = '0' := hs start hstart c (by simp [hcs])
        have hnone : Text.dropLeading? ('0' :: cs) last = none := by
          unfold Text.dropLeading?
          split
          case isFalse => rfl
          case isTrue hpre =>
            simp only [Bool.and_eq_true, List.isPrefixOf_iff_prefix, decide_eq_true_eq] at hpre
            obtain ⟨⟨rest, rfl⟩, hlen⟩ := hpre
            have hone := h _ hlast rfl
            simp [hone] at hlen
        simp [hnone]
    obtain ⟨before, rfl⟩ := List.getLast?_eq_some_iff.mp hlast
    rw [hkeep, List.dropLast_concat]

theorem toList_text (i : Instruction) :
    i.text.toList = joinFields i.op.mnemonic.toList (i.operands.texts.map String.toList) := by
  unfold Instruction.text
  cases i.operands.texts with
  | nil => rfl
  | cons text texts =>
    rw [String.toList_append, String.toList_append, String.toList_intercalate]
    simp [joinFields]

theorem stripComment_text {i : Instruction} (h : i.Readable) :
    stripComment i.text.toList = i.text.toList := by
  rw [toList_text]
  exact stripComment_joinFields (isField_mnemonic i.op) (isField_of_mem_texts h)

theorem splitLabel_text {i : Instruction} (h : i.Readable) :
    splitLabel i.text.toList = .ok (none, i.text.toList) := by
  rw [toList_text]
  exact splitLabel_joinFields (isField_mnemonic i.op) (isField_of_mem_texts h)

/-- The text of an instruction is a body that holds this instruction. -/
theorem readStatement_text {settings : Settings} (hs : settings.PlainPrefix) (line : List Char)
    {i : Instruction} (h : i.Readable) :
    readStatement settings line i.text.toList = .ok (some (.instruction i)) := by
  have hmn : isMnemonic i.op.mnemonic.toList = true := by cases i.op <;> decide
  have hop : Opcode.ofMnemonic? i.op.mnemonic.toList = some i.op := by cases i.op <;> decide
  have hdir : isWordDirective i.op.mnemonic.toList = false := by cases i.op <;> decide
  have hread :
      readInstruction line i.op.mnemonic.toList (i.operands.texts.map String.toList) = .ok i := by
    simp only [readInstruction, hmn, ↓reduceIte, hop, readOperands_texts line h]
    rfl
  rw [toList_text]
  simp only [readStatement, fields_joinFields (isField_mnemonic i.op) (isField_of_mem_texts h),
    hdir, Bool.false_eq_true, ↓reduceIte,
    stripOperandPrefix_eq_self hs (fun _ hlast hzero => eq_zero_of_last_text h hlast hzero), hread]
  rfl

/-- The text of an instruction is a line that holds this instruction and no label. -/
theorem readLine_text {settings : Settings} (hs : settings.PlainPrefix) {i : Instruction}
    (h : i.Readable) :
    readLine settings i.text.toList = ⟨none, .ok (some (.instruction i))⟩ := by
  have hsplit : splitLabel (stripComment i.text.toList) = .ok (none, i.text.toList) := by
    rw [stripComment_text h, splitLabel_text h]
  rw [readLine_of_splitLabel settings hsplit, readStatement_text hs _ h]

theorem mem_text {i : Instruction} (h : i.Readable) {c : Char} (hc : c ∈ i.text.toList) :
    isLabelPart c = true ∨ c = ',' ∨ c = ' ' := by
  rw [toList_text] at hc
  exact mem_joinFields (isField_mnemonic i.op) (isField_of_mem_texts h) hc

theorem wordValue?_hex (w : Word) : wordValue? w.hex.toList = some w := by
  have hread := Numeral.readBelow?_padded 16 65536 4 w.toNat (by decide) (by decide) w.toNat_lt
  have hhex : w.hex.toList = '0' :: 'x' :: Numeral.padded 16 4 w.toNat := by
    simp [Word.hex, Numeral.hexadecimal]
  rw [hhex]
  simp only [wordValue?, hread, Option.map_some, UInt16.ofNat_toNat]

theorem isField_hex (w : Word) : IsField w.hex.toList := by
  have hdigits := Numeral.isDigit_of_mem_padded 16 4 w.toNat (by decide) (by decide)
  refine ⟨by simp [Word.hex, Numeral.hexadecimal], ?_⟩
  simp only [Word.hex, Numeral.hexadecimal, String.toList_append, String.toList_ofList,
    List.forall_mem_append]
  exact ⟨List.all_eq_true.mp (by decide),
    fun c hc => isLabelPart_of_isDigit (by decide) (hdigits c hc)⟩

/-- A word directive is read back whatever the prefix is. -/
theorem readLine_word (settings : Settings) (w : Word) :
    readLine settings (".word " ++ w.hex).toList = ⟨none, .ok (some (.word w))⟩ := by
  have hh : IsField ".word".toList := ⟨by decide, List.all_eq_true.mp (by decide)⟩
  have ht : ∀ cs ∈ [w.hex.toList], IsField cs := by simpa using isField_hex w
  have hline : (".word " ++ w.hex).toList = joinFields ".word".toList [w.hex.toList] := by
    simp [joinFields]
  have hstrip := stripComment_joinFields hh ht
  have hsplit := splitLabel_joinFields hh ht
  have hdir : isWordDirective ".word".toList = true := by decide
  rw [hline, readLine_of_splitLabel settings (by rw [hstrip, hsplit]), hstrip]
  simp only [readStatement, fields_joinFields hh ht, hdir, ↓reduceIte, readWordDirective,
    wordValue?_hex]
  rfl

theorem readLine_label (settings : Settings) {name : String}
    (h : isLabelName name.toList = true) :
    readLine settings (name ++ ":").toList = ⟨some name, .ok none⟩ := by
  have hline : (name ++ ":").toList = name.toList ++ [':'] := by simp
  rw [hline, readLine_of_splitLabel settings (by rw [stripComment_label h, splitLabel_label h])]
  simp [readStatement, Text.fields, Text.splitWhere]

/-- Printing and reading agree. Whatever the settings are, reading a body gives only instructions
that a source can hold. The text of each of these has no comment and no label, and it is read as
this instruction as long as the prefix of the settings, if there is any, is empty or starts with
the digit zero. -/
theorem printed_instruction_read_back (settings : Settings) :
    (∀ line body i, readStatement settings line body = .ok (some (.instruction i)) →
      i.operands.format = i.op.format ∧
        ∀ target, i.operands = .branch target →
          ∃ name, target = .label name ∧ isLabelName name.toList = true) ∧
    (settings.PlainPrefix → ∀ line i, i.operands.format = i.op.format →
      (∀ target, i.operands = .branch target →
        ∃ name, target = .label name ∧ isLabelName name.toList = true) →
      stripComment i.text.toList = i.text.toList ∧
        splitLabel i.text.toList = .ok (none, i.text.toList) ∧
        readStatement settings line i.text.toList = .ok (some (.instruction i))) := by
  refine ⟨fun line body i => readable_of_readStatement, ?_⟩
  intro hs line i hformat hbranch
  have h : i.Readable := ⟨hformat, hbranch⟩
  exact ⟨stripComment_text h, splitLabel_text h, readStatement_text hs line h⟩

/-- A printed operand that is the prefix itself keeps it, and a label may look like a mnemonic with
dots around it. -/
theorem zero_and_dotted_label_read_back :
    (⟨.fail, some "0"⟩ : Settings).PlainPrefix ∧
      readStatement ⟨.fail, some "0"⟩ [] "PURPLE A0, 0".toList =
        .ok (some (.instruction ⟨.purple, .registerImmediate .a0 0⟩)) ∧
      stripComment "JUMP .ADD.".toList = "JUMP .ADD.".toList ∧
      splitLabel "JUMP .ADD.".toList = .ok (none, "JUMP .ADD.".toList) ∧
      readStatement ⟨.fail, some "0"⟩ [] "JUMP .ADD.".toList =
        .ok (some (.instruction ⟨.jump, .branch (.label ".ADD.")⟩)) := by
  have hplain : (⟨.fail, some "0"⟩ : Settings).PlainPrefix := by
    intro start h c hc
    obtain rfl := Option.some.inj h
    exact (Option.some.inj hc).symm
  have hread := (printed_instruction_read_back ⟨.fail, some "0"⟩).2 hplain []
  refine ⟨hplain, (hread ⟨.purple, .registerImmediate .a0 0⟩ rfl (by simp)).2.2, ?_⟩
  refine hread ⟨.jump, .branch (.label ".ADD.")⟩ rfl ?_
  rintro _ ⟨rfl⟩
  exact ⟨".ADD.", rfl, by decide⟩

end Source

end Hue

import Hue.Proofs.Encoding

/-!
Which words hold an instruction, and which instructions have a word. The codes below twenty are
those of the opcodes, so a word is read unless its five high bits are twenty or more. A register
field has three bits and every code of three bits is that of a register, so looking a register up by
its code never fails.
-/
namespace Hue

/-! ## Codes -/

namespace Opcode

/-- The assigned codes are those below twenty. -/
theorem ofCode?_eq_none_iff (n : Nat) : ofCode? n = none ↔ 20 ≤ n := by
  rw [ofCode?_eq_getElem?, List.getElem?_eq_none_iff]
  rfl

end Opcode

namespace Word

/-- Every three bits are the code of a register. -/
theorem exists_register (w shift : Word) :
    ∃ reg, w.register shift = .ok reg ∧ reg.code = (w >>> shift).toNat % 8 :=
  ⟨_, register_eq w shift, Register.code_ofBits _⟩

theorem toNat_shiftRight (w : Word) : (w >>> 11).toNat = w.opcodeBits := by
  rw [UInt16.toNat_shiftRight, opcodeBits_eq]
  exact Nat.shiftRight_eq_div_pow w.toNat 11

/-- A word is not read exactly when its opcode is not assigned, and the error says just that. -/
theorem decode_eq_error_iff {w : Word} {e : Error} :
    w.decode = .error e ↔ 20 ≤ (w >>> 11).toNat ∧ e = .unknownOpcode (w >>> 11).toNat w := by
  rw [toNat_shiftRight, ← Opcode.ofCode?_eq_none_iff]
  cases hop : Opcode.ofCode? w.opcodeBits with
  | none => simp [decode, hop, eq_comm]
  | some op => simp [decode, hop, operands_eq, Except.map]

/-- Packing what a word holds clears the bits that its format does not use, and no others. -/
theorem encode_of_decode_mask {w : Word} {i : Instruction} (h : w.decode = .ok i) :
    i.encode = .ok (w &&& ~~~i.op.format.reserved) := by
  obtain ⟨op, hop, rfl⟩ := decode_eq_ok_iff.mp h
  rw [encode_of_decode h, canonical, hop]

end Word

namespace Instruction

/-! ## Instructions with a word -/

theorem encode_eq_map {i : Instruction} (hf : i.operands.format = i.op.format) :
    i.encode = i.operands.field.map fun field =>
      UInt16.ofNat i.op.code <<< Word.opcodeShift ||| field := by
  simp only [encode, hf, ↓reduceIte]

theorem encode_of_far {i : Instruction} (hf : i.operands.format = i.op.format) {address : Nat}
    (ht : i.operands = .branch (.address address)) (hfar : maxAddress < address) :
    i.encode = .error (.addressOverflow (toString address) address) := by
  rw [encode_eq_map hf, ht]
  simp only [Operands.field, hfar, ↓reduceIte]
  rfl

theorem encode_of_label {i : Instruction} (hf : i.operands.format = i.op.format) {name : String}
    (ht : i.operands = .branch (.label name)) : i.encode = .error (.undefinedLabel name) := by
  rw [encode_eq_map hf, ht]
  rfl

/-- Operands of the opcode's format have a word exactly when a target among them is an address that
fits. -/
theorem exists_encode_iff {i : Instruction} (hf : i.operands.format = i.op.format) :
    (∃ w, i.encode = .ok w) ↔
      ∀ target, i.operands = .branch target → ∃ address ≤ maxAddress, target = .address address := by
  refine ⟨?_, exists_encode hf⟩
  rintro ⟨w, hw⟩ target ht
  cases target with
  | label name => simp [encode_of_label hf ht] at hw
  | address address =>
    refine ⟨address, ?_, rfl⟩
    rw [← Nat.not_lt]
    intro hfar
    simp [encode_of_far hf ht hfar] at hw

theorem and_reserved_of_encode {i : Instruction} {w : Word} (h : i.encode = .ok w) :
    w &&& i.op.format.reserved = 0 := by
  obtain ⟨op, hop, rfl⟩ := Word.decode_eq_ok_iff.mp (decode_of_encode h)
  exact w.canonical_eq_self_iff.mp (canonical_of_encode h) op hop

end Instruction

/-- Packing and reading are inverse up to reserved bits. An instruction with operands of its
opcode's format has a word unless it branches to a label or too far; the word holds the instruction
and no reserved bit. A word is read unless its opcode is not assigned, since each of its registers is
found by its code; the instruction has operands of its opcode's format, and its word is the one that
was read without the reserved bits. -/
theorem packing_and_reading_inverse :
    (∀ i : Instruction, i.operands.format = i.op.format →
      ((∃ w, i.encode = .ok w) ↔ ∀ target, i.operands = .branch target →
        ∃ address ≤ maxAddress, target = .address address) ∧
      (∀ address, i.operands = .branch (.address address) → maxAddress < address →
        i.encode = .error (.addressOverflow (toString address) address)) ∧
      (∀ name, i.operands = .branch (.label name) → i.encode = .error (.undefinedLabel name)) ∧
      ∀ w, i.encode = .ok w → w.decode = .ok i ∧ w &&& i.op.format.reserved = 0) ∧
    ∀ w : Word,
      (∀ shift, ∃ reg, w.register shift = .ok reg ∧ reg.code = (w >>> shift).toNat % 8) ∧
      ((∃ e, w.decode = .error e) ↔ 20 ≤ (w >>> 11).toNat) ∧
      (∀ e, w.decode = .error e → e = .unknownOpcode (w >>> 11).toNat w) ∧
      ∀ i, w.decode = .ok i →
        i.operands.format = i.op.format ∧ i.encode = .ok (w &&& ~~~i.op.format.reserved) := by
  refine ⟨?_, ?_⟩
  · intro i hf
    exact ⟨Instruction.exists_encode_iff hf, fun address => Instruction.encode_of_far hf,
      fun name => Instruction.encode_of_label hf, fun w hw =>
        ⟨Instruction.decode_of_encode hw, Instruction.and_reserved_of_encode hw⟩⟩
  · intro w
    refine ⟨w.exists_register, ?_, fun e he => (Word.decode_eq_error_iff.mp he).2, fun i hi =>
      ⟨Word.format_of_decode hi, Word.encode_of_decode_mask hi⟩⟩
    simp only [Word.decode_eq_error_iff, exists_and_left, exists_eq, and_true]

/-- The highest address has a word and the next one has none, the reserved bits of a word for one
register go, and the first code that is not assigned is not read. -/
theorem packing_and_reading_at_bounds :
    (∃ w, Instruction.encode ⟨.jump, .branch (.address 2047)⟩ = .ok w ∧
      w.decode = .ok ⟨.jump, .branch (.address 2047)⟩) ∧
    Instruction.encode ⟨.jump, .branch (.address 2048)⟩ = .error (.addressOverflow "2048" 2048) ∧
    Instruction.encode ⟨.jump, .branch (.label "L")⟩ = .error (.undefinedLabel "L") ∧
    Word.decode 0x32FF = .ok ⟨.not, .register .r2⟩ ∧
    Instruction.encode ⟨.not, .register .r2⟩ = .ok 0x3200 ∧
    Word.decode 0xA7FF = .error (.unknownOpcode 20 0xA7FF) := by
  obtain ⟨hpack, hread⟩ := packing_and_reading_inverse
  obtain ⟨hfits, -, -, hback⟩ := hpack ⟨.jump, .branch (.address 2047)⟩ rfl
  obtain ⟨w, hw⟩ := hfits.mpr fun target ht =>
    ⟨2047, Nat.le_refl _, (Operands.branch.inj ht).symm⟩
  have hnot : Word.decode 0x32FF = .ok ⟨.not, .register .r2⟩ := rfl
  obtain ⟨e, he⟩ := (hread 0xA7FF).2.1.mpr (by decide)
  refine ⟨⟨w, hw, (hback w hw).1⟩, (hpack ⟨.jump, .branch (.address 2048)⟩ rfl).2.1 2048 rfl
    (by decide), (hpack ⟨.jump, .branch (.label "L")⟩ rfl).2.2.1 "L" rfl, hnot,
    ((hread 0x32FF).2.2.2 _ hnot).2, ?_⟩
  rw [he, (hread 0xA7FF).2.2.1 e he]
  rfl

end Hue

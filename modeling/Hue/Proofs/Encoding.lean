import Hue.Encoding

/-!
Packing and reading are inverse up to reserved bits. An instruction that has a word is what that
word holds, and the instruction that a word holds is packed into the word with its reserved bits
cleared. Fields do not overlap, so shifts, masks and ors are sums and remainders, and words are
compared as numbers: the opcode times 2048, plus a field below 2048.
-/
namespace Hue

/-! ## Tables in the order of their codes -/

section Table

variable {α : Type} {table : List α} {code : α → Nat}

theorem code_of_getElem? (h : table.map code = List.range table.length) {n : Nat} {a : α}
    (ha : table[n]? = some a) : code a = n := by
  obtain ⟨hn, rfl⟩ := List.getElem?_eq_some_iff.mp ha
  have hcode := congrArg (·[n]?) h
  simpa [hn] using hcode

/-- Where the position of each entry is its code, looking a code up is going to that position. -/
theorem find?_code_eq_getElem? (h : table.map code = List.range table.length) (n : Nat) :
    table.find? (code · == n) = table[n]? := by
  cases hn : table[n]? with
  | none =>
    rw [List.find?_eq_none]
    intro a ha hcode
    obtain ⟨i, hi⟩ := List.getElem?_of_mem ha
    have heq : code a = n := by simpa using hcode
    rw [code_of_getElem? h hi] at heq
    rw [heq, hn] at hi
    cases hi
  | some a =>
    obtain ⟨hlt, rfl⟩ := List.getElem?_eq_some_iff.mp hn
    rw [List.find?_eq_some_iff_getElem]
    refine ⟨by simpa using code_of_getElem? h hn, n, hlt, rfl, ?_⟩
    intro j hj
    have hcode := code_of_getElem? h (List.getElem?_eq_getElem (Nat.lt_trans hj hlt))
    simpa [hcode] using Nat.ne_of_lt hj

end Table

namespace Register

theorem map_code_all : all.map code = List.range all.length := rfl

theorem ofCode?_eq_getElem? (n : Nat) : ofCode? n = all[n]? :=
  find?_code_eq_getElem? map_code_all n

theorem code_lt (reg : Register) : reg.code < 8 := by
  cases reg <;> decide

/-- The register that the low three bits of a number select. -/
def ofBits (n : Nat) : Register := all.get ⟨n % 8, Nat.mod_lt n (by decide)⟩

/-- Every code of three bits is that of a register. -/
theorem ofCode?_mod (n : Nat) : ofCode? (n % 8) = some (ofBits n) := by
  rw [ofCode?_eq_getElem?]
  exact List.getElem?_eq_getElem (Nat.mod_lt n (by decide))

theorem code_ofBits (n : Nat) : (ofBits n).code = n % 8 := by
  have hfound := ofCode?_mod n
  rw [ofCode?_eq_getElem?] at hfound
  exact code_of_getElem? map_code_all hfound

theorem ofBits_eq (reg : Register) (n : Nat) (h : n % 8 = reg.code) : ofBits n = reg := by
  have hfound := ofCode?_mod n
  rw [h] at hfound
  have hcode : ofCode? reg.code = some reg := by cases reg <;> rfl
  exact Option.some.inj (hfound.symm.trans hcode)

end Register

namespace Opcode

theorem map_code_all : all.map code = List.range all.length := rfl

theorem ofCode?_eq_getElem? (n : Nat) : ofCode? n = all[n]? :=
  find?_code_eq_getElem? map_code_all n

theorem code_lt (op : Opcode) : op.code < 20 := by
  cases op <;> decide

theorem ofCode?_code (op : Opcode) : ofCode? op.code = some op := by
  cases op <;> rfl

theorem code_of_ofCode? {n : Nat} {op : Opcode} (h : ofCode? n = some op) : op.code = n := by
  rw [ofCode?_eq_getElem?] at h
  exact code_of_getElem? map_code_all h

/-- The only branch is the jump. -/
theorem eq_jump_of_format {op : Opcode} (h : op.format = .branch) : op = .jump := by
  cases op <;> simp [format] at h ⊢

end Opcode

/-! ## Fields as numbers -/

namespace Word

/-- The eleven low bits. -/
def operandBits (w : Word) : Nat := w.toNat % 2048

theorem operandBits_lt (w : Word) : w.operandBits < 2048 :=
  Nat.mod_lt _ (by decide)

/-- Bits that are moved above others add up with them. -/
theorem shiftLeft_or_ofNat (shift high low : Nat) (hshift : shift < 16)
    (hlow : low < 1 <<< shift) :
    UInt16.ofNat high <<< UInt16.ofNat shift ||| UInt16.ofNat low =
      UInt16.ofNat (high <<< shift + low) := by
  rw [Nat.shiftLeft_eq, Nat.one_mul] at hlow
  rw [Nat.shiftLeft_add_eq_or_of_lt hlow, UInt16.ofNat_or, UInt16.ofNat_shiftLeft _ _ hshift]

theorem opcodeBits_eq (w : Word) : w.opcodeBits = w.toNat / 2048 := by
  have hlt := w.toNat_lt
  have hshift : (w >>> opcodeShift).toNat = w.toNat / 2048 := by
    rw [UInt16.toNat_shiftRight]
    exact Nat.shiftRight_eq_div_pow w.toNat 11
  rw [opcodeBits, UInt16.toNat_toUInt8, hshift]
  omega

theorem toNat_eq (w : Word) : w.toNat = w.opcodeBits * 2048 + w.operandBits := by
  rw [opcodeBits_eq, operandBits]
  omega

/-- Three bits always select a register, so no look-up fails. -/
theorem register_eq (w shift : Word) : w.register shift = .ok (.ofBits (w >>> shift).toNat) := by
  have hmask : ((w >>> shift) &&& registerMask).toNat = (w >>> shift).toNat % 8 := by
    rw [UInt16.toNat_and]
    exact Nat.and_two_pow_sub_one_eq_mod _ 3
  have hcode : ((w >>> shift) &&& registerMask).toUInt8.toNat = (w >>> shift).toNat % 8 := by
    rw [UInt16.toNat_toUInt8, hmask]
    omega
  simp only [register, hcode, Register.ofCode?_mod]

theorem immediate_eq (w : Word) : w.immediate = UInt8.ofNat (w.toNat % 256) := by
  have hmask : (w &&& immediateMask).toNat = w.toNat % 256 := by
    rw [UInt16.toNat_and]
    exact Nat.and_two_pow_sub_one_eq_mod _ 8
  apply UInt8.toNat_inj.mp
  rw [immediate, UInt16.toNat_toUInt8, hmask, UInt8.toNat_ofNat']

theorem toNat_and_addressMask (w : Word) : (w &&& addressMask).toNat = w.operandBits := by
  rw [UInt16.toNat_and]
  exact Nat.and_two_pow_sub_one_eq_mod _ 11

end Word

namespace Operands

/-- The operand bits as a number below 2048. -/
def number : Operands → Except Error Nat
  | registerImmediate rd imm => .ok (rd.code * 256 + imm.toNat)
  | immediate imm => .ok imm.toNat
  | register rd => .ok (rd.code * 256)
  | threeRegisters rd rs rt => .ok (rd.code * 256 + rs.code * 32 + rt.code * 4)
  | bare => .ok 0
  | branch (.address a) =>
    if maxAddress < a then .error (.addressOverflow (toString a) a) else .ok a
  | branch (.label name) => .error (.undefinedLabel name)

/-- The operands of a format that a number below 2048 holds. -/
def ofNumber : Format → Nat → Operands
  | .registerImmediate, n => .registerImmediate (.ofBits (n / 256)) (UInt8.ofNat (n % 256))
  | .immediate, n => .immediate (UInt8.ofNat (n % 256))
  | .register, n => .register (.ofBits (n / 256))
  | .threeRegisters, n => .threeRegisters (.ofBits (n / 256)) (.ofBits (n / 32)) (.ofBits (n / 4))
  | .bare, _ => .bare
  | .branch, n => .branch (.address n)

theorem format_ofNumber (f : Format) (n : Nat) : (ofNumber f n).format = f := by
  cases f <;> rfl

/-- A number is read back as the operands that it was made of. -/
theorem ofNumber_number (operands : Operands) (n : Nat) (h : operands.number = .ok n) :
    n < 2048 ∧ ofNumber operands.format n = operands := by
  cases operands with
  | registerImmediate rd imm =>
    have hr := rd.code_lt
    have hi := imm.toNat_lt
    obtain rfl : rd.code * 256 + imm.toNat = n := by simpa [number] using h
    have hrd : Register.ofBits ((rd.code * 256 + imm.toNat) / 256) = rd :=
      Register.ofBits_eq rd _ (by omega)
    have himm : (rd.code * 256 + imm.toNat) % 256 = imm.toNat := by omega
    exact ⟨by omega, by simp only [format, ofNumber, hrd, himm, UInt8.ofNat_toNat]⟩
  | immediate imm =>
    have hi := imm.toNat_lt
    obtain rfl : imm.toNat = n := by simpa [number] using h
    have himm : imm.toNat % 256 = imm.toNat := by omega
    exact ⟨by omega, by simp only [format, ofNumber, himm, UInt8.ofNat_toNat]⟩
  | register rd =>
    have hr := rd.code_lt
    obtain rfl : rd.code * 256 = n := by simpa [number] using h
    have hrd : Register.ofBits (rd.code * 256 / 256) = rd := Register.ofBits_eq rd _ (by omega)
    exact ⟨by omega, by simp only [format, ofNumber, hrd]⟩
  | threeRegisters rd rs rt =>
    have hd := rd.code_lt
    have hs := rs.code_lt
    have ht := rt.code_lt
    obtain rfl : rd.code * 256 + rs.code * 32 + rt.code * 4 = n := by simpa [number] using h
    have hrd := Register.ofBits_eq rd ((rd.code * 256 + rs.code * 32 + rt.code * 4) / 256) (by omega)
    have hrs := Register.ofBits_eq rs ((rd.code * 256 + rs.code * 32 + rt.code * 4) / 32) (by omega)
    have hrt := Register.ofBits_eq rt ((rd.code * 256 + rs.code * 32 + rt.code * 4) / 4) (by omega)
    exact ⟨by omega, by simp only [format, ofNumber, hrd, hrs, hrt]⟩
  | bare =>
    obtain rfl : 0 = n := by simpa [number] using h
    exact ⟨by decide, rfl⟩
  | branch target =>
    cases target with
    | label name => simp [number] at h
    | address a =>
      by_cases ha : maxAddress < a
      · simp [number, ha] at h
      · obtain rfl : a = n := by simpa [number, ha] using h
        exact ⟨by simpa [maxAddress, Nat.lt_succ_iff] using ha, rfl⟩

/-- Each field has its own bits, so packing them adds up. -/
theorem field_eq (operands : Operands) : operands.field = operands.number.map UInt16.ofNat := by
  have hhigh (reg : Register) (n : Nat) (hn : n < 256) :
      reg.bits <<< Word.rdShift ||| UInt16.ofNat n = UInt16.ofNat (reg.code * 256 + n) := by
    rw [← Nat.shiftLeft_eq reg.code 8]
    exact Word.shiftLeft_or_ofNat 8 reg.code n (by decide) hn
  cases operands with
  | registerImmediate rd imm =>
    rw [field, number, ← UInt16.ofNat_uInt8ToNat, hhigh rd imm.toNat imm.toNat_lt]
    rfl
  | immediate imm =>
    have hfill : Register.fill <<< Word.rdShift = 0 := rfl
    rw [field, number, hfill, UInt16.zero_or, ← UInt16.ofNat_uInt8ToNat]
    rfl
  | register rd =>
    rw [field, number, ← Nat.shiftLeft_eq rd.code 8]
    exact congrArg Except.ok (UInt16.ofNat_shiftLeft rd.code 8 (by decide)).symm
  | threeRegisters rd rs rt =>
    have hs := rs.code_lt
    have ht := rt.code_lt
    have hlast : rt.bits <<< Word.rtShift = UInt16.ofNat (rt.code * 4) := by
      rw [← Nat.shiftLeft_eq rt.code 2]
      exact (UInt16.ofNat_shiftLeft rt.code 2 (by decide)).symm
    have hmiddle : rs.bits <<< Word.rsShift ||| UInt16.ofNat (rt.code * 4) =
        UInt16.ofNat (rs.code * 32 + rt.code * 4) := by
      rw [← Nat.shiftLeft_eq rs.code 5]
      exact Word.shiftLeft_or_ofNat 5 rs.code (rt.code * 4) (by decide) (by omega)
    rw [field, number, UInt16.or_assoc, hlast, hmiddle, hhigh rd _ (by omega), ← Nat.add_assoc]
    rfl
  | bare => rfl
  | branch target =>
    cases target with
    | label name => rfl
    | address a =>
      simp only [field, number]
      split <;> rfl

end Operands

/-- What remains of a field when the bits that a format does not use are cleared. -/
def Format.clear : Format → Nat → Nat
  | registerImmediate, n => n
  | immediate, n => n % 256
  | register, n => n / 256 * 256
  | threeRegisters, n => n / 4 * 4
  | bare, _ => 0
  | branch, n => n

theorem Format.clear_le (f : Format) (n : Nat) : f.clear n ≤ n := by
  cases f <;> simp only [clear] <;> omega

theorem Operands.number_ofNumber (f : Format) (n : Nat) (hn : n < 2048) :
    (ofNumber f n).number = .ok (f.clear n) := by
  have ha : ¬ maxAddress < n := by simp only [maxAddress]; omega
  have hmod : n / 256 % 8 = n / 256 := by omega
  cases f with
  | registerImmediate =>
    simp only [ofNumber, number, Register.code_ofBits, Format.clear, UInt8.toNat_ofNat', hmod]
    congr 1
    omega
  | immediate => simp [ofNumber, number, Format.clear]
  | register => simp only [ofNumber, number, Register.code_ofBits, Format.clear, hmod]
  | threeRegisters =>
    simp only [ofNumber, number, Register.code_ofBits, Format.clear]
    congr 1
    omega
  | bare => rfl
  | branch => simp [ofNumber, number, Format.clear, ha]

/-! ## Whole words -/

namespace Word

theorem opcodeBits_ofNat (code number : Nat) (hc : code < 32) (hn : number < 2048) :
    opcodeBits (UInt16.ofNat (code * 2048 + number)) = code := by
  rw [opcodeBits_eq, UInt16.toNat_ofNat']
  omega

theorem operandBits_ofNat (code number : Nat) (hn : number < 2048) :
    operandBits (UInt16.ofNat (code * 2048 + number)) = number := by
  rw [operandBits, UInt16.toNat_ofNat']
  omega

/-- The bits outside a mask are the number less the bits inside it. -/
theorem toNat_and_not (w mask : Word) :
    (w &&& ~~~mask).toNat = w.toNat - (w.toNat &&& mask.toNat) := by
  have hbits : (w &&& ~~~mask) + (w &&& mask) = w := by
    apply UInt16.toBitVec_inj.mp
    simp only [UInt16.toBitVec_add, UInt16.toBitVec_and, UInt16.toBitVec_not]
    rw [BitVec.add_eq_or_of_and_eq_zero]
    · ext i hi
      cases h : w.toBitVec[i] <;> cases h' : mask.toBitVec[i] <;> simp [h, h']
    · ext i hi
      cases h : w.toBitVec[i] <;> cases h' : mask.toBitVec[i] <;> simp [h, h']
  have hsub : w &&& ~~~mask = w - (w &&& mask) := UInt16.eq_sub_iff_add_eq.mpr hbits
  have hle : w &&& mask ≤ w := by
    rw [UInt16.le_iff_toNat_le, UInt16.toNat_and]
    exact Nat.and_le_left
  rw [hsub, UInt16.toNat_sub_of_le _ _ hle, UInt16.toNat_and]

private theorem and_middle (n : Nat) : n &&& 0x0700 = n / 256 % 8 * 256 := by
  apply Nat.eq_of_testBit_eq
  intro j
  have hl : (0x0700 : Nat).testBit j = (decide (8 ≤ j) && decide (j - 8 < 3)) := by
    rw [show (0x0700 : Nat) = (2 ^ 3 - 1) * 2 ^ 8 by rfl, Nat.testBit_mul_two_pow,
      Nat.testBit_two_pow_sub_one]
  have hr : (n / 256 % 8 * 256).testBit j =
      (decide (8 ≤ j) && (decide (j - 8 < 3) && n.testBit (j - 8 + 8))) := by
    rw [show (256 : Nat) = 2 ^ 8 by rfl, show (8 : Nat) = 2 ^ 3 by rfl, Nat.testBit_mul_two_pow,
      Nat.testBit_mod_two_pow, Nat.testBit_div_two_pow]
  rw [Nat.testBit_and, hl, hr]
  by_cases h : 8 ≤ j
  · simp [h, Bool.and_comm]
  · simp [h]

theorem and_reserved (f : Format) (n : Nat) :
    n &&& f.reserved.toNat = n % 2048 - f.clear (n % 2048) := by
  cases f with
  | registerImmediate => simp [Format.reserved, Format.clear]
  | immediate =>
    have h : n &&& 0x0700 = n / 256 % 8 * 256 := and_middle n
    simp only [Format.reserved, Format.clear, UInt16.reduceToNat, h]
    omega
  | register =>
    have h : n &&& 255 = n % 256 := Nat.and_two_pow_sub_one_eq_mod n 8
    simp only [Format.reserved, Format.clear, UInt16.reduceToNat, h]
    omega
  | threeRegisters =>
    have h : n &&& 3 = n % 4 := Nat.and_two_pow_sub_one_eq_mod n 2
    simp only [Format.reserved, Format.clear, UInt16.reduceToNat, h]
    omega
  | bare =>
    have h : n &&& 2047 = n % 2048 := Nat.and_two_pow_sub_one_eq_mod n 11
    simp only [Format.reserved, Format.clear, UInt16.reduceToNat, h]
    omega
  | branch => simp [Format.reserved, Format.clear]

/-- Clearing the reserved bits of a word clears them in its field. -/
theorem clear_reserved (w : Word) (f : Format) :
    w &&& ~~~f.reserved = UInt16.ofNat (w.opcodeBits * 2048 + f.clear w.operandBits) := by
  have hlt := w.toNat_lt
  have hle := f.clear_le w.operandBits
  have heq := w.toNat_eq
  apply UInt16.toNat_inj.mp
  rw [toNat_and_not, and_reserved, UInt16.toNat_ofNat']
  simp only [operandBits] at hle heq ⊢
  omega

end Word

theorem Instruction.encode_eq (i : Instruction) :
    i.encode =
      if i.operands.format = i.op.format then
        i.operands.number.map fun n => UInt16.ofNat (i.op.code * 2048 + n)
      else .error (.operandMismatch i.op) := by
  rw [encode, Operands.field_eq]
  split
  case isFalse => rfl
  case isTrue =>
    cases hn : i.operands.number with
    | error e => rfl
    | ok n =>
      have hlt : n < 2048 := (i.operands.ofNumber_number n hn).1
      have hpack := Word.shiftLeft_or_ofNat 11 i.op.code n (by decide) hlt
      rw [Nat.shiftLeft_eq] at hpack
      exact congrArg Except.ok hpack

/-- A word holds operands of every format. -/
theorem Word.operands_eq (w : Word) (f : Format) :
    w.operands f = .ok (.ofNumber f w.operandBits) := by
  have hselect (shift : Word) {n : Nat} (hn : (w >>> shift).toNat % 8 = n % 8) :
      w.register shift = .ok (.ofBits n) := by
    rw [register_eq, Register.ofBits_eq (.ofBits n) _ (hn.trans (Register.code_ofBits n).symm)]
  have hrd : w.register rdShift = .ok (.ofBits (w.operandBits / 256)) := by
    have hshift : (w >>> rdShift).toNat = w.toNat / 256 :=
      (UInt16.toNat_shiftRight w rdShift).trans (Nat.shiftRight_eq_div_pow w.toNat 8)
    exact hselect rdShift (by rw [hshift, operandBits]; omega)
  have hrs : w.register rsShift = .ok (.ofBits (w.operandBits / 32)) := by
    have hshift : (w >>> rsShift).toNat = w.toNat / 32 :=
      (UInt16.toNat_shiftRight w rsShift).trans (Nat.shiftRight_eq_div_pow w.toNat 5)
    exact hselect rsShift (by rw [hshift, operandBits]; omega)
  have hrt : w.register rtShift = .ok (.ofBits (w.operandBits / 4)) := by
    have hshift : (w >>> rtShift).toNat = w.toNat / 4 :=
      (UInt16.toNat_shiftRight w rtShift).trans (Nat.shiftRight_eq_div_pow w.toNat 2)
    exact hselect rtShift (by rw [hshift, operandBits]; omega)
  have himm : w.immediate = UInt8.ofNat (w.operandBits % 256) := by
    rw [immediate_eq, operandBits, Nat.mod_mod_of_dvd w.toNat (by decide)]
  cases f with
  | registerImmediate =>
    rw [operands, hrd, himm]
    rfl
  | immediate => rw [operands, himm, Operands.ofNumber]
  | register =>
    rw [operands, hrd]
    rfl
  | threeRegisters =>
    rw [operands, hrd, hrs, hrt]
    rfl
  | bare => rfl
  | branch => rw [operands, toNat_and_addressMask, Operands.ofNumber]

/-- The word of an instruction holds that instruction. -/
theorem Instruction.decode_of_encode {i : Instruction} {w : Word} (h : i.encode = .ok w) :
    w.decode = .ok i := by
  obtain ⟨op, operands⟩ := i
  rw [encode_eq] at h
  by_cases hf : operands.format = op.format
  · cases hnumber : operands.number with
    | error e => simp [hf, hnumber, Except.map] at h
    | ok n =>
      obtain ⟨hn, hback⟩ := operands.ofNumber_number n hnumber
      have hc := op.code_lt
      obtain rfl : UInt16.ofNat (op.code * 2048 + n) = w := by
        simpa [hf, hnumber, Except.map] using h
      rw [Word.decode, Word.opcodeBits_ofNat _ _ (by omega) hn, Opcode.ofCode?_code]
      simp only [Word.operands_eq, Word.operandBits_ofNat _ _ hn, ← hf, hback, Except.map]
  · simp [hf] at h

/-- A word is its own canonical form unless its opcode is assigned and a reserved bit is set. -/
theorem Word.canonical_eq_self_iff (w : Word) :
    w.canonical = w ↔
      ∀ op, Opcode.ofCode? w.opcodeBits = some op → w &&& op.format.reserved = 0 := by
  unfold canonical
  cases hop : Opcode.ofCode? w.opcodeBits with
  | none => simp
  | some op =>
    simp only [Option.some.injEq, forall_eq']
    have hle : w.toNat &&& op.format.reserved.toNat ≤ w.toNat := Nat.and_le_left
    rw [← UInt16.toNat_inj, ← UInt16.toNat_inj, toNat_and_not, UInt16.toNat_and,
      UInt16.toNat_zero]
    omega

/-- A word holds an instruction exactly when its opcode is assigned. -/
theorem Word.decode_eq_ok_iff {w : Word} {i : Instruction} :
    w.decode = .ok i ↔
      ∃ op, Opcode.ofCode? w.opcodeBits = some op ∧ i = ⟨op, .ofNumber op.format w.operandBits⟩ := by
  cases hop : Opcode.ofCode? w.opcodeBits with
  | none => simp [decode, hop]
  | some op => simp [decode, hop, operands_eq, Except.map, eq_comm]

theorem Word.canonical_of_decode_error {w : Word} {e : Error} (h : w.decode = .error e) :
    w.canonical = w := by
  cases hop : Opcode.ofCode? w.opcodeBits with
  | none => simp [canonical, hop]
  | some op => simp [decode, hop, operands_eq, Except.map] at h

/-- The instruction that a word holds is packed into that word without its reserved bits. -/
theorem Word.encode_of_decode {w : Word} {i : Instruction} (h : w.decode = .ok i) :
    i.encode = .ok w.canonical := by
  obtain ⟨op, hop, rfl⟩ := decode_eq_ok_iff.mp h
  simp only [Instruction.encode_eq, Operands.format_ofNumber, ↓reduceIte,
    Operands.number_ofNumber _ _ w.operandBits_lt, Except.map, Opcode.code_of_ofCode? hop,
    canonical, hop, clear_reserved]

theorem Word.format_of_decode {w : Word} {i : Instruction} (h : w.decode = .ok i) :
    i.operands.format = i.op.format := by
  obtain ⟨op, -, rfl⟩ := decode_eq_ok_iff.mp h
  exact Operands.format_ofNumber _ _

/-- A branch in a word goes to an address that fits, and uses every bit. -/
theorem Word.branch_of_decode {w : Word} {i : Instruction} (h : w.decode = .ok i) {target : Nat}
    (ht : i.branchTarget? = some target) :
    i.operands = .branch (.address target) ∧ target ≤ maxAddress ∧ w.canonical = w := by
  obtain ⟨op, hop, rfl⟩ := decode_eq_ok_iff.mp h
  cases hf : op.format <;> simp [Instruction.branchTarget?, Operands.ofNumber, hf] at ht
  subst ht
  refine ⟨rfl, Nat.le_of_lt_succ w.operandBits_lt, ?_⟩
  rw [canonical_eq_self_iff]
  intro other hother
  obtain rfl := Option.some.inj (hop.symm.trans hother)
  simp [hf, Format.reserved]

/-- A word that holds no branch to an address holds no branch at all. -/
theorem Word.not_branch_of_decode {w : Word} {i : Instruction} (h : w.decode = .ok i)
    (ht : i.branchTarget? = none) (target : Target) : i.operands ≠ .branch target := by
  obtain ⟨op, -, rfl⟩ := decode_eq_ok_iff.mp h
  cases hf : op.format <;> simp [Instruction.branchTarget?, Operands.ofNumber, hf] at ht ⊢

/-- A word that an instruction is packed into has no reserved bit set. -/
theorem Instruction.canonical_of_encode {i : Instruction} {w : Word} (h : i.encode = .ok w) :
    w.canonical = w := by
  have hw := Word.encode_of_decode (decode_of_encode h)
  rw [h] at hw
  exact (Except.ok.inj hw).symm

/-- Operands of the opcode's format have a word unless they are a target that is no address or
does not fit. -/
theorem Instruction.exists_encode {i : Instruction} (hf : i.operands.format = i.op.format)
    (hb : ∀ target, i.operands = .branch target → ∃ a ≤ maxAddress, target = .address a) :
    ∃ w, i.encode = .ok w := by
  obtain ⟨op, operands⟩ := i
  have hfield : ∃ field, operands.field = .ok field := by
    cases operands with
    | branch target =>
      obtain ⟨a, ha, rfl⟩ := hb target rfl
      exact ⟨UInt16.ofNat a, by simp [Operands.field, Nat.not_lt.mpr ha]⟩
    | registerImmediate rd imm => exact ⟨_, rfl⟩
    | immediate imm => exact ⟨_, rfl⟩
    | register rd => exact ⟨_, rfl⟩
    | threeRegisters rd rs rt => exact ⟨_, rfl⟩
    | bare => exact ⟨_, rfl⟩
  obtain ⟨field, hfield⟩ := hfield
  exact ⟨_, by simp only [encode, hf, ↓reduceIte, hfield]; rfl⟩

end Hue

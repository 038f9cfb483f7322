import Hue.Image
import Hue.Proofs.Line
import Hue.Proofs.Numeral

/-!
An image holds its words. A word comes back from its sixteen digits and from its two bytes, so
what `Image.encode` writes in either layout is what `Image.decode` reads, without a diagnostic.
-/
namespace Hue

/-- A text comes back from its bytes. -/
theorem fromUTF8?_toUTF8 (s : String) : String.fromUTF8? s.toUTF8 = some s := by
  unfold String.fromUTF8?
  rw [String.toUTF8_eq_toByteArray, dif_pos s.isValidUTF8]
  rfl

namespace Word

/-! ## One word -/

theorem length_toDigits (w : Word) : (Nat.toDigits 2 w.toNat).length ≤ 16 :=
  (Nat.length_toDigits_le_iff (by decide) (by decide)).mpr w.toNat_lt

theorem length_bits (w : Word) : w.bits.length = 16 := Numeral.length_padded w.length_toDigits

theorem isLabelPart_of_mem_bits (w : Word) : ∀ c ∈ w.bits, Source.isLabelPart c = true :=
  fun c hc => Source.isLabelPart_of_isDigit (by decide)
    (Numeral.isDigit_of_mem_padded 2 16 w.toNat (by decide) (by decide) c hc)

/-- There is no blank among the digits, so there is nothing to trim. -/
theorem trim_bits (w : Word) : Text.trim w.bits = w.bits := by
  apply Text.trim_of_ends
  · intro c hc
    exact Source.isBlank_of_isLabelPart (w.isLabelPart_of_mem_bits c (List.mem_of_head? hc))
  · intro c hc
    exact Source.isBlank_of_isLabelPart (w.isLabelPart_of_mem_bits c (List.mem_of_getLast? hc))

/-- The digits of a word are its bits, the most significant one first. -/
theorem getElem?_bits (w : Word) {i : Nat} (h : i < 16) :
    w.bits[i]? = some (if w.toBitVec.getMsbD i then '1' else '0') := by
  have hbit : w.toBitVec.getMsbD i = w.toNat.testBit (15 - i) := by
    rw [BitVec.getMsbD_eq_getLsbD, decide_eq_true h, Bool.true_and]
    rfl
  rw [bits, Numeral.getElem?_padded_two 15 w.toNat i (by omega) w.length_toDigits, hbit]

theorem eq_of_mem_bits (w : Word) : ∀ c ∈ w.bits, c = '0' ∨ c = '1' := by
  intro c hc
  obtain ⟨i, hi⟩ := List.mem_iff_getElem?.mp hc
  have hlt : i < 16 := by
    have hlen := (List.getElem?_eq_some_iff.mp hi).1
    rwa [length_bits] at hlen
  rw [getElem?_bits w hlt, Option.some.injEq] at hi
  split at hi
  · exact .inr hi.symm
  · exact .inl hi.symm

theorem getMsbD_setBit (w : Word) {position : Nat} (h : position < 16) (i : Nat) :
    (w.setBit position).toBitVec.getMsbD i =
      (w.toBitVec.getMsbD i || decide (i = position)) := by
  have hone : (UInt16.ofNat (1 <<< (15 - position))).toBitVec = BitVec.twoPow 16 (15 - position) := by
    apply BitVec.eq_of_toNat_eq
    rw [BitVec.toNat_twoPow, Nat.one_shiftLeft]
    rfl
  have hplace : (decide (15 - position < 16) && decide (i = 16 - (15 - position) - 1)) =
      decide (i = position) := by
    rw [decide_eq_true (by omega), Bool.true_and, show 16 - (15 - position) - 1 = position by omega]
  rw [setBit, UInt16.toBitVec_or, BitVec.getMsbD_or, hone, BitVec.getMsbD_twoPow, hplace]

theorem ofBytes_bytes (w : Word) :
    ofBytes (UInt8.ofNat (w.toNat / 256)) (UInt8.ofNat (w.toNat % 256)) = w := by
  have hw : w.toNat < 65536 := w.toNat_lt
  have hhigh : (UInt8.ofNat (w.toNat / 256)).toNat = w.toNat / 256 :=
    UInt8.toNat_ofNat_of_lt' (by show _ < 256; omega)
  have hlow : (UInt8.ofNat (w.toNat % 256)).toNat = w.toNat % 256 :=
    UInt8.toNat_ofNat_of_lt' (by show _ < 256; omega)
  have hsum : w.toNat / 256 * 256 + w.toNat % 256 = w.toNat := by omega
  rw [ofBytes, hhigh, hlow, hsum, UInt16.ofNat_toNat]

end Word

/-! ## Reading one word -/

/-- There is a one at a place, where the first digit is at `position`. -/
def oneAt (position : Nat) (cs : List Char) (i : Nat) : Bool :=
  decide (position ≤ i) && cs[i - position]? == some '1'

theorem oneAt_cons (position : Nat) (c : Char) (cs : List Char) (i : Nat) :
    oneAt position (c :: cs) i = (decide (i = position) && c == '1' || oneAt (position + 1) cs i) := by
  rcases Nat.lt_trichotomy i position with h | rfl | h
  · simp [oneAt, Nat.not_le.mpr h, Nat.ne_of_lt h, show ¬position + 1 ≤ i by omega]
  · simp [oneAt, show ¬i + 1 ≤ i by omega]
  · obtain ⟨k, rfl⟩ : ∃ k, i = position + 1 + k := ⟨i - (position + 1), by omega⟩
    have hshift : position + 1 + k - position = k + 1 := by omega
    simp [oneAt, hshift, show position ≤ position + 1 + k by omega,
      show ¬position + 1 + k = position by omega]

section SetBits

variable (text : List Char) (w : Word) (position : Nat) {cs : List Char}

/-- Digits that fit in a word set its bits, each the one at its own place. -/
theorem exists_setBits (hfit : position + cs.length ≤ 16)
    (hdigits : ∀ c ∈ cs, c = '0' ∨ c = '1') :
    ∃ v, setBits text w position cs = .ok v ∧
      ∀ i, v.toBitVec.getMsbD i = (w.toBitVec.getMsbD i || oneAt position cs i) := by
  induction cs generalizing w position with
  | nil =>
    refine ⟨w, rfl, fun i => ?_⟩
    simp [oneAt]
  | cons c cs ih =>
    rw [List.length_cons] at hfit
    have hrest : ∀ d ∈ cs, d = '0' ∨ d = '1' := fun d hd => hdigits d (List.mem_cons_of_mem c hd)
    rcases hdigits c List.mem_cons_self with rfl | rfl
    · obtain ⟨v, hset, hbits⟩ := ih w (position + 1) (by omega) hrest
      refine ⟨v, ?_, fun i => ?_⟩
      · rw [setBits, if_pos rfl, hset]
      · rw [hbits, oneAt_cons]
        simp
    · obtain ⟨v, hset, hbits⟩ := ih (w.setBit position) (position + 1) (by omega) hrest
      refine ⟨v, ?_, fun i => ?_⟩
      · rw [setBits, if_neg (by decide), if_pos rfl, if_pos (by omega), hset]
      · rw [hbits, Word.getMsbD_setBit w (by omega), oneAt_cons, Bool.or_assoc]
        simp

/-- Another character among them is found before any bit past the end is set. -/
theorem setBits_of_not_digits (hfit : position + cs.length ≤ 16)
    (hother : ¬∀ c ∈ cs, c = '0' ∨ c = '1') :
    setBits text w position cs = .error (.malformedWord (String.ofList text)) := by
  induction cs generalizing w position with
  | nil => exact absurd (by simp) hother
  | cons c cs ih =>
    rw [List.length_cons] at hfit
    rw [List.forall_mem_cons] at hother
    rw [setBits]
    split
    case isTrue h => exact ih w (position + 1) (by omega) fun hall => hother ⟨.inl h, hall⟩
    case isFalse hzero =>
      split
      case isTrue h =>
        rw [if_pos (by omega)]
        exact ih (w.setBit position) (position + 1) (by omega) fun hall => hother ⟨.inr h, hall⟩
      case isFalse hone => rfl

end SetBits

/-- More digits than there are bits would be a defect. -/
example : setBits [] 0 16 ['1'] = .error (.bitPastEnd 16) := rfl

/-- Sixteen digits are those of a word that has a bit for each one among them. -/
theorem eq_bits_of_oneAt {cs : List Char} {w : Word} (hlength : cs.length = 16)
    (hdigits : ∀ c ∈ cs, c = '0' ∨ c = '1')
    (h : ∀ i, w.toBitVec.getMsbD i = oneAt 0 cs i) : cs = w.bits := by
  apply List.ext_getElem?
  intro i
  rcases Nat.lt_or_ge i 16 with hi | hi
  · have hget := List.getElem?_eq_getElem (hlength ▸ hi)
    rw [w.getElem?_bits hi, h, oneAt, Nat.sub_zero, hget]
    rcases hdigits _ (List.getElem_mem (hlength ▸ hi)) with hc | hc
    · simp [hc]
    · simp [hc]
  · rw [List.getElem?_eq_none (hlength ▸ hi), List.getElem?_eq_none (w.length_bits ▸ hi)]

theorem byteSize_of_digits {cs : List Char} (h : ∀ c ∈ cs, c = '0' ∨ c = '1') :
    Text.byteSize cs = cs.length := by
  apply Text.byteSize_eq_length
  intro c hc
  rcases h c hc with rfl | rfl <;> rfl

/-- A line is read as the word whose digits it holds, or found malformed, whatever its characters.
Sixteen bytes are at most sixteen characters, so no bit is set past the end of the word. -/
theorem readBits_cases (line : List Char) :
    (∃ w, readBits line = .ok w ∧ Text.trim line = w.bits) ∨
      readBits line = .error (.malformedWord (String.ofList (Text.trim line))) := by
  simp only [readBits]
  split
  case isFalse => exact .inr rfl
  case isTrue hsize =>
    have hle := Text.length_le_byteSize (Text.trim line)
    have hfit : 0 + (Text.trim line).length ≤ 16 := by omega
    by_cases hdigits : ∀ c ∈ Text.trim line, c = '0' ∨ c = '1'
    case neg => exact .inr (setBits_of_not_digits _ 0 0 hfit hdigits)
    case pos =>
      obtain ⟨w, hset, hbits⟩ := exists_setBits (Text.trim line) 0 0 hfit hdigits
      have hlength : (Text.trim line).length = 16 := by rw [← byteSize_of_digits hdigits, hsize]
      exact .inl ⟨w, hset, eq_bits_of_oneAt hlength hdigits fun i => by simp [hbits]⟩

theorem readBits_of_trim {line : List Char} {w : Word} (h : Text.trim line = w.bits) :
    readBits line = .ok w := by
  have hsize : Text.byteSize w.bits = 16 := by
    rw [byteSize_of_digits w.eq_of_mem_bits, w.length_bits]
  have hfit : 0 + w.bits.length ≤ 16 := by simp [w.length_bits]
  obtain ⟨v, hset, hbits⟩ := exists_setBits w.bits 0 0 hfit w.eq_of_mem_bits
  have heq : v.toBitVec = w.toBitVec := by
    apply BitVec.eq_of_getMsbD_eq
    intro i hi
    rw [hbits, oneAt, Nat.sub_zero, w.getElem?_bits hi]
    cases hbit : w.toBitVec.getMsbD i <;> simp
  simp only [readBits, h, hsize, ↓reduceIte, hset]
  rw [UInt16.toBitVec_inj.mp heq]

theorem readBits_eq_ok_iff {line : List Char} {w : Word} :
    readBits line = .ok w ↔ Text.trim line = w.bits := by
  refine ⟨fun h => ?_, readBits_of_trim⟩
  rcases readBits_cases line with ⟨v, hok, htrim⟩ | herror
  · rw [hok] at h
    rw [htrim, Except.ok.inj h]
  · rw [herror] at h
    cases h

theorem readBits_of_ne {line : List Char} (h : ∀ w : Word, Text.trim line ≠ w.bits) :
    readBits line = .error (.malformedWord (String.ofList (Text.trim line))) := by
  rcases readBits_cases line with ⟨w, -, htrim⟩ | herror
  · exact absurd htrim (h w)
  · exact herror

/-! ## Rows of words -/

theorem collectWords_bytesOfWords (done words : List Word) :
    collectWords done (bytesOfWords words) = (done.reverse ++ words, none) := by
  induction words generalizing done with
  | nil => simp [bytesOfWords, collectWords]
  | cons w words ih =>
    have hstep : collectWords done (bytesOfWords (w :: words)) =
        collectWords (w :: done) (bytesOfWords words) := by
      rw [bytesOfWords, List.flatMap_cons, Word.bytes, List.cons_append, List.cons_append,
        List.nil_append, collectWords, Word.ofBytes_bytes, bytesOfWords]
    rw [hstep, ih, List.reverse_cons, List.append_assoc, List.singleton_append]

theorem wordsOfBytes_bytesOfWords (words : List Word) :
    wordsOfBytes (bytesOfWords words) = (words, none) :=
  collectWords_bytesOfWords [] words

namespace Image

theorem lines_toText (words : List Word) : Text.lines (toText words) = words.map Word.bits := by
  have htext : toText words = (words.map Word.bits).flatMap (· ++ ['\n']) := by
    rw [toText, List.flatMap_map]
  rw [htext]
  apply Text.lines_flatMap
  intro line hline
  obtain ⟨w, -, rfl⟩ := List.mem_map.mp hline
  constructor
  · intro hmem
    exact (Source.not_lineEnd_of_isLabelPart (w.isLabelPart_of_mem_bits _ hmem)).1 rfl
  · intro hlast
    have hmem := List.mem_of_getLast? hlast
    exact (Source.not_lineEnd_of_isLabelPart (w.isLabelPart_of_mem_bits _ hmem)).2 rfl

/-- The image that lines give, the first of them with the given number. -/
def ofLines (number : Nat) (lines : List (List Char)) : Image :=
  let numbered := (lines.zipIdx number).filter fun p => !(Text.trim p.1).isEmpty
  { words := numbered.filterMap fun p => (readBits p.1).toOption
    diagnostics := numbered.filterMap fun p =>
      match readBits p.1 with
      | .ok _ => none
      | .error e => some (.error (.line p.2) e) }

theorem ofText_eq_ofLines (cs : List Char) : ofText cs = ofLines 1 (Text.lines cs) := rfl

theorem ofLines_of_word (number : Nat) {line : List Char} {w : Word} (lines : List (List Char))
    (h : Text.trim line = w.bits) :
    ofLines number (line :: lines) =
      ⟨w :: (ofLines (number + 1) lines).words, (ofLines (number + 1) lines).diagnostics⟩ := by
  have hne : (Text.trim line).isEmpty = false := by
    rw [h, List.isEmpty_eq_false_iff]
    exact Numeral.padded_ne_nil 2 16 w.toNat
  simp [ofLines, List.zipIdx_cons, hne, readBits_of_trim h, Except.toOption]

theorem ofLines_bits (number : Nat) (words : List Word) :
    ofLines number (words.map Word.bits) = ⟨words, []⟩ := by
  induction words generalizing number with
  | nil => rfl
  | cons w words ih => rw [List.map_cons, ofLines_of_word number _ w.trim_bits, ih]

theorem ofText_toText (words : List Word) : ofText (toText words) = ⟨words, []⟩ := by
  rw [ofText_eq_ofLines, lines_toText, ofLines_bits]

/-- Both layouts give the words back. -/
theorem decode_encode (layout : Layout) (words : List Word) :
    decode layout (encode layout words) = .ok ⟨words, []⟩ := by
  cases layout with
  | text =>
    rw [decode, encode, fromUTF8?_toUTF8]
    simp only [String.toList_ofList, ofText_toText]
  | binary =>
    rw [decode, encode]
    simp only [wordsOfBytes_bytesOfWords]

end Image

end Hue

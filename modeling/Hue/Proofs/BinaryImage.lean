import Hue.Proofs.Directory
import Hue.Proofs.Outcome

/-!
Images as bytes. Every row of bytes is the row of some words with at most one byte after it, so
the words and the rows of even length correspond to each other. A file with bytes of an odd number
is the only one that cannot be read as such an image, and a file that was written in either layout
is read back.
-/
namespace Hue

/-! ## Bytes and words -/

theorem Word.bytes_ofBytes (high low : UInt8) : (ofBytes high low).bytes = [high, low] := by
  have hhigh : high.toNat < 256 := high.toNat_lt
  have hlow : low.toNat < 256 := low.toNat_lt
  have hword : (ofBytes high low).toNat = high.toNat * 256 + low.toNat :=
    UInt16.toNat_ofNat_of_lt' (by show _ < 65536; omega)
  have hdiv : (high.toNat * 256 + low.toNat) / 256 = high.toNat := by omega
  have hmod : (high.toNat * 256 + low.toNat) % 256 = low.toNat := by omega
  rw [bytes, hword, hdiv, hmod, UInt8.ofNat_toNat, UInt8.ofNat_toNat]

theorem bytesOfWords_append (first second : List Word) :
    bytesOfWords (first ++ second) = bytesOfWords first ++ bytesOfWords second := by
  rw [bytesOfWords, bytesOfWords, bytesOfWords, List.flatMap_append]

theorem length_bytesOfWords (words : List Word) : (bytesOfWords words).length = 2 * words.length := by
  induction words with
  | nil => rfl
  | cons w words ih =>
    have hcons : bytesOfWords (w :: words) = w.bytes ++ bytesOfWords words := rfl
    have hword : w.bytes.length = 2 := rfl
    rw [hcons, List.length_append, ih, hword, List.length_cons]
    omega

/-- Nothing is lost: the words that were collected and the byte that is left make up the bytes. -/
theorem bytesOfWords_collectWords (done : List Word) (bytes : List UInt8) :
    bytesOfWords (collectWords done bytes).1 ++ (collectWords done bytes).2.toList =
      bytesOfWords done.reverse ++ bytes := by
  fun_induction collectWords done bytes with
  | case1 done => rfl
  | case2 done byte => rfl
  | case3 done high low rest ih =>
    have hword : bytesOfWords [Word.ofBytes high low] = [high, low] :=
      (List.append_nil _).trans (Word.bytes_ofBytes high low)
    rw [ih, List.reverse_cons, bytesOfWords_append, hword, List.append_assoc]
    rfl

theorem isSome_collectWords (done : List Word) (bytes : List UInt8) :
    (collectWords done bytes).2.isSome = true ↔ bytes.length % 2 = 1 := by
  fun_induction collectWords done bytes with
  | case1 done => simp
  | case2 done byte => simp
  | case3 done high low rest ih =>
    rw [ih, List.length_cons, List.length_cons]
    omega

theorem bytesOfWords_wordsOfBytes (bytes : List UInt8) :
    bytesOfWords (wordsOfBytes bytes).1 ++ (wordsOfBytes bytes).2.toList = bytes :=
  bytesOfWords_collectWords [] bytes

theorem isSome_wordsOfBytes (bytes : List UInt8) :
    (wordsOfBytes bytes).2.isSome = true ↔ bytes.length % 2 = 1 :=
  isSome_collectWords [] bytes

theorem bytesOfWords_inj {first second : List Word}
    (h : bytesOfWords first = bytesOfWords second) : first = second := by
  have hread := congrArg wordsOfBytes h
  rw [wordsOfBytes_bytesOfWords, wordsOfBytes_bytesOfWords] at hread
  exact (Prod.mk.inj hread).1

/-- The rows of even length are exactly those that words have, and no two rows of words have the
same. -/
theorem even_iff_existsUnique (bytes : List UInt8) :
    bytes.length % 2 = 0 ↔ ∃ words, bytesOfWords words = bytes ∧
      ∀ others, bytesOfWords others = bytes → others = words := by
  constructor
  · intro heven
    have hnone : (wordsOfBytes bytes).2 = none := by
      cases hrest : (wordsOfBytes bytes).2 with
      | none => rfl
      | some byte =>
        have hodd := (isSome_wordsOfBytes bytes).mp (by rw [hrest]; rfl)
        omega
    have hbytes := bytesOfWords_wordsOfBytes bytes
    rw [hnone, Option.toList_none, List.append_nil] at hbytes
    exact ⟨_, hbytes, fun others hothers => bytesOfWords_inj (hothers.trans hbytes.symm)⟩
  · rintro ⟨words, rfl, -⟩
    rw [length_bytesOfWords]
    omega

/-! ## Files -/

namespace Image

theorem encode_binary_eq_iff {words : List Word} {content : ByteArray} :
    encode .binary words = content ↔ bytesOfWords words = content.data.toList := by
  constructor
  · rintro rfl
    rfl
  · intro h
    rw [encode, h]

theorem decode_binary_eq_ok_iff {content : ByteArray} {image : Image} :
    decode .binary content = .ok image ↔
      image.diagnostics = [] ∧ encode .binary image.words = content := by
  obtain ⟨words, diagnostics⟩ := image
  rw [encode_binary_eq_iff]
  constructor
  · intro h
    have hbytes := bytesOfWords_wordsOfBytes content.data.toList
    rw [decode] at h
    split at h
    case h_1 found hfound =>
      cases h
      rw [hfound, Option.toList_none, List.append_nil] at hbytes
      exact ⟨rfl, hbytes⟩
    case h_2 => cases h
  · rintro ⟨rfl, hbytes⟩
    rw [decode, ← hbytes, wordsOfBytes_bytesOfWords]

theorem decode_binary_eq_error_iff {content : ByteArray} {fault : Fault} :
    decode .binary content = .error fault ↔ fault = .oddBytes ∧ content.size % 2 = 1 := by
  have hodd := isSome_wordsOfBytes content.data.toList
  have hsize : content.data.toList.length = content.size := Array.length_toList
  rw [hsize] at hodd
  rw [decode, ← hodd]
  split
  case h_1 hfound => simp [hfound]
  case h_2 hfound => simp [hfound, eq_comm]

end Image

namespace Tool

open Files FileLaws

namespace Files

variable {σ : Type} [FileAccess (StateM σ)]

/-- What is read as an image from a file, and the files after that. -/
def load (s : σ) (layout : Layout) (path : String) : Except Failure Image × σ :=
  (readImage layout path : ExceptT Failure (StateM σ) Image).run.run s

/-- Writes an image to a file. -/
def save (s : σ) (layout : Layout) (path : String) (words : List Word) : Except Failure Unit × σ :=
  (writeBytes (.writing path) path (Image.encode layout words) :
    ExceptT Failure (StateM σ) Unit).run.run s

end Files

section

variable {σ File : Type} [FileAccess (StateM σ)] [laws : FileLaws σ File]

include laws

/-- A file that can be read is no image in bytes exactly when their number is odd, and otherwise it
is the image that is written as these bytes. -/
theorem exists_load_binary {s : σ} {path : String} {content : ByteArray}
    (h : read s path = .ok content) :
    ∃ result, load s .binary path = (result, s) ∧
      (∀ failure, result = .error failure ↔ failure = .oddBytes path ∧ content.size % 2 = 1) ∧
      ∀ image, result = .ok image ↔
        image.diagnostics = [] ∧ Image.encode .binary image.words = content := by
  refine ⟨_, run_readImage_eq h, fun failure => ⟨?_, ?_⟩, fun image => ?_⟩
  · intro herror
    cases hdecode : Image.decode .binary content with
    | ok image =>
      rw [hdecode] at herror
      cases herror
    | error fault =>
      obtain ⟨rfl, hodd⟩ := Image.decode_binary_eq_error_iff.mp hdecode
      rw [hdecode] at herror
      exact ⟨(Except.error.inj herror).symm, hodd⟩
  · rintro ⟨rfl, hodd⟩
    rw [Image.decode_binary_eq_error_iff.mpr ⟨rfl, hodd⟩]
    rfl
  · rw [← Image.decode_binary_eq_ok_iff]
    cases Image.decode .binary content <;> simp [Except.mapError]

theorem load_of_encode {s : σ} {layout : Layout} {path : String} {words : List Word}
    (h : read s path = .ok (Image.encode layout words)) :
    load s layout path = (.ok ⟨words, []⟩, s) :=
  run_readImage h (Image.decode_encode layout words)

end

/-- A file that was written holds the image. -/
theorem exists_save {σ File : Type} [FileAccess (StateM σ)] [FileLaws σ File] {s : σ}
    {path : String} {file : File} (h : LeadsTo s path file) (hpath : Writable s path)
    (layout : Layout) (words : List Word) :
    ∃ after, save s layout path words = (.ok (), after) ∧
      read after path = .ok (Image.encode layout words) := by
  obtain ⟨after, hwrite⟩ := (writable_iff (Image.encode layout words)).mp hpath
  refine ⟨after, run_writeBytes hwrite _, ?_⟩
  exact read_eq_ok_iff.mpr
    ⟨file, (leadsTo_of_write hwrite path file).mpr h, content?_of_write hwrite h⟩

/-- Words and rows of bytes of even length correspond, the byte after a row of odd length is kept
apart, and so a readable file is an image in bytes exactly when their number is even. An image in
either layout is read as the words it was written from. -/
theorem bytes_and_words_correspond (σ : Type) {File : Type} [FileAccess (StateM σ)]
    [FileLaws σ File] :
    (∀ bytes : List UInt8,
      bytesOfWords (wordsOfBytes bytes).1 ++ (wordsOfBytes bytes).2.toList = bytes ∧
        ((wordsOfBytes bytes).2.isSome = true ↔ bytes.length % 2 = 1)) ∧
    (∀ words : List Word, wordsOfBytes (bytesOfWords words) = (words, none)) ∧
    (∀ bytes : List UInt8, bytes.length % 2 = 0 ↔ ∃ words, bytesOfWords words = bytes ∧
      ∀ others, bytesOfWords others = bytes → others = words) ∧
    (∀ (s : σ) path content, read s path = .ok content →
      ∃ result, load s .binary path = (result, s) ∧
        (∀ failure, result = .error failure ↔
          failure = .oddBytes path ∧ content.size % 2 = 1) ∧
        ∀ image, result = .ok image ↔
          image.diagnostics = [] ∧ Image.encode .binary image.words = content) ∧
    ∀ (s : σ) path layout words,
      (read s path = .ok (Image.encode layout words) →
        load s layout path = (.ok ⟨words, []⟩, s)) ∧
      ∀ file, LeadsTo s path file → Writable s path →
        ∃ after, save s layout path words = (.ok (), after) ∧
          load after layout path = (.ok ⟨words, []⟩, after) := by
  refine ⟨?_, wordsOfBytes_bytesOfWords, even_iff_existsUnique, ?_, ?_⟩
  · exact fun bytes => ⟨bytesOfWords_wordsOfBytes bytes, isSome_wordsOfBytes bytes⟩
  · exact fun s path content hread => exists_load_binary hread
  · intro s path layout words
    refine ⟨load_of_encode, fun file hfile hpath => ?_⟩
    obtain ⟨after, hsave, hread⟩ := exists_save hfile hpath layout words
    exact ⟨after, hsave, load_of_encode hread⟩

/-- In a directory, three bytes are no words, and a word that is written as digits is read back. -/
theorem odd_bytes_and_digits_correspond :
    load (⟨[("a.bin", ⟨#[0x39, 0x05, 0x01]⟩)]⟩ : Directory) .binary "a.bin" =
      (.error (.oddBytes "a.bin"), ⟨[("a.bin", ⟨#[0x39, 0x05, 0x01]⟩)]⟩) ∧
    ∃ after, save (⟨[]⟩ : Directory) .text "a.txt" [0x3905] = (.ok (), after) ∧
      load after .text "a.txt" = (.ok ⟨[0x3905], []⟩, after) := by
  obtain ⟨-, -, -, hbinary, hlayouts⟩ := bytes_and_words_correspond Directory
  constructor
  · have hread : read (⟨[("a.bin", ⟨#[0x39, 0x05, 0x01]⟩)]⟩ : Directory) "a.bin" =
        .ok ⟨#[0x39, 0x05, 0x01]⟩ :=
      Directory.files_read_of_leadsTo ⟨rfl, rfl, by decide⟩ rfl
    obtain ⟨result, hload, herror, -⟩ := hbinary _ _ _ hread
    rw [hload, (herror (.oddBytes "a.bin")).mpr ⟨rfl, rfl⟩]
  · have hleads : (⟨[]⟩ : Directory).LeadsTo "a.txt" .here "a.txt" := ⟨rfl, rfl, by decide⟩
    exact (hlayouts ⟨[]⟩ "a.txt" .text [0x3905]).2 "a.txt" hleads ⟨.here, "a.txt", hleads⟩

end Tool

end Hue

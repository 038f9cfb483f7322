import Hue.Proofs.Files
import Hue.Tool.Directory

/-!
Where paths lead and what is found there. Whether a path names a file that can be written does
not depend on the files there are. What was written there is read back, and every other file is
as it was before. So a directory is a store of files by their names.
-/
namespace Hue.Tool.Directory

/-! ## Files by name -/

theorem get?_put_self (dir : Directory) (name : String) (content : ByteArray) :
    (dir.put name content).get? name = some content := by
  simp [get?, put]

theorem lookup_filter_ne {files : List (String × ByteArray)} {name other : String}
    (h : other ≠ name) : (files.filter (·.1 != name)).lookup other = files.lookup other := by
  induction files with
  | nil => rfl
  | cons file files ih =>
    obtain ⟨key, content⟩ := file
    by_cases hkey : key = name
    · have hskip : (other == key) = false := by simpa [hkey] using h
      rw [List.filter_cons_of_neg (by simp [hkey]), ih, List.lookup_cons, hskip]
    · rw [List.filter_cons_of_pos (by simpa using hkey), List.lookup_cons, List.lookup_cons, ih]

theorem get?_put_of_ne (dir : Directory) {name other : String} (content : ByteArray)
    (h : other ≠ name) : (dir.put name content).get? other = dir.get? other := by
  have hne : (other == name) = false := by simpa using h
  rw [get?, put, List.lookup_cons, hne]
  exact lookup_filter_ne h

/-! ## Paths -/

/-- The files in the way of a path decide only how it fails. -/
theorem follow_congr {dir : Directory} {folder : Folder} {names : List String} {place : Place}
    (h : dir.follow folder names = .ok place) (other : Directory) :
    other.follow folder names = .ok place := by
  fun_induction dir.follow folder names with
  | case1 => exact h
  | case2 folder names ih =>
    rw [follow, if_pos rfl]
    exact ih h
  | case3 folder names hdot ih =>
    rw [follow, if_neg hdot, if_pos rfl]
    exact ih h
  | case4 folder name names hdot hdots hlast =>
    rw [follow, if_neg hdot, if_neg hdots, if_pos hlast]
    exact h
  | case5 => cases h

theorem place_congr {dir : Directory} {path : String} {place : Place}
    (h : dir.place path = .ok place) (other : Directory) : other.place path = .ok place := by
  unfold Directory.place at h ⊢
  split
  · rw [if_pos ‹_›] at h
    cases h
  · rw [if_neg ‹_›] at h
    exact follow_congr h other

/-- A path to a file that can be written: it leads to an entry, has no slash after it, and the
name of the entry is not too long. -/
structure LeadsTo (dir : Directory) (path : String) (folder : Folder) (name : String) : Prop where
  place : dir.place path = .ok (.entry folder name)
  noSlash : endsWithSlash path = false
  fits : name.utf8ByteSize ≤ nameLimit

namespace LeadsTo

variable {dir : Directory} {path : String} {folder : Folder} {name : String}

theorem congr (h : dir.LeadsTo path folder name) (other : Directory) :
    other.LeadsTo path folder name :=
  ⟨place_congr h.place other, h.noSlash, h.fits⟩

/-- A path leads to one entry only. -/
theorem unique {folder' : Folder} {name' : String} (h : dir.LeadsTo path folder name)
    (h' : dir.LeadsTo path folder' name') : folder = folder' ∧ name = name' := by
  have heq := h.place.symm.trans h'.place
  simpa using heq

end LeadsTo

/-- A file can be written at the path. -/
def Writable (dir : Directory) (path : String) : Prop :=
  ∃ folder name, dir.LeadsTo path folder name

theorem Writable.congr {dir : Directory} {path : String} (h : dir.Writable path)
    (other : Directory) : other.Writable path := by
  obtain ⟨folder, name, h⟩ := h
  exact ⟨folder, name, h.congr other⟩

/-! ## Reading and writing -/

theorem read_eq_ok_iff {dir : Directory} {path : String} {content : ByteArray} :
    dir.read path = .ok content ↔
      ∃ name, dir.LeadsTo path .here name ∧ dir.get? name = some content := by
  constructor
  · intro h
    unfold read at h
    split at h
    case h_1 => cases h
    case h_2 => cases h
    case h_3 folder name hplace =>
      split at h
      case isTrue => cases h
      case isFalse hslash =>
        unfold readEntry at h
        split at h
        case isTrue => cases h
        case isFalse hfits =>
          split at h
          case h_1 found hget =>
            cases h
            exact ⟨name, ⟨hplace, by simpa using hslash, Nat.not_lt.mp hfits⟩, hget⟩
          case h_2 => cases h
  · rintro ⟨name, h, hget⟩
    have hfits : ¬ nameLimit < name.utf8ByteSize := Nat.not_lt.mpr h.fits
    simp only [read, h.place, h.noSlash, Bool.false_eq_true, ↓reduceIte, readEntry, hfits, hget]

/-- The directory after a file is put at an entry. -/
def store (dir : Directory) (folder : Folder) (name : String) (content : ByteArray) : Directory :=
  match folder with
  | .here => dir.put name content
  | .outside => dir

theorem write_eq_ok_iff {dir after : Directory} {path : String} {content : ByteArray} :
    dir.write path content = .ok after ↔
      ∃ folder name, dir.LeadsTo path folder name ∧ after = dir.store folder name content := by
  constructor
  · intro h
    unfold write at h
    split at h
    case h_1 => cases h
    case h_2 => cases h
    case h_3 folder name hplace =>
      split at h
      case isTrue => cases h
      case isFalse hslash =>
        unfold writeEntry at h
        split at h
        case isTrue => cases h
        case isFalse hfits =>
          refine ⟨folder, name, ⟨hplace, by simpa using hslash, Nat.not_lt.mp hfits⟩, ?_⟩
          cases folder <;> exact (Except.ok.inj h).symm
  · rintro ⟨folder, name, h, rfl⟩
    have hfits : ¬ nameLimit < name.utf8ByteSize := Nat.not_lt.mpr h.fits
    simp only [write, h.place, h.noSlash, Bool.false_eq_true, ↓reduceIte, writeEntry, hfits]
    cases folder <;> rfl

/-- Writing works at exactly these paths, whatever is written. -/
theorem writable_iff {dir : Directory} {path : String} (content : ByteArray) :
    dir.Writable path ↔ ∃ after, dir.write path content = .ok after := by
  constructor
  · rintro ⟨folder, name, h⟩
    exact ⟨_, write_eq_ok_iff.mpr ⟨folder, name, h, rfl⟩⟩
  · rintro ⟨after, hwrite⟩
    obtain ⟨folder, name, h, -⟩ := write_eq_ok_iff.mp hwrite
    exact ⟨folder, name, h⟩

/-- The file that was written has the content. -/
theorem get?_of_write {dir after : Directory} {path name : String} {content : ByteArray}
    (h : dir.write path content = .ok after) (hpath : dir.LeadsTo path .here name) :
    after.get? name = some content := by
  obtain ⟨folder, name', hleads, rfl⟩ := write_eq_ok_iff.mp h
  obtain ⟨rfl, rfl⟩ := hleads.unique hpath
  exact get?_put_self dir name' content

/-- Every other file is as it was. -/
theorem get?_of_write_of_not {dir after : Directory} {path name : String} {content : ByteArray}
    (h : dir.write path content = .ok after) (hpath : ¬ dir.LeadsTo path .here name) :
    after.get? name = dir.get? name := by
  obtain ⟨folder, name', hleads, rfl⟩ := write_eq_ok_iff.mp h
  cases folder with
  | outside => rfl
  | here =>
    apply get?_put_of_ne
    rintro rfl
    exact hpath hleads

/-! ## The laws of a store -/

theorem files_read_of_leadsTo {dir : Directory} {path name : String} {content : ByteArray}
    (h : dir.LeadsTo path .here name) (hget : dir.get? name = some content) :
    Files.read dir path = .ok content :=
  read_eq_ok_iff.mpr ⟨name, h, hget⟩

theorem files_write_eq_iff {dir after : Directory} {path : String} {content : ByteArray} :
    Files.write dir path content = (.ok (), after) ↔ dir.write path content = .ok after := by
  simp only [Files.write, FileAccess.write, StateT.run_bind, StateT.run_get, pure_bind]
  rcases hwrite : dir.write path content with e | next
  · exact ⟨fun h => (by cases h), fun h => (by cases h)⟩
  · exact ⟨fun h => (by cases h; rfl), fun h => (by cases h; rfl)⟩

/-- A file is known by its name. Only paths within the directory lead to files of it, and a path
that leads out of it can be written too. -/
instance : FileLaws Directory String where
  content? := get?
  LeadsTo dir path name := dir.LeadsTo path .here name
  Writable := Writable
  read_keeps _ _ := rfl
  read_eq_ok_iff := read_eq_ok_iff
  writable_iff content := by
    simp only [files_write_eq_iff]
    exact writable_iff content
  content?_of_write h := get?_of_write (files_write_eq_iff.mp h)
  content?_of_write_of_not h := get?_of_write_of_not (files_write_eq_iff.mp h)
  leadsTo_of_write {dir after _ _} _ _ _ := ⟨fun h => h.congr dir, fun h => h.congr after⟩
  writable_of_write {_ after _ _ _} _ h := h.congr after

end Hue.Tool.Directory

import Hue.Proofs.Files
import Hue.Proofs.Image

/-!
The steps of a tool, run on a store of files. A step that reads leaves the files as they are and
gives a value or fails; a step that writes gives the files with the new one among them.
-/
namespace Hue.Tool

open Files

theorem run_bind_eq {σ α β : Type} {x : StateM σ α} {f : α → StateM σ β} {s after : σ} {a : α}
    (h : x.run s = (a, after)) : (x >>= f).run s = (f a).run after := by
  rw [StateT.run_bind, h]
  rfl

section

variable {σ α β : Type} {x : ExceptT Failure (StateM σ) α}
  {f : α → ExceptT Failure (StateM σ) β} {s after : σ}

theorem run_bind_ok {a : α} (h : x.run.run s = (.ok a, after)) :
    (x >>= f).run.run s = (f a).run.run after := by
  rw [ExceptT.run_bind]
  exact run_bind_eq h

theorem run_bind_error {failure : Failure} (h : x.run.run s = (.error failure, after)) :
    (x >>= f).run.run s = (.error failure, after) := by
  rw [ExceptT.run_bind]
  exact run_bind_eq h

/-- The computation leaves the files alone. It gives the value, or fails if there is none. -/
def Reads (x : ExceptT Failure (StateM σ) α) (s : σ) (value : Option α) : Prop :=
  ∃ result, x.run.run s = (result, s) ∧ result.toOption = value

namespace Reads

theorem run_some {a : α} (h : Reads x s (some a)) : x.run.run s = (.ok a, s) := by
  obtain ⟨result, hrun, hvalue⟩ := h
  cases result with
  | error failure => cases hvalue
  | ok b =>
    cases hvalue
    exact hrun

theorem run_none (h : Reads x s none) : ∃ failure, x.run.run s = (.error failure, s) := by
  obtain ⟨result, hrun, hvalue⟩ := h
  cases result with
  | error failure => exact ⟨failure, hrun⟩
  | ok b => cases hvalue

theorem pure (a : α) (s : σ) : Reads (Pure.pure a : ExceptT Failure (StateM σ) α) s (some a) :=
  ⟨.ok a, rfl, rfl⟩

theorem throw (failure : Failure) (s : σ) :
    Reads (MonadExcept.throw failure : ExceptT Failure (StateM σ) α) s none :=
  ⟨.error failure, rfl, rfl⟩

theorem bind {value : Option α} {next : α → Option β} (h : Reads x s value)
    (hf : ∀ a, Reads (f a) s (next a)) : Reads (x >>= f) s (value.bind next) := by
  cases value with
  | none =>
    obtain ⟨failure, hrun⟩ := h.run_none
    exact ⟨.error failure, run_bind_error hrun, rfl⟩
  | some a =>
    obtain ⟨result, hrun, hvalue⟩ := hf a
    exact ⟨result, (run_bind_ok h.run_some).trans hrun, hvalue⟩

end Reads

end

theorem text?_of_read {σ : Type} [FileAccess (StateM σ)] {s : σ} {path text : String}
    (h : read s path = .ok text.toUTF8) : text? s path = some text.toList := by
  simp only [text?, h, Except.toOption, Option.bind_some, fromUTF8?_toUTF8, Option.map_some]

/-- How a failure to decode a file is reported. -/
def Failure.ofFault (path : String) : Image.Fault → Failure
  | .notUtf8 => .reading path .notUtf8
  | .oddBytes => .oddBytes path

section

variable {σ File : Type} [FileAccess (StateM σ)] [laws : FileLaws σ File]

include laws

theorem reads_readBytes (path : String) (s : σ) :
    Reads (readBytes path) s (read s path).toOption := by
  have hread : ((liftM (FileAccess.read path : StateM σ (Except FileError ByteArray)) :
      ExceptT Failure (StateM σ) _)).run.run s = (.ok (read s path), s) := by
    rw [ExceptT.run_liftM, StateT.run_map]
    exact congrArg (fun after => (Except.ok (read s path), after)) (FileLaws.read_keeps s path)
  unfold Reads readBytes
  rw [run_bind_ok hread]
  cases read s path with
  | error e => exact Reads.throw _ s
  | ok content => exact Reads.pure content s

theorem reads_readText (path : String) (s : σ) : Reads (readText path) s (text? s path) := by
  apply Reads.bind (reads_readBytes path s)
  intro content
  cases String.fromUTF8? content with
  | none => exact Reads.throw _ s
  | some text => exact Reads.pure text.toList s

/-- A file that can be read is decoded, and the files stay as they are. -/
theorem run_readImage_eq {layout : Layout} {path : String} {s : σ} {content : ByteArray}
    (h : read s path = .ok content) :
    (readImage layout path : ExceptT Failure (StateM σ) Image).run.run s =
      ((Image.decode layout content).mapError (Failure.ofFault path), s) := by
  have hbytes := reads_readBytes path s
  rw [h] at hbytes
  rw [readImage, run_bind_ok hbytes.run_some]
  cases Image.decode layout content with
  | ok image => rfl
  | error fault => cases fault <;> rfl

/-- A file that holds an image is read as that image. -/
theorem run_readImage {layout : Layout} {path : String} {s : σ} {content : ByteArray}
    {image : Image} (hread : read s path = .ok content)
    (hdecode : Image.decode layout content = .ok image) :
    (readImage layout path : ExceptT Failure (StateM σ) Image).run.run s = (.ok image, s) := by
  rw [run_readImage_eq hread, hdecode]
  rfl

end

theorem run_writeBytes {σ : Type} [FileAccess (StateM σ)] {path : String} {s after : σ}
    {content : ByteArray} (h : write s path content = (.ok (), after))
    (failure : FileError → Failure) :
    (writeBytes failure path content : ExceptT Failure (StateM σ) Unit).run.run s =
      (.ok (), after) := by
  have hwrite : ((liftM (FileAccess.write path content : StateM σ (Except FileError Unit)) :
      ExceptT Failure (StateM σ) _)).run.run s = (.ok (.ok ()), after) := by
    rw [ExceptT.run_liftM, StateT.run_map]
    exact congrArg (fun p => (Except.ok p.1, p.2)) h
  rw [writeBytes, run_bind_ok hwrite]
  rfl

/-! ## Command lines -/

section

variable {Options : Type} {command : Command} {options? : Arguments → Option Options}

/-- The command line can be read and asks for a run with the options. -/
def Command.Asks (command : Command) (options? : Arguments → Option Options) (args : List String)
    (options : Options) : Prop :=
  ∃ arguments, command.read args = .ok arguments ∧ options? arguments = some options

theorem Command.run_of_asks {m : Type → Type} [Monad m] {args : List String} {options : Options}
    (h : command.Asks options? args options) (usageText : String) (runWith : Options → m Outcome) :
    command.run usageText options? runWith args = runWith options := by
  obtain ⟨arguments, hargs, hoptions⟩ := h
  simp only [run, hargs, hoptions]

end

end Hue.Tool

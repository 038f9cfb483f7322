import Hue.Proofs.Resolution

/-!
A line with a diagnostic has no effect beyond its label. Striking such lines out of the source,
with only their labels left, gives an assembly with the same words and symbols and nothing to
report.
-/
namespace Hue.Source

/-! ## Lines as pieces between line feeds -/

theorem readLine_append_return (settings : Settings) (line : List Char) :
    readLine settings (line ++ ['\r']) = readLine settings line := by
  simp only [readLine, stripComment_append_blank line (show Text.isBlank '\r' = true by decide)]

theorem readLine_dropReturn (settings : Settings) (line : List Char) :
    readLine settings (Text.dropReturn line) = readLine settings line := by
  unfold Text.dropReturn
  split
  case isTrue h =>
    obtain ⟨start, rfl⟩ := List.getLast?_eq_some_iff.mp h
    rw [List.dropLast_concat, readLine_append_return]
  case isFalse => rfl

theorem readLine_nil (settings : Settings) : readLine settings [] = ⟨none, .ok none⟩ := rfl

/-- The readings of pieces, the first of which has the number `number`. -/
def pieceReadings (settings : Settings) (number : Nat) (pieces : List (List Char)) :
    List (Nat × Reading) :=
  (pieces.zipIdx number).map fun (piece, n) => (n, readLine settings piece)

/-- Only an empty piece at the end is no line. -/
theorem pieceReadings_splitWhere (settings : Settings) (source : List Char) :
    ∃ rest, pieceReadings settings 1 (Text.splitWhere (· == '\n') source) =
        readings settings source ++ rest ∧ ∀ r ∈ rest, r.2 = ⟨none, .ok none⟩ := by
  rw [readings, Text.lines]
  generalize Text.splitWhere (· == '\n') source = pieces
  have hinit (number : Nat) (init : List (List Char)) :
      ((init.map Text.dropReturn).zipIdx number).map
          (fun (line, n) => (n, readLine settings line)) = pieceReadings settings number init := by
    rw [pieceReadings, List.zipIdx_map, List.map_map]
    exact List.map_congr_left fun p _ => by simp [readLine_dropReturn]
  rcases List.eq_nil_or_concat pieces with rfl | ⟨init, last, rfl⟩
  · exact ⟨[], rfl, by simp⟩
  · rw [List.concat_eq_append]
    simp only [List.dropLast_concat, List.getLast?_concat, Option.toList_some, List.zipIdx_append,
      List.map_append, hinit, List.length_map]
    simp only [pieceReadings, List.zipIdx_append, List.map_append]
    cases last with
    | nil => exact ⟨[(1 + init.length, ⟨none, .ok none⟩)], by simp [readLine_nil], by simp⟩
    | cons c cs => exact ⟨[], by simp, by simp⟩

/-! ## Striking lines -/

/-- What is left of a line that is struck: its label, if it has one. -/
def remnant (line : List Char) : List Char :=
  match splitLabel (stripComment line) with
  | .ok (some name, _) => name.toList ++ [':']
  | _ => []

/-- The carriage return at the end of a piece. -/
def returnOf (piece : List Char) : List Char :=
  if piece.getLast? = some '\r' then ['\r'] else []

/-- Pieces with the lines in `struck` replaced by what is left of them. A carriage return before a
line feed belongs to the line end and stays. -/
def strikePieces (struck : Nat → Bool) (number : Nat) : List (List Char) → List (List Char)
  | [] => []
  | [last] => [if struck number then remnant last else last]
  | piece :: next :: pieces =>
    (if struck number then remnant piece ++ returnOf piece else piece) ::
      strikePieces struck (number + 1) (next :: pieces)

/-- The source with the lines in `struck` replaced by what is left of them. -/
def strike (struck : Nat → Bool) (source : List Char) : List Char :=
  ['\n'].intercalate (strikePieces struck 1 (Text.splitWhere (· == '\n') source))

theorem isLabelName_of_splitLabel {line body : List Char} {name : String}
    (h : splitLabel line = .ok (some name, body)) : isLabelName name.toList = true := by
  simp only [splitLabel] at h
  split at h
  case isTrue =>
    split at h
    case isTrue hname =>
      split at h
      case h_1 rest hrest =>
        obtain ⟨hn, -⟩ := Prod.mk.inj (Except.ok.inj h)
        rw [← Option.some.inj hn, String.toList_ofList]
        exact hname
      case h_2 => simp at h
    case isFalse => simp at h
  case isFalse => simp at h

/-- What is left of a line is read as its label and nothing else. -/
theorem readLine_remnant (settings : Settings) (line : List Char) :
    readLine settings (remnant line) = (readLine settings line).strike := by
  cases hs : splitLabel (stripComment line) with
  | error e =>
    rw [readLine_of_splitLabel_error settings hs]
    simp [remnant, hs, readLine_nil, Reading.strike]
  | ok parts =>
    obtain ⟨label, body⟩ := parts
    rw [readLine_of_splitLabel settings hs]
    cases label with
    | none => simp [remnant, hs, readLine_nil, Reading.strike]
    | some name =>
      have hread := readLine_label settings (isLabelName_of_splitLabel hs)
      simp only [String.toList_append] at hread
      simp only [remnant, hs, Reading.strike]
      exact hread

theorem readLine_remnant_return (settings : Settings) (piece : List Char) :
    readLine settings (remnant piece ++ returnOf piece) = (readLine settings piece).strike := by
  rw [returnOf]
  split
  case isTrue => rw [readLine_append_return, readLine_remnant]
  case isFalse => rw [List.append_nil, readLine_remnant]

theorem pieceReadings_strikePieces (settings : Settings) (struck : Nat → Bool) (number : Nat)
    (pieces : List (List Char)) :
    pieceReadings settings number (strikePieces struck number pieces) =
      (pieceReadings settings number pieces).map fun (n, reading) =>
        (n, if struck n then reading.strike else reading) := by
  fun_induction strikePieces struck number pieces with
  | case1 number => rfl
  | case2 number last =>
    cases hn : struck number <;> simp [pieceReadings, hn, readLine_remnant]
  | case3 number piece next pieces ih =>
    simp only [pieceReadings, List.zipIdx_cons, List.map_cons] at ih ⊢
    rw [ih]
    cases hn : struck number <;> simp [readLine_remnant_return]

theorem newline_not_mem_remnant (line : List Char) : '\n' ∉ remnant line := by
  unfold remnant
  split
  case h_1 name body hs =>
    have hparts := (isField_of_isLabelName (isLabelName_of_splitLabel hs)).2
    intro hmem
    rcases List.mem_append.mp hmem with h | h
    · exact absurd (hparts _ h) (by decide)
    · exact absurd (List.mem_singleton.mp h) (by decide)
  case h_2 => simp

theorem newline_not_mem_strikePieces {struck : Nat → Bool} {number : Nat}
    {pieces : List (List Char)} (h : ∀ piece ∈ pieces, '\n' ∉ piece) :
    ∀ piece ∈ strikePieces struck number pieces, '\n' ∉ piece := by
  have hreturn (piece : List Char) : '\n' ∉ remnant piece ++ returnOf piece := by
    rw [List.mem_append, not_or]
    refine ⟨newline_not_mem_remnant piece, ?_⟩
    unfold returnOf
    split <;> simp
  fun_induction strikePieces struck number pieces with
  | case1 number => simp
  | case2 number last =>
    have hlast := h last (by simp)
    cases hn : struck number <;> simp [hlast, newline_not_mem_remnant]
  | case3 number piece next pieces ih =>
    rw [List.forall_mem_cons] at h ⊢
    refine ⟨?_, ih h.2⟩
    cases hn : struck number
    · exact h.1
    · exact hreturn piece

/-- A struck source is cut into struck pieces. -/
theorem splitWhere_strike (struck : Nat → Bool) (source : List Char) :
    Text.splitWhere (· == '\n') (strike struck source) =
      strikePieces struck 1 (Text.splitWhere (· == '\n') source) := by
  have hne : Text.splitWhere (· == '\n') source ≠ [] := by
    rw [Text.splitWhere_eq_splitOnP]
    exact List.splitOnP_ne_nil _ _
  apply Text.splitWhere_intercalate
  · cases hs : Text.splitWhere (· == '\n') source with
    | nil => exact absurd hs hne
    | cons piece pieces => cases pieces <;> simp [strikePieces]
  · apply newline_not_mem_strikePieces
    intro piece hpiece hmem
    simpa using Text.not_of_mem_splitWhere hpiece _ hmem

/-- A program can be read off the pieces between line feeds. -/
theorem readProgram_eq_ok_iff_pieces {settings : Settings} {source : List Char}
    {program : Program} :
    readProgram settings source = .ok program ↔
      (∀ r ∈ pieceReadings settings 1 (Text.splitWhere (· == '\n') source),
        r.2.fatal? settings.unrecognized = none) ∧
        program =
          { items := (pieceReadings settings 1 (Text.splitWhere (· == '\n') source)).flatMap
              fun r => r.2.items r.1
            diagnostics := (pieceReadings settings 1 (Text.splitWhere (· == '\n') source)).filterMap
              fun r => r.2.diagnostic? r.1 } := by
  obtain ⟨rest, hpieces, hempty⟩ := pieceReadings_splitWhere settings source
  have hfatal : ∀ r ∈ rest, r.2.fatal? settings.unrecognized = none := by
    intro r hr
    rw [hempty r hr]
    rfl
  have hitems : (rest.flatMap fun r => r.2.items r.1) = [] := by
    rw [List.flatMap_eq_nil_iff]
    intro r hr
    rw [hempty r hr]
    rfl
  have hdiagnostics : (rest.filterMap fun r => r.2.diagnostic? r.1) = [] := by
    rw [List.filterMap_eq_nil_iff]
    intro r hr
    rw [hempty r hr]
    rfl
  rw [readProgram_eq_ok_iff, hpieces, List.forall_mem_append, List.flatMap_append,
    List.filterMap_append, hitems, hdiagnostics, List.append_nil, List.append_nil]
  exact ⟨fun h => ⟨⟨h.1, hfatal⟩, h.2⟩, fun h => ⟨h.1.1, h.2⟩⟩

theorem fatal?_struck {policy : Policy} {reading : Reading} (h : reading.fatal? policy = none)
    (struck : Bool) : (if struck then reading.strike else reading).fatal? policy = none := by
  cases struck with
  | false => exact h
  | true => exact Reading.fatal?_of_ok policy rfl

/-- A line that is struck for its own diagnostic reports nothing any more. -/
theorem diagnostic?_struck {ds : List Diagnostic} {n : Nat} {reading : Reading}
    (h : ∀ d, reading.diagnostic? n = some d → d ∈ ds) :
    (if reportsLine ds n then reading.strike else reading).diagnostic? n = none := by
  cases hn : reportsLine ds n with
  | true => exact (Reading.diagnostic?_eq_none_iff n reading.strike).mpr ⟨none, rfl⟩
  | false =>
    cases hd : reading.diagnostic? n with
    | none => exact hd
    | some d =>
      have hreport : reportsLine ds n = true :=
        reportsLine_iff.mpr ⟨d, h d hd, Reading.location_of_diagnostic? hd⟩
      simp [hn] at hreport

/-- Striking every line that has a diagnostic, and maybe more lines, takes out their statements
and leaves nothing to report. -/
theorem readProgram_strike {settings : Settings} {source : List Char} {program : Program}
    (hread : readProgram settings source = .ok program) {ds : List Diagnostic}
    (hds : ∀ d ∈ program.diagnostics, d ∈ ds) :
    readProgram settings (strike (reportsLine ds) source) = .ok ⟨without ds program.items, []⟩ := by
  obtain ⟨hfatal, rfl⟩ := readProgram_eq_ok_iff_pieces.mp hread
  rw [readProgram_eq_ok_iff_pieces, splitWhere_strike, pieceReadings_strikePieces]
  generalize pieceReadings settings 1 (Text.splitWhere (· == '\n') source) = rs at hfatal hds ⊢
  refine ⟨?_, ?_⟩
  · intro r hr
    obtain ⟨⟨n, reading⟩, hmem, rfl⟩ := List.mem_map.mp hr
    exact fatal?_struck (hfatal _ hmem) (reportsLine ds n)
  · have hquiet : (rs.map fun (n, reading) =>
        (n, if reportsLine ds n then reading.strike else reading)).filterMap
          (fun r => r.2.diagnostic? r.1) = [] := by
      rw [List.filterMap_eq_nil_iff]
      intro r hr
      obtain ⟨⟨n, reading⟩, hmem, rfl⟩ := List.mem_map.mp hr
      exact diagnostic?_struck fun d hd => hds d (List.mem_filterMap.mpr ⟨_, hmem, hd⟩)
    rw [hquiet, without, List.filter_flatMap, List.flatMap_map]
    congr 2
    funext r
    exact Reading.without_items ds r.1 r.2

end Hue.Source

namespace Hue.Assembly

open Source

/-- Lines with a diagnostic can be struck: words and symbols stay and nothing is reported. -/
theorem rejected_lines_have_no_effect {settings : Settings} {source : List Char} {a : Assembly}
    (h : assemble settings source = .ok a) :
    assemble settings (strike (reportsLine a.diagnostics) source) =
      .ok { a with diagnostics := [] } := by
  obtain ⟨program, hread, hds, hbuild, hresolved, hwords⟩ := assemble_spec h
  rw [assemble_of_resolved (readProgram_strike hread hds) hbuild hresolved, ← hwords]

theorem jumpsAround_struck :
    strike (reportsLine jumpsAssembled.diagnostics) jumpsAround =
        "JUMP end\nL:\nPINK\nJUMP L\nend:\n".toList ∧
      assemble {} "JUMP end\nL:\nPINK\nJUMP L\nend:\n".toList =
        .ok { jumpsAssembled with diagnostics := [] } := by
  have hstruck : strike (reportsLine jumpsAssembled.diagnostics) jumpsAround =
      "JUMP end\nL:\nPINK\nJUMP L\nend:\n".toList := by decide
  have h := rejected_lines_have_no_effect assemble_jumpsAround
  rw [hstruck] at h
  exact ⟨hstruck, h⟩

end Hue.Assembly

import Hue.Proofs.Program

/-!
What can be wrong with a line on its own. Reading a line fails only with one of five kinds of
fault, none of which is a defect or speaks of another line. So reading a whole source ends early
only at an unrecognized line, and only when the settings do not allow one.
-/
namespace Hue

/-- The faults that an operand, or the number of operands, can have. -/
def Error.isOperandFault : Error → Bool
  | unknownRegister _ => true
  | immediateOverflow _ => true
  | malformedOperands _ _ => true
  | _ => false

/-- The faults that a line can have whatever the other lines are. -/
def Error.isLineFault : Error → Bool
  | unknownInstruction _ => true
  | unknownRegister _ => true
  | immediateOverflow _ => true
  | malformedOperands _ _ => true
  | unrecognizedLine _ => true
  | _ => false

theorem Error.isLineFault_of_isOperandFault {e : Error} (h : e.isOperandFault = true) :
    e.isLineFault = true := by
  cases e <;> first | rfl | cases h

theorem Error.isDefect_of_isLineFault {e : Error} (h : e.isLineFault = true) :
    e.isDefect = false := by
  cases hd : e.isDefect with
  | false => rfl
  | true => cases e <;> simp [isDefect, isLineFault] at hd h

namespace Source

/-! ## Faults of operands -/

theorem isOperandFault_of_readImmediate {line token : List Char} {e : Error}
    (h : readImmediate line token = .error e) : e.isOperandFault = true := by
  unfold readImmediate at h
  split at h
  case isTrue =>
    split at h
    case h_1 => simp at h
    case h_2 =>
      obtain rfl := Except.error.inj h
      rfl
  case isFalse =>
    obtain rfl := Except.error.inj h
    rfl

theorem isOperandFault_of_readRegister {token : List Char} {e : Error}
    (h : readRegister token = .error e) : e.isOperandFault = true := by
  unfold readRegister at h
  split at h
  case h_1 => simp at h
  case h_2 =>
    obtain rfl := Except.error.inj h
    rfl

theorem isOperandFault_of_readTarget {line token : List Char} {e : Error}
    (h : readTarget line token = .error e) : e.isOperandFault = true := by
  unfold readTarget at h
  split at h
  case isTrue => simp at h
  case isFalse =>
    obtain rfl := Except.error.inj h
    rfl

/-- The operands are read from left to right, and the first fault is the one reported. -/
theorem isOperandFault_of_readOperands {line : List Char} {op : Opcode} {tokens : List (List Char)}
    {e : Error} (h : readOperands line op tokens = .error e) : e.isOperandFault = true := by
  rw [readOperands_eq_match] at h
  unfold matchOperands at h
  split at h
  case h_1 =>
    rcases bind_eq_error.mp h with h | ⟨rd, -, h⟩
    · exact isOperandFault_of_readRegister h
    rcases bind_eq_error.mp h with h | ⟨imm, -, h⟩
    · exact isOperandFault_of_readImmediate h
    · cases h
  case h_2 =>
    rcases bind_eq_error.mp h with h | ⟨imm, -, h⟩
    · exact isOperandFault_of_readImmediate h
    · cases h
  case h_3 =>
    rcases bind_eq_error.mp h with h | ⟨rd, -, h⟩
    · exact isOperandFault_of_readRegister h
    · cases h
  case h_4 =>
    rcases bind_eq_error.mp h with h | ⟨rd, -, h⟩
    · exact isOperandFault_of_readRegister h
    rcases bind_eq_error.mp h with h | ⟨rs, -, h⟩
    · exact isOperandFault_of_readRegister h
    rcases bind_eq_error.mp h with h | ⟨rt, -, h⟩
    · exact isOperandFault_of_readRegister h
    · cases h
  case h_5 => cases h
  case h_6 =>
    rcases bind_eq_error.mp h with h | ⟨target, -, h⟩
    · exact isOperandFault_of_readTarget h
    · cases h
  case h_7 =>
    obtain rfl := Except.error.inj h
    rfl

theorem isOperandFault_of_readWordDirective {line : List Char} {tokens : List (List Char)}
    {e : Error} (h : readWordDirective line tokens = .error e) : e.isOperandFault = true := by
  unfold readWordDirective at h
  split at h
  case h_1 =>
    split at h
    case h_1 => simp at h
    case h_2 =>
      obtain rfl := Except.error.inj h
      rfl
  case h_2 =>
    obtain rfl := Except.error.inj h
    rfl

/-! ## Faults of bodies and lines -/

theorem isLineFault_of_readInstruction {line mnemonic : List Char} {tokens : List (List Char)}
    {e : Error} (h : readInstruction line mnemonic tokens = .error e) : e.isLineFault = true := by
  unfold readInstruction at h
  split at h
  case isTrue =>
    split at h
    case h_1 =>
      have hfault := isOperandFault_of_readOperands (map_eq_error.mp h)
      exact Error.isLineFault_of_isOperandFault hfault
    case h_2 =>
      obtain rfl := Except.error.inj h
      rfl
  case isFalse =>
    obtain rfl := Except.error.inj h
    rfl

theorem isLineFault_of_readStatement {settings : Settings} {line body : List Char} {e : Error}
    (h : readStatement settings line body = .error e) : e.isLineFault = true := by
  unfold readStatement at h
  split at h
  case h_1 => simp at h
  case h_2 =>
    split at h
    case isTrue =>
      have hfault := isOperandFault_of_readWordDirective (map_eq_error.mp h)
      exact Error.isLineFault_of_isOperandFault hfault
    case isFalse => exact isLineFault_of_readInstruction (map_eq_error.mp h)

/-- Whatever a line holds, reading it gives a statement, nothing, or a fault of its own. The line
is trimmed when its label is split off, so that never cuts a character. -/
theorem isLineFault_of_readLine {settings : Settings} {line : List Char} {e : Error}
    (h : (readLine settings line).statement = .error e) : e.isLineFault = true := by
  cases hs : splitLabel (stripComment line) with
  | error fault =>
    rw [readLine_of_splitLabel_error settings hs] at h
    obtain rfl := Except.error.inj h
    rw [eq_of_splitLabel_error (trimStart_stripComment line) hs]
    rfl
  | ok parts =>
    rw [readLine_of_splitLabel settings hs] at h
    exact isLineFault_of_readStatement h

/-! ## Faults that end the reading -/

theorem isLineFault_of_mem_readings {settings : Settings} {source : List Char}
    {r : Nat × Reading} (hr : r ∈ readings settings source) {e : Error}
    (h : r.2.statement = .error e) : e.isLineFault = true := by
  obtain ⟨p, -, rfl⟩ := List.mem_map.mp hr
  exact isLineFault_of_readLine h

theorem statement_of_diagnostic? {line : Nat} {reading : Reading} {d : Diagnostic}
    (h : reading.diagnostic? line = some d) : reading.statement = .error d.cause := by
  unfold Reading.diagnostic? at h
  split at h
  case h_1 text hs =>
    obtain rfl := Option.some.inj h
    exact hs
  case h_2 e _ hs =>
    obtain rfl := Option.some.inj h
    exact hs
  case h_3 => simp at h

theorem isLineFault_of_mem_diagnostics {settings : Settings} {source : List Char}
    {program : Program} (h : readProgram settings source = .ok program) {d : Diagnostic}
    (hd : d ∈ program.diagnostics) : d.cause.isLineFault = true := by
  obtain ⟨-, rfl⟩ := readProgram_eq_ok_iff.mp h
  obtain ⟨r, hr, hdr⟩ := List.mem_filterMap.mp hd
  exact isLineFault_of_mem_readings hr (statement_of_diagnostic? hdr)

/-- The text of a line that is not recognized. -/
def Reading.unrecognized? (reading : Reading) : Option String :=
  match reading.statement with
  | .error (.unrecognizedLine text) => some text
  | _ => none

/-- Only an unrecognized line ends the reading, and only by policy. -/
theorem fatal?_of_mem_readings {settings : Settings} {source : List Char} {r : Nat × Reading}
    (hr : r ∈ readings settings source) (policy : Policy) :
    r.2.fatal? policy =
      if policy = .fail then r.2.unrecognized?.map Error.unrecognizedLine else none := by
  unfold Reading.fatal? Reading.unrecognized?
  cases hs : r.2.statement with
  | ok s => simp
  | error e =>
    have hdefect := Error.isDefect_of_isLineFault (isLineFault_of_mem_readings hr hs)
    cases e <;> simp_all

/-- The text of the first line that is not recognized. -/
def firstUnrecognized? (settings : Settings) (source : List Char) : Option String :=
  (readings settings source).findSome? fun r => r.2.unrecognized?

theorem findSome?_fatal (settings : Settings) (source : List Char) :
    (readings settings source).findSome? (fun r => r.2.fatal? settings.unrecognized) =
      if settings.unrecognized = .fail then
        (firstUnrecognized? settings source).map Error.unrecognizedLine
      else none := by
  have hfatal (r) (hr : r ∈ readings settings source) :=
    fatal?_of_mem_readings hr settings.unrecognized
  rw [firstUnrecognized?]
  generalize readings settings source = rs at hfatal
  by_cases hfail : settings.unrecognized = .fail
  · simp only [hfail, ↓reduceIte, List.map_findSome?] at hfatal ⊢
    induction rs with
    | nil => rfl
    | cons r rs ih =>
      rw [List.findSome?_cons, List.findSome?_cons, hfatal r (by simp),
        ih fun other ho => hfatal other (by simp [ho])]
      rfl
  · simp only [hfail, ↓reduceIte] at hfatal ⊢
    exact List.findSome?_eq_none_iff.mpr hfatal

/-- A source is not read exactly when it has an unrecognized line that the settings do not allow,
and then the first such line is the error. -/
theorem readProgram_eq_error_iff {settings : Settings} {source : List Char} {e : Error} :
    readProgram settings source = .error e ↔
      settings.unrecognized = .fail ∧
        ∃ text, firstUnrecognized? settings source = some text ∧ e = .unrecognizedLine text := by
  have hfound : readProgram settings source = .error e ↔
      (readings settings source).findSome? (fun r => r.2.fatal? settings.unrecognized) = some e := by
    unfold readProgram
    dsimp only
    split
    case h_1 fatal hsome => simp [hsome]
    case h_2 hnone => simp only [hnone, reduceCtorEq]
  rw [hfound, findSome?_fatal, Option.ite_none_right_eq_some, Option.map_eq_some_iff]
  simp only [eq_comm]

end Source

end Hue

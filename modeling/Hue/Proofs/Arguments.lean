import Hue.Proofs.CommandLine
import Hue.Proofs.Result

/-!
Reading a command line. One argument leads to an option with its value, to an operand, to an option
that needs the next argument, or to the end of the options. So what is read are the options that
stand on the line, each given once: the value of an option is the one that the line gives it.
-/
namespace Hue.Tool

namespace Command

variable {command : Command} {opt : CommandOption} {value : String} {args : List String}
  {arguments after : Arguments}

/-! ## One argument -/

theorem give_eq_ok_iff {opt : CommandOption} {value : String} :
    arguments.give opt value = .ok after ↔
      arguments.has opt.name = false ∧ opt.accepts value = true ∧
        after = { arguments with options := arguments.options ++ [(opt.name, value)] } := by
  unfold Arguments.give
  cases arguments.has opt.name <;> cases opt.accepts value <;> simp [eq_comm]

theorem isValue_iff {arg : String} : isValue arg = true ↔ Plain arg := by
  rw [← Shape.ofArgument_eq_plain_iff, isValue]
  cases Shape.ofArgument arg <;> simp

/-- What one argument can lead to. -/
inductive Leads (command : Command) (arguments : Arguments) (arg : String) : Step → Prop where
  | option {opt : CommandOption} {value : String} {after : Arguments} :
      opt ∈ command.options → opt.Stands value [arg] → arguments.give opt value = .ok after →
      Leads command arguments arg (.taken after)
  | operand {after : Arguments} :
      Plain arg → command.operand arguments arg = .ok after →
      Leads command arguments arg (.taken after)
  | needsValue {opt : CommandOption} :
      opt ∈ command.options → (∀ value, Plain value → opt.Stands value [arg, value]) →
      Leads command arguments arg (.needsValue opt)
  | endOfOptions : arg = "--" → Leads command arguments arg .endOfOptions

variable {arg name : String} {next : Step}

theorem Leads.of_give (hopt : opt ∈ command.options) (hstands : opt.Stands value [arg])
    (h : (arguments.give opt value).map .taken = .ok next) : Leads command arguments arg next := by
  obtain ⟨after, hgive, rfl⟩ := map_eq_ok.mp h
  exact .option hopt hstands hgive

theorem leads_of_longOption {value : Option String}
    (hshape : Shape.ofArgument arg = .long name value)
    (h : command.longOption arguments name value = .ok next) :
    Leads command arguments arg next := by
  unfold longOption at h
  split at h
  case h_1 opt value hfind =>
    have hopt := List.mem_of_find?_eq_some hfind
    obtain rfl : opt.name = name := by simpa using List.find?_some hfind
    obtain ⟨rfl, -⟩ := Shape.ofArgument_eq_long_some_iff.mp hshape
    split at h
    case isTrue htakes => exact .of_give hopt (.value htakes .nameEquals) h
    case isFalse => cases h
  case h_2 opt hfind =>
    have hopt := List.mem_of_find?_eq_some hfind
    obtain rfl : opt.name = name := by simpa using List.find?_some hfind
    obtain ⟨rfl, -⟩ := Shape.ofArgument_eq_long_none_iff.mp hshape
    split at h
    case isTrue htakes =>
      cases h
      exact .needsValue hopt fun value hvalue => .value htakes (.name hvalue)
    case isFalse hswitch =>
      exact .of_give hopt (.switch (Bool.not_eq_true _ ▸ hswitch) rfl rfl) h
  case h_3 =>
    repeat' split at h
    all_goals cases h
  case h_4 => cases h

theorem leads_of_shortOption (hwf : command.WellFormed) {letter : Char} {rest : List Char}
    (hshape : Shape.ofArgument arg = .short letter rest)
    (h : command.shortOption arguments letter rest = .ok next) :
    Leads command arguments arg next := by
  have hlist := (Shape.ofArgument_eq_short_iff.mp hshape).1
  have harg : arg = "-" ++ letter.toString ++ String.ofList rest :=
    String.toList_inj.mp (by simp [hlist])
  have hfound {opt : CommandOption}
      (hfind : command.options.find? (·.letter == some letter) = some opt) :
      opt ∈ command.options ∧ opt.letter = some letter ∧ opt.takesValue = true := by
    have hopt := List.mem_of_find?_eq_some hfind
    have hletter : opt.letter = some letter := by simpa using List.find?_some hfind
    exact ⟨hopt, hletter, (hwf.lettered opt hopt letter hletter).2⟩
  unfold shortOption at h
  split at h
  case h_1 opt hfind =>
    obtain ⟨hopt, hletter, htakes⟩ := hfound hfind
    cases h
    have harg : arg = "-" ++ letter.toString := String.toList_inj.mp (by simp [hlist])
    exact .needsValue hopt fun value hvalue => .value htakes (harg ▸ .letter hletter hvalue)
  case h_2 opt value hfind =>
    obtain ⟨hopt, hletter, htakes⟩ := hfound hfind
    have harg : arg = "-" ++ letter.toString ++ "=" ++ String.ofList value :=
      String.toList_inj.mp (by simp [hlist])
    exact .of_give hopt (.value htakes (harg ▸ .letterEquals hletter)) h
  case h_3 opt hfind hne hmark =>
    obtain ⟨hopt, hletter, htakes⟩ := hfound hfind
    have hfirst := List.head?_eq_some_iff.not.mpr fun ⟨value, hvalue⟩ => hmark value hvalue
    exact .of_give hopt (.value htakes (harg ▸ .letterValue hletter
      (fun hnil => hne (String.ofList_eq_empty_iff.mp hnil)) (by rwa [String.toList_ofList]))) h
  case h_4 =>
    repeat' split at h
    all_goals cases h

theorem leads_of_step (hwf : command.WellFormed) (h : command.step arguments arg = .ok next) :
    Leads command arguments arg next := by
  unfold step at h
  split at h
  case h_1 hshape =>
    cases h
    exact .endOfOptions (Shape.ofArgument_eq_escape_iff.mp hshape)
  case h_2 hshape => exact leads_of_longOption hshape h
  case h_3 hshape => exact leads_of_shortOption hwf hshape h
  case h_4 hshape =>
    obtain ⟨after, hoperand, rfl⟩ := map_eq_ok.mp h
    exact .operand (Shape.ofArgument_eq_plain_iff.mp hshape) hoperand

/-! ## All arguments -/

/-- Operands change no options. -/
theorem options_of_operand (h : command.operand arguments arg = .ok after) :
    after.options = arguments.options := by
  unfold operand at h
  split at h
  · cases h
    rfl
  · cases h

theorem options_of_operands (h : args.foldlM command.operand arguments = .ok after) :
    after.options = arguments.options := by
  induction args generalizing arguments with
  | nil =>
    cases h
    rfl
  | cons arg args ih =>
    rw [List.foldlM_cons] at h
    obtain ⟨next, hoperand, h⟩ := bind_eq_ok.mp h
    exact (ih h).trans (options_of_operand hoperand)

theorem value?_eq_none_iff {name : String} :
    arguments.value? name = none ↔ name ∉ arguments.options.map Prod.fst := by
  rw [Arguments.value?, List.lookup_eq_none_iff, List.mem_map]
  constructor
  · rintro h ⟨given, hgiven, rfl⟩
    simpa using h given hgiven
  · intro h given hgiven
    exact bne_iff_ne.mpr fun heq => h ⟨given, hgiven, heq.symm⟩

/-- Where no option is given twice, each has the value that it was given. -/
theorem value?_eq_some_iff (h : (arguments.options.map Prod.fst).Nodup) {name value : String} :
    arguments.value? name = some value ↔ (name, value) ∈ arguments.options := by
  constructor
  · intro hvalue
    obtain ⟨front, back, hoptions, -⟩ := List.lookup_eq_some_iff.mp hvalue
    simp [hoptions]
  · intro hmem
    obtain ⟨front, back, hoptions⟩ := List.append_of_mem hmem
    refine List.lookup_eq_some_iff.mpr ⟨front, back, hoptions, fun other hother => ?_⟩
    rw [hoptions, List.map_append, List.map_cons, List.nodup_append] at h
    have hne := h.2.2 other.1 (List.mem_map_of_mem hother) name List.mem_cons_self
    exact bne_iff_ne.mpr hne.symm

/-- Each option is given once. -/
theorem nodup_of_give (h : arguments.give opt value = .ok after)
    (hnodup : (arguments.options.map Prod.fst).Nodup) : (after.options.map Prod.fst).Nodup := by
  obtain ⟨hnew, -, rfl⟩ := give_eq_ok_iff.mp h
  rw [Arguments.has, Option.isSome_eq_false_iff, Option.isNone_iff_eq_none,
    value?_eq_none_iff] at hnew
  rw [List.map_append, List.nodup_append]
  refine ⟨hnodup, by simp, fun name hname other hother => ?_⟩
  obtain rfl : other = opt.name := by simpa using hother
  exact ne_of_mem_of_not_mem hname hnew

/-- What is read from arguments is the options of a line that they are, added to those that were
there before, and no option twice. -/
theorem exists_line_of_scan (hwf : command.WellFormed) (h : command.scan arguments args = .ok after)
    (hnodup : (arguments.options.map Prod.fst).Nodup) :
    ∃ given, command.Line args given ∧ after.options = arguments.options ++ given ∧
      (after.options.map Prod.fst).Nodup := by
  fun_induction command.scan arguments args with
  | case1 =>
    cases h
    exact ⟨[], .done, (List.append_nil _).symm, hnodup⟩
  | case2 => cases h
  | case3 arguments arg args next hstep ih =>
    cases leads_of_step hwf hstep with
    | operand hplain hoperand =>
      have hoptions := options_of_operand hoperand
      obtain ⟨given, hline, hgiven, hafter⟩ := ih h (by rwa [hoptions])
      exact ⟨given, .operand hplain hline, by rw [hgiven, hoptions], hafter⟩
    | @option opt value _ hopt hstands hgive =>
      obtain ⟨given, hline, hgiven, hafter⟩ := ih h (nodup_of_give hgive hnodup)
      obtain ⟨-, haccepts, rfl⟩ := give_eq_ok_iff.mp hgive
      exact ⟨_, .option hopt hstands haccepts hline, by simp [hgiven], hafter⟩
  | case4 arguments arg args hstep =>
    cases leads_of_step hwf hstep with
    | endOfOptions harg =>
      have hoptions := options_of_operands h
      rw [harg]
      exact ⟨[], .operands args, by rw [hoptions, List.append_nil], by rwa [hoptions]⟩
  | case5 => cases h
  | case6 => cases h
  | case7 arguments arg opt hstep value args hvalue next hgive ih =>
    cases leads_of_step hwf hstep with
    | needsValue hopt hstands =>
      obtain ⟨given, hline, hgiven, hafter⟩ := ih h (nodup_of_give hgive hnodup)
      obtain ⟨-, haccepts, rfl⟩ := give_eq_ok_iff.mp hgive
      exact ⟨_, .option hopt (hstands value (isValue_iff.mp hvalue)) haccepts hline,
        by simp [hgiven], hafter⟩
  | case8 => cases h

/-- A command line that was read is complete, and its options are those that stand on it, each given
once. -/
theorem read_eq_ok (hwf : command.WellFormed) (h : command.read args = .ok arguments) :
    command.Line args arguments.options ∧ (arguments.options.map Prod.fst).Nodup ∧
      (∀ name ∈ command.required, arguments.has name = true) ∧
      arguments.operands.length = command.operands := by
  unfold read at h
  split at h
  · cases h
  · split at h
    case h_2.isTrue after hscan hcomplete =>
      cases h
      obtain ⟨given, hline, hgiven, hnodup⟩ := exists_line_of_scan hwf hscan List.nodup_nil
      rw [Bool.and_eq_true, List.all_eq_true, decide_eq_true_eq] at hcomplete
      exact ⟨by rwa [hgiven], hnodup, hcomplete⟩
    · cases h

/-- The value of an option is what the command line gives it. -/
theorem value?_iff_gives (hwf : command.WellFormed) (h : command.read args = .ok arguments)
    (hopt : opt ∈ command.options) (htakes : opt.takesValue = true) :
    arguments.value? opt.name = some value ↔ Gives args opt.name opt.letter value := by
  obtain ⟨hline, hnodup, -⟩ := read_eq_ok hwf h
  rw [value?_eq_some_iff hnodup]
  constructor
  · intro hmem
    obtain ⟨words, hstands, hwithin⟩ := hline.exists_stands hwf hopt hmem
    cases hstands with
    | value _ hspelled => exact ⟨words, hspelled, hwithin⟩
    | switch hswitch => simp [htakes] at hswitch
  · rintro ⟨words, hspelled, hwithin⟩
    exact hline.mem_of_stands hwf hopt (.value htakes hspelled) hwithin

/-- A switch is given where its name is on the command line. -/
theorem has_iff_mem (hwf : command.WellFormed) (h : command.read args = .ok arguments)
    (hopt : opt ∈ command.options) (hswitch : opt.takesValue = false) :
    arguments.has opt.name = true ↔ "--" ++ opt.name ∈ optionWords args := by
  obtain ⟨hline, hnodup, -⟩ := read_eq_ok hwf h
  rw [Arguments.has, Option.isSome_iff_exists]
  simp only [value?_eq_some_iff hnodup]
  constructor
  · rintro ⟨value, hmem⟩
    obtain ⟨words, hstands, hwithin⟩ := hline.exists_stands hwf hopt hmem
    cases hstands with
    | value htakes => simp [hswitch] at htakes
    | switch _ _ hwords => exact hwithin.subset (by simp [hwords])
  · intro hmem
    obtain ⟨front, back, hwords⟩ := List.append_of_mem hmem
    refine ⟨"", hline.mem_of_stands hwf hopt (.switch hswitch rfl rfl) ⟨front, back, ?_⟩⟩
    simp [hwords]

theorem accepts_of_value? (hwf : command.WellFormed) (h : command.read args = .ok arguments)
    {name : String} (hvalue : arguments.value? name = some value) :
    ∃ opt ∈ command.options, opt.name = name ∧ opt.accepts value = true := by
  obtain ⟨hline, hnodup, -⟩ := read_eq_ok hwf h
  exact hline.exists_accepts ((value?_eq_some_iff hnodup).mp hvalue)

/-! ## Command lines that can be read -/

/-- An option whose value is the next argument. -/
theorem scan_long (name value : String) {opt : CommandOption} (hne : name ≠ "")
    (hmark : '=' ∉ name.toList) (hfind : command.options.find? (·.name == name) = some opt)
    (htakes : opt.takesValue = true) (hvalue : isValue value = true)
    (hgive : arguments.give opt value = .ok after) (args : List String) :
    command.scan arguments (("--" ++ name) :: value :: args) = command.scan after args := by
  have hstep : command.step arguments ("--" ++ name) = .ok (.needsValue opt) := by
    simp only [step, Shape.ofArgument_eq_long_none_iff.mpr ⟨rfl, hne, hmark⟩, longOption, hfind,
      htakes, ↓reduceIte]
  rw [scan, hstep]
  simp only [hvalue, hgive, ↓reduceIte]

/-- An operand among the options. -/
theorem scan_plain {arg : String} (hplain : isValue arg = true)
    (hoperand : command.operand arguments arg = .ok after) (args : List String) :
    command.scan arguments (arg :: args) = command.scan after args := by
  have hstep : command.step arguments arg = .ok (.taken after) := by
    unfold isValue at hplain
    split at hplain
    case h_1 hshape => simp [step, hshape, hoperand, Except.map]
    case h_2 => cases hplain
  rw [scan, hstep]

theorem read_of_scan {args : List String} (h : command.scan {} args = .ok arguments)
    (hrequired : command.required.all arguments.has = true)
    (hoperands : arguments.operands.length = command.operands) :
    command.read args = .ok arguments := by
  simp only [read, h, hrequired, hoperands, decide_true, Bool.and_true, ↓reduceIte]

end Command

end Hue.Tool

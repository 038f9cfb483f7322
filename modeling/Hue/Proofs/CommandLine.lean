import Hue.Tool.Arguments
import Mathlib.Data.List.TakeWhile
import Mathlib.Data.List.Infix

/-!
What a command line says. An option stands on it in one of a few ways, by its name or its letter and
with its value after it. The grammar of a line makes it up of options, operands and perhaps two
dashes. A line has one reading only: the options of it are exactly those that stand on it.
-/
namespace Hue.Tool

/-! ## Words of a command line -/

/-- A word that is no option: it does not start with a dash, or is nothing but a dash. -/
def Plain (word : String) : Prop := ∀ rest, word.toList = '-' :: rest → rest = []

theorem Plain.ne_dashes {word : String} (h : Plain word) : (word != "--") = true := by
  rw [bne_iff_ne]
  rintro rfl
  cases h ['-'] rfl

namespace Shape

theorem ofArgument_eq_escape_iff {arg : String} : ofArgument arg = .escape ↔ arg = "--" := by
  rw [← String.toList_inj]
  unfold ofArgument
  split <;> simp_all

theorem ofArgument_eq_plain_iff {arg : String} : ofArgument arg = .plain ↔ Plain arg := by
  unfold ofArgument Plain
  split
  case h_4 hother =>
    simp only [true_iff]
    intro rest hrest
    cases rest with
    | nil => rfl
    | cons c cs => exact absurd hrest (hother c cs)
  all_goals simp_all

theorem ofArgument_eq_short_iff {arg : String} {letter : Char} {rest : List Char} :
    ofArgument arg = .short letter rest ↔ arg.toList = '-' :: letter :: rest ∧ letter ≠ '-' := by
  unfold ofArgument
  split
  case h_1 heq | h_2 heq =>
    simp only [heq, reduceCtorEq, false_iff]
    rintro ⟨h, hne⟩
    cases h
    exact hne rfl
  case h_3 c cs hdashes hdash heq =>
    have hc : c ≠ '-' := by
      rintro rfl
      exact hdash rfl
    rw [heq]
    simp only [short.injEq, List.cons.injEq, true_and]
    constructor
    · rintro ⟨rfl, rfl⟩
      exact ⟨⟨rfl, rfl⟩, hc⟩
    · exact fun h => h.1
  case h_4 hother =>
    simp only [reduceCtorEq, false_iff]
    exact fun h => hother letter rest h.1

theorem takeWhile_of_not_mem {name : List Char} (h : '=' ∉ name) :
    name.takeWhile (· != '=') = name := by
  rw [List.takeWhile_eq_self_iff]
  intro c hc
  simpa using ne_of_mem_of_not_mem hc h

/-- An equals sign ends the name of an option. -/
theorem takeWhile_append_mark {name rest : List Char} (h : '=' ∉ name) :
    (name ++ '=' :: rest).takeWhile (· != '=') = name := by
  rw [List.takeWhile_append_of_pos (List.takeWhile_eq_self_iff.mp (takeWhile_of_not_mem h))]
  simp

/-- Two dashes and more are an option by its name. -/
theorem ofArgument_of_dashes {arg : String} {cs : List Char} (h : arg.toList = '-' :: '-' :: cs)
    (hne : cs ≠ []) :
    ofArgument arg = .long (String.ofList (cs.takeWhile (· != '=')))
      (if cs.contains '=' then
        some (String.ofList (cs.drop ((cs.takeWhile (· != '=')).length + 1))) else none) := by
  unfold ofArgument
  rw [h]
  cases cs with
  | nil => exact absurd rfl hne
  | cons c cs => rfl

theorem exists_dashes_of_long {arg name : String} {value : Option String}
    (h : ofArgument arg = .long name value) : ∃ cs, arg.toList = '-' :: '-' :: cs ∧ cs ≠ [] := by
  unfold ofArgument at h
  split at h
  case h_2 cs hne heq =>
    exact ⟨cs, heq, fun hnil => hne hnil⟩
  all_goals cases h

theorem ofArgument_eq_long_none_iff {arg name : String} :
    ofArgument arg = .long name none ↔ arg = "--" ++ name ∧ name ≠ "" ∧ '=' ∉ name.toList := by
  constructor
  · intro h
    obtain ⟨cs, hcs, hne⟩ := exists_dashes_of_long h
    rw [ofArgument_of_dashes hcs hne] at h
    obtain ⟨rfl, hvalue⟩ := long.inj h
    have hmark : '=' ∉ cs := by simpa using hvalue
    rw [takeWhile_of_not_mem hmark, String.toList_ofList, ne_eq, String.ofList_eq_empty_iff]
    exact ⟨String.toList_inj.mp (by simp [hcs]), hne, hmark⟩
  · rintro ⟨rfl, hne, hmark⟩
    have hlist : ("--" ++ name).toList = '-' :: '-' :: name.toList := by simp
    rw [ofArgument_of_dashes hlist (String.toList_eq_nil_iff.not.mpr hne),
      takeWhile_of_not_mem hmark]
    simp [hmark]

theorem ofArgument_eq_long_some_iff {arg name value : String} :
    ofArgument arg = .long name (some value) ↔
      arg = "--" ++ name ++ "=" ++ value ∧ '=' ∉ name.toList := by
  constructor
  · intro h
    obtain ⟨cs, hcs, hne⟩ := exists_dashes_of_long h
    rw [ofArgument_of_dashes hcs hne] at h
    obtain ⟨rfl, hvalue⟩ := long.inj h
    have hmark : '=' ∈ cs := by
      by_contra hnot
      simp [hnot] at hvalue
    obtain ⟨front, back, rfl, hfront⟩ := List.eq_append_cons_of_mem hmark
    rw [takeWhile_append_mark hfront] at hvalue ⊢
    obtain rfl : String.ofList back = value := by simpa using hvalue
    rw [String.toList_ofList]
    exact ⟨String.toList_inj.mp (by simp [hcs]), hfront⟩
  · rintro ⟨rfl, hmark⟩
    have hlist : ("--" ++ name ++ "=" ++ value).toList =
        '-' :: '-' :: (name.toList ++ '=' :: value.toList) := by simp
    rw [ofArgument_of_dashes hlist (by simp), takeWhile_append_mark hmark]
    simp

end Shape

/-! ## Options on a command line -/

/-- The ways to write an option with its value: by its name or its letter, and with the value in the
next word, after an equals sign, or right after the letter. -/
inductive Spelling (name : String) (letter : Option Char) (value : String) :
    List String → Prop where
  | name : Plain value → Spelling name letter value ["--" ++ name, value]
  | nameEquals : Spelling name letter value ["--" ++ name ++ "=" ++ value]
  | letter {c : Char} : letter = some c → Plain value →
      Spelling name letter value ["-" ++ c.toString, value]
  | letterEquals {c : Char} : letter = some c →
      Spelling name letter value ["-" ++ c.toString ++ "=" ++ value]
  | letterValue {c : Char} : letter = some c → value ≠ "" → value.toList.head? ≠ some '=' →
      Spelling name letter value ["-" ++ c.toString ++ value]

/-- The words of a command line before two dashes. -/
def optionWords (args : List String) : List String := args.takeWhile (· != "--")

/-- A command line gives an option the value. -/
def Gives (args : List String) (name : String) (letter : Option Char) (value : String) : Prop :=
  ∃ words, Spelling name letter value words ∧ words <:+: optionWords args

/-- The words that an option takes up: a switch is its name alone. -/
inductive CommandOption.Stands (opt : CommandOption) (value : String) (words : List String) :
    Prop where
  | value (htakes : opt.takesValue = true)
      (hspelled : Spelling opt.name opt.letter value words)
  | switch (hswitch : opt.takesValue = false) (hvalue : value = "")
      (hwords : words = ["--" ++ opt.name])

namespace Command

/-- The options of a command can be told apart on a command line. -/
structure WellFormed (command : Command) : Prop where
  named : ∀ opt ∈ command.options, opt.name ≠ "" ∧ '=' ∉ opt.name.toList
  lettered : ∀ opt ∈ command.options, ∀ c ∈ opt.letter, c ≠ '-' ∧ opt.takesValue = true
  names : ∀ opt ∈ command.options, ∀ other ∈ command.options, opt.name = other.name →
    opt.letter = other.letter ∧ opt.takesValue = other.takesValue
  letters : ∀ opt ∈ command.options, ∀ other ∈ command.options, ∀ c ∈ opt.letter,
    c ∈ other.letter → opt.name = other.name

end Command

namespace Shape

/-- Whether a word of this shape is an option by its name or its letter. -/
def Names (opt : CommandOption) : Shape → Prop
  | .long name _ => name = opt.name
  | .short letter _ => opt.letter = some letter
  | _ => False

/-- The value that an option has in a word of this shape, or in the word after it. -/
def value? : Shape → List String → Option String
  | .long _ (some value), _ => some value
  | .short _ (c :: cs), _ => some (String.ofList (if c = '=' then cs else c :: cs))
  | _, next => next.head?

end Shape

namespace CommandOption

variable {command : Command} {opt other : CommandOption} {value : String} {words : List String}

/-- The first word of an option is one by its shape, and shows where the value is. -/
theorem Stands.exists_shape (hwf : command.WellFormed) (hopt : opt ∈ command.options)
    (h : opt.Stands value words) :
    ∃ first more shape, words = first :: more ∧ Shape.ofArgument first = shape ∧ shape.Names opt ∧
      (∀ word ∈ more, Plain word) ∧
      (opt.takesValue = true → ∀ rest, shape.value? (more ++ rest) = some value) := by
  obtain ⟨hne, hmark⟩ := hwf.named opt hopt
  have hplain (hvalue : Plain value) : ∀ word ∈ [value], Plain word := by simpa using hvalue
  have hnone : ∀ word ∈ [], Plain word := by simp
  cases h with
  | switch hswitch hvalue hwords =>
    exact ⟨_, [], _, hwords, Shape.ofArgument_eq_long_none_iff.mpr ⟨rfl, hne, hmark⟩, rfl, hnone,
      by simp [hswitch]⟩
  | value htakes hspelled =>
    cases hspelled with
    | name hvalue =>
      exact ⟨_, [value], _, rfl, Shape.ofArgument_eq_long_none_iff.mpr ⟨rfl, hne, hmark⟩, rfl,
        hplain hvalue, fun _ _ => rfl⟩
    | nameEquals =>
      exact ⟨_, [], .long opt.name (some value), rfl,
        Shape.ofArgument_eq_long_some_iff.mpr ⟨rfl, hmark⟩, rfl, hnone, fun _ _ => rfl⟩
    | @letter c hletter hvalue =>
      have hc := (hwf.lettered opt hopt c hletter).1
      exact ⟨_, [value], .short c [], rfl, Shape.ofArgument_eq_short_iff.mpr ⟨by simp, hc⟩, hletter,
        hplain hvalue, fun _ _ => rfl⟩
    | @letterEquals c hletter =>
      have hc := (hwf.lettered opt hopt c hletter).1
      refine ⟨_, [], .short c ('=' :: value.toList), rfl,
        Shape.ofArgument_eq_short_iff.mpr ⟨by simp, hc⟩, hletter, hnone, fun _ _ => ?_⟩
      rw [Shape.value?, if_pos rfl, String.ofList_toList]
    | @letterValue c hletter hvalue hhead =>
      have hc := (hwf.lettered opt hopt c hletter).1
      refine ⟨_, [], .short c value.toList, rfl,
        Shape.ofArgument_eq_short_iff.mpr ⟨by simp, hc⟩, hletter, hnone, fun _ _ => ?_⟩
      cases hcs : value.toList with
      | nil => exact absurd (String.toList_eq_nil_iff.mp hcs) hvalue
      | cons d ds =>
        have hd : d ≠ '=' := by
          rintro rfl
          exact hhead (by rw [hcs]; rfl)
        rw [Shape.value?, if_neg hd, ← hcs, String.ofList_toList]

/-- Two options with the same words in front are one option with one value. -/
theorem Stands.unique (hwf : command.WellFormed) (hopt : opt ∈ command.options)
    (hother : other ∈ command.options) {value' : String} {words' args : List String}
    (h : opt.Stands value words) (h' : other.Stands value' words') (hwords : words <+: args)
    (hwords' : words' <+: args) : opt.name = other.name ∧ value = value' := by
  obtain ⟨first, more, shape, rfl, hshape, hnames, -, hvalue⟩ := h.exists_shape hwf hopt
  obtain ⟨first', more', shape', rfl, hshape', hnames', -, hvalue'⟩ := h'.exists_shape hwf hother
  obtain ⟨rest, rfl⟩ := hwords
  obtain ⟨rest', hrest⟩ := hwords'
  obtain ⟨rfl, htail⟩ := List.cons.inj hrest
  obtain rfl : shape = shape' := hshape.symm.trans hshape'
  have hname : opt.name = other.name := by
    cases shape with
    | escape => exact hnames.elim
    | plain => exact hnames.elim
    | long name value => exact hnames.symm.trans hnames'
    | short letter rest => exact hwf.letters opt hopt other hother letter hnames hnames'
  refine ⟨hname, ?_⟩
  cases h with
  | value htakes _ =>
    have htakes' := (hwf.names opt hopt other hother hname).2.symm.trans htakes
    have htail' : more' ++ rest' = more ++ rest := htail
    have heq := hvalue htakes rest
    rw [← htail', hvalue' htakes' rest'] at heq
    exact (Option.some.inj heq).symm
  | switch hswitch hnone _ =>
    cases h' with
    | value htakes' _ =>
      rw [← (hwf.names opt hopt other hother hname).2, hswitch] at htakes'
      cases htakes'
    | switch _ hnone' _ => rw [hnone, hnone']

/-- An option is not found among words that are none. -/
theorem Stands.infix_of_plain (hwf : command.WellFormed) (hopt : opt ∈ command.options)
    (h : opt.Stands value words) {plain rest : List String} (hplain : ∀ word ∈ plain, Plain word)
    (hwithin : words <:+: plain ++ rest) : words <:+: rest := by
  obtain ⟨first, more, shape, rfl, hshape, hnames, -, -⟩ := h.exists_shape hwf hopt
  induction plain with
  | nil => exact hwithin
  | cons word plain ih =>
    rcases List.infix_cons_iff.mp hwithin with hfront | hwithin
    · obtain rfl : first = word := (List.cons_prefix_cons.mp hfront).1
      rw [Shape.ofArgument_eq_plain_iff.mpr (hplain first List.mem_cons_self)] at hshape
      rw [← hshape] at hnames
      exact hnames.elim
    · exact ih (fun other hother => hplain other (List.mem_cons_of_mem word hother)) hwithin

theorem Stands.congr (hwf : command.WellFormed) (hopt : opt ∈ command.options)
    (hother : other ∈ command.options) (hname : opt.name = other.name)
    (h : opt.Stands value words) : other.Stands value words := by
  obtain ⟨hletter, htakes⟩ := hwf.names opt hopt other hother hname
  cases h with
  | value hvalue hspelled => exact .value (htakes ▸ hvalue) (hname ▸ hletter ▸ hspelled)
  | switch hswitch hnone hwords => exact .switch (htakes ▸ hswitch) hnone (hname ▸ hwords)

/-- No word of an option is two dashes. -/
theorem Stands.ne_dashes (hwf : command.WellFormed) (hopt : opt ∈ command.options)
    (h : opt.Stands value words) : ∀ word ∈ words, (word != "--") = true := by
  obtain ⟨first, more, shape, rfl, hshape, hnames, hplain, -⟩ := h.exists_shape hwf hopt
  rw [List.forall_mem_cons]
  constructor
  · rw [bne_iff_ne]
    rintro rfl
    rw [← hshape] at hnames
    exact hnames
  · intro word hword
    exact (hplain word hword).ne_dashes

end CommandOption

namespace Command

/-! ## The grammar of a command line -/

/-- A command line and the options that stand on it, each with its value. -/
inductive Line (command : Command) : List String → List (String × String) → Prop where
  | done : Line command [] []
  | operands (args : List String) : Line command ("--" :: args) []
  | operand {arg : String} {args : List String} {given : List (String × String)} :
      Plain arg → Line command args given → Line command (arg :: args) given
  | option {opt : CommandOption} {value : String} {words args : List String}
      {given : List (String × String)} :
      opt ∈ command.options → opt.Stands value words → opt.accepts value = true →
      Line command args given → Line command (words ++ args) ((opt.name, value) :: given)

variable {command : Command} {opt : CommandOption} {value : String} {args : List String}
  {given : List (String × String)}

theorem optionWords_append (hwf : command.WellFormed) (hopt : opt ∈ command.options)
    {words : List String} (h : opt.Stands value words) (args : List String) :
    optionWords (words ++ args) = words ++ optionWords args :=
  List.takeWhile_append_of_pos (h.ne_dashes hwf hopt)

theorem optionWords_cons {arg : String} (h : Plain arg) (args : List String) :
    optionWords (arg :: args) = arg :: optionWords args :=
  List.takeWhile_cons_of_pos h.ne_dashes

theorem Line.exists_accepts (hline : command.Line args given) {name : String}
    (h : (name, value) ∈ given) :
    ∃ opt ∈ command.options, opt.name = name ∧ opt.accepts value = true := by
  induction hline with
  | done => cases h
  | operands args => cases h
  | operand _ _ ih => exact ih h
  | option hopt _ haccepts _ ih =>
    rcases List.mem_cons.mp h with heq | h
    · obtain ⟨rfl, rfl⟩ := Prod.mk.inj heq
      exact ⟨_, hopt, rfl, haccepts⟩
    · exact ih h

/-- An option that was given stands on the line. -/
theorem Line.exists_stands (hwf : command.WellFormed) (hline : command.Line args given)
    (hopt : opt ∈ command.options) (h : (opt.name, value) ∈ given) :
    ∃ words, opt.Stands value words ∧ words <:+: optionWords args := by
  induction hline with
  | done => cases h
  | operands args => cases h
  | operand hplain _ ih =>
    obtain ⟨words, hstands, hwithin⟩ := ih h
    rw [optionWords_cons hplain]
    exact ⟨words, hstands, List.infix_cons hwithin⟩
  | @option other value' words' args given hother hstands _ _ ih =>
    rw [optionWords_append hwf hother hstands]
    rcases List.mem_cons.mp h with heq | h
    · obtain ⟨hname, rfl⟩ := Prod.mk.inj heq
      exact ⟨words', hstands.congr hwf hother hopt hname.symm, (List.prefix_append _ _).isInfix⟩
    · obtain ⟨words, hstands', hwithin⟩ := ih h
      exact ⟨words, hstands', hwithin.trans (List.suffix_append _ _).isInfix⟩

/-- An option that stands on the line was given. -/
theorem Line.mem_of_stands (hwf : command.WellFormed) (hline : command.Line args given)
    (hopt : opt ∈ command.options) {words : List String} (hstands : opt.Stands value words)
    (hwithin : words <:+: optionWords args) : (opt.name, value) ∈ given := by
  have hnil : ¬words <:+: [] := by
    obtain ⟨first, more, shape, rfl, -⟩ := hstands.exists_shape hwf hopt
    simp
  induction hline with
  | done => exact absurd hwithin hnil
  | operands args => exact absurd hwithin hnil
  | operand hplain _ ih =>
    have hword : ∀ word ∈ [_], Plain word := List.forall_mem_singleton.mpr hplain
    rw [optionWords_cons hplain] at hwithin
    exact ih (hstands.infix_of_plain hwf hopt hword hwithin)
  | @option other value' words' args given hother hstands' _ _ ih =>
    rw [optionWords_append hwf hother hstands'] at hwithin
    obtain ⟨first, more, shape, rfl, -, -, hplain, -⟩ := hstands'.exists_shape hwf hother
    rcases List.infix_cons_iff.mp hwithin with hfront | hwithin
    · obtain ⟨hname, rfl⟩ := hstands.unique hwf hopt hother hstands' hfront (List.prefix_append _ _)
      rw [hname]
      exact List.mem_cons_self
    · exact List.mem_cons_of_mem _ (ih (hstands.infix_of_plain hwf hopt hplain hwithin))

end Command

end Hue.Tool

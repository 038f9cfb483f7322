import Hue.Proofs.FatalError
import Hue.Proofs.Stages
import Mathlib.Data.List.Nodup

/-!
Text after a source. Where every branch of a source names a label of that source, text that follows
its last line does not change what becomes of it: a longer table finds the same labels at the same
addresses, so the same branches are dropped and the others get the same words. The words, symbols
and diagnostics of the source are then the first ones of the whole.
-/
namespace Hue

open Source

namespace Source

/-- The readings of complete lines stay when more text follows. -/
theorem readings_append (settings : Settings) {source : List Char}
    (h : source = [] ∨ source.getLast? = some '\n') (more : List Char) :
    readings settings (source ++ more) = readings settings source ++
      ((Text.lines more).zipIdx (1 + (Text.lines source).length)).map
        fun p => (p.2, readLine settings p.1) := by
  rw [readings, Text.lines_append h, List.zipIdx_append, List.map_append]
  rfl

/-- The program of readings. -/
def Program.ofReadings (rs : List (Nat × Reading)) : Program where
  items := rs.flatMap fun r => r.2.items r.1
  diagnostics := rs.filterMap fun r => r.2.diagnostic? r.1

theorem eq_ofReadings {settings : Settings} {source : List Char} {program : Program}
    (h : readProgram settings source = .ok program) :
    program = .ofReadings (readings settings source) :=
  (readProgram_eq_ok_iff.mp h).2

theorem ofReadings_append (rs rest : List (Nat × Reading)) :
    Program.ofReadings (rs ++ rest) =
      ⟨(Program.ofReadings rs).items ++ (Program.ofReadings rest).items,
        (Program.ofReadings rs).diagnostics ++ (Program.ofReadings rest).diagnostics⟩ := by
  simp [Program.ofReadings]

/-- Whether a diagnostic is one of a program, or on the line of one of its items. -/
def Program.Places (program : Program) (d : Diagnostic) : Prop :=
  d ∈ program.diagnostics ∨ ∃ item ∈ program.items, d.location = .line item.line

theorem exists_reading_of_places {rs : List (Nat × Reading)} {d : Diagnostic}
    (h : (Program.ofReadings rs).Places d) : ∃ r ∈ rs, d.location = .line r.1 := by
  rcases h with h | ⟨item, hitem, hloc⟩
  · obtain ⟨r, hr, hd⟩ := List.mem_filterMap.mp h
    exact ⟨r, hr, Reading.location_of_diagnostic? hd⟩
  · obtain ⟨r, hr, hmem⟩ := List.mem_flatMap.mp hitem
    exact ⟨r, hr, by rw [hloc, Reading.line_of_mem_items hmem]⟩

end Source

theorem Location.le_antisymm {x y : Location} (hxy : x.le y = true) (hyx : y.le x = true) :
    x = y := by
  cases x <;> cases y <;> simp [Location.le] at hxy hyx ⊢ <;> omega

namespace Assembly

/-! ## Items beside a longer table -/

section Longer

variable {table longer : SymbolTable} {item : Item}

theorem undefined?_of_prefix (h : table.symbols <+: longer.symbols)
    (hdeclared : undefined? table item = none) : undefined? longer item = none := by
  rw [undefined?_eq_none_iff] at hdeclared ⊢
  intro name hname
  obtain ⟨symbol, hfound⟩ := hdeclared name hname
  exact ⟨symbol, SymbolTable.lookup?_of_prefix h hfound⟩

/-- A branch to a label of the table has the same address in a longer one. -/
theorem address?_of_prefix (h : table.symbols <+: longer.symbols)
    (hdeclared : undefined? table item = none) {name : String}
    (hname : item.branchLabel? = some name) : longer.address? name = table.address? name := by
  obtain ⟨symbol, hfound⟩ := undefined?_eq_none_iff.mp hdeclared name hname
  rw [SymbolTable.address?, SymbolTable.address?, hfound, SymbolTable.lookup?_of_prefix h hfound]

theorem overflow?_of_prefix (h : table.symbols <+: longer.symbols)
    (hdeclared : undefined? table item = none) : overflow? longer item = overflow? table item := by
  cases hname : item.branchLabel? with
  | none => simp [overflow?, hname]
  | some name => simp only [overflow?, hname, address?_of_prefix h hdeclared hname]

theorem encodeItem?_of_prefix (h : table.symbols <+: longer.symbols)
    (hdeclared : undefined? table item = none) :
    encodeItem? longer item = encodeItem? table item := by
  obtain ⟨line, content⟩ := item
  cases content with
  | label name => rfl
  | statement s =>
    cases s with
    | word w => rfl
    | instruction i =>
      have hresolve : resolve longer i = resolve table i := by
        cases hname : i.branchLabel? with
        | none => simp [resolve, hname]
        | some name => simp only [resolve, hname, address?_of_prefix h hdeclared hname]
      simp only [encodeItem?, encodeStatement, hresolve]

end Longer

/-! ## Rounds of dropping with more items -/

/-- Every branch names a label among the items. -/
def Declared (items : List Item) : Prop :=
  ∀ item ∈ items, undefined? (.ofItems items) item = none

section Rounds

variable {items : List Item}

theorem prefix_ofItems_append (items others : List Item) :
    (SymbolTable.ofItems items).symbols <+: (SymbolTable.ofItems (items ++ others)).symbols :=
  ⟨_, (SymbolTable.declarations_append 0 items others).symm⟩

theorem declaredPart_eq_self (h : Declared items) : declaredPart items = items := keep_eq_self h

/-- No branch of the first items is dropped as undeclared. -/
theorem declaredPart_append (h : Declared items) (others : List Item) :
    declaredPart (items ++ others) =
      items ++ keep (undefined? (.ofItems (items ++ others))) others := by
  have hitems : keep (undefined? (.ofItems (items ++ others))) items = items :=
    keep_eq_self fun item hitem => undefined?_of_prefix (prefix_ofItems_append _ _) (h item hitem)
  rw [declaredPart, keep, List.filter_append, ← keep, ← keep, hitems]

theorem overflow?_append (h : Declared items) (others : List Item) :
    ∀ item ∈ items,
      overflow? (.ofItems (items ++ others)) item = overflow? (.ofItems items) item :=
  fun item hitem => overflow?_of_prefix (prefix_ofItems_append _ _) (h item hitem)

/-- The same branches of the first items are dropped as going too far. -/
theorem fittingPart_append (h : Declared items) (others : List Item) :
    fittingPart (items ++ others) =
      fittingPart items ++ keep (overflow? (.ofItems (items ++ others))) others := by
  have hitems : keep (overflow? (.ofItems (items ++ others))) items = fittingPart items :=
    List.filter_congr fun item hitem => by rw [overflow?_append h others item hitem]
  rw [fittingPart, keep, List.filter_append, ← keep, ← keep, hitems]

theorem complaints_overflow_append (h : Declared items) (others : List Item) :
    complaints (overflow? (.ofItems (items ++ others))) (items ++ others) =
      complaints (overflow? (.ofItems items)) items ++
        complaints (overflow? (.ofItems (items ++ others))) others := by
  have hitems : complaints (overflow? (.ofItems (items ++ others))) items =
      complaints (overflow? (.ofItems items)) items :=
    List.filterMap_congr fun item hitem => by rw [overflow?_append h others item hitem]
  rw [complaints, List.filterMap_append, ← complaints, ← complaints, hitems]

/-- Dropping branches drops no label. -/
theorem declared_fittingPart (h : Declared items) : Declared (fittingPart items) := by
  have hnames : (SymbolTable.ofItems (fittingPart items)).symbols.map Symbol.name =
      (SymbolTable.ofItems items).symbols.map Symbol.name := by
    simp only [SymbolTable.ofItems, SymbolTable.symbols_ofSymbols, SymbolTable.map_name_declarations,
      labelsOf_fittingPart]
  intro item hitem
  rw [undefined?_congr hnames]
  exact h item (List.mem_filter.mp hitem).1

theorem wordsOf_append (h : Declared items) (others : List Item) :
    wordsOf (.ofItems (items ++ others)) (items ++ others) =
      wordsOf (.ofItems items) items ++ wordsOf (.ofItems (items ++ others)) others := by
  have hitems : wordsOf (.ofItems (items ++ others)) items = wordsOf (.ofItems items) items := by
    apply List.filterMap_congr
    intro item hitem
    have hword := encodeItem?_of_prefix (prefix_ofItems_append items others) (h item hitem)
    rw [hword]
  rw [wordsOf, List.filterMap_append, ← wordsOf, ← wordsOf, hitems]

end Rounds

/-! ## Diagnostics in order -/

/-- Diagnostics that are split into earlier and later ones can be put in order one part after the
other, since no two are at one place. -/
theorem inOrder_eq_append {ds front back : List Diagnostic} (hperm : ds.Perm (front ++ back))
    (hbefore : ∀ d ∈ front, ∀ e ∈ back, d.location.le e.location = true)
    (hnodup : ((inOrder ds).map Diagnostic.location).Nodup) :
    inOrder ds = inOrder front ++ inOrder back := by
  have hfront : (inOrder front).Perm front := List.mergeSort_perm _ _
  have hback : (inOrder back).Perm back := List.mergeSort_perm _ _
  have hall : (inOrder ds).Perm (inOrder front ++ inOrder back) :=
    (List.mergeSort_perm _ _).trans (hperm.trans (hfront.append hback).symm)
  have hordered : (inOrder front ++ inOrder back).Pairwise
      fun d e => d.location.le e.location = true := by
    rw [List.pairwise_append]
    exact ⟨pairwise_inOrder front, pairwise_inOrder back,
      fun d hd e he => hbefore d (hfront.mem_iff.mp hd) e (hback.mem_iff.mp he)⟩
  refine hall.eq_of_pairwise ?_ (pairwise_inOrder ds) hordered
  intro d e hd he hde hed
  exact List.inj_on_of_nodup_map hnodup hd (hall.mem_iff.mpr he) (Location.le_antisymm hde hed)

theorem places_of_mem_complaints {program : Program} {fault? : Item → Option Error}
    {items : List Item} (hsub : ∀ item ∈ items, item ∈ program.items) {d : Diagnostic}
    (h : d ∈ complaints fault? items) : program.Places d := by
  obtain ⟨item, hitem, e, -, rfl⟩ := mem_complaints_iff.mp h
  exact .inr ⟨item, hsub item hitem, rfl⟩

theorem places_of_mem_reports {program : Program} {d : Diagnostic} (h : d ∈ reports program) :
    program.Places d := by
  rcases List.mem_append.mp h with h | h
  · rcases List.mem_append.mp h with h | h
    · exact .inl h
    · exact places_of_mem_complaints (fun item hitem => hitem) h
  · exact places_of_mem_complaints (fun item hitem => (List.mem_filter.mp hitem).1) h

/-- Items and diagnostics that follow only add reports of their own. -/
theorem exists_reports_append {items others : List Item} (h : Declared items)
    (ds es : List Diagnostic) :
    ∃ later, (reports ⟨items ++ others, ds ++ es⟩).Perm (reports ⟨items, ds⟩ ++ later) ∧
      ∀ e ∈ later, (Program.mk others es).Places e := by
  have hquiet : complaints (undefined? (.ofItems (items ++ others))) items = [] :=
    complaints_eq_nil fun item hitem => undefined?_of_prefix (prefix_ofItems_append _ _) (h item hitem)
  have hundef : complaints (undefined? (.ofItems (items ++ others))) (items ++ others) =
      complaints (undefined? (.ofItems (items ++ others))) others := by
    rw [complaints, List.filterMap_append, ← complaints, ← complaints, hquiet, List.nil_append]
  simp only [reports, declaredPart_eq_self h, complaints_eq_nil h, hundef, declaredPart_append h,
    complaints_overflow_append h]
  generalize hkept : keep (undefined? (.ofItems (items ++ others))) others = kept
  refine ⟨es ++ complaints (undefined? (.ofItems (items ++ others))) others ++
    complaints (overflow? (.ofItems (items ++ kept))) kept, ?_, ?_⟩
  · rw [List.perm_iff_count]
    intro d
    simp only [List.count_append, List.count_nil]
    omega
  · intro e he
    rcases List.mem_append.mp he with he | he
    · rcases List.mem_append.mp he with he | he
      · exact .inl he
      · exact places_of_mem_complaints (fun item hitem => hitem) he
    · subst hkept
      exact places_of_mem_complaints (fun item hitem => (List.mem_filter.mp hitem).1) he

/-! ## Whole assemblies -/

/-- Where no branch is reported as undeclared there is none. -/
theorem declared_of_diagnostics {program : Program}
    (h : ∀ d ∈ (ofProgram program).diagnostics, ∀ name, d.cause ≠ .undefinedLabel name) :
    Declared program.items := by
  intro item hitem
  cases hundef : undefined? (.ofItems program.items) item with
  | none => rfl
  | some e =>
    obtain ⟨name, -, -, rfl⟩ := undefined?_eq_some_iff.mp hundef
    have hcomplaint := mem_complaints_iff.mpr ⟨item, hitem, _, hundef, rfl⟩
    have hmem : Diagnostic.error (.line item.line) (.undefinedLabel name) ∈
        (ofProgram program).diagnostics := by
      refine (List.mergeSort_perm _ _).mem_iff.mpr ?_
      simp [reports, hcomplaint]
    exact absurd rfl (h _ hmem name)

section Append

variable {rs rest : List (Nat × Reading)}

/-- The items that are left of the first lines come first, and no branch among them is undeclared. -/
theorem exists_left_append (h : Declared (Program.ofReadings rs).items)
    (rest : List (Nat × Reading)) :
    ∃ others, fittingPart (declaredPart (Program.ofReadings (rs ++ rest)).items) =
        fittingPart (declaredPart (Program.ofReadings rs).items) ++ others ∧
      Declared (fittingPart (declaredPart (Program.ofReadings rs).items)) := by
  rw [ofReadings_append, declaredPart_append h, fittingPart_append h, declaredPart_eq_self h]
  exact ⟨_, rfl, declared_fittingPart h⟩

/-- The diagnostics of the first lines come first. -/
theorem diagnostics_prefix_append (h : Declared (Program.ofReadings rs).items)
    (hlines : ∀ r ∈ rs, ∀ s ∈ rest, r.1 < s.1)
    (hnodup : ((ofProgram (.ofReadings (rs ++ rest))).diagnostics.map Diagnostic.location).Nodup) :
    (ofProgram (.ofReadings rs)).diagnostics <+:
      (ofProgram (.ofReadings (rs ++ rest))).diagnostics := by
  rw [ofReadings_append] at hnodup ⊢
  obtain ⟨later, hperm, hplaces⟩ := exists_reports_append h (Program.ofReadings rs).diagnostics
    (Program.ofReadings rest).diagnostics
  refine ⟨inOrder later, (inOrder_eq_append hperm ?_ hnodup).symm⟩
  intro d hd e he
  obtain ⟨r, hr, hd⟩ := exists_reading_of_places (places_of_mem_reports hd)
  obtain ⟨s, hs, he⟩ := exists_reading_of_places (hplaces e he)
  rw [hd, he]
  simpa [Location.le] using (hlines r hr s hs).le

end Append

/-- Text that follows a source changes nothing about it if its branches name its own labels and its
last line is complete: its words, symbols and diagnostics are the first ones of the whole. -/
theorem appended_text_changes_nothing {settings : Settings} {source more : List Char}
    {a b : Assembly} (hend : source = [] ∨ source.getLast? = some '\n')
    (ha : assemble settings source = .ok a)
    (hdeclared : ∀ d ∈ a.diagnostics, ∀ name, d.cause ≠ .undefinedLabel name)
    (hb : assemble settings (source ++ more) = .ok b) :
    a.words <+: b.words ∧ a.symbols.symbols <+: b.symbols.symbols ∧
      a.diagnostics <+: b.diagnostics := by
  have hnodup := nodup_locations hb
  obtain ⟨program, hread, -, rfl⟩ := assemble_eq_ok_iff.mp ha
  obtain ⟨whole, hwhole, -, rfl⟩ := assemble_eq_ok_iff.mp hb
  obtain rfl := eq_ofReadings hread
  obtain rfl := eq_ofReadings hwhole
  have hordered := pairwise_readings settings (source ++ more)
  have hitems := declared_of_diagnostics hdeclared
  rw [readings_append settings hend] at hnodup hordered ⊢
  have hlines := (List.pairwise_append.mp hordered).2.2
  generalize ((Text.lines more).zipIdx _).map _ = rest at hnodup hlines ⊢
  obtain ⟨others, hleft, hkept⟩ := exists_left_append hitems rest
  refine ⟨?_, ?_, diagnostics_prefix_append hitems hlines hnodup⟩
  · simp only [ofProgram, hleft, wordsOf_append hkept]
    exact List.prefix_append _ _
  · simp only [ofProgram, hleft]
    exact prefix_ofItems_append _ _

theorem getLast?_jumpOver (n : Nat) : (jumpOver n).getLast? = some '\n' := by
  unfold jumpOver
  rw [← List.cons_append, List.flatMap_append, List.getLast?_append]
  rfl

/-- A jump that follows a source declares nothing. -/
theorem labelsOf_jumpOver_append (n : Nat) :
    labelsOf (Program.ofReadings (readings {} (jumpOver n ++ "JUMP far\n".toList))).items =
      [(n + 2, "far")] := by
  have hpink : (pinkReadings 2 n).filterMap (fun r => r.2.label.map (r.1, ·)) = [] := by
    rw [List.filterMap_eq_nil_iff]
    intro r hr
    obtain ⟨k, -, rfl⟩ := List.mem_map.mp hr
    rfl
  rw [Program.ofReadings, labelsOf_flatMap_items, readings_append _ (.inr (getLast?_jumpOver n)),
    readings_jumpOver, List.filterMap_append, List.filterMap_cons_none rfl, List.filterMap_append,
    hpink]
  rfl

/-- A second jump that follows does not bring the dropped one back, nor does it move the label, which
is within reach now. -/
theorem jumpOver_unchanged :
    assemble {} (jumpOver 2047) = .ok jumpOverAssembled ∧
      ∃ b, assemble {} (jumpOver 2047 ++ "JUMP far\n".toList) = .ok b ∧
        jumpOverAssembled.words <+: b.words ∧ [⟨"far", 2047, 2049⟩] <+: b.symbols.symbols ∧
        [.error (.line 1) (.addressOverflow "far" 2048)] <+: b.diagnostics := by
  obtain ⟨program, hread⟩ :=
    exists_readProgram_skip (some "0x1F6") (jumpOver 2047 ++ "JUMP far\n".toList)
  have hnodup : ((labelsOf program.items).map Prod.snd).Nodup := by
    rw [eq_ofReadings hread]
    exact (labelsOf_jumpOver_append 2047).symm ▸ List.nodup_singleton _
  have hb := assemble_eq_ok_iff.mpr ⟨program, hread, hnodup, rfl⟩
  have hdeclared : ∀ d ∈ jumpOverAssembled.diagnostics, ∀ name, d.cause ≠ .undefinedLabel name := by
    intro d hd name
    obtain rfl := List.mem_singleton.mp hd
    simp [Diagnostic.error]
  exact ⟨assemble_jumpOver, _, hb, appended_text_changes_nothing (.inr (getLast?_jumpOver 2047))
    assemble_jumpOver hdeclared hb⟩

end Assembly

end Hue

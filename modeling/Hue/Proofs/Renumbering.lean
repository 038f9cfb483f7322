import Hue.Proofs.Appending

/-!
Renumbering lines. The line of an item is carried along and put into diagnostics and symbols, but no
stage of an assembly decides anything by it. So every stage commutes with giving the lines new
numbers. Only the order of the diagnostics depends on the numbers, and there it is enough that the
new ones are in the same order as the old ones.
-/
namespace Hue

open Source

/-! ## What carries a line -/

def Location.renumber (f : Nat → Nat) : Location → Location
  | line number => line (f number)
  | word index => word index

def Diagnostic.renumber (f : Nat → Nat) (d : Diagnostic) : Diagnostic :=
  { d with location := d.location.renumber f }

def Symbol.renumber (f : Nat → Nat) (s : Symbol) : Symbol := { s with line := f s.line }

/-- Only the error about a label that is declared twice speaks of a line. -/
def Error.renumber (f : Nat → Nat) : Error → Error
  | duplicateLabel name first => duplicateLabel name (f first)
  | e => e

namespace Source

def Item.renumber (f : Nat → Nat) (item : Item) : Item := { item with line := f item.line }

def Program.renumber (f : Nat → Nat) (program : Program) : Program :=
  ⟨program.items.map (Item.renumber f), program.diagnostics.map (Diagnostic.renumber f)⟩

@[simp] theorem Item.branchLabel?_renumber (f : Nat → Nat) (item : Item) :
    (item.renumber f).branchLabel? = item.branchLabel? := rfl

theorem labelsOf_renumber (f : Nat → Nat) (items : List Item) :
    labelsOf (items.map (Item.renumber f)) = (labelsOf items).map fun p => (f p.1, p.2) := by
  induction items with
  | nil => rfl
  | cons item items ih =>
    obtain ⟨line, content⟩ := item
    cases content with
    | label name => exact congrArg ((f line, name) :: ·) ih
    | statement s => exact ih

/-- The new numbers of lines are in the order of the old ones. -/
def KeepsOrder (f : Nat → Nat) (lines : List Nat) : Prop :=
  ∀ m ∈ lines, ∀ n ∈ lines, m < n → f m < f n

theorem KeepsOrder.le_iff {f : Nat → Nat} {lines : List Nat} (h : KeepsOrder f lines) {m n : Nat}
    (hm : m ∈ lines) (hn : n ∈ lines) : f m ≤ f n ↔ m ≤ n := by
  rcases Nat.lt_trichotomy m n with hlt | rfl | hgt
  · have := h m hm n hn hlt
    omega
  · simp
  · have := h n hn m hm hgt
    omega

/-! ## Reading -/

theorem Reading.items_renumber (f : Nat → Nat) (line : Nat) (reading : Reading) :
    reading.items (f line) = (reading.items line).map (Item.renumber f) := by
  rw [items_eq, items_eq, List.map_append, List.map_map, List.map_map]
  rfl

theorem Reading.diagnostic?_renumber (f : Nat → Nat) (line : Nat) (reading : Reading) :
    reading.diagnostic? (f line) = (reading.diagnostic? line).map (Diagnostic.renumber f) := by
  unfold diagnostic?
  split <;> rfl

theorem ofReadings_renumber (f : Nat → Nat) (rs : List (Nat × Reading)) :
    Program.ofReadings (rs.map fun r => (f r.1, r.2)) = (Program.ofReadings rs).renumber f := by
  simp only [Program.ofReadings, Program.renumber, List.flatMap_map, List.filterMap_map,
    List.map_flatMap, List.map_filterMap, Reading.items_renumber, Function.comp_def,
    Reading.diagnostic?_renumber]

end Source

/-! ## Tables -/

namespace SymbolTable

def renumber (f : Nat → Nat) (table : SymbolTable) : SymbolTable :=
  .ofSymbols (table.symbols.map (Symbol.renumber f))

theorem declarations_renumber (f : Nat → Nat) (start : Nat) (items : List Item) :
    declarations start (items.map (Item.renumber f)) =
      (declarations start items).map (Symbol.renumber f) := by
  induction items generalizing start with
  | nil => rfl
  | cons item items ih =>
    obtain ⟨line, content⟩ := item
    cases content with
    | label name => exact congrArg (⟨name, start, f line⟩ :: ·) (ih start)
    | statement s => exact ih (start + 1)

theorem ofItems_renumber (f : Nat → Nat) (items : List Item) :
    ofItems (items.map (Item.renumber f)) = (ofItems items).renumber f := by
  rw [ofItems, declarations_renumber]
  rfl

/-- Symbols are found by their names, so the same ones are found. -/
theorem lookup?_renumber (f : Nat → Nat) (table : SymbolTable) (name : String) :
    (table.renumber f).lookup? name = (table.lookup? name).map (Symbol.renumber f) := by
  rw [lookup?_eq_find?, lookup?_eq_find?, renumber, symbols_ofSymbols, List.find?_map]
  rfl

@[simp] theorem address?_renumber (f : Nat → Nat) (table : SymbolTable) (name : String) :
    (table.renumber f).address? name = table.address? name := by
  rw [address?, address?, lookup?_renumber, Option.map_map]
  rfl

/-- A name that is declared twice stays so, and only the line of its first declaration moves. -/
theorem build_renumber_of_error (f : Nat → Nat) {items : List Item} {e : Error}
    (h : build items = .error e) :
    build (items.map (Item.renumber f)) = .error (e.renumber f) := by
  obtain ⟨before, after, first, line, name, hsplit, hnodup, hmem, rfl⟩ := build_eq_error_iff.mp h
  have hnames : (before.map fun p => (f p.1, p.2)).map Prod.snd = before.map Prod.snd := by
    rw [List.map_map]
    rfl
  refine build_eq_error_iff.mpr ⟨before.map fun p => (f p.1, p.2), after.map fun p => (f p.1, p.2),
    f first, f line, name, ?_, hnames ▸ hnodup, List.mem_map.mpr ⟨_, hmem, rfl⟩, rfl⟩
  rw [labelsOf_renumber, hsplit, List.map_append, List.map_cons]

end SymbolTable

namespace Assembly

/-! ## Faults and words -/

theorem undefined?_renumber (f : Nat → Nat) (table : SymbolTable) (item : Item) :
    undefined? (table.renumber f) (item.renumber f) = undefined? table item := by
  simp only [undefined?, Item.branchLabel?_renumber, SymbolTable.lookup?_renumber,
    Option.isNone_map]

theorem overflow?_renumber (f : Nat → Nat) (table : SymbolTable) (item : Item) :
    overflow? (table.renumber f) (item.renumber f) = overflow? table item := by
  simp only [overflow?, Item.branchLabel?_renumber, SymbolTable.address?_renumber]

theorem encodeItem?_renumber (f : Nat → Nat) (table : SymbolTable) (item : Item) :
    encodeItem? (table.renumber f) (item.renumber f) = encodeItem? table item := by
  obtain ⟨line, content⟩ := item
  cases content with
  | label name => rfl
  | statement s =>
    cases s with
    | word w => rfl
    | instruction i =>
      have hresolve : resolve (table.renumber f) i = resolve table i := by
        simp only [resolve, SymbolTable.address?_renumber]
      simp only [encodeItem?, Item.renumber, encodeStatement, hresolve]

section Stage

variable {f : Nat → Nat} {moved? fault? : Item → Option Error}

theorem keep_renumber (h : ∀ item, moved? (item.renumber f) = fault? item) (items : List Item) :
    keep moved? (items.map (Item.renumber f)) = (keep fault? items).map (Item.renumber f) := by
  rw [keep, keep, List.filter_map]
  simp only [Function.comp_def, h]

theorem complaints_renumber (h : ∀ item, moved? (item.renumber f) = fault? item)
    (items : List Item) :
    complaints moved? (items.map (Item.renumber f)) =
      (complaints fault? items).map (Diagnostic.renumber f) := by
  rw [complaints, complaints, List.filterMap_map, List.map_filterMap]
  simp only [Function.comp_def, h, Option.map_map]
  rfl

end Stage

theorem declaredPart_renumber (f : Nat → Nat) (items : List Item) :
    declaredPart (items.map (Item.renumber f)) = (declaredPart items).map (Item.renumber f) := by
  rw [declaredPart, SymbolTable.ofItems_renumber]
  exact keep_renumber (undefined?_renumber f _) items

theorem fittingPart_renumber (f : Nat → Nat) (items : List Item) :
    fittingPart (items.map (Item.renumber f)) = (fittingPart items).map (Item.renumber f) := by
  rw [fittingPart, SymbolTable.ofItems_renumber]
  exact keep_renumber (overflow?_renumber f _) items

theorem wordsOf_renumber (f : Nat → Nat) (table : SymbolTable) (items : List Item) :
    wordsOf (table.renumber f) (items.map (Item.renumber f)) = wordsOf table items := by
  rw [wordsOf, wordsOf, List.filterMap_map]
  simp only [Function.comp_def, encodeItem?_renumber]

/-! ## Diagnostics -/

theorem reports_renumber (f : Nat → Nat) (program : Program) :
    reports (program.renumber f) = (reports program).map (Diagnostic.renumber f) := by
  simp only [reports, Program.renumber, declaredPart_renumber, SymbolTable.ofItems_renumber,
    complaints_renumber (undefined?_renumber f _), complaints_renumber (overflow?_renumber f _),
    List.map_append]

/-- Sorting by the new numbers gives the order of the old ones. -/
theorem inOrder_renumber {f : Nat → Nat} {lines : List Nat} (h : KeepsOrder f lines)
    {ds : List Diagnostic} (hds : ∀ d ∈ ds, ∃ n ∈ lines, d.location = .line n) :
    inOrder (ds.map (Diagnostic.renumber f)) = (inOrder ds).map (Diagnostic.renumber f) := by
  refine (List.map_mergeSort ?_).symm
  intro d hd e he
  obtain ⟨m, hm, hdm⟩ := hds d hd
  obtain ⟨n, hn, hen⟩ := hds e he
  simp only [Diagnostic.renumber, hdm, hen, Location.renumber, Location.le, h.le_iff hm hn]

/-! ## Assemblies -/

def renumber (f : Nat → Nat) (a : Assembly) : Assembly :=
  ⟨a.words, a.symbols.renumber f, a.diagnostics.map (Diagnostic.renumber f)⟩

theorem ofProgram_renumber {f : Nat → Nat} {rs : List (Nat × Reading)}
    (h : KeepsOrder f (rs.map Prod.fst)) :
    ofProgram ((Program.ofReadings rs).renumber f) = (ofProgram (.ofReadings rs)).renumber f := by
  have hplaces : ∀ d ∈ reports (.ofReadings rs), ∃ n ∈ rs.map Prod.fst, d.location = .line n := by
    intro d hd
    obtain ⟨r, hr, hloc⟩ := exists_reading_of_places (places_of_mem_reports hd)
    exact ⟨r.1, List.mem_map_of_mem hr, hloc⟩
  simp only [ofProgram, renumber, reports_renumber, inOrder_renumber h hplaces]
  simp only [Program.renumber, declaredPart_renumber, fittingPart_renumber,
    SymbolTable.ofItems_renumber, wordsOf_renumber]

end Assembly

end Hue

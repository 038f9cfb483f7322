import Hue.Proofs.Result
import Hue.SymbolTable

/-!
The table of a row of items. It lists the labels in the order of their declarations, and the
address of each is the number of statements before it. Items that come from a source are in the
order of their lines, so that number can be read off the lines alone.
-/
namespace Hue

open Source

namespace Source

/-- The label that an item declares, with its line. -/
def Item.declared? (item : Item) : Option (Nat × String) :=
  match item.content with
  | .label name => some (item.line, name)
  | .statement _ => none

/-- The labels that items declare, each with its line. -/
def labelsOf (items : List Item) : List (Nat × String) := items.filterMap Item.declared?

@[simp] theorem Item.isStatement_label (line : Nat) (name : String) :
    Item.isStatement ⟨line, .label name⟩ = false := rfl

@[simp] theorem Item.isStatement_statement (line : Nat) (s : Statement) :
    Item.isStatement ⟨line, .statement s⟩ = true := rfl

@[simp] theorem labelsOf_cons_label (line : Nat) (name : String) (items : List Item) :
    labelsOf (⟨line, .label name⟩ :: items) = (line, name) :: labelsOf items := rfl

@[simp] theorem labelsOf_cons_statement (line : Nat) (s : Statement) (items : List Item) :
    labelsOf (⟨line, .statement s⟩ :: items) = labelsOf items := rfl

theorem mem_labelsOf_iff {items : List Item} {line : Nat} {name : String} :
    (line, name) ∈ labelsOf items ↔ ⟨line, .label name⟩ ∈ items := by
  rw [labelsOf, List.mem_filterMap]
  constructor
  · rintro ⟨⟨number, content⟩, hitem, hdecl⟩
    cases content with
    | statement s => simp [Item.declared?] at hdecl
    | label other =>
      obtain ⟨rfl, rfl⟩ : number = line ∧ other = name := by simpa [Item.declared?] using hdecl
      exact hitem
  · exact fun hitem => ⟨_, hitem, rfl⟩

/-- A declaration among the labels is one of the items, with the earlier labels before it. -/
theorem exists_split_labelsOf {items : List Item} {before after : List (Nat × String)} {line : Nat}
    {name : String} (h : labelsOf items = before ++ (line, name) :: after) :
    ∃ front back, items = front ++ ⟨line, .label name⟩ :: back ∧ labelsOf front = before := by
  obtain ⟨left, right, rfl, hleft, hright⟩ := List.filterMap_eq_append_iff.mp h
  obtain ⟨skipped, item, back, rfl, hskipped, hitem, -⟩ := List.filterMap_eq_cons_iff.mp hright
  obtain ⟨number, content⟩ := item
  cases content with
  | statement s => simp [Item.declared?] at hitem
  | label other =>
    obtain ⟨rfl, rfl⟩ : number = line ∧ other = name := by simpa [Item.declared?] using hitem
    refine ⟨left ++ skipped, back, by simp, ?_⟩
    rw [labelsOf, List.filterMap_append, hleft, List.filterMap_eq_nil_iff.mpr hskipped,
      List.append_nil]

theorem labelsOf_append_label (front : List Item) (line : Nat) (name : String)
    (back : List Item) :
    labelsOf (front ++ ⟨line, .label name⟩ :: back) =
      labelsOf front ++ (line, name) :: labelsOf back := by
  rw [labelsOf, List.filterMap_append]
  rfl

/-- The order of a source: later items are on later lines, except that a statement may follow a
label on its line. -/
def Ordered (items : List Item) : Prop :=
  items.Pairwise fun x y =>
    x.line < y.line ∨ x.line = y.line ∧ x.isStatement = false ∧ y.isStatement = true

theorem Ordered.filter {items : List Item} (h : Ordered items) (p : Item → Bool) :
    Ordered (items.filter p) :=
  List.Pairwise.sublist List.filter_sublist h

/-- No two statements are on one line. -/
theorem Ordered.eq_of_line_eq {items : List Item} (h : Ordered items) {x y : Item}
    (hx : x ∈ items) (hy : y ∈ items) (hsx : x.isStatement = true) (hsy : y.isStatement = true)
    (hline : x.line = y.line) : x = y := by
  induction items with
  | nil => simp at hx
  | cons item items ih =>
    obtain ⟨hfirst, hrest⟩ := List.pairwise_cons.mp h
    rcases List.mem_cons.mp hx with rfl | hx'
    · rcases List.mem_cons.mp hy with rfl | hy'
      · rfl
      · rcases hfirst y hy' with hlt | ⟨-, hlabel, -⟩
        · omega
        · simp [hsx] at hlabel
    · rcases List.mem_cons.mp hy with rfl | hy'
      · rcases hfirst x hx' with hlt | ⟨-, hlabel, -⟩
        · omega
        · simp [hsy] at hlabel
      · exact ih hrest hx' hy'

end Source

namespace SymbolTable

/-! ## Declarations -/

/-- The declarations among items, the first of which has the address `start`. -/
def declarations (start : Nat) : List Item → List Symbol
  | [] => []
  | ⟨line, .label name⟩ :: items => ⟨name, start, line⟩ :: declarations start items
  | ⟨_, .statement _⟩ :: items => declarations (start + 1) items

theorem map_declarations (start : Nat) (items : List Item) :
    (declarations start items).map (fun s => (s.line, s.name)) = labelsOf items := by
  induction items generalizing start with
  | nil => rfl
  | cons item items ih =>
    obtain ⟨line, content⟩ := item
    cases content with
    | label name => simp [declarations, ih start]
    | statement s => simp [declarations, ih (start + 1)]

theorem map_name_declarations (start : Nat) (items : List Item) :
    (declarations start items).map Symbol.name = (labelsOf items).map Prod.snd := by
  rw [← map_declarations start items, List.map_map]
  rfl

/-- Later items take the addresses after those of earlier ones. -/
theorem declarations_append (start : Nat) (items others : List Item) :
    declarations start (items ++ others) =
      declarations start items ++ declarations (start + items.countP Item.isStatement) others := by
  induction items generalizing start with
  | nil => rfl
  | cons item items ih =>
    obtain ⟨line, content⟩ := item
    cases content with
    | label name =>
      rw [List.countP_cons_of_neg (by simp)]
      exact congrArg (⟨name, start, line⟩ :: ·) (ih start)
    | statement s =>
      rw [List.countP_cons_of_pos rfl, ← Nat.add_assoc, Nat.add_right_comm]
      exact ih (start + 1)

/-- Nothing after a label is on an earlier line. -/
theorem countP_after_label {line : Nat} {name : String} {items : List Item}
    (ho : Ordered (⟨line, .label name⟩ :: items)) :
    items.countP (fun item => item.isStatement && decide (item.line < line)) = 0 := by
  rw [List.countP_eq_zero]
  intro item hitem
  have hle : line ≤ item.line := by
    rcases (List.pairwise_cons.mp ho).1 item hitem with hlt | ⟨heq, -, -⟩
    · exact Nat.le_of_lt hlt
    · exact Nat.le_of_eq heq
  simp [Nat.not_lt.mpr hle]

/-- A label that is declared after a statement is on a later line. -/
theorem line_lt_of_declared {line start : Nat} {s : Statement} {items : List Item}
    (ho : Ordered (⟨line, .statement s⟩ :: items)) {symbol : Symbol}
    (h : symbol ∈ declarations start items) : line < symbol.line := by
  have hmem : (symbol.line, symbol.name) ∈ labelsOf items := by
    rw [← map_declarations start]
    exact List.mem_map_of_mem h
  rcases (List.pairwise_cons.mp ho).1 _ (mem_labelsOf_iff.mp hmem) with hlt | ⟨-, hlabel, -⟩
  · exact hlt
  · simp at hlabel

/-- The address of a label is the number of statements on the lines before it. -/
theorem address_eq_countP {start : Nat} {items : List Item} (ho : Ordered items)
    {symbol : Symbol} (h : symbol ∈ declarations start items) :
    symbol.address =
      start + items.countP fun item => item.isStatement && decide (item.line < symbol.line) := by
  induction items generalizing start with
  | nil => simp [declarations] at h
  | cons item items ih =>
    have hrest : Ordered items := (List.pairwise_cons.mp ho).2
    obtain ⟨line, content⟩ := item
    cases content with
    | label name =>
      simp only [declarations, List.mem_cons] at h
      rcases h with rfl | h
      · rw [List.countP_cons, countP_after_label ho]
        simp
      · simpa [List.countP_cons] using ih hrest h
    | statement s =>
      have hlater : symbol ∈ declarations (start + 1) items := h
      rw [ih hrest hlater]
      simp only [List.countP_cons, Item.isStatement_statement, line_lt_of_declared ho hlater,
        decide_true, Bool.and_true, ↓reduceIte]
      omega

/-! ## Looking a name up -/

theorem lookup?_eq_none_iff (table : SymbolTable) (name : String) :
    table.lookup? name = none ↔ name ∉ table.symbols.map Symbol.name := by
  rw [lookup?_eq_find?, List.find?_eq_none]
  simp

/-- A table with more symbols after the same ones finds what the shorter one finds. -/
theorem lookup?_of_prefix {table other : SymbolTable} (h : table.symbols <+: other.symbols)
    {name : String} {symbol : Symbol} (hfound : table.lookup? name = some symbol) :
    other.lookup? name = some symbol := by
  obtain ⟨rest, hrest⟩ := h
  rw [lookup?_eq_find?] at hfound ⊢
  rw [← hrest, List.find?_append, hfound]
  rfl

/-- Where no name is declared twice, each symbol is found by its name. -/
theorem lookup?_eq_some_iff {table : SymbolTable} (h : (table.symbols.map Symbol.name).Nodup)
    {name : String} {symbol : Symbol} :
    table.lookup? name = some symbol ↔ symbol ∈ table.symbols ∧ symbol.name = name := by
  rw [lookup?_eq_find?]
  constructor
  · intro hfind
    exact ⟨List.mem_of_find?_eq_some hfind, by simpa using List.find?_some hfind⟩
  · rintro ⟨hmem, rfl⟩
    obtain ⟨before, after, hsplit⟩ := List.append_of_mem hmem
    rw [List.find?_eq_some_iff_append]
    refine ⟨by simp, before, after, hsplit, ?_⟩
    intro other hother
    rw [hsplit, List.map_append, List.map_cons, List.nodup_append] at h
    simpa using h.2.2 other.name (List.mem_map_of_mem hother) symbol.name (by simp)

theorem address?_eq_some_iff {table : SymbolTable}
    (h : (table.symbols.map Symbol.name).Nodup) {name : String} {address : Nat} :
    table.address? name = some address ↔
      ∃ symbol ∈ table.symbols, symbol.name = name ∧ symbol.address = address := by
  simp only [address?, Option.map_eq_some_iff, lookup?_eq_some_iff h, and_assoc]

/-! ## Inserting a symbol -/

theorem ofSymbols_symbols (table : SymbolTable) : ofSymbols table.symbols = table :=
  ext_symbols (symbols_ofSymbols _)

/-- A symbol with a new name goes to the end of the table. -/
theorem insert_eq_ok_iff {table after : SymbolTable} {name : String} {address line : Nat} :
    table.insert name address line = .ok after ↔
      name ∉ table.symbols.map Symbol.name ∧
        after = ofSymbols (table.symbols ++ [⟨name, address, line⟩]) := by
  rw [← lookup?_eq_none_iff]
  unfold insert
  split
  case h_1 existing h => simp [h]
  case h_2 h =>
    have hpush : (⟨table.entries.push ⟨name, address, line⟩,
        table.index.insert name table.entries.size,
        positions_push ⟨name, address, line⟩ h⟩ : SymbolTable) =
          ofSymbols (table.symbols ++ [⟨name, address, line⟩]) := by
      ext1
      rw [symbols_ofSymbols]
      exact Array.toList_push
    simp only [h, hpush, Except.ok.injEq, true_and, eq_comm]

/-- A name that is there is rejected with the line of its symbol. -/
theorem insert_eq_error_iff {table : SymbolTable} {name : String} {address line : Nat} {e : Error} :
    table.insert name address line = .error e ↔
      ∃ first, table.lookup? name = some first ∧ e = .duplicateLabel name first.line := by
  unfold insert
  split
  case h_1 existing h => simp [h, eq_comm]
  case h_2 h => simp [h]

theorem advance_label_eq_ok_iff {table : SymbolTable} {name : String} {count line : Nat}
    {next : SymbolTable × Nat} :
    advance (table, count) ⟨line, .label name⟩ = .ok next ↔
      name ∉ table.symbols.map Symbol.name ∧
        next = (ofSymbols (table.symbols ++ [⟨name, count, line⟩]), count) := by
  simp only [advance, map_eq_ok, insert_eq_ok_iff, and_assoc, exists_and_left, exists_eq_left]
  exact and_congr_right fun _ => eq_comm

theorem advance_eq_error_iff {state : SymbolTable × Nat} {item : Item} {e : Error} :
    advance state item = .error e ↔
      ∃ name first, item = ⟨item.line, .label name⟩ ∧ state.1.lookup? name = some first ∧
        e = .duplicateLabel name first.line := by
  obtain ⟨line, content⟩ := item
  cases content with
  | label name => simp [advance, map_eq_error, insert_eq_error_iff]
  | statement s => simp [advance]

/-! ## Building a table -/

/-- Going past more items: each label needs a new name and goes to the end of the table with the
number of statements so far. -/
theorem foldlM_advance_eq_ok_iff {table after : SymbolTable} {items : List Item}
    {count total : Nat} (hdistinct : (table.symbols.map Symbol.name).Nodup) :
    items.foldlM advance (table, count) = .ok (after, total) ↔
      (table.symbols.map Symbol.name ++ (labelsOf items).map Prod.snd).Nodup ∧
        after = ofSymbols (table.symbols ++ declarations count items) ∧
        total = count + items.countP Item.isStatement := by
  induction items generalizing table count with
  | nil =>
    simp only [List.foldlM_nil, labelsOf, List.filterMap_nil, List.map_nil, List.append_nil,
      hdistinct, declarations, ofSymbols_symbols, List.countP_nil, Nat.add_zero, true_and]
    constructor
    · intro h
      cases h
      exact ⟨rfl, rfl⟩
    · rintro ⟨rfl, rfl⟩
      rfl
  | cons item items ih =>
    obtain ⟨line, content⟩ := item
    rw [List.foldlM_cons, bind_eq_ok]
    cases content with
    | label name =>
      have hnext : ((ofSymbols (table.symbols ++ [⟨name, count, line⟩])).symbols.map
          Symbol.name).Nodup ↔ name ∉ table.symbols.map Symbol.name := by
        rw [symbols_ofSymbols, List.map_append, List.nodup_append]
        simp [hdistinct]
      have hnames : table.symbols.map Symbol.name ++
            (labelsOf (⟨line, .label name⟩ :: items)).map Prod.snd =
          (ofSymbols (table.symbols ++ [⟨name, count, line⟩])).symbols.map Symbol.name ++
            (labelsOf items).map Prod.snd := by
        simp
      have hsymbols : table.symbols ++ declarations count (⟨line, .label name⟩ :: items) =
          (ofSymbols (table.symbols ++ [⟨name, count, line⟩])).symbols ++ declarations count items := by
        simp [declarations]
      rw [hnames, hsymbols, List.countP_cons_of_neg (by simp)]
      constructor
      · rintro ⟨_, hstep, hrun⟩
        obtain ⟨hnew, rfl⟩ := advance_label_eq_ok_iff.mp hstep
        exact (ih (hnext.mpr hnew)).mp hrun
      · rintro ⟨hnodup, hresult⟩
        have hfresh := (List.nodup_append.mp hnodup).1
        exact ⟨_, advance_label_eq_ok_iff.mpr ⟨hnext.mp hfresh, rfl⟩,
          (ih hfresh).mpr ⟨hnodup, hresult⟩⟩
    | statement s =>
      have hstep : advance (table, count) ⟨line, .statement s⟩ = .ok (table, count + 1) := rfl
      rw [List.countP_cons_of_pos rfl, ← Nat.add_assoc, Nat.add_right_comm, labelsOf_cons_statement]
      simp only [hstep, Except.ok.injEq, exists_eq_left']
      exact ih hdistinct

/-- A table is built exactly when no label is declared twice. -/
theorem build_eq_ok_iff {items : List Item} {table : SymbolTable} {count : Nat} :
    build items = .ok (table, count) ↔
      ((labelsOf items).map Prod.snd).Nodup ∧
        table = ofSymbols (declarations 0 items) ∧ count = items.countP Item.isStatement := by
  have hstart : (empty.symbols.map Symbol.name).Nodup := List.nodup_nil
  have hrun := @foldlM_advance_eq_ok_iff empty table items 0 count hstart
  rwa [Nat.zero_add] at hrun

theorem names_of_build {items : List Item} {table : SymbolTable} {count : Nat}
    (h : build items = .ok (table, count)) :
    table.symbols.map Symbol.name = (labelsOf items).map Prod.snd := by
  rw [(build_eq_ok_iff.mp h).2.1, symbols_ofSymbols, map_name_declarations]

theorem exists_build_eq_error_iff {items : List Item} :
    (∃ e, build items = .error e) ↔ ¬((labelsOf items).map Prod.snd).Nodup := by
  cases hbuild : build items with
  | error e =>
    refine ⟨fun _ hnodup => ?_, fun _ => ⟨e, rfl⟩⟩
    rw [build_eq_ok_iff.mpr ⟨hnodup, rfl, rfl⟩] at hbuild
    cases hbuild
  | ok built => simp [(build_eq_ok_iff.mp hbuild).1]

/-- The labels of a table that was built, each with its line. -/
theorem exists_lookup?_of_build {items : List Item} {table : SymbolTable} {count : Nat}
    (h : build items = .ok (table, count)) {line : Nat} {name : String} :
    (∃ symbol, table.lookup? name = some symbol ∧ symbol.line = line) ↔
      (line, name) ∈ labelsOf items := by
  obtain ⟨hnodup, rfl, -⟩ := build_eq_ok_iff.mp h
  rw [← names_of_build h] at hnodup
  rw [← map_declarations 0 items]
  simp only [lookup?_eq_some_iff hnodup, symbols_ofSymbols, List.mem_map, Prod.mk.injEq, and_assoc,
    and_comm]

/-- Otherwise the error is about the first declaration that repeats a name, and gives the line on
which this name was declared before. -/
theorem build_eq_error_iff {items : List Item} {e : Error} :
    build items = .error e ↔
      ∃ before after first line name, labelsOf items = before ++ (line, name) :: after ∧
        (before.map Prod.snd).Nodup ∧ (first, name) ∈ before ∧ e = .duplicateLabel name first := by
  rw [build, foldlM_eq_error_iff]
  constructor
  · rintro ⟨before, item, after, ⟨table, count⟩, rfl, hbuild, hfail⟩
    obtain ⟨name, first, hitem, hfirst, rfl⟩ := advance_eq_error_iff.mp hfail
    refine ⟨labelsOf before, labelsOf after, first.line, item.line, name, ?_,
      (build_eq_ok_iff.mp hbuild).1, (exists_lookup?_of_build hbuild).mp ⟨first, hfirst, rfl⟩, rfl⟩
    rw [hitem]
    exact labelsOf_append_label before item.line name after
  · rintro ⟨before, after, first, line, name, hsplit, hnodup, hmem, rfl⟩
    obtain ⟨front, back, rfl, rfl⟩ := exists_split_labelsOf hsplit
    have hbuild := build_eq_ok_iff.mpr ⟨hnodup, rfl, rfl⟩
    obtain ⟨symbol, hsymbol, rfl⟩ := (exists_lookup?_of_build hbuild).mpr hmem
    exact ⟨front, _, back, _, rfl, hbuild, advance_eq_error_iff.mpr ⟨name, symbol, rfl, hsymbol, rfl⟩⟩

end SymbolTable

end Hue

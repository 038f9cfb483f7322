import Hue.Proofs.SymbolTable

/-!
Declared labels. A table is built exactly when no name is declared twice. It then lists the labels
in their order, each with its line and with the number of statements before it, and finds each of
them by its name. Otherwise the error is about the first item that repeats a name. Names need not
be such as a source can hold.
-/
namespace Hue

open Source

namespace Source

/-! ## Items that declare a name -/

/-- Whether an item declares a label of that name. -/
def Item.declares (name : String) (item : Item) : Bool := item.content == .label name

theorem Item.declares_iff {name : String} {item : Item} :
    item.declares name = true ↔ item = ⟨item.line, .label name⟩ := by
  obtain ⟨line, content⟩ := item
  simp [declares]

/-- A name is among the labels as often as there are items that declare it. -/
theorem count_labelsOf (name : String) (items : List Item) :
    ((labelsOf items).map Prod.snd).count name = items.countP (Item.declares name) := by
  induction items with
  | nil => rfl
  | cons item items ih =>
    obtain ⟨line, content⟩ := item
    cases content with
    | label other =>
      rw [labelsOf_cons_label, List.map_cons, List.count_cons, List.countP_cons, ih]
      simp [Item.declares]
    | statement s =>
      rw [labelsOf_cons_statement, List.countP_cons, ih]
      simp [Item.declares]

/-- The labels are distinct exactly when no name is declared twice. -/
theorem nodup_labelsOf_iff {items : List Item} :
    ((labelsOf items).map Prod.snd).Nodup ↔
      ∀ name, items.countP (Item.declares name) ≤ 1 := by
  simp only [List.nodup_iff_count, count_labelsOf]

/-- Where names are distinct, the first declaration of a name is the only one. -/
theorem find?_declares_of_mem {items : List Item} (h : ((labelsOf items).map Prod.snd).Nodup)
    {line : Nat} {name : String} (hmem : (line, name) ∈ labelsOf items) :
    items.find? (Item.declares name) = some ⟨line, .label name⟩ := by
  obtain ⟨before, after, rfl⟩ := List.append_of_mem (mem_labelsOf_iff.mp hmem)
  rw [List.find?_eq_some_iff_append]
  refine ⟨by simp [Item.declares], before, after, rfl, ?_⟩
  intro other hother
  rw [Bool.not_eq_true']
  rw [nodup_labelsOf_iff] at h
  have hone := h name
  rw [List.countP_append, List.countP_cons_of_pos (by simp [Item.declares])] at hone
  have hzero : before.countP (Item.declares name) = 0 := by omega
  simpa using List.countP_eq_zero.mp hzero other hother

theorem mem_labelsOf_of_find? {items : List Item} {name : String} {first : Item}
    (h : items.find? (Item.declares name) = some first) : (first.line, name) ∈ labelsOf items := by
  have hfirst := Item.declares_iff.mp (List.find?_some h)
  rw [mem_labelsOf_iff, ← hfirst]
  exact List.mem_of_find?_eq_some h

end Source

namespace SymbolTable

/-! ## Symbols by position -/

/-- The symbol of a label that has `address` statements before it. -/
def symbolOf? (address : Nat) (item : Item) : Option Symbol :=
  match item.content with
  | .label name => some ⟨name, address, item.line⟩
  | .statement _ => none

/-- The symbols of the labels among items, each with the number of statements before it. -/
def symbolsOf (items : List Item) : List Symbol :=
  items.zipIdx.filterMap fun p => symbolOf? ((items.take p.2).countP Item.isStatement) p.1

/-- Counting addresses along the items gives each label the number of statements before it. -/
theorem declarations_countP (before items : List Item) :
    declarations (before.countP Item.isStatement) items =
      (items.zipIdx before.length).filterMap fun p =>
        symbolOf? (((before ++ items).take p.2).countP Item.isStatement) p.1 := by
  -- the items that are passed go to the end of those before
  induction items generalizing before with
  | nil => rfl
  | cons item items ih =>
    have hnext := ih (before ++ [item])
    rw [List.countP_append, List.append_assoc, List.singleton_append, List.length_append,
      List.length_singleton] at hnext
    rw [List.zipIdx_cons, List.filterMap_cons, List.take_left, ← hnext]
    obtain ⟨line, content⟩ := item
    cases content with
    | label name => rfl
    | statement s => rfl

theorem declarations_eq_symbolsOf (items : List Item) : declarations 0 items = symbolsOf items :=
  declarations_countP [] items

theorem address_of_mem_declarations {start : Nat} {items : List Item} {symbol : Symbol}
    (h : symbol ∈ declarations start items) :
    start ≤ symbol.address ∧ symbol.address ≤ start + items.countP Item.isStatement := by
  induction items generalizing start with
  | nil => simp [declarations] at h
  | cons item items ih =>
    obtain ⟨line, content⟩ := item
    cases content with
    | label name =>
      rw [List.countP_cons_of_neg (by simp)]
      rcases List.mem_cons.mp h with rfl | h
      · exact ⟨Nat.le_refl _, Nat.le_add_right _ _⟩
      · exact ih h
    | statement s =>
      rw [List.countP_cons_of_pos rfl]
      have hlater : symbol ∈ declarations (start + 1) items := h
      have hbounds := ih hlater
      omega

theorem pairwise_declarations (start : Nat) (items : List Item) :
    (declarations start items).Pairwise fun s t => s.address ≤ t.address := by
  induction items generalizing start with
  | nil => exact .nil
  | cons item items ih =>
    obtain ⟨line, content⟩ := item
    cases content with
    | label name =>
      exact List.pairwise_cons.mpr ⟨fun later h => (address_of_mem_declarations h).1, ih start⟩
    | statement s => exact ih (start + 1)

/-! ## The table -/

/-- A table cannot be built exactly when some name is declared twice. -/
theorem exists_build_eq_error_iff_countP (items : List Item) :
    (∃ e, build items = .error e) ↔ ∃ name, 1 < items.countP (Item.declares name) := by
  rw [exists_build_eq_error_iff, nodup_labelsOf_iff]
  simp

/-- The error names the first item that repeats a name, and the line of the first item that
declares it. -/
theorem build_eq_error_iff_find? {items : List Item} {e : Error} :
    build items = .error e ↔
      ∃ before line name after first, items = before ++ ⟨line, .label name⟩ :: after ∧
        (∀ other, before.countP (Item.declares other) ≤ 1) ∧
        before.find? (Item.declares name) = some first ∧ e = .duplicateLabel name first.line := by
  rw [build_eq_error_iff]
  constructor
  · rintro ⟨before, after, first, line, name, hsplit, hnodup, hmem, rfl⟩
    obtain ⟨front, back, rfl, rfl⟩ := exists_split_labelsOf hsplit
    exact ⟨front, line, name, back, ⟨first, .label name⟩, rfl, nodup_labelsOf_iff.mp hnodup,
      find?_declares_of_mem hnodup hmem, rfl⟩
  · rintro ⟨before, line, name, after, first, rfl, hdistinct, hfind, rfl⟩
    exact ⟨labelsOf before, labelsOf after, first.line, line, name,
      labelsOf_append_label before line name after, nodup_labelsOf_iff.mpr hdistinct,
      mem_labelsOf_of_find? hfind, rfl⟩

/-- What becomes of items. Their table cannot be built exactly when some name is declared twice. The
error then names the first item that repeats a name, and the line on which this name was declared
first. Otherwise the table lists the labels in their order, each with its line and the number of
statements before it, so that no address is lower than one before it or higher than the number of
all statements. A name finds its symbol, and a name that is not declared finds none. -/
theorem table_of_declarations (items : List Item) :
    ((∃ e, build items = .error e) ↔ ∃ name, 1 < items.countP (Item.declares name)) ∧
    (∀ e, build items = .error e ↔
      ∃ before line name after first, items = before ++ ⟨line, .label name⟩ :: after ∧
        (∀ other, before.countP (Item.declares other) ≤ 1) ∧
        before.find? (Item.declares name) = some first ∧ e = .duplicateLabel name first.line) ∧
    ((∀ name, items.countP (Item.declares name) ≤ 1) →
      ∃ table, build items = .ok (table, items.countP Item.isStatement) ∧
        table.symbols = symbolsOf items ∧
        (table.symbols.Pairwise fun s t => s.address ≤ t.address) ∧
        (∀ symbol ∈ table.symbols, symbol.address ≤ items.countP Item.isStatement) ∧
        ∀ name,
          (∀ symbol, table.lookup? name = some symbol ↔
            symbol ∈ table.symbols ∧ symbol.name = name) ∧
          (table.lookup? name = none ↔ ∀ symbol ∈ table.symbols, symbol.name ≠ name)) := by
  refine ⟨exists_build_eq_error_iff_countP items, fun e => build_eq_error_iff_find?, ?_⟩
  intro hdistinct
  have hbuild := build_eq_ok_iff.mpr ⟨nodup_labelsOf_iff.mpr hdistinct, rfl, rfl⟩
  have hnames : ((ofSymbols (declarations 0 items)).symbols.map Symbol.name).Nodup := by
    rw [names_of_build hbuild]
    exact nodup_labelsOf_iff.mpr hdistinct
  refine ⟨ofSymbols (declarations 0 items), hbuild, declarations_eq_symbolsOf items,
    pairwise_declarations 0 items, ?_, ?_⟩
  · intro symbol hsymbol
    simpa using (address_of_mem_declarations hsymbol).2
  · intro name
    refine ⟨fun symbol => lookup?_eq_some_iff hnames, ?_⟩
    rw [lookup?_eq_none_iff]
    simp

/-- Of two names that are declared twice the first repeated one is reported. A name that no source
can hold is a name like others. -/
theorem table_of_odd_names :
    build [⟨1, .label "A"⟩, ⟨2, .label ""⟩, ⟨3, .statement (.word 7)⟩, ⟨4, .label ""⟩,
        ⟨5, .label "A"⟩] = .error (.duplicateLabel "" 2) ∧
      ∃ table, build [⟨1, .label "A"⟩, ⟨2, .statement (.word 7)⟩, ⟨2, .label "a:"⟩] =
          .ok (table, 1) ∧
        table.symbols = [⟨"A", 0, 1⟩, ⟨"a:", 1, 2⟩] ∧
        table.lookup? "a:" = some ⟨"a:", 1, 2⟩ ∧ table.lookup? "a" = none := by
  have hdistinct : ∀ name, [⟨1, .label "A"⟩, ⟨2, .statement (.word 7)⟩,
      (⟨2, .label "a:"⟩ : Item)].countP (Item.declares name) ≤ 1 :=
    nodup_labelsOf_iff.mp (by decide)
  refine ⟨?_, ?_⟩
  · refine ((table_of_declarations _).2.1 _).mpr
      ⟨[⟨1, .label "A"⟩, ⟨2, .label ""⟩, ⟨3, .statement (.word 7)⟩], 4, "", [⟨5, .label "A"⟩],
        ⟨2, .label ""⟩, rfl, nodup_labelsOf_iff.mp (by decide), rfl, rfl⟩
  · obtain ⟨table, hbuild, hsymbols, -, -, hlookup⟩ := (table_of_declarations _).2.2 hdistinct
    have hlist : table.symbols = [⟨"A", 0, 1⟩, ⟨"a:", 1, 2⟩] := hsymbols
    refine ⟨table, hbuild, hlist, ((hlookup "a:").1 _).mpr ?_, (hlookup "a").2.mpr ?_⟩
    · simp [hlist]
    · simp [hlist]

end SymbolTable

end Hue

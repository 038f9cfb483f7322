import Hue.Source.Program
import Std.Data.TreeMap.Lemmas

/-!
Symbols. The address of a label is the number of statements before it, and no label may be
declared twice. A table holds its symbols in the order of their declarations, with an index from
names to positions in that order.
-/
namespace Hue

open Source

structure Symbol where
  name : String
  address : Nat
  line : Nat
deriving DecidableEq, Repr

namespace Symbol

/-- Enters the position of a symbol under its name, unless the name is there. -/
def enter (index : Std.TreeMap String Nat) (entry : Symbol × Nat) : Std.TreeMap String Nat :=
  if index.contains entry.1.name then index else index.insert entry.1.name entry.2

/-- The position of the first symbol of each name. -/
def positions (symbols : List Symbol) : Std.TreeMap String Nat := symbols.zipIdx.foldl enter ∅

theorem getElem?_enter (index : Std.TreeMap String Nat) (symbol : Symbol) (position : Nat)
    (name : String) :
    (enter index (symbol, position))[name]? =
      index[name]?.or (if symbol.name = name then some position else none) := by
  unfold enter
  split
  case isTrue hthere =>
    obtain ⟨known, hknown⟩ := Option.isSome_iff_exists.mp
      (Std.TreeMap.contains_eq_isSome_getElem?.symm.trans hthere)
    by_cases h : symbol.name = name
    · rw [← h, hknown, Option.some_or]
    · simp [h]
  case isFalse hnew =>
    have hnone : index[symbol.name]? = none := by simpa using hnew
    rw [Std.TreeMap.getElem?_insert]
    by_cases h : symbol.name = name
    · simp [← h, hnone]
    · simp [h]

theorem getElem?_foldl_enter (symbols : List Symbol) (start : Nat)
    (index : Std.TreeMap String Nat) (name : String) :
    ((symbols.zipIdx start).foldl enter index)[name]? =
      index[name]?.or ((symbols.findIdx? (·.name == name)).map (· + start)) := by
  induction symbols generalizing start index with
  | nil => simp
  | cons symbol symbols ih =>
    rw [List.zipIdx_cons, List.foldl_cons, ih, getElem?_enter, List.findIdx?_cons, Option.or_assoc]
    by_cases h : symbol.name = name
    · simp [h]
    · simp [h, Function.comp_def, Nat.add_assoc, Nat.add_comm 1]

/-- The index finds the position of the first symbol that has a name. -/
theorem getElem?_positions (symbols : List Symbol) (name : String) :
    (positions symbols)[name]? = symbols.findIdx? (·.name == name) := by
  rw [positions, getElem?_foldl_enter]
  simp

theorem positions_concat (symbols : List Symbol) (symbol : Symbol) :
    positions (symbols ++ [symbol]) = enter (positions symbols) (symbol, symbols.length) := by
  simp [positions, List.zipIdx_append]

end Symbol

/-- The declared symbols, in the order of their declarations, with an index by name. -/
structure SymbolTable where
  entries : Array Symbol
  index : Std.TreeMap String Nat
  index_eq : index = Symbol.positions entries.toList

namespace SymbolTable

/-- The symbols in the order of their declarations. -/
def symbols (table : SymbolTable) : List Symbol := table.entries.toList

def ofSymbols (symbols : List Symbol) : SymbolTable :=
  ⟨symbols.toArray, Symbol.positions symbols, by rw [List.toList_toArray]⟩

@[simp] theorem symbols_ofSymbols (symbols : List Symbol) : (ofSymbols symbols).symbols = symbols :=
  List.toList_toArray

/-- A table is known by its symbols. -/
@[ext]
theorem ext_symbols {table other : SymbolTable} (h : table.symbols = other.symbols) :
    table = other := by
  obtain ⟨entries, index, rfl⟩ := table
  obtain ⟨others, index', rfl⟩ := other
  obtain rfl : entries = others := Array.toList_inj.mp h
  rfl

theorem getElem?_index (table : SymbolTable) (name : String) :
    table.index[name]? = table.symbols.findIdx? (·.name == name) := by
  rw [table.index_eq, Symbol.getElem?_positions, symbols]

/-- Every position in the index is that of a symbol. -/
theorem lt_size_of_index {table : SymbolTable} {name : String} {position : Nat}
    (h : table.index[name]? = some position) : position < table.entries.size := by
  rw [getElem?_index, List.findIdx?_eq_some_iff_getElem] at h
  obtain ⟨hlt, -⟩ := h
  exact hlt

def lookup? (table : SymbolTable) (name : String) : Option Symbol :=
  match h : table.index[name]? with
  | some position =>
    have hlt := lt_size_of_index h
    some table.entries[position]
  | none => none

/-- The symbol of a name is the first that has it. -/
theorem lookup?_eq_find? (table : SymbolTable) (name : String) :
    table.lookup? name = table.symbols.find? (·.name == name) := by
  unfold lookup?
  split
  case h_1 position h =>
    rw [getElem?_index, List.findIdx?_eq_some_iff_getElem] at h
    obtain ⟨hlt, hname, hbefore⟩ := h
    symm
    rw [List.find?_eq_some_iff_getElem]
    exact ⟨hname, position, hlt, rfl, fun j hj => by simpa using hbefore j hj⟩
  case h_2 h =>
    rw [getElem?_index, List.findIdx?_eq_none_iff] at h
    exact (List.find?_eq_none.mpr fun symbol hsymbol => by simpa using h symbol hsymbol).symm

def address? (table : SymbolTable) (name : String) : Option Nat :=
  (table.lookup? name).map (·.address)

def empty : SymbolTable := ⟨#[], ∅, rfl⟩

/-- A name that is not found is new to the index. -/
theorem positions_push {table : SymbolTable} (symbol : Symbol)
    (h : table.lookup? symbol.name = none) :
    table.index.insert symbol.name table.entries.size =
      Symbol.positions (table.entries.push symbol).toList := by
  have hnew : table.index.contains symbol.name = false := by
    rw [lookup?_eq_find?, List.find?_eq_none] at h
    rw [Std.TreeMap.contains_eq_isSome_getElem?, getElem?_index, Option.isSome_eq_false_iff,
      Option.isNone_iff_eq_none, List.findIdx?_eq_none_iff]
    simpa using h
  rw [Array.toList_push, Symbol.positions_concat, ← table.index_eq, Symbol.enter, hnew]
  rfl

/-- The table with one more symbol. Its name must be a new one. -/
def insert (table : SymbolTable) (name : String) (address line : Nat) :
    Except Error SymbolTable :=
  match h : table.lookup? name with
  | some existing => .error (.duplicateLabel name existing.line)
  | none =>
    .ok {
      entries := table.entries.push ⟨name, address, line⟩
      index := table.index.insert name table.entries.size
      index_eq := positions_push ⟨name, address, line⟩ h }

/-- Goes past one item: a label is bound to the address, and a statement takes it. -/
def advance (state : SymbolTable × Nat) (item : Item) : Except Error (SymbolTable × Nat) :=
  match item.content with
  | .label name => (state.1.insert name state.2 item.line).map fun table => (table, state.2)
  | .statement _ => .ok (state.1, state.2 + 1)

/-- The table of the labels among items, and the number of statements. -/
def build (items : List Item) : Except Error (SymbolTable × Nat) :=
  items.foldlM advance (empty, 0)

end SymbolTable

end Hue

import Hue.Proofs.Accounting
import Hue.Proofs.Fault

/-!
Branches that go too far. Dropping statements moves no label up, so a branch that fits the table
it is judged by fits the table of what is left as well. Settling therefore builds at most two
tables: the first one decides which branches are dropped, and the second one is the result.
-/
namespace Hue

open Source

namespace SymbolTable

/-! ## Dropping statements moves no label up -/

/-- The same labels in the same order, none of them higher than before. -/
def LowerTo (symbols lowers : List Symbol) : Prop :=
  List.Forall₂ (fun s t => t.name = s.name ∧ t.address ≤ s.address) symbols lowers

theorem lowerTo_declarations_filter {p : Item → Bool} {items : List Item}
    (hp : ∀ item ∈ items, p item = false → item.isStatement = true) {start low : Nat}
    (hle : low ≤ start) :
    LowerTo (declarations start items) (declarations low (items.filter p)) := by
  -- each statement that is dropped puts the low counter one further behind
  induction items generalizing start low with
  | nil => exact .nil
  | cons item items ih =>
    have hrest : ∀ item ∈ items, p item = false → item.isStatement = true :=
      fun other ho => hp other (by simp [ho])
    cases hitem : p item with
    | true =>
      rw [List.filter_cons_of_pos hitem]
      obtain ⟨line, content⟩ := item
      cases content with
      | label name => exact .cons ⟨rfl, hle⟩ (ih hrest hle)
      | statement s => exact ih hrest (Nat.add_le_add_right hle 1)
    | false =>
      rw [List.filter_cons_of_neg (by simp [hitem])]
      obtain ⟨line, content⟩ := item
      cases content with
      | label name => simpa using hp ⟨line, .label name⟩ (by simp) hitem
      | statement s => exact ih hrest (Nat.le_succ_of_le hle)

/-- Where no label is higher than before, no look-up gives a higher address. -/
theorem address?_le_of_lowerTo {table lower : SymbolTable}
    (h : LowerTo table.symbols lower.symbols) {name : String} {address : Nat}
    (hlow : lower.address? name = some address) :
    ∃ higher, table.address? name = some higher ∧ address ≤ higher := by
  unfold LowerTo at h
  simp only [address?, lookup?_eq_find?] at hlow ⊢
  generalize table.symbols = symbols at h ⊢
  generalize lower.symbols = lowers at h hlow
  induction h with
  | nil => simp at hlow
  | @cons s t symbols lowers hst _ ih =>
    by_cases hname : s.name = name
    · have hfound : t.address = address := by simpa [hst.1, hname] using hlow
      exact ⟨s.address, by simp [hname], hfound ▸ hst.2⟩
    · have hskip : (s.name == name) = false := by simpa using hname
      rw [List.find?_cons, hst.1, hskip] at hlow
      rw [List.find?_cons, hskip]
      exact ih hlow

end SymbolTable

namespace Assembly

/-! ## What each stage drops -/

theorem undefined?_eq_some_iff {table : SymbolTable} {item : Item} {e : Error} :
    undefined? table item = some e ↔
      ∃ name, item.branchLabel? = some name ∧ table.lookup? name = none ∧
        e = .undefinedLabel name := by
  constructor
  · intro h
    unfold undefined? at h
    split at h
    case h_1 name hname =>
      obtain ⟨hnone, he⟩ := Option.ite_none_right_eq_some.mp h
      exact ⟨name, hname, by simpa using hnone, (Option.some.inj he).symm⟩
    case h_2 => simp at h
  · rintro ⟨name, hname, hnone, rfl⟩
    simp [undefined?, hname, hnone]

theorem overflow?_eq_some_iff {table : SymbolTable} {item : Item} {e : Error} :
    overflow? table item = some e ↔
      ∃ name address, item.branchLabel? = some name ∧ table.address? name = some address ∧
        maxAddress < address ∧ e = .addressOverflow name address := by
  constructor
  · intro h
    unfold overflow? at h
    split at h
    case h_1 name hname =>
      split at h
      case h_1 address haddress =>
        obtain ⟨hlt, he⟩ := Option.ite_none_right_eq_some.mp h
        exact ⟨name, address, hname, haddress, hlt, (Option.some.inj he).symm⟩
      case h_2 => simp at h
    case h_2 => simp at h
  · rintro ⟨name, address, hname, haddress, hlt, rfl⟩
    simp [overflow?, hname, haddress, hlt]

/-- A stage that drops no label leaves items with a table. -/
theorem build_keep {fault? : Item → Option Error} {items : List Item} {table : SymbolTable}
    {count : Nat} (hf : ∀ item, item.isStatement = false → fault? item = none)
    (hbuild : SymbolTable.build items = .ok (table, count)) :
    SymbolTable.build (keep fault? items) =
      .ok (.ofSymbols (SymbolTable.declarations 0 (keep fault? items)),
        (keep fault? items).countP Item.isStatement) := by
  rw [SymbolTable.build_eq_ok_iff, labelsOf_keep hf]
  exact ⟨(SymbolTable.build_eq_ok_iff.mp hbuild).1, rfl, rfl⟩

/-- Distinct labels stay distinct while branches are dropped, so both tables can be built. -/
theorem exists_two_tables {items : List Item} {declared : SymbolTable} {count : Nat}
    (hbuild : SymbolTable.build items = .ok (declared, count)) :
    ∃ first total next left,
      SymbolTable.build (keep (undefined? declared) items) = .ok (first, total) ∧
      SymbolTable.build (keep (overflow? first) (keep (undefined? declared) items)) =
        .ok (next, left) := by
  have hfirst := build_keep (fun _ => undefined?_of_label declared) hbuild
  exact ⟨_, _, _, _, hfirst, build_keep (fun _ => overflow?_of_label _) hfirst⟩

/-- A branch that fits a table fits the table of the items left by that one. -/
theorem overflow?_eq_none_of_keep {items : List Item} {table next : SymbolTable}
    {count total : Nat} (hbuild : SymbolTable.build items = .ok (table, count))
    (hnext : SymbolTable.build (keep (overflow? table) items) = .ok (next, total)) :
    ∀ item ∈ keep (overflow? table) items, overflow? next item = none := by
  intro item hitem
  have hfit : overflow? table item = none := by simpa using (List.mem_filter.mp hitem).2
  cases hnew : overflow? next item with
  | none => rfl
  | some e =>
    obtain ⟨name, address, hname, haddress, hlt, rfl⟩ := overflow?_eq_some_iff.mp hnew
    have hlower : SymbolTable.LowerTo table.symbols next.symbols := by
      rw [(SymbolTable.build_eq_ok_iff.mp hbuild).2.1, (SymbolTable.build_eq_ok_iff.mp hnext).2.1]
      apply SymbolTable.lowerTo_declarations_filter _ (Nat.le_refl 0)
      intro other _ hdropped
      cases hs : other.isStatement with
      | true => rfl
      | false => simp [overflow?_of_label table hs] at hdropped
    obtain ⟨higher, hhigher, hle⟩ := SymbolTable.address?_le_of_lowerTo hlower haddress
    rw [overflow?_eq_some_iff.mpr ⟨name, higher, hname, hhigher, hlt.trans_le hle, rfl⟩] at hfit
    simp at hfit

/-! ## The tables of the loop -/

/-- Settling, with a record of the tables that it builds and their numbers of statements. -/
def settleRecorded (items : List Item) : Except Error (Settled × List (SymbolTable × Nat)) :=
  match SymbolTable.build items with
  | .error e => .error e
  | .ok (table, count) =>
    if (keep (overflow? table) items).length < items.length then
      match settleRecorded (keep (overflow? table) items) with
      | .error e => .error e
      | .ok (settled, tables) =>
        .ok ({ settled with
          diagnostics := complaints (overflow? table) items ++ settled.diagnostics },
          (table, count) :: tables)
    else .ok (⟨table, items, []⟩, [(table, count)])
termination_by items.length

/-- The record leaves settling as it is. -/
theorem map_fst_settleRecorded (items : List Item) :
    (settleRecorded items).map Prod.fst = settle items := by
  fun_induction settleRecorded items with
  | case1 items e hbuild =>
    rw [settle, hbuild]
    rfl
  | case2 items table count hbuild hlt e hrec ih =>
    rw [settle, hbuild]
    simp only [hlt, ↓reduceIte, ← ih, hrec]
    rfl
  | case3 items table count hbuild hlt settled tables hrec ih =>
    rw [settle, hbuild]
    simp only [hlt, ↓reduceIte, ← ih, hrec]
    rfl
  | case4 items table count hbuild hstop =>
    rw [settle, hbuild]
    simp only [hstop, ↓reduceIte]
    rfl

theorem settle_of_settleRecorded {items : List Item} {settled : Settled}
    {tables : List (SymbolTable × Nat)} (h : settleRecorded items = .ok (settled, tables)) :
    settle items = .ok settled := by
  rw [← map_fst_settleRecorded, h]
  rfl

/-- The last table is that of the items that are left. -/
theorem getLast?_of_settleRecorded {items : List Item} {settled : Settled}
    {tables : List (SymbolTable × Nat)} (h : settleRecorded items = .ok (settled, tables)) :
    tables.getLast? = some (settled.table, settled.items.countP Item.isStatement) := by
  fun_induction settleRecorded items generalizing settled tables with
  | case1 items e hbuild => simp at h
  | case2 items table count hbuild hlt e hrec ih => simp at h
  | case3 items table count hbuild hlt rest others hrec ih =>
    obtain ⟨rfl, rfl⟩ := Prod.mk.inj (Except.ok.inj h)
    rw [List.getLast?_cons, ih hrec]
    rfl
  | case4 items table count hbuild hstop =>
    obtain ⟨rfl, rfl⟩ := Prod.mk.inj (Except.ok.inj h)
    rw [List.getLast?_singleton, (SymbolTable.build_eq_ok_iff.mp hbuild).2.2]

theorem settleRecorded_of_fit {items : List Item} {table : SymbolTable} {count : Nat}
    (hbuild : SymbolTable.build items = .ok (table, count))
    (hfit : ∀ item ∈ items, overflow? table item = none) :
    settleRecorded items = .ok (⟨table, items, []⟩, [(table, count)]) := by
  rw [settleRecorded, hbuild]
  simp [keep_eq_self hfit]

/-- Items with a table are settled by dropping the branches that do not fit it. A second table is
built when there are any, and never a third one. -/
theorem settleRecorded_of_build {items : List Item} {table next : SymbolTable}
    {count total : Nat} (hbuild : SymbolTable.build items = .ok (table, count))
    (hnext : SymbolTable.build (keep (overflow? table) items) = .ok (next, total)) :
    settleRecorded items =
      .ok (⟨next, keep (overflow? table) items, complaints (overflow? table) items⟩,
        if (keep (overflow? table) items).length < items.length then
          [(table, count), (next, total)]
        else [(table, count)]) := by
  -- the second round finds nothing to drop
  have hrest := settleRecorded_of_fit hnext (overflow?_eq_none_of_keep hbuild hnext)
  by_cases hlt : (keep (overflow? table) items).length < items.length
  · rw [settleRecorded, hbuild]
    simp [hlt, hrest]
  · have hfit := fault?_eq_none_of_length hlt
    have hkeep := keep_eq_self hfit
    rw [hkeep, hbuild] at hnext
    obtain ⟨rfl, rfl⟩ := Prod.mk.inj (Except.ok.inj hnext)
    rw [settleRecorded_of_fit hbuild hfit, hkeep, complaints_eq_nil hfit, if_neg (Nat.lt_irrefl _)]

theorem settle_of_build {items : List Item} {table next : SymbolTable} {count total : Nat}
    (hbuild : SymbolTable.build items = .ok (table, count))
    (hnext : SymbolTable.build (keep (overflow? table) items) = .ok (next, total)) :
    settle items =
      .ok ⟨next, keep (overflow? table) items, complaints (overflow? table) items⟩ :=
  settle_of_settleRecorded (settleRecorded_of_build hbuild hnext)

/-! ## Branches that are reported -/

/-- Whether an error is about an address beyond the address field. -/
def isOverflow : Error → Bool
  | .addressOverflow _ _ => true
  | _ => false

/-- The table by which branches are judged: that of a source without its branches to labels that
are not declared. -/
def firstTable (settings : Settings) (source : List Char) : Except Error SymbolTable := do
  let program ← readProgram settings source
  let (declared, _) ← SymbolTable.build program.items
  let (first, _) ← SymbolTable.build (keep (undefined? declared) program.items)
  return first

section Reports

variable {settings : Settings} {source : List Char} {a : Assembly}

/-- The stages of a successful assembly by their tables and diagnostics. -/
theorem exists_tables (h : assemble settings source = .ok a) :
    ∃ program declared count first total,
      readProgram settings source = .ok program ∧
      SymbolTable.build program.items = .ok (declared, count) ∧
      SymbolTable.build (keep (undefined? declared) program.items) = .ok (first, total) ∧
      a.diagnostics.Perm (program.diagnostics ++ complaints (undefined? declared) program.items ++
        complaints (overflow? first) (keep (undefined? declared) program.items)) := by
  obtain ⟨program, declared, count, settled, hread, hbuild, hsettle, -, rfl⟩ := exists_stages h
  obtain ⟨first, total, next, left, hfirst, hnext⟩ := exists_two_tables hbuild
  rw [settle_of_build hfirst hnext] at hsettle
  obtain rfl := Except.ok.inj hsettle
  exact ⟨program, declared, count, first, total, hread, hbuild, hfirst, List.mergeSort_perm _ _⟩

theorem mem_complaints_iff {fault? : Item → Option Error} {items : List Item} {d : Diagnostic} :
    d ∈ complaints fault? items ↔
      ∃ item ∈ items, ∃ e, fault? item = some e ∧ d = .error (.line item.line) e := by
  simp only [complaints, List.mem_filterMap, Option.map_eq_some_iff]
  constructor
  · rintro ⟨item, hitem, e, he, rfl⟩
    exact ⟨item, hitem, e, he, rfl⟩
  · rintro ⟨item, hitem, e, he, rfl⟩
    exact ⟨item, hitem, e, he, rfl⟩

/-- A branch to a label of the first table is not among those dropped as undeclared. -/
theorem undefined?_eq_none_of_address? {items : List Item} {declared first : SymbolTable}
    {count total : Nat} (hbuild : SymbolTable.build items = .ok (declared, count))
    (hfirst : SymbolTable.build (keep (undefined? declared) items) = .ok (first, total))
    {item : Item} {name : String} {address : Nat} (hname : item.branchLabel? = some name)
    (haddress : first.address? name = some address) : undefined? declared item = none := by
  have hnames : first.symbols.map Symbol.name = declared.symbols.map Symbol.name := by
    rw [SymbolTable.names_of_build hfirst, SymbolTable.names_of_build hbuild,
      labelsOf_keep fun _ => undefined?_of_label declared]
  rw [← undefined?_congr hnames, undefined?_eq_none_iff]
  intro other hother
  obtain rfl : name = other := Option.some.inj (hname.symm.trans hother)
  obtain ⟨symbol, hfound, -⟩ := Option.map_eq_some_iff.mp haddress
  exact ⟨symbol, hfound⟩

theorem branchLabel?_eq_some_iff {item : Item} {name : String} :
    item.branchLabel? = some name ↔
      ∃ i, item.content = .statement (.instruction i) ∧ i.branchLabel? = some name := by
  unfold Item.branchLabel?
  split
  case h_1 i hi => simp [hi]
  case h_2 hother =>
    simp only [reduceCtorEq, false_iff, not_exists, not_and]
    exact fun i hi => absurd hi (hother i)

/-- Only the last of the three kinds of diagnostics is about addresses beyond the field. -/
theorem mem_overflows_iff {program : Program} {declared first : SymbolTable} {d : Diagnostic}
    (hread : readProgram settings source = .ok program)
    (hperm : a.diagnostics.Perm (program.diagnostics ++
      complaints (undefined? declared) program.items ++
        complaints (overflow? first) (keep (undefined? declared) program.items))) :
    (d ∈ a.diagnostics ∧ isOverflow d.cause = true) ↔
      d ∈ complaints (overflow? first) (keep (undefined? declared) program.items) := by
  rw [hperm.mem_iff, List.mem_append, List.mem_append]
  constructor
  · rintro ⟨(hown | hundef) | hover, hcause⟩
    · have hfault := isLineFault_of_mem_diagnostics hread hown
      cases hd : d.cause <;> simp [hd, Error.isLineFault, isOverflow] at hfault hcause
    · obtain ⟨item, -, e, he, rfl⟩ := mem_complaints_iff.mp hundef
      obtain ⟨name, -, -, rfl⟩ := undefined?_eq_some_iff.mp he
      simp [Diagnostic.error, isOverflow] at hcause
    · exact hover
  · intro hover
    refine ⟨.inr hover, ?_⟩
    obtain ⟨item, -, e, he, rfl⟩ := mem_complaints_iff.mp hover
    obtain ⟨name, address, -, -, -, rfl⟩ := overflow?_eq_some_iff.mp he
    rfl

/-- A branch is reported for its address exactly when the first table puts its label beyond the
field, and the report has the address from that table. -/
theorem exists_firstTable (h : assemble settings source = .ok a) :
    ∃ first, firstTable settings source = .ok first ∧ ∀ d,
      (d ∈ a.diagnostics ∧ isOverflow d.cause = true) ↔
        ∃ line reading i name address, (line, reading) ∈ readings settings source ∧
          reading.statement = .ok (some (.instruction i)) ∧ i.branchLabel? = some name ∧
          first.address? name = some address ∧ maxAddress < address ∧
          d = .error (.line line) (.addressOverflow name address) := by
  obtain ⟨program, declared, count, first, total, hread, hbuild, hfirst, hperm⟩ := exists_tables h
  refine ⟨first, ?_, ?_⟩
  · simp only [firstTable, hread, hbuild, hfirst, bind, Except.bind]
    rfl
  · intro d
    rw [mem_overflows_iff hread hperm, mem_complaints_iff]
    constructor
    · rintro ⟨⟨line, content⟩, hitem, e, he, rfl⟩
      obtain ⟨name, address, hname, haddress, hlt, rfl⟩ := overflow?_eq_some_iff.mp he
      obtain ⟨i, rfl, hlabel⟩ := branchLabel?_eq_some_iff.mp hname
      obtain ⟨reading, hreading, hs⟩ :=
        (statement_mem_of_readProgram hread).mp (List.mem_filter.mp hitem).1
      exact ⟨line, reading, i, name, address, hreading, hs, hlabel, haddress, hlt, rfl⟩
    · rintro ⟨line, reading, i, name, address, hreading, hs, hlabel, haddress, hlt, rfl⟩
      have hname : Item.branchLabel? ⟨line, .statement (.instruction i)⟩ = some name := hlabel
      refine ⟨⟨line, .statement (.instruction i)⟩, ?_, .addressOverflow name address,
        overflow?_eq_some_iff.mpr ⟨name, address, hname, haddress, hlt, rfl⟩, rfl⟩
      rw [keep, List.mem_filter]
      refine ⟨(statement_mem_of_readProgram hread).mpr ⟨reading, hreading, hs⟩, ?_⟩
      rw [undefined?_eq_none_of_address? hbuild hfirst hname haddress]
      rfl

end Reports

/-- Of the items without undeclared branches, those that fit the first table fit the second one, so
no third table is built. In an assembly each line whose branch does not fit the first table, and no
other line, has one diagnostic with the address from that table, and every branch that is left fits
the table of the assembly. -/
theorem branches_settle_in_two_tables :
    (∀ items declared count rest, SymbolTable.build items = .ok (declared, count) →
      rest = keep (undefined? declared) items →
        ∃ first next settled tables,
          SymbolTable.build rest = .ok first ∧
          SymbolTable.build (keep (overflow? first.1) rest) = .ok next ∧
          keep (overflow? next.1) (keep (overflow? first.1) rest) = keep (overflow? first.1) rest ∧
          settle rest = .ok settled ∧ settleRecorded rest = .ok (settled, tables) ∧
          (tables = [first] ∨ tables = [first, next])) ∧
    ∀ settings source a, assemble settings source = .ok a →
      ∃ first, firstTable settings source = .ok first ∧
        (∀ d, (d ∈ a.diagnostics ∧ isOverflow d.cause = true) ↔
          ∃ line reading i name address, (line, reading) ∈ readings settings source ∧
            reading.statement = .ok (some (.instruction i)) ∧ i.branchLabel? = some name ∧
            first.address? name = some address ∧ maxAddress < address ∧
            d = .error (.line line) (.addressOverflow name address)) ∧
        ((a.diagnostics.filter fun d => isOverflow d.cause).map Diagnostic.location).Nodup ∧
        ∀ line i name, (line, .instruction i) ∈ a.survivors settings source →
          i.branchLabel? = some name →
            ∃ address ≤ maxAddress, a.symbols.address? name = some address := by
  refine ⟨?_, ?_⟩
  · rintro items declared count rest hbuild rfl
    obtain ⟨first, total, next, left, hfirst, hnext⟩ := exists_two_tables hbuild
    refine ⟨_, _, _, _, hfirst, hnext, keep_eq_self (overflow?_eq_none_of_keep hfirst hnext),
      settle_of_build hfirst hnext, settleRecorded_of_build hfirst hnext, ?_⟩
    split
    · exact .inr rfl
    · exact .inl rfl
  · intro settings source a h
    obtain ⟨first, hfirst, hreports⟩ := exists_firstTable h
    exact ⟨first, hfirst, hreports, (nodup_locations h).sublist (List.filter_sublist.map _),
      fun line i name hmem => address?_of_mem_survivors h hmem⟩

/-! ## A jump that is too far by its own word -/

/-- A jump over `n` lines to a label after them. -/
def jumpOver (n : Nat) : List Char :=
  ("JUMP far".toList :: (List.replicate n "PINK".toList ++ ["far:".toList])).flatMap (· ++ ['\n'])

def jumpItem : Item := ⟨1, .statement (.instruction ⟨.jump, .branch (.label "far")⟩)⟩

/-- The readings of `n` lines from `line` on, with a statement each. -/
def pinkReadings (line n : Nat) : List (Nat × Reading) :=
  (List.range' line n).map fun k => (k, ⟨none, .ok (some (.instruction ⟨.pink, .bare⟩))⟩)

/-- The items of these lines. -/
def pinkItems (line n : Nat) : List Item :=
  (List.range' line n).map fun k => ⟨k, .statement (.instruction ⟨.pink, .bare⟩)⟩

theorem map_readLine_pink (line n : Nat) :
    ((List.replicate n "PINK".toList).zipIdx line).map (fun p => (p.2, readLine {} p.1)) =
      pinkReadings line n := by
  induction n generalizing line with
  | zero => rfl
  | succ n ih =>
    rw [List.replicate_succ, List.zipIdx_cons, List.map_cons, ih]
    rfl

theorem readings_jumpOver (n : Nat) :
    readings {} (jumpOver n) =
      (1, ⟨none, .ok (some (.instruction ⟨.jump, .branch (.label "far")⟩))⟩) ::
        (pinkReadings 2 n ++ [(n + 2, ⟨some "far", .ok none⟩)]) := by
  have hlines : Text.lines (jumpOver n) =
      "JUMP far".toList :: (List.replicate n "PINK".toList ++ ["far:".toList]) := by
    apply Text.lines_flatMap
    intro line hline
    simp only [List.mem_cons, List.mem_append, List.mem_replicate, List.not_mem_nil,
      or_false] at hline
    rcases hline with rfl | ⟨-, rfl⟩ | rfl <;> decide
  rw [readings, hlines, List.zipIdx_cons, List.zipIdx_append, List.map_cons, List.map_append,
    map_readLine_pink, List.length_replicate, Nat.add_comm 2 n]
  rfl

theorem readProgram_jumpOver (n : Nat) :
    readProgram {} (jumpOver n) =
      .ok ⟨jumpItem :: (pinkItems 2 n ++ [⟨n + 2, .label "far"⟩]), []⟩ := by
  have hfatal (line : Nat) : ∀ r ∈ pinkReadings line n, r.2.fatal? .skip = none := by
    intro r hr
    obtain ⟨k, -, rfl⟩ := List.mem_map.mp hr
    rfl
  have hitems (line : Nat) :
      (pinkReadings line n).flatMap (fun r => r.2.items r.1) = pinkItems line n := by
    rw [pinkReadings, List.flatMap_map, pinkItems, List.map_eq_flatMap]
    rfl
  have hquiet (line : Nat) :
      (pinkReadings line n).filterMap (fun r => r.2.diagnostic? r.1) = [] := by
    rw [List.filterMap_eq_nil_iff]
    intro r hr
    obtain ⟨k, -, rfl⟩ := List.mem_map.mp hr
    rfl
  rw [readProgram_eq_ok_iff, readings_jumpOver]
  refine ⟨?_, ?_⟩
  · simp only [List.forall_mem_cons, List.forall_mem_append]
    exact ⟨rfl, hfatal 2, rfl, by simp⟩
  · rw [List.flatMap_cons, List.flatMap_append, hitems, List.filterMap_cons_none rfl,
      List.filterMap_append, hquiet]
    rfl

theorem declarations_pinkItems (start line n : Nat) (items : List Item) :
    SymbolTable.declarations start (pinkItems line n ++ items) =
      SymbolTable.declarations (start + n) items := by
  induction n generalizing start line with
  | zero => rfl
  | succ n ih =>
    rw [← Nat.add_assoc, Nat.add_right_comm, ← ih (start + 1) (line + 1)]
    rfl

theorem countP_pinkItems (line n : Nat) (items : List Item) :
    (pinkItems line n ++ items).countP Item.isStatement = n + items.countP Item.isStatement := by
  induction n generalizing line with
  | zero => rw [Nat.zero_add]; rfl
  | succ n ih =>
    have hcons : pinkItems line (n + 1) =
        ⟨line, .statement (.instruction ⟨.pink, .bare⟩)⟩ :: pinkItems (line + 1) n := rfl
    rw [hcons, List.cons_append, List.countP_cons_of_pos rfl, ih, Nat.add_right_comm]

theorem build_of_one_label {items : List Item} {symbol : Symbol} {count : Nat}
    (hsymbol : SymbolTable.declarations 0 items = [symbol])
    (hcount : items.countP Item.isStatement = count) :
    SymbolTable.build items = .ok (.ofSymbols [symbol], count) := by
  refine SymbolTable.build_eq_ok_iff.mpr ⟨?_, by rw [hsymbol], hcount.symm⟩
  rw [← SymbolTable.map_name_declarations 0, hsymbol]
  simp

/-- With the jump in front the label is one word higher than without it. -/
theorem build_jumpOver (n : Nat) :
    SymbolTable.build (jumpItem :: (pinkItems 2 n ++ [⟨n + 2, .label "far"⟩])) =
        .ok (.ofSymbols [⟨"far", n + 1, n + 2⟩], n + 1) ∧
      SymbolTable.build (pinkItems 2 n ++ [⟨n + 2, .label "far"⟩]) =
        .ok (.ofSymbols [⟨"far", n, n + 2⟩], n) := by
  have hsymbols (start : Nat) :
      SymbolTable.declarations start (pinkItems 2 n ++ [⟨n + 2, .label "far"⟩]) =
        [⟨"far", n + start, n + 2⟩] := by
    rw [declarations_pinkItems, Nat.add_comm]
    rfl
  have hcount := countP_pinkItems 2 n [⟨n + 2, .label "far"⟩]
  refine ⟨build_of_one_label (hsymbols 1) ?_, build_of_one_label (hsymbols 0) hcount⟩
  rw [List.countP_cons_of_pos rfl, hcount]
  rfl

theorem forall_mem_pinkItems {line n : Nat} {p : Item → Prop}
    (h : ∀ k, p ⟨k, .statement (.instruction ⟨.pink, .bare⟩)⟩) : ∀ item ∈ pinkItems line n, p item := by
  intro item hitem
  obtain ⟨k, -, rfl⟩ := List.mem_map.mp hitem
  exact h k

theorem wordsOf_pinkItems (table : SymbolTable) (line n : Nat) (items : List Item) :
    wordsOf table (pinkItems line n ++ items) = List.replicate n 0x8800 ++ wordsOf table items := by
  induction n generalizing line with
  | zero => rfl
  | succ n ih =>
    have hword : encodeStatement table (.instruction ⟨.pink, .bare⟩) = .ok 0x8800 := rfl
    rw [List.replicate_succ, List.cons_append, ← ih (line + 1)]
    exact wordsOf_cons_statement hword line _

/-- The jump is dropped, and after that its label would be in reach. -/
def jumpOverAssembled : Assembly where
  words := List.replicate 2047 0x8800
  symbols := .ofSymbols [⟨"far", 2047, 2049⟩]
  diagnostics := [.error (.line 1) (.addressOverflow "far" 2048)]

theorem assemble_jumpOver : assemble {} (jumpOver 2047) = .ok jumpOverAssembled := by
  let left : List Item := pinkItems 2 2047 ++ [⟨2049, .label "far"⟩]
  let first : SymbolTable := .ofSymbols [⟨"far", 2048, 2049⟩]
  have hread : readProgram {} (jumpOver 2047) = .ok ⟨jumpItem :: left, []⟩ :=
    readProgram_jumpOver 2047
  obtain ⟨hbuild, hnext⟩ : SymbolTable.build (jumpItem :: left) = .ok (first, 2048) ∧
      SymbolTable.build left = .ok (jumpOverAssembled.symbols, 2047) := build_jumpOver 2047
  -- only the jump names a label
  have hplain : ∀ item ∈ left, item.branchLabel? = none := by
    rw [List.forall_mem_append]
    exact ⟨forall_mem_pinkItems fun k => rfl, by simp [Item.branchLabel?]⟩
  have hdeclared : ∀ item ∈ jumpItem :: left, undefined? first item = none := by
    rw [List.forall_mem_cons]
    exact ⟨rfl, fun item hitem => by simp [undefined?, hplain item hitem]⟩
  have hfit : ∀ item ∈ left, overflow? first item = none :=
    fun item hitem => by simp [overflow?, hplain item hitem]
  have hfar : overflow? first jumpItem = some (.addressOverflow "far" 2048) := rfl
  have hkeep : keep (overflow? first) (jumpItem :: left) = left := by
    rw [keep, List.filter_cons_of_neg (by simp [hfar]), ← keep, keep_eq_self hfit]
  have hreport : complaints (overflow? first) (jumpItem :: left) = jumpOverAssembled.diagnostics := by
    rw [complaints, List.filterMap_cons_some (by rw [hfar]; rfl), ← complaints,
      complaints_eq_nil hfit]
    rfl
  have hsettle : settle (keep (undefined? first) (jumpItem :: left)) =
      .ok ⟨jumpOverAssembled.symbols, left, jumpOverAssembled.diagnostics⟩ := by
    rw [keep_eq_self hdeclared, settle_of_build hbuild (by rw [hkeep, hnext]), hkeep, hreport]
  have hwords : wordsOf jumpOverAssembled.symbols left = jumpOverAssembled.words := by
    have hlast : wordsOf jumpOverAssembled.symbols [⟨2049, .label "far"⟩] = [] := rfl
    rw [wordsOf_pinkItems, hlast, List.append_nil]
    rfl
  rw [assemble_of_stages hread hbuild hsettle, complaints_eq_nil hdeclared, hwords]
  have hsort : inOrder jumpOverAssembled.diagnostics = jumpOverAssembled.diagnostics :=
    List.mergeSort_singleton _
  exact congrArg (fun ds => Except.ok { jumpOverAssembled with diagnostics := ds }) hsort

/-- The address in the report is that of the first table, one above that of the assembly. -/
theorem jumpOver_settles_in_two_tables :
    assemble {} (jumpOver 2047) = .ok jumpOverAssembled ∧
      jumpOverAssembled.symbols.address? "far" = some maxAddress ∧
      ∃ first, firstTable {} (jumpOver 2047) = .ok first ∧
        first.address? "far" = some (maxAddress + 1) := by
  obtain ⟨first, hfirst, hreports, -, -⟩ :=
    branches_settle_in_two_tables.2 {} (jumpOver 2047) jumpOverAssembled assemble_jumpOver
  have hreport := (hreports (.error (.line 1) (.addressOverflow "far" 2048))).mp
    ⟨List.mem_singleton.mpr rfl, rfl⟩
  obtain ⟨line, reading, i, name, address, -, -, -, haddress, -, hd⟩ := hreport
  obtain ⟨-, rfl, rfl⟩ : 1 = line ∧ "far" = name ∧ 2048 = address := by
    simpa [Diagnostic.error] using hd
  exact ⟨assemble_jumpOver, rfl, first, hfirst, haddress⟩

end Assembly

end Hue

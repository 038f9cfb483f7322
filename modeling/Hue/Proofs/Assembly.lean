import Hue.Assembly
import Hue.Proofs.Encoding
import Hue.Proofs.Program

/-!
What a successful assembly consists of. Each stage drops the statements that it reports and keeps
every label. So the items that are left are those of the source without the statements on lines
with a diagnostic, the symbols are the table of just these items, and each of them has a word.
-/
namespace Hue.Assembly

open Source

/-! ## Dropping statements -/

theorem isStatement_of_branchLabel? {item : Item} {name : String}
    (h : item.branchLabel? = some name) : item.isStatement = true := by
  obtain ⟨line, content⟩ := item
  cases content with
  | label other => simp [Item.branchLabel?] at h
  | statement s => rfl

theorem branchLabel?_of_label {item : Item} (h : item.isStatement = false) :
    item.branchLabel? = none := by
  cases hb : item.branchLabel? with
  | none => rfl
  | some name => simp [isStatement_of_branchLabel? hb] at h

theorem undefined?_of_label (table : SymbolTable) {item : Item} (h : item.isStatement = false) :
    undefined? table item = none := by
  simp [undefined?, branchLabel?_of_label h]

theorem overflow?_of_label (table : SymbolTable) {item : Item} (h : item.isStatement = false) :
    overflow? table item = none := by
  simp [overflow?, branchLabel?_of_label h]

section Keep

variable {fault? : Item → Option Error} {items : List Item}

/-- A statement is dropped exactly when its line is reported. -/
theorem keep_eq_without (hf : ∀ item, item.isStatement = false → fault? item = none)
    (ho : Ordered items) : keep fault? items = without (complaints fault? items) items := by
  apply List.filter_congr
  intro item hitem
  cases hs : item.isStatement with
  | false => simp [hf item hs]
  | true =>
    have hreport : reportsLine (complaints fault? items) item.line = (fault? item).isSome := by
      rw [Bool.eq_iff_iff, reportsLine_iff]
      constructor
      · rintro ⟨d, hd, hloc⟩
        obtain ⟨other, hother, hd⟩ := List.mem_filterMap.mp hd
        obtain ⟨e, he, rfl⟩ := Option.map_eq_some_iff.mp hd
        have hos : other.isStatement = true := by
          cases h : other.isStatement with
          | true => rfl
          | false => simp [hf other h] at he
        obtain rfl : item = other :=
          ho.eq_of_line_eq hitem hother hs hos (by simpa [Diagnostic.error] using hloc.symm)
        simp [he]
      · intro hsome
        obtain ⟨e, he⟩ := Option.isSome_iff_exists.mp hsome
        exact ⟨.error (.line item.line) e, List.mem_filterMap.mpr ⟨item, hitem, by simp [he]⟩, rfl⟩
    rw [hreport]
    cases fault? item <;> rfl

theorem labelsOf_keep (hf : ∀ item, item.isStatement = false → fault? item = none) :
    labelsOf (keep fault? items) = labelsOf items := by
  apply labelsOf_filter
  intro item _ h
  cases hs : item.isStatement with
  | true => rfl
  | false => simp [hf item hs] at h

theorem ordered_keep (ho : Ordered items) : Ordered (keep fault? items) := ho.filter _

theorem keep_eq_self (h : ∀ item ∈ items, fault? item = none) : keep fault? items = items := by
  rw [keep, List.filter_eq_self]
  intro item hitem
  simp [h item hitem]

/-- Where no item is dropped there is no fault. -/
theorem fault?_eq_none_of_length (h : ¬(keep fault? items).length < items.length) :
    ∀ item ∈ items, fault? item = none := by
  intro item hitem
  have hall := List.length_filter_eq_length_iff.mp
    (Nat.le_antisymm (List.length_filter_le _ _) (Nat.not_lt.mp h))
  simpa using hall item hitem

theorem complaints_eq_nil (h : ∀ item ∈ items, fault? item = none) :
    complaints fault? items = [] := by
  rw [complaints, List.filterMap_eq_nil_iff]
  intro item hitem
  simp [h item hitem]

end Keep

/-! ## Settling -/

/-- Settled items are what their diagnostics leave, their table is built from just them, and no
branch among them is too far. -/
theorem settle_spec {items : List Item} {settled : Settled} (ho : Ordered items)
    (h : settle items = .ok settled) :
    settled.items = without settled.diagnostics items ∧
      SymbolTable.build settled.items =
        .ok (settled.table, settled.items.countP Item.isStatement) ∧
      ∀ item ∈ settled.items, overflow? settled.table item = none := by
  fun_induction settle items generalizing settled with
  | case1 items e hbuild => simp at h
  | case2 items table count hbuild hlt e hrec ih => simp at h
  | case3 items table count hbuild hlt rest hrec ih =>
    obtain rfl := Except.ok.inj h
    obtain ⟨hitems, htable, hfit⟩ := ih (ordered_keep ho) hrec
    have hkeep := keep_eq_without (fun _ => overflow?_of_label table) ho
    exact ⟨by rw [hitems, hkeep, ← without_append], htable, hfit⟩
  | case4 items table count hbuild hstop =>
    obtain rfl := Except.ok.inj h
    have hcount := (SymbolTable.build_eq_ok_iff.mp hbuild).2.2
    exact ⟨(without_eq_self (by simp [reportsLine])).symm, by rw [hbuild, hcount],
      fault?_eq_none_of_length hstop⟩

/-- Items without a branch that is too far are settled at once. -/
theorem settle_of_fit {items : List Item} {table : SymbolTable} {count : Nat}
    (hbuild : SymbolTable.build items = .ok (table, count))
    (hfit : ∀ item ∈ items, overflow? table item = none) : settle items = .ok ⟨table, items, []⟩ := by
  rw [settle, hbuild]
  simp [keep_eq_self hfit]

/-! ## Encoding settled items -/

/-- Every branch names a label whose address fits. -/
def Resolved (table : SymbolTable) (items : List Item) : Prop :=
  ∀ item ∈ items, ∀ name, item.branchLabel? = some name →
    ∃ address ≤ maxAddress, table.address? name = some address

/-- Every instruction is one that a source can hold. -/
def ReadableItems (items : List Item) : Prop :=
  ∀ item ∈ items, ∀ i, item.content = .statement (.instruction i) → i.Readable

theorem readableItems_of_readProgram {settings : Settings} {source : List Char}
    {program : Program} (h : readProgram settings source = .ok program) :
    ReadableItems program.items := by
  rintro ⟨line, content⟩ hitem i rfl
  obtain ⟨r, hr, hs⟩ := (statement_mem_of_readProgram h).mp hitem
  exact readable_of_mem_readings hr hs

theorem undefined?_eq_none_iff {table : SymbolTable} {item : Item} :
    undefined? table item = none ↔
      ∀ name, item.branchLabel? = some name → ∃ symbol, table.lookup? name = some symbol := by
  cases hname : item.branchLabel? with
  | none => simp [undefined?, hname]
  | some name => cases hfound : table.lookup? name <;> simp [undefined?, hname, hfound]

/-- Which branches are undeclared depends on the names in the table alone. -/
theorem undefined?_congr {table other : SymbolTable}
    (h : table.symbols.map Symbol.name = other.symbols.map Symbol.name) (item : Item) :
    undefined? table item = undefined? other item := by
  have hnone (name : String) : (table.lookup? name).isNone = (other.lookup? name).isNone := by
    rw [Bool.eq_iff_iff, Option.isNone_iff_eq_none, Option.isNone_iff_eq_none,
      SymbolTable.lookup?_eq_none_iff, SymbolTable.lookup?_eq_none_iff, h]
  simp only [undefined?, hnone]

theorem address?_of_faultless {table declared : SymbolTable} {item : Item} {name : String}
    (hlabels : table.symbols.map Symbol.name = declared.symbols.map Symbol.name)
    (hundef : undefined? declared item = none) (hfit : overflow? table item = none)
    (hname : item.branchLabel? = some name) :
    ∃ address ≤ maxAddress, table.address? name = some address := by
  rw [← undefined?_congr hlabels] at hundef
  obtain ⟨symbol, hsymbol⟩ := undefined?_eq_none_iff.mp hundef name hname
  have haddress : table.address? name = some symbol.address := by
    simp [SymbolTable.address?, hsymbol]
  refine ⟨symbol.address, ?_, haddress⟩
  rw [← Nat.not_lt]
  intro hlt
  simp [overflow?, hname, haddress, hlt] at hfit

theorem resolve_of_address? {table : SymbolTable} {i : Instruction} {name : String}
    {address : Nat} (hname : i.branchLabel? = some name)
    (haddress : table.address? name = some address) (hle : address ≤ maxAddress) :
    resolve table i = .ok { i with operands := .branch (.address address) } := by
  simp [resolve, hname, haddress, Nat.not_lt.mpr hle, addressOf_of_le hle]

theorem operands_of_branchLabel? {i : Instruction} {name : String}
    (h : i.branchLabel? = some name) : i.operands = .branch (.label name) := by
  obtain ⟨op, operands⟩ := i
  unfold Instruction.branchLabel? at h
  split at h
  case h_1 other hother =>
    obtain rfl := Option.some.inj h
    exact hother
  case h_2 => simp at h

/-- Where every branch finds its label, resolving gives an instruction with the same opcode, with
operands of its format and with a word. -/
theorem exists_resolve {table : SymbolTable} {items : List Item} (hread : ReadableItems items)
    (hresolved : Resolved table items) {item : Item} (hitem : item ∈ items) {i : Instruction}
    (hi : item.content = .statement (.instruction i)) :
    ∃ j, resolve table i = .ok j ∧ j.op = i.op ∧ j.operands.format = j.op.format ∧
      ∃ w, j.encode = .ok w := by
  obtain ⟨hf, hbranch⟩ := hread item hitem i hi
  cases hname : i.branchLabel? with
  | none =>
    refine ⟨i, by simp [resolve, hname], rfl, hf, Instruction.exists_encode hf fun target ht => ?_⟩
    obtain ⟨name, rfl, -⟩ := hbranch target ht
    simp [Instruction.branchLabel?, ht] at hname
  | some name =>
    have hlabel : item.branchLabel? = some name := by simp [Item.branchLabel?, hi, hname]
    obtain ⟨address, hle, haddress⟩ := hresolved item hitem name hlabel
    have hop : i.op.format = .branch := by rw [← hf, operands_of_branchLabel? hname]; rfl
    refine ⟨_, resolve_of_address? hname haddress hle, rfl, hop.symm, ?_⟩
    exact Instruction.exists_encode hop.symm fun target ht => ⟨address, hle, by simpa using ht.symm⟩

theorem exists_encodeStatement {table : SymbolTable} {items : List Item}
    (hread : ReadableItems items) (hresolved : Resolved table items) {item : Item}
    (hitem : item ∈ items) {s : Statement} (hs : item.content = .statement s) :
    ∃ w, encodeStatement table s = .ok w := by
  cases s with
  | word w => exact ⟨w, rfl⟩
  | instruction i =>
    obtain ⟨j, hj, -, -, w, hw⟩ := exists_resolve hread hresolved hitem hs
    exact ⟨w, by simp only [encodeStatement, hj, hw]⟩

theorem encodeFault?_eq_none {table : SymbolTable} {items : List Item}
    (hread : ReadableItems items) (hresolved : Resolved table items) {item : Item}
    (hitem : item ∈ items) : encodeFault? table item = none := by
  obtain ⟨line, content⟩ := item
  cases content with
  | label name => rfl
  | statement s =>
    obtain ⟨w, hw⟩ := exists_encodeStatement hread hresolved hitem rfl
    simp [encodeFault?, encodeItem?, hw]

/-- Resolved items are encoded without a fault. -/
theorem emit_eq_ok {settled : Settled} (hread : ReadableItems settled.items)
    (hresolved : Resolved settled.table settled.items) :
    emit settled = .ok (wordsOf settled.table settled.items, []) := by
  have hnone : ∀ item ∈ settled.items, encodeFault? settled.table item = none :=
    fun item hitem => encodeFault?_eq_none hread hresolved hitem
  have hdefect : (settled.items.findSome? fun item =>
      (encodeFault? settled.table item).filter Error.isDefect) = none := by
    rw [List.findSome?_eq_none_iff]
    intro item hitem
    rw [hnone item hitem]
    rfl
  simp only [emit, hdefect, complaints_eq_nil hnone]

@[simp] theorem wordsOf_cons_label (table : SymbolTable) (line : Nat) (name : String)
    (items : List Item) : wordsOf table (⟨line, .label name⟩ :: items) = wordsOf table items := rfl

theorem wordsOf_cons_statement {table : SymbolTable} {s : Statement} {w : Word}
    (h : encodeStatement table s = .ok w) (line : Nat) (items : List Item) :
    wordsOf table (⟨line, .statement s⟩ :: items) = w :: wordsOf table items := by
  simp [wordsOf, encodeItem?, h, Except.toOption]

/-! ## Whole assemblies -/

theorem ReadableItems.mono {items others : List Item} (h : ReadableItems items)
    (hsub : ∀ item ∈ others, item ∈ items) : ReadableItems others :=
  fun item hitem => h item (hsub item hitem)

/-- Settling what is left of declared items resolves every branch. The labels are the same
throughout, so a branch whose label was declared still finds it. -/
theorem resolved_of_settle {items : List Item} {declared : SymbolTable} {count : Nat}
    {settled : Settled} (ho : Ordered items)
    (hbuild : SymbolTable.build items = .ok (declared, count))
    (hsettle : settle (keep (undefined? declared) items) = .ok settled) :
    (∀ item ∈ settled.items, item ∈ keep (undefined? declared) items) ∧
      Resolved settled.table settled.items := by
  obtain ⟨hitems, htable, hfit⟩ := settle_spec (ordered_keep ho) hsettle
  have hmem : ∀ item ∈ settled.items, item ∈ keep (undefined? declared) items := by
    intro item hitem
    rw [hitems] at hitem
    exact (mem_without.mp hitem).1
  have hlabels : settled.table.symbols.map Symbol.name = declared.symbols.map Symbol.name := by
    rw [SymbolTable.names_of_build htable, SymbolTable.names_of_build hbuild, hitems,
      labelsOf_without, labelsOf_keep fun _ => undefined?_of_label declared]
  refine ⟨hmem, ?_⟩
  intro item hitem name hname
  have hundef := (List.mem_filter.mp (hmem item hitem)).2
  exact address?_of_faultless hlabels (by simpa using hundef) (hfit item hitem) hname

/-- What is left after settling can be encoded: its instructions are as they were read, and its
branches find their labels. -/
theorem encodable_of_settle {settings : Settings} {source : List Char} {program : Program}
    {declared : SymbolTable} {count : Nat} {settled : Settled}
    (hread : readProgram settings source = .ok program)
    (hbuild : SymbolTable.build program.items = .ok (declared, count))
    (hsettle : settle (keep (undefined? declared) program.items) = .ok settled) :
    ReadableItems settled.items ∧ Resolved settled.table settled.items := by
  obtain ⟨hmem, hresolved⟩ := resolved_of_settle (ordered_of_readProgram hread) hbuild hsettle
  exact ⟨(readableItems_of_readProgram hread).mono
    fun item hitem => (List.mem_filter.mp (hmem item hitem)).1, hresolved⟩

/-- The stages of a successful assembly. Encoding adds no diagnostic. -/
theorem exists_stages {settings : Settings} {source : List Char} {a : Assembly}
    (h : assemble settings source = .ok a) :
    ∃ program declared count settled,
      readProgram settings source = .ok program ∧
      SymbolTable.build program.items = .ok (declared, count) ∧
      settle (keep (undefined? declared) program.items) = .ok settled ∧
      Resolved settled.table settled.items ∧
      a = ⟨wordsOf settled.table settled.items, settled.table,
        inOrder (program.diagnostics ++ complaints (undefined? declared) program.items ++
          settled.diagnostics)⟩ := by
  obtain ⟨program, hread, h⟩ := bind_eq_ok.mp h
  obtain ⟨⟨declared, count⟩, hbuild, h⟩ := bind_eq_ok.mp h
  obtain ⟨settled, hsettle, h⟩ := bind_eq_ok.mp h
  obtain ⟨⟨words, faults⟩, hemit, h⟩ := bind_eq_ok.mp h
  obtain ⟨hreadable, hresolved⟩ := encodable_of_settle hread hbuild hsettle
  rw [emit_eq_ok hreadable hresolved] at hemit
  obtain ⟨rfl, rfl⟩ := Prod.mk.inj (Except.ok.inj hemit)
  refine ⟨program, declared, count, settled, hread, hbuild, hsettle, hresolved, ?_⟩
  simpa using (Except.ok.inj h).symm

/-- An assembly is that of the items on lines without a diagnostic. -/
theorem assemble_spec {settings : Settings} {source : List Char} {a : Assembly}
    (h : assemble settings source = .ok a) :
    ∃ program,
      readProgram settings source = .ok program ∧
      (∀ d ∈ program.diagnostics, d ∈ a.diagnostics) ∧
      SymbolTable.build (without a.diagnostics program.items) =
        .ok (a.symbols, (without a.diagnostics program.items).countP Item.isStatement) ∧
      Resolved a.symbols (without a.diagnostics program.items) ∧
      a.words = wordsOf a.symbols (without a.diagnostics program.items) := by
  obtain ⟨program, declared, count, settled, hread, hbuild, hsettle, hresolved, rfl⟩ :=
    exists_stages h
  have ho := ordered_of_readProgram hread
  obtain ⟨hitems, htable, -⟩ := settle_spec (ordered_keep ho) hsettle
  have hperm := List.mergeSort_perm (program.diagnostics ++
    complaints (undefined? declared) program.items ++ settled.diagnostics)
      fun d e => d.location.le e.location
  have hleft : without (inOrder (program.diagnostics ++
      complaints (undefined? declared) program.items ++ settled.diagnostics)) program.items =
        settled.items := by
    rw [inOrder, without_perm hperm, without_append, without_append,
      without_own_diagnostics hread, ← keep_eq_without (fun _ => undefined?_of_label declared) ho,
      ← hitems]
  refine ⟨program, hread, ?_, ?_⟩
  · intro d hd
    exact hperm.mem_iff.mpr (by simp [hd])
  · simp only [hleft]
    exact ⟨htable, hresolved, trivial⟩

/-- A source that is read, declared and settled is assembled. -/
theorem assemble_of_stages {settings : Settings} {source : List Char} {program : Program}
    {declared : SymbolTable} {count : Nat} {settled : Settled}
    (hread : readProgram settings source = .ok program)
    (hbuild : SymbolTable.build program.items = .ok (declared, count))
    (hsettle : settle (keep (undefined? declared) program.items) = .ok settled) :
    assemble settings source = .ok ⟨wordsOf settled.table settled.items, settled.table,
      inOrder (program.diagnostics ++ complaints (undefined? declared) program.items ++
        settled.diagnostics)⟩ := by
  obtain ⟨hreadable, hresolved⟩ := encodable_of_settle hread hbuild hsettle
  have hemit := emit_eq_ok hreadable hresolved
  simp only [assemble, hread, hbuild, hsettle, hemit, bind, Except.bind, List.append_nil]
  rfl

/-- A source without faults and with resolved branches is assembled as it stands. -/
theorem assemble_of_resolved {settings : Settings} {source : List Char} {items : List Item}
    {table : SymbolTable} {count : Nat} (hread : readProgram settings source = .ok ⟨items, []⟩)
    (hbuild : SymbolTable.build items = .ok (table, count)) (hresolved : Resolved table items) :
    assemble settings source = .ok ⟨wordsOf table items, table, []⟩ := by
  have hundef : ∀ item ∈ items, undefined? table item = none := by
    intro item hitem
    cases hname : item.branchLabel? with
    | none => simp [undefined?, hname]
    | some name =>
      obtain ⟨address, -, haddress⟩ := hresolved item hitem name hname
      obtain ⟨symbol, hsymbol, -⟩ := Option.map_eq_some_iff.mp haddress
      simp [undefined?, hname, hsymbol]
  have hfit : ∀ item ∈ items, overflow? table item = none := by
    intro item hitem
    cases hname : item.branchLabel? with
    | none => simp [overflow?, hname]
    | some name =>
      obtain ⟨address, hle, haddress⟩ := hresolved item hitem name hname
      simp [overflow?, hname, haddress, Nat.not_lt.mpr hle]
  have hsettle : settle (keep (undefined? table) items) = .ok ⟨table, items, []⟩ := by
    rw [keep_eq_self hundef]
    exact settle_of_fit hbuild hfit
  rw [assemble_of_stages hread hbuild hsettle, complaints_eq_nil hundef]
  simp [inOrder]

end Hue.Assembly

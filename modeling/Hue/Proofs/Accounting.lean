import Hue.Proofs.Resolution

/-!
Every line of a source is accounted for exactly once. A line that asks for something is either
behind one word or has one diagnostic. Reading starts such an account of the lines, and every stage
of an assembly keeps it: a stage that drops a statement moves its line from the statements to the
diagnostics.
-/
namespace Hue.Source

/-! ## Lines that ask for something -/

/-- A line that asks for nothing: it is empty without its comment, or it has nothing but a label. -/
def isIdle (line : List Char) : Bool :=
  (stripComment line).isEmpty ||
    match splitLabel (stripComment line) with
    | .ok (_, body) => (Text.fields isSeparator body).isEmpty
    | .error _ => false

/-- The numbers of the lines that ask for something. -/
def busyLines (source : List Char) : List Nat :=
  ((Text.lines source).zipIdx 1).filterMap fun p => if isIdle p.1 then none else some p.2

theorem readStatement_eq_none_iff {settings : Settings} {line body : List Char} :
    readStatement settings line body = .ok none ↔ Text.fields isSeparator body = [] := by
  unfold readStatement
  split
  case h_1 hnil => simp [hnil]
  case h_2 head tokens hcons =>
    rw [hcons]
    split
    case isTrue => simp [map_eq_ok]
    case isFalse => simp [map_eq_ok]

/-- A line is idle exactly when it is read without a statement and without a fault. -/
theorem isIdle_iff (settings : Settings) (line : List Char) :
    isIdle line = true ↔ (readLine settings line).statement = .ok none := by
  cases hs : splitLabel (stripComment line) with
  | error e =>
    have hne : stripComment line ≠ [] := by
      intro hnil
      rw [hnil] at hs
      cases hs
    simp [isIdle, hs, hne, readLine_of_splitLabel_error settings hs]
  | ok parts =>
    obtain ⟨label, body⟩ := parts
    have hempty : stripComment line = [] → Text.fields isSeparator body = [] := by
      intro hnil
      rw [hnil] at hs
      cases hs
      rfl
    rw [readLine_of_splitLabel settings hs, readStatement_eq_none_iff]
    simp only [isIdle, hs, Bool.or_eq_true, List.isEmpty_iff]
    exact ⟨fun h => h.elim hempty id, .inr⟩

/-- Whether a line has a statement or a fault. -/
def Reading.isBusy (reading : Reading) : Bool :=
  match reading.statement with
  | .ok none => false
  | _ => true

theorem isBusy_readLine (settings : Settings) (line : List Char) :
    (readLine settings line).isBusy = !isIdle line := by
  have hiff := isIdle_iff settings line
  unfold Reading.isBusy
  split <;> simp_all

theorem busyLines_eq (settings : Settings) (source : List Char) :
    busyLines source = ((readings settings source).filter fun r => r.2.isBusy).map Prod.fst := by
  rw [busyLines, readings, List.filter_map, List.map_map]
  induction (Text.lines source).zipIdx 1 with
  | nil => rfl
  | cons p ps ih =>
    cases hidle : isIdle p.1 <;> simp [hidle, isBusy_readLine, ih]

theorem pairwise_busyLines (source : List Char) : (busyLines source).Pairwise (· < ·) := by
  rw [busyLines_eq {}, List.pairwise_map]
  exact (pairwise_readings {} source).filter _

theorem mem_busyLines_iff {source line : List Char} {number : Nat}
    (h : (line, number) ∈ (Text.lines source).zipIdx 1) :
    number ∈ busyLines source ↔ isIdle line = false := by
  rw [busyLines, List.mem_filterMap]
  constructor
  · rintro ⟨⟨other, n⟩, hmem, hsome⟩
    obtain ⟨hbusy, rfl⟩ : isIdle other = false ∧ n = number := by simpa using hsome
    rw [List.mk_mem_zipIdx_iff_le_and_getElem?_sub] at h hmem
    obtain rfl : line = other := Option.some.inj (h.2.symm.trans hmem.2)
    exact hbusy
  · intro hbusy
    exact ⟨(line, number), h, by simp [hbusy]⟩

theorem count_busyLines {source line : List Char} {number : Nat}
    (h : (line, number) ∈ (Text.lines source).zipIdx 1) :
    (busyLines source).count number = if isIdle line then 0 else 1 := by
  have hnodup : (busyLines source).Nodup := (pairwise_busyLines source).imp Nat.ne_of_lt
  rw [hnodup.count]
  simp only [mem_busyLines_iff h]
  cases isIdle line <;> rfl

theorem length_busyLines (source : List Char) :
    (busyLines source).length = (Text.lines source).countP fun line => !isIdle line := by
  have hfst := congrArg (List.countP fun line => !isIdle line)
    (List.zipIdx_map_fst 1 (Text.lines source))
  rw [List.countP_map] at hfst
  rw [busyLines, List.length_filterMap_eq_countP, ← hfst]
  congr 1
  funext p
  cases hidle : isIdle p.1 <;> simp [hidle]

/-! ## The account of a program -/

/-- The lines of the statements among items. -/
def statementLines (items : List Item) : List Nat :=
  (items.filter Item.isStatement).map Item.line

/-- The diagnostics and the statements together are on each busy line exactly once. -/
def Accounts (source : List Char) (diagnostics : List Diagnostic) (items : List Item) : Prop :=
  (diagnostics.map Diagnostic.location ++ (statementLines items).map Location.line).Perm
    ((busyLines source).map Location.line)

@[simp] theorem statementLines_append (items others : List Item) :
    statementLines (items ++ others) = statementLines items ++ statementLines others := by
  simp [statementLines]

@[simp] theorem statementLines_cons_label (line : Nat) (name : String) (items : List Item) :
    statementLines (⟨line, .label name⟩ :: items) = statementLines items := rfl

@[simp] theorem statementLines_cons_statement (line : Nat) (s : Statement) (items : List Item) :
    statementLines (⟨line, .statement s⟩ :: items) = line :: statementLines items := rfl

theorem statementLines_items (line : Nat) (reading : Reading) :
    statementLines (reading.items line) = reading.statement?.toList.map fun _ => line := by
  rw [Reading.items_eq]
  cases reading.label <;> cases reading.statement? <;> rfl

/-- Of items in the order of a source no two statements are on one line. -/
theorem pairwise_statementLines {items : List Item} (h : Ordered items) :
    (statementLines items).Pairwise (· < ·) := by
  rw [statementLines, List.pairwise_map, List.pairwise_filter]
  apply h.imp
  intro x y hxy hx _
  rcases hxy with hlt | ⟨-, hlabel, -⟩
  · exact hlt
  · simp [hx] at hlabel

/-- A line has a diagnostic or a statement or neither, but not both. -/
theorem perm_lines_readings (rs : List (Nat × Reading)) :
    ((rs.filterMap fun r => r.2.diagnostic? r.1).map Diagnostic.location ++
        (statementLines (rs.flatMap fun r => r.2.items r.1)).map Location.line).Perm
      (((rs.filter fun r => r.2.isBusy).map Prod.fst).map Location.line) := by
  induction rs with
  | nil => exact .nil
  | cons r rs ih =>
    obtain ⟨line, reading⟩ := r
    rw [List.flatMap_cons, statementLines_append, statementLines_items]
    cases hs : reading.statement with
    | error e =>
      have hne : reading.diagnostic? line ≠ none := by
        rw [ne_eq, Reading.diagnostic?_eq_none_iff, hs]
        simp
      obtain ⟨d, hd⟩ := Option.ne_none_iff_exists'.mp hne
      simpa [hs, hd, Reading.isBusy, Reading.statement?, Reading.location_of_diagnostic? hd] using ih
    | ok s =>
      have hd : reading.diagnostic? line = none :=
        (Reading.diagnostic?_eq_none_iff line reading).mpr ⟨s, hs⟩
      cases s with
      | none => simpa [hs, hd, Reading.isBusy, Reading.statement?] using ih
      | some s =>
        have hmiddle := List.perm_middle.trans (ih.cons (Location.line line))
        simpa [hs, hd, Reading.isBusy, Reading.statement?] using hmiddle

/-- Reading a source opens the account. -/
theorem accounts_of_readProgram {settings : Settings} {source : List Char} {program : Program}
    (h : readProgram settings source = .ok program) :
    Accounts source program.diagnostics program.items := by
  obtain ⟨-, rfl⟩ := readProgram_eq_ok_iff.mp h
  rw [Accounts, busyLines_eq settings source]
  exact perm_lines_readings (readings settings source)

end Hue.Source

namespace Hue.Assembly

open Source

/-! ## Stages keep the account -/

section Stage

variable {fault? : Item → Option Error} {source : List Char}

/-- A stage moves the line of each statement that it drops to its diagnostics. -/
theorem perm_lines_keep (hf : ∀ item, item.isStatement = false → fault? item = none)
    (items : List Item) :
    ((complaints fault? items).map Diagnostic.location ++
      (statementLines (keep fault? items)).map Location.line).Perm
        ((statementLines items).map Location.line) := by
  induction items with
  | nil => exact .nil
  | cons item items ih =>
    obtain ⟨line, content⟩ := item
    cases content with
    | label name =>
      have hnone : fault? ⟨line, .label name⟩ = none := hf _ rfl
      simpa [complaints, keep, hnone] using ih
    | statement s =>
      cases hfault : fault? ⟨line, .statement s⟩ with
      | some e =>
        simpa [complaints, keep, hfault, Diagnostic.error] using ih
      | none =>
        have hmiddle := List.perm_middle.trans (ih.cons (Location.line line))
        simpa [complaints, keep, hfault] using hmiddle

theorem accounts_keep {diagnostics : List Diagnostic} {items : List Item}
    (hf : ∀ item, item.isStatement = false → fault? item = none)
    (h : Accounts source diagnostics items) :
    Accounts source (diagnostics ++ complaints fault? items) (keep fault? items) := by
  rw [Accounts, List.map_append, List.append_assoc]
  exact ((perm_lines_keep hf items).append_left _).trans h

end Stage

/-- Settling keeps the account, however often it drops branches. -/
theorem accounts_settle {source : List Char} {diagnostics : List Diagnostic} {items : List Item}
    {settled : Settled} (hsettle : settle items = .ok settled)
    (h : Accounts source diagnostics items) :
    Accounts source (diagnostics ++ settled.diagnostics) settled.items := by
  fun_induction settle items generalizing settled diagnostics with
  | case1 items e hbuild => simp at hsettle
  | case2 items table count hbuild hlt e hrec ih => simp at hsettle
  | case3 items table count hbuild hlt rest hrec ih =>
    obtain rfl := Except.ok.inj hsettle
    have hstep := accounts_keep (fun _ => overflow?_of_label table) h
    simpa using ih hrec hstep
  | case4 items table count hbuild hstop =>
    obtain rfl := Except.ok.inj hsettle
    simpa using h

/-! ## Words and their lines -/

/-- The words of items, each with the line of its item. -/
def placeWords (table : SymbolTable) (items : List Item) : List (Nat × Word) :=
  items.filterMap fun item =>
    ((encodeItem? table item).bind Except.toOption).map (item.line, ·)

theorem map_snd_placeWords (table : SymbolTable) (items : List Item) :
    (placeWords table items).map Prod.snd = wordsOf table items := by
  rw [placeWords, wordsOf, List.map_filterMap]
  congr 1
  funext item
  cases (encodeItem? table item).bind Except.toOption <;> rfl

/-- The words of a source before they are put together, each with its line. -/
def wordLines (settings : Settings) (source : List Char) : Except Error (List (Nat × Word)) := do
  let program ← readProgram settings source
  let (declared, _) ← SymbolTable.build program.items
  let settled ← settle (keep (undefined? declared) program.items)
  return placeWords settled.table settled.items

/-- Where every statement has a word, the lines of the words are those of the statements. -/
theorem map_fst_placeWords {table : SymbolTable} {items : List Item}
    (hread : ReadableItems items) (hresolved : Resolved table items) :
    (placeWords table items).map Prod.fst = statementLines items := by
  induction items with
  | nil => rfl
  | cons item items ih =>
    have hrest := ih (hread.mono (by simp +contextual)) fun other ho => hresolved other (by simp [ho])
    obtain ⟨line, content⟩ := item
    cases content with
    | label name => exact hrest
    | statement s =>
      obtain ⟨w, hw⟩ := exists_encodeStatement hread hresolved List.mem_cons_self rfl
      rw [statementLines_cons_statement, ← hrest]
      simp [placeWords, encodeItem?, hw, Except.toOption]

/-- The account of an assembly: its diagnostics and the lines of its words. -/
theorem exists_account {settings : Settings} {source : List Char} {a : Assembly}
    (h : assemble settings source = .ok a) :
    ∃ rows, wordLines settings source = .ok rows ∧ rows.map Prod.snd = a.words ∧
      (rows.map Prod.fst).Pairwise (· < ·) ∧
      (a.diagnostics.map Diagnostic.location ++ (rows.map Prod.fst).map Location.line).Perm
        ((busyLines source).map Location.line) := by
  obtain ⟨program, declared, count, settled, hread, hbuild, hsettle, -, rfl⟩ := exists_stages h
  obtain ⟨hreadable, hresolved⟩ := encodable_of_settle hread hbuild hsettle
  have ho := ordered_of_readProgram hread
  obtain ⟨hitems, -, -⟩ := settle_spec (ordered_keep ho) hsettle
  have hordered : Ordered settled.items := by
    rw [hitems]
    exact (ordered_keep ho).filter _
  have haccount := accounts_settle hsettle (accounts_keep (fun _ => undefined?_of_label declared)
    (accounts_of_readProgram hread))
  refine ⟨placeWords settled.table settled.items, ?_, map_snd_placeWords _ _, ?_⟩
  · simp only [wordLines, hread, hbuild, hsettle, bind, Except.bind]
    rfl
  · rw [map_fst_placeWords hreadable hresolved]
    refine ⟨pairwise_statementLines hordered, ?_⟩
    exact (((List.mergeSort_perm _ _).map _).append_right _).trans haccount

/-! ## The order of the diagnostics -/

theorem pairwise_inOrder (diagnostics : List Diagnostic) :
    (inOrder diagnostics).Pairwise fun d e => d.location.le e.location = true := by
  have htrans (x y z : Location) : x.le y = true → y.le z = true → x.le z = true := by
    cases x <;> cases y <;> cases z <;> simp [Location.le] <;> omega
  have htotal (x y : Location) : (x.le y || y.le x) = true := by
    cases x <;> cases y <;> simp [Location.le] <;> omega
  exact List.pairwise_mergeSort (fun x y z => htrans x.location y.location z.location)
    (fun x y => htotal x.location y.location) diagnostics

theorem pairwise_diagnostics {settings : Settings} {source : List Char} {a : Assembly}
    (h : assemble settings source = .ok a) :
    a.diagnostics.Pairwise fun d e => d.location.le e.location = true := by
  obtain ⟨program, declared, count, settled, -, -, -, -, rfl⟩ := exists_stages h
  exact pairwise_inOrder _

/-- Diagnostics in order on distinct lines are on ascending lines. -/
theorem exists_ascending_lines {diagnostics : List Diagnostic} {lines : List Nat}
    (hline : ∀ d ∈ diagnostics, d.location ∈ lines.map Location.line)
    (hnodup : (diagnostics.map Diagnostic.location).Nodup)
    (hsorted : diagnostics.Pairwise fun d e => d.location.le e.location = true) :
    ∃ numbers : List Nat, diagnostics.map Diagnostic.location = numbers.map Location.line ∧
      numbers.Pairwise (· < ·) := by
  have hplace : ∀ d ∈ diagnostics, d.location = .line d.location.position := by
    intro d hd
    obtain ⟨n, -, hn⟩ := List.mem_map.mp (hline d hd)
    rw [← hn]
    rfl
  refine ⟨diagnostics.map fun d => d.location.position, ?_, ?_⟩
  · rw [List.map_map]
    exact List.map_congr_left hplace
  · rw [List.pairwise_map]
    apply ((List.pairwise_map.mp hnodup).and hsorted).imp_of_mem
    intro d e hd he hde
    have hne : d.location.position ≠ e.location.position := by
      intro heq
      apply hde.1
      rw [hplace d hd, hplace e he, heq]
    have hle := hde.2
    rw [hplace d hd, hplace e he] at hle
    exact Nat.lt_of_le_of_ne (by simpa [Location.le] using hle) hne

section Ascending

variable {settings : Settings} {source : List Char} {a : Assembly}

/-- No line has two diagnostics. -/
theorem nodup_locations (h : assemble settings source = .ok a) :
    (a.diagnostics.map Diagnostic.location).Nodup := by
  obtain ⟨rows, -, -, -, hperm⟩ := exists_account h
  have hbusy : ((busyLines source).map Location.line).Nodup :=
    (pairwise_busyLines source).map _ fun x y hlt heq => hlt.ne (Location.line.inj heq)
  exact (List.nodup_append.mp (hperm.nodup_iff.mpr hbusy)).1

theorem ascending_diagnostics (h : assemble settings source = .ok a) :
    ∃ numbers : List Nat, a.diagnostics.map Diagnostic.location = numbers.map Location.line ∧
      numbers.Pairwise (· < ·) := by
  obtain ⟨rows, -, -, -, hperm⟩ := exists_account h
  have hline : ∀ d ∈ a.diagnostics, d.location ∈ (busyLines source).map Location.line :=
    fun d hd => hperm.subset (List.mem_append_left _ (List.mem_map_of_mem hd))
  exact exists_ascending_lines hline (nodup_locations h) (pairwise_diagnostics h)

end Ascending

/-! ## Counting words and diagnostics -/

/-- In an account a line has as many words and diagnostics as it is among the busy lines. -/
theorem count_of_account {diagnostics : List Diagnostic} {rows : List (Nat × Word)}
    {lines : List Nat} (h : (diagnostics.map Diagnostic.location ++
      (rows.map Prod.fst).map Location.line).Perm (lines.map Location.line)) (number : Nat) :
    rows.countP (·.1 == number) + diagnostics.countP (·.location == .line number) =
      lines.count number := by
  have hline (n : Nat) : (Location.line n == .line number) = (n == number) := by
    rw [Bool.eq_iff_iff]
    simp
  have hcount := h.countP_eq (· == .line number)
  simp only [List.countP_append, List.countP_map, Function.comp_def, hline] at hcount
  rw [List.count_eq_countP, ← hcount, Nat.add_comm]

/-- A line that asks for nothing has neither a word nor a diagnostic. Any other line has one word
and no diagnostic, or one diagnostic and no word. Words and diagnostics are in the order of their
lines. -/
theorem every_line_accounted_for {settings : Settings} {source : List Char} {a : Assembly}
    (h : assemble settings source = .ok a) :
    ∃ rows, wordLines settings source = .ok rows ∧ rows.map Prod.snd = a.words ∧
      (rows.map Prod.fst).Pairwise (· < ·) ∧
      (∃ numbers : List Nat, a.diagnostics.map Diagnostic.location = numbers.map Location.line ∧
        numbers.Pairwise (· < ·)) ∧
      (∀ line number, (line, number) ∈ (Text.lines source).zipIdx 1 →
        (isIdle line = true →
          rows.countP (·.1 == number) = 0 ∧
            a.diagnostics.countP (·.location == .line number) = 0) ∧
        (isIdle line = false →
          rows.countP (·.1 == number) = 1 ∧
              a.diagnostics.countP (·.location == .line number) = 0 ∨
            rows.countP (·.1 == number) = 0 ∧
              a.diagnostics.countP (·.location == .line number) = 1)) ∧
      a.words.length + a.diagnostics.length =
        (Text.lines source).countP fun line => !isIdle line := by
  obtain ⟨rows, hrows, hwords, hascending, hperm⟩ := exists_account h
  refine ⟨rows, hrows, hwords, hascending, ascending_diagnostics h, ?_, ?_⟩
  · intro line number hmem
    have hcount := count_of_account hperm number
    rw [count_busyLines hmem] at hcount
    cases hidle : isIdle line with
    | true =>
      simp only [hidle, ↓reduceIte, Nat.add_eq_zero_iff] at hcount
      simpa using hcount
    | false =>
      simp only [hidle, Bool.false_eq_true, ↓reduceIte, Nat.add_eq_one_iff] at hcount
      simpa using hcount.symm
  · have hlength := hperm.length_eq
    simp only [List.length_append, List.length_map, length_busyLines] at hlength
    rw [← hwords, List.length_map, ← hlength, Nat.add_comm]

theorem jumpsAround_accounted_for :
    assemble {} jumpsAround = .ok jumpsAssembled ∧
      (Text.lines jumpsAround).map isIdle = [false, false, false, false, true] ∧
      jumpsAssembled.words.length + jumpsAssembled.diagnostics.length = 4 ∧
      ∃ rows, wordLines {} jumpsAround = .ok rows ∧ rows.map Prod.snd = jumpsAssembled.words ∧
        (rows.countP (·.1 == 2) = 0 ∧
          jumpsAssembled.diagnostics.countP (·.location == .line 2) = 1) ∧
        rows.countP (·.1 == 5) = 0 ∧
          jumpsAssembled.diagnostics.countP (·.location == .line 5) = 0 := by
  obtain ⟨rows, hrows, hwords, -, -, hlines, hsum⟩ := every_line_accounted_for assemble_jumpsAround
  have hidle : (Text.lines jumpsAround).map isIdle = [false, false, false, false, true] := by decide
  have hdropped := (hlines "L: JUMP nowhere".toList 2 (by decide)).2 (by decide)
  have hlabel := (hlines "end:".toList 5 (by decide)).1 (by decide)
  refine ⟨assemble_jumpsAround, hidle, hsum.trans (by decide), rows, hrows, hwords, ?_, hlabel⟩
  have hreport : jumpsAssembled.diagnostics.countP (·.location == .line 2) = 1 := by decide
  exact hdropped.resolve_left fun hword => by simp [hreport] at hword

end Hue.Assembly

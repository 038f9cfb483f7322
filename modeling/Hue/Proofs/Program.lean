import Hue.Proofs.Statement
import Hue.Proofs.SymbolTable

/-!
The items of a source and the lines they come from. A line gives a label, and a statement or a
diagnostic but never both. So the items are in the order of their lines, and taking the statements
of some lines out of a program is the same as reading those lines without their bodies.
-/
namespace Hue.Source

/-- Whether a line has a diagnostic. -/
def reportsLine (diagnostics : List Diagnostic) (line : Nat) : Bool :=
  diagnostics.any fun d => d.location == .line line

theorem reportsLine_iff {diagnostics : List Diagnostic} {line : Nat} :
    reportsLine diagnostics line = true ↔ ∃ d ∈ diagnostics, d.location = .line line := by
  simp [reportsLine]

/-- The items without the statements on lines that have a diagnostic. Labels stay. -/
def without (diagnostics : List Diagnostic) (items : List Item) : List Item :=
  items.filter fun item => !(item.isStatement && reportsLine diagnostics item.line)

theorem mem_without {diagnostics : List Diagnostic} {items : List Item} {item : Item} :
    item ∈ without diagnostics items ↔
      item ∈ items ∧ (item.isStatement = true → reportsLine diagnostics item.line = false) := by
  rw [without, List.mem_filter]
  cases item.isStatement <;> simp

theorem without_append (ds es : List Diagnostic) (items : List Item) :
    without (ds ++ es) items = without es (without ds items) := by
  rw [without, without, without, List.filter_filter]
  congr 1
  funext item
  simp only [reportsLine, List.any_append]
  cases item.isStatement <;> simp [Bool.and_comm]

theorem without_eq_self {ds : List Diagnostic} {items : List Item}
    (h : ∀ item ∈ items, item.isStatement = true → reportsLine ds item.line = false) :
    without ds items = items := by
  rw [without, List.filter_eq_self]
  intro item hitem
  cases hs : item.isStatement with
  | false => rfl
  | true => simp [h item hitem hs]

/-- Only which diagnostics there are matters, not their order. -/
theorem without_perm {ds es : List Diagnostic} (h : ds.Perm es) (items : List Item) :
    without ds items = without es items := by
  have hreports : reportsLine ds = reportsLine es := by
    funext line
    exact h.any_eq
  rw [without, without, hreports]

/-- Taking statements away leaves the labels. -/
theorem labelsOf_filter {p : Item → Bool} {items : List Item}
    (h : ∀ item ∈ items, p item = false → item.isStatement = true) :
    labelsOf (items.filter p) = labelsOf items := by
  induction items with
  | nil => rfl
  | cons item items ih =>
    have hrest := ih fun other ho => h other (by simp [ho])
    cases hp : p item with
    | true =>
      rw [List.filter_cons_of_pos hp, labelsOf, List.filterMap_cons, ← labelsOf, hrest]
      rfl
    | false =>
      obtain ⟨line, content⟩ := item
      cases content with
      | label name => simpa using h ⟨line, .label name⟩ (by simp) hp
      | statement s => rw [List.filter_cons_of_neg (by simp [hp]), labelsOf_cons_statement, hrest]

theorem labelsOf_without (ds : List Diagnostic) (items : List Item) :
    labelsOf (without ds items) = labelsOf items := by
  apply labelsOf_filter
  intro item _ h
  cases hs : item.isStatement with
  | true => rfl
  | false => simp [hs] at h

/-! ## One line -/

namespace Reading

/-- A line of which only the label is left. -/
def strike (reading : Reading) : Reading := ⟨reading.label, .ok none⟩

/-- The statement that a line holds. -/
def statement? (reading : Reading) : Option Statement :=
  match reading.statement with
  | .ok s => s
  | .error _ => none

theorem statement?_eq_some_iff {reading : Reading} {s : Statement} :
    reading.statement? = some s ↔ reading.statement = .ok (some s) := by
  unfold statement?
  split <;> simp_all

theorem items_eq (line : Nat) (reading : Reading) :
    reading.items line =
      (reading.label.toList.map fun name => ⟨line, .label name⟩) ++
        reading.statement?.toList.map fun s => ⟨line, .statement s⟩ := by
  obtain ⟨label, statement⟩ := reading
  cases statement with
  | error e => simp [items, statement?]
  | ok s => cases s <;> simp [items, statement?]

theorem line_of_mem_items {line : Nat} {reading : Reading} {item : Item}
    (h : item ∈ reading.items line) : item.line = line := by
  rw [items_eq] at h
  rcases List.mem_append.mp h with h | h
  · obtain ⟨name, -, rfl⟩ := List.mem_map.mp h
    rfl
  · obtain ⟨s, -, rfl⟩ := List.mem_map.mp h
    rfl

theorem statement_mem_items {line number : Nat} {reading : Reading} {s : Statement} :
    ⟨number, .statement s⟩ ∈ reading.items line ↔
      number = line ∧ reading.statement = .ok (some s) := by
  rw [items_eq, ← statement?_eq_some_iff]
  constructor
  · intro h
    simp only [List.mem_append, List.mem_map, Option.mem_toList, Item.mk.injEq, reduceCtorEq,
      and_false, exists_false, false_or] at h
    obtain ⟨t, ht, rfl, heq⟩ := h
    cases heq
    exact ⟨rfl, ht⟩
  · rintro ⟨rfl, hs⟩
    simp [hs]

theorem without_items (ds : List Diagnostic) (line : Nat) (reading : Reading) :
    without ds (reading.items line) =
      (if reportsLine ds line then reading.strike else reading).items line := by
  have hlabels : (reading.label.toList.map fun name => (⟨line, .label name⟩ : Item)).filter
      (fun item => !(item.isStatement && reportsLine ds item.line)) =
        reading.label.toList.map fun name => ⟨line, .label name⟩ := by
    rw [List.filter_eq_self]
    intro item hitem
    obtain ⟨name, -, rfl⟩ := List.mem_map.mp hitem
    rfl
  rw [items_eq, items_eq, without, List.filter_append, hlabels]
  cases hr : reportsLine ds line with
  | false =>
    have hkeep : (reading.statement?.toList.map fun s => (⟨line, .statement s⟩ : Item)).filter
        (fun item => !(item.isStatement && reportsLine ds item.line)) =
          reading.statement?.toList.map fun s => ⟨line, .statement s⟩ := by
      cases reading.statement? <;> simp [hr]
    rw [hkeep]
    rfl
  | true =>
    have hdrop : (reading.statement?.toList.map fun s => (⟨line, .statement s⟩ : Item)).filter
        (fun item => !(item.isStatement && reportsLine ds item.line)) = [] := by
      cases reading.statement? <;> simp [hr]
    rw [hdrop]
    rfl

theorem diagnostic?_eq_none_iff (line : Nat) (reading : Reading) :
    reading.diagnostic? line = none ↔ ∃ s, reading.statement = .ok s := by
  unfold diagnostic?
  split <;> simp_all

theorem location_of_diagnostic? {line : Nat} {reading : Reading} {d : Diagnostic}
    (h : reading.diagnostic? line = some d) : d.location = .line line := by
  unfold diagnostic? at h
  split at h
  case h_1 =>
    obtain rfl := Option.some.inj h
    rfl
  case h_2 =>
    obtain rfl := Option.some.inj h
    rfl
  case h_3 => simp at h

theorem fatal?_of_ok (policy : Policy) {reading : Reading} {s : Option Statement}
    (h : reading.statement = .ok s) : reading.fatal? policy = none := by
  simp [fatal?, h]

theorem ordered_items (line : Nat) (reading : Reading) : Ordered (reading.items line) := by
  rw [items_eq]
  cases reading.label <;> cases reading.statement? <;> simp [Ordered]

end Reading

/-! ## All lines -/

theorem pairwise_readings (settings : Settings) (source : List Char) :
    (readings settings source).Pairwise fun x y => x.1 < y.1 := by
  rw [readings, List.pairwise_map]
  have hidx : (((Text.lines source).zipIdx 1).map Prod.snd).Pairwise (· < ·) := by
    rw [List.zipIdx_map_snd]
    exact List.pairwise_lt_range'
  exact List.pairwise_map.mp hidx

theorem readable_of_mem_readings {settings : Settings} {source : List Char} {line : Nat}
    {r : Reading} {i : Instruction} (h : (line, r) ∈ readings settings source)
    (hs : r.statement = .ok (some (.instruction i))) : i.Readable := by
  obtain ⟨⟨text, number⟩, -, heq⟩ := List.mem_map.mp h
  obtain ⟨-, rfl⟩ := Prod.mk.inj heq
  exact readable_of_readLine hs

/-- A line has one reading. -/
theorem reading_unique {settings : Settings} {source : List Char} {line : Nat} {r t : Reading}
    (hr : (line, r) ∈ readings settings source) (ht : (line, t) ∈ readings settings source) :
    r = t := by
  have hp := pairwise_readings settings source
  generalize readings settings source = rs at hr ht hp
  induction rs with
  | nil => simp at hr
  | cons first rs ih =>
    obtain ⟨hfirst, hrest⟩ := List.pairwise_cons.mp hp
    rcases List.mem_cons.mp hr with rfl | hr'
    · rcases List.mem_cons.mp ht with ht' | ht'
      · exact (Prod.mk.inj ht').2.symm
      · exact absurd (hfirst _ ht') (by simp)
    · rcases List.mem_cons.mp ht with rfl | ht'
      · exact absurd (hfirst _ hr') (by simp)
      · exact ih hr' ht' hrest

theorem ordered_flatMap_items {rs : List (Nat × Reading)}
    (h : rs.Pairwise fun x y => x.1 < y.1) : Ordered (rs.flatMap fun r => r.2.items r.1) := by
  induction rs with
  | nil => simp [Ordered]
  | cons r rs ih =>
    obtain ⟨hfirst, hrest⟩ := List.pairwise_cons.mp h
    rw [List.flatMap_cons, Ordered, List.pairwise_append]
    refine ⟨r.2.ordered_items r.1, ih hrest, ?_⟩
    intro x hx y hy
    obtain ⟨t, ht, hyt⟩ := List.mem_flatMap.mp hy
    rw [Reading.line_of_mem_items hx, Reading.line_of_mem_items hyt]
    exact .inl (hfirst t ht)

/-- The labels of a source are those in front of its lines, whatever becomes of their bodies. -/
theorem labelsOf_flatMap_items (rs : List (Nat × Reading)) :
    labelsOf (rs.flatMap fun r => r.2.items r.1) =
      rs.filterMap fun r => r.2.label.map (r.1, ·) := by
  have hlabels (line : Nat) (reading : Reading) :
      labelsOf (reading.items line) = (reading.label.map (line, ·)).toList := by
    rw [Reading.items_eq]
    cases reading.label <;> cases reading.statement? <;> rfl
  induction rs with
  | nil => rfl
  | cons r rs ih =>
    rw [List.flatMap_cons, labelsOf, List.filterMap_append, ← labelsOf, ← labelsOf, ih, hlabels,
      List.filterMap_cons]
    cases r.2.label <;> rfl

/-- A source is read exactly when no line ends the reading. -/
theorem readProgram_eq_ok_iff {settings : Settings} {source : List Char} {program : Program} :
    readProgram settings source = .ok program ↔
      (∀ r ∈ readings settings source, r.2.fatal? settings.unrecognized = none) ∧
        program =
          { items := (readings settings source).flatMap fun r => r.2.items r.1
            diagnostics := (readings settings source).filterMap fun r => r.2.diagnostic? r.1 } := by
  cases hfatal : (readings settings source).findSome? fun r => r.2.fatal? settings.unrecognized with
  | some e =>
    have hsome : ¬∀ r ∈ readings settings source, r.2.fatal? settings.unrecognized = none := by
      rw [← List.findSome?_eq_none_iff, hfatal]
      simp
    simp only [readProgram, hfatal, reduceCtorEq, false_iff, not_and]
    exact fun hall => absurd hall hsome
  | none =>
    have hnone := List.findSome?_eq_none_iff.mp hfatal
    simp only [readProgram, hfatal, Except.ok.injEq]
    exact ⟨fun h => ⟨hnone, h.symm⟩, fun h => h.2.symm⟩

section Program

variable {settings : Settings} {source : List Char} {program : Program}

theorem ordered_of_readProgram (h : readProgram settings source = .ok program) :
    Ordered program.items := by
  obtain ⟨-, rfl⟩ := readProgram_eq_ok_iff.mp h
  exact ordered_flatMap_items (pairwise_readings settings source)

theorem statement_mem_of_readProgram (h : readProgram settings source = .ok program)
    {line : Nat} {s : Statement} :
    ⟨line, .statement s⟩ ∈ program.items ↔
      ∃ r, (line, r) ∈ readings settings source ∧ r.statement = .ok (some s) := by
  obtain ⟨-, rfl⟩ := readProgram_eq_ok_iff.mp h
  simp only [List.mem_flatMap, Reading.statement_mem_items]
  constructor
  · rintro ⟨⟨number, r⟩, hr, rfl, hs⟩
    exact ⟨r, hr, hs⟩
  · rintro ⟨r, hr, hs⟩
    exact ⟨(line, r), hr, rfl, hs⟩

/-- A line with a diagnostic from reading has no statement. -/
theorem without_own_diagnostics (h : readProgram settings source = .ok program) :
    without program.diagnostics program.items = program.items := by
  apply without_eq_self
  rintro ⟨line, content⟩ hitem hs
  cases content with
  | label name => simp at hs
  | statement s =>
    obtain ⟨r, hr, hstatement⟩ := (statement_mem_of_readProgram h).mp hitem
    obtain ⟨-, rfl⟩ := readProgram_eq_ok_iff.mp h
    rw [Bool.eq_false_iff, ne_eq, reportsLine_iff]
    rintro ⟨d, hd, hloc⟩
    obtain ⟨⟨number, t⟩, ht, hdt⟩ := List.mem_filterMap.mp hd
    obtain rfl : number = line := by
      simpa using (Reading.location_of_diagnostic? hdt).symm.trans hloc
    have hnone := (Reading.diagnostic?_eq_none_iff number r).mpr ⟨_, hstatement⟩
    rw [reading_unique hr ht, hdt] at hnone
    simp at hnone

end Program

end Hue.Source

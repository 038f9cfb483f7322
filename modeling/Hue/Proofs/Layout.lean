import Hue.Proofs.Renumbering

/-!
The layout of a source. Comments, empty lines and blanks around a line do not matter: two sources
with the same texts on their lines, line by line, give the same words, the same symbols and the same
diagnostics, or the same error. What differs are the numbers of the lines, and these are in the same
order, so one source is assembled as the other one with its lines renumbered.
-/
namespace Hue

open Source

namespace Source

/-! ## Texts of lines -/

/-- What is left of the lines of a source without comments and the blanks around them, for the lines
of which something is left. -/
def texts (source : List Char) : List (List Char) :=
  ((Text.lines source).map stripComment).filter fun text => !text.isEmpty

/-- The texts, each with the number of its line. -/
def numberedTexts (source : List Char) : List (Nat × List Char) :=
  ((Text.lines source).zipIdx 1).filterMap fun p =>
    if (stripComment p.1).isEmpty then none else some (p.2, stripComment p.1)

theorem map_snd_numberedTexts (source : List Char) :
    (numberedTexts source).map Prod.snd = texts source := by
  rw [numberedTexts, texts]
  generalize 1 = start
  induction Text.lines source generalizing start with
  | nil => rfl
  | cons line lines ih =>
    rw [List.zipIdx_cons, List.map_cons, List.filterMap_cons]
    cases hempty : (stripComment line).isEmpty with
    | true => simpa [hempty] using ih (start + 1)
    | false => simpa [hempty] using ih (start + 1)

theorem pairwise_numberedTexts (source : List Char) :
    ((numberedTexts source).map Prod.fst).Pairwise (· < ·) := by
  have hidx : ((Text.lines source).zipIdx 1).Pairwise fun p q => p.2 < q.2 := by
    rw [← List.pairwise_map, List.zipIdx_map_snd]
    exact List.pairwise_lt_range'
  rw [numberedTexts, List.pairwise_map, List.pairwise_filterMap]
  refine hidx.imp ?_
  intro p q hlt x hx y hy
  obtain rfl := Option.some.inj (Option.ite_none_left_eq_some.mp hx).2
  obtain rfl := Option.some.inj (Option.ite_none_left_eq_some.mp hy).2
  exact hlt

theorem readLine_stripComment (settings : Settings) (line : List Char) :
    readLine settings (stripComment line) = readLine settings line := by
  simp only [readLine, stripComment_stripComment]

/-- The readings of the texts. -/
def textReadings (settings : Settings) (source : List Char) : List (Nat × Reading) :=
  (numberedTexts source).map fun p => (p.1, readLine settings p.2)

/-- What is collected from the readings of all lines is collected from those of the texts, if a line
without label and statement gives nothing. -/
theorem flatMap_readings {β : Type} (settings : Settings) (source : List Char)
    (g : Nat × Reading → List β) (hg : ∀ n, g (n, ⟨none, .ok none⟩) = []) :
    (readings settings source).flatMap g = (textReadings settings source).flatMap g := by
  rw [readings, textReadings, numberedTexts]
  induction (Text.lines source).zipIdx 1 with
  | nil => rfl
  | cons p ps ih =>
    obtain ⟨line, number⟩ := p
    rw [List.map_cons, List.flatMap_cons, ih, List.filterMap_cons]
    cases hempty : (stripComment line).isEmpty with
    | true =>
      have hread : readLine settings line = ⟨none, .ok none⟩ := by
        rw [← readLine_stripComment, List.isEmpty_iff.mp hempty]
        rfl
      simp [hread, hg]
    | false => simp [readLine_stripComment]

theorem ofReadings_readings (settings : Settings) (source : List Char) :
    Program.ofReadings (readings settings source) = .ofReadings (textReadings settings source) := by
  simp only [Program.ofReadings, List.filterMap_eq_flatMap_toList]
  rw [flatMap_readings settings source _ fun _ => rfl, flatMap_readings settings source _ fun _ => rfl]

theorem firstUnrecognized?_eq (settings : Settings) (source : List Char) :
    firstUnrecognized? settings source =
      (textReadings settings source).findSome? fun r => r.2.unrecognized? := by
  rw [firstUnrecognized?, ← List.head?_filterMap, ← List.head?_filterMap]
  simp only [List.filterMap_eq_flatMap_toList]
  rw [flatMap_readings settings source _ fun _ => rfl]

/-! ## Sources with the same texts -/

/-- Ascending numbers are renumbered into any others of the same count. -/
theorem exists_keepsOrder {olds news : List Nat} (hlength : olds.length = news.length)
    (ho : olds.Pairwise (· < ·)) (hn : news.Pairwise (· < ·)) :
    ∃ f, olds.map f = news ∧ KeepsOrder f olds := by
  induction olds generalizing news with
  | nil =>
    obtain rfl := List.length_eq_zero_iff.mp hlength.symm
    exact ⟨id, rfl, by simp [KeepsOrder]⟩
  | cons old olds ih =>
    cases news with
    | nil => simp at hlength
    | cons new news =>
      obtain ⟨hold, ho⟩ := List.pairwise_cons.mp ho
      obtain ⟨hnew, hn⟩ := List.pairwise_cons.mp hn
      obtain ⟨f, rfl, hkeeps⟩ := ih (Nat.succ.inj hlength) ho hn
      have hrest : ∀ n ∈ olds, (if n = old then new else f n) = f n := by
        intro n hmem
        rw [if_neg (Nat.ne_of_gt (hold n hmem))]
      refine ⟨fun n => if n = old then new else f n, ?_, ?_⟩
      · rw [List.map_cons, if_pos rfl, List.map_congr_left hrest]
      · intro m hm n hn hlt
        have hfirst : old ≤ m := by
          rcases List.mem_cons.mp hm with rfl | hm
          · exact Nat.le_refl _
          · exact Nat.le_of_lt (hold m hm)
        have hlater : n ∈ olds := (List.mem_cons.mp hn).resolve_left (by omega)
        simp only [hrest n hlater]
        rcases List.mem_cons.mp hm with rfl | hm
        · rw [if_pos rfl]
          exact hnew (f n) (List.mem_map_of_mem hlater)
        · rw [hrest m hm]
          exact hkeeps m hm n hlater hlt

/-- The texts of one source are those of the other one with the lines renumbered. -/
theorem exists_renumber {source other : List Char} (h : texts source = texts other) :
    ∃ f, KeepsOrder f ((numberedTexts source).map Prod.fst) ∧
      numberedTexts other = (numberedTexts source).map fun p => (f p.1, p.2) := by
  rw [← map_snd_numberedTexts, ← map_snd_numberedTexts] at h
  have hlength := congrArg List.length h
  simp only [List.length_map] at hlength
  obtain ⟨f, hnumbers, hkeeps⟩ := exists_keepsOrder (by simpa using hlength)
    (pairwise_numberedTexts source) (pairwise_numberedTexts other)
  refine ⟨f, hkeeps, ?_⟩
  rw [List.zip_of_prod hnumbers.symm h.symm, List.map_map]
  exact (List.zip_of_prod (by simp) (by simp)).symm

section Renumbered

variable {settings : Settings} {source other : List Char} {f : Nat → Nat}

theorem readProgram_renumber
    (h : textReadings settings other = (textReadings settings source).map fun r => (f r.1, r.2)) :
    readProgram settings other = (readProgram settings source).map (Program.renumber f) := by
  have hfirst : firstUnrecognized? settings other = firstUnrecognized? settings source := by
    rw [firstUnrecognized?_eq, firstUnrecognized?_eq, h, List.findSome?_map]
    rfl
  have hfails (e : Error) :
      readProgram settings other = .error e ↔ readProgram settings source = .error e := by
    rw [readProgram_eq_error_iff, readProgram_eq_error_iff, hfirst]
  cases hsource : readProgram settings source with
  | error e => exact (hfails e).mpr hsource
  | ok program =>
    cases hother : readProgram settings other with
    | error e =>
      rw [(hfails e).mp hother] at hsource
      cases hsource
    | ok moved =>
      rw [eq_ofReadings hsource, eq_ofReadings hother, ofReadings_readings, ofReadings_readings, h,
        ofReadings_renumber]
      rfl

end Renumbered

end Source

namespace Assembly

/-- Sources with the same texts are assembled alike, up to a renumbering of the lines. -/
theorem exists_assemble_renumber {source other : List Char} (h : texts source = texts other)
    (settings : Settings) :
    ∃ f, (∀ a, assemble settings source = .ok a → assemble settings other = .ok (a.renumber f)) ∧
      ∀ e, assemble settings source = .error e →
        assemble settings other = .error (e.renumber f) := by
  obtain ⟨f, hkeeps, hnumbered⟩ := exists_renumber h
  have htexts : textReadings settings other =
      (textReadings settings source).map fun r => (f r.1, r.2) := by
    rw [textReadings, textReadings, hnumbered, List.map_map, List.map_map]
    rfl
  have hlines : (textReadings settings source).map Prod.fst =
      (numberedTexts source).map Prod.fst := by
    rw [textReadings, List.map_map]
    rfl
  have hread := readProgram_renumber htexts
  refine ⟨f, ?_, ?_⟩
  · intro a ha
    obtain ⟨program, hsource, hnodup, rfl⟩ := assemble_eq_ok_iff.mp ha
    refine assemble_eq_ok_iff.mpr ⟨program.renumber f, by rw [hread, hsource]; rfl, ?_, ?_⟩
    · rw [Program.renumber, labelsOf_renumber, List.map_map]
      exact hnodup
    · rw [eq_ofReadings hsource, ofReadings_readings]
      exact (ofProgram_renumber (hlines ▸ hkeeps)).symm
  · intro e he
    rcases assemble_eq_error_iff.mp he with hfails | ⟨program, hsource, hbuild⟩
    · obtain ⟨-, text, -, rfl⟩ := readProgram_eq_error_iff.mp hfails
      exact assemble_eq_error_iff.mpr (.inl (by rw [hread, hfails]; rfl))
    · exact assemble_eq_error_iff.mpr (.inr ⟨program.renumber f, by rw [hread, hsource]; rfl,
        SymbolTable.build_renumber_of_error f hbuild⟩)

/-- Comments, empty lines and blanks around lines do not matter. Two sources with the same texts of
lines are both assembled, into the same words, symbols and diagnostics up to the numbers of lines.
Or both fail, at the same unrecognized text or at a label of the same name. -/
theorem layout_does_not_matter {source other : List Char} (h : texts source = texts other)
    (settings : Settings) :
    (∃ a b, assemble settings source = .ok a ∧ assemble settings other = .ok b ∧
      a.words = b.words ∧
      a.symbols.symbols.map (fun s => (s.name, s.address)) =
        b.symbols.symbols.map (fun s => (s.name, s.address)) ∧
      a.diagnostics.map (fun d => (d.location.kind, d.severity, d.cause)) =
        b.diagnostics.map (fun d => (d.location.kind, d.severity, d.cause))) ∨
    (∃ text, assemble settings source = .error (.unrecognizedLine text) ∧
      assemble settings other = .error (.unrecognizedLine text)) ∨
    ∃ name first moved, assemble settings source = .error (.duplicateLabel name first) ∧
      assemble settings other = .error (.duplicateLabel name moved) := by
  obtain ⟨f, hok, herror⟩ := exists_assemble_renumber h settings
  rcases assemble_cases settings source with ⟨a, ha⟩ | ⟨text, he⟩ | ⟨name, first, he⟩
  · refine .inl ⟨a, a.renumber f, ha, hok a ha, rfl, ?_, ?_⟩
    · simp only [renumber, SymbolTable.renumber, SymbolTable.symbols_ofSymbols, List.map_map]
      rfl
    · have hkind (l : Location) : (l.renumber f).kind = l.kind := by cases l <;> rfl
      simp [renumber, Diagnostic.renumber, hkind]
  · exact .inr (.inl ⟨text, he, herror _ he⟩)
  · exact .inr (.inr ⟨name, first, f first, he, herror _ he⟩)

/-- The jumps around with comments, empty lines, other line ends and indentation. -/
def jumpsSpread : List Char :=
  "# jumps\n\tJUMP end ; over\r\n\nL: JUMP nowhere\n;\nPINK;\n  JUMP L\r\nend:;#\n".toList

theorem jumpsSpread_alike :
    texts jumpsAround = texts jumpsSpread ∧
      ∃ b, assemble {} jumpsSpread = .ok b ∧ b.words = [0x4803, 0x8800, 0x4801] ∧
        b.symbols.symbols.map (fun s => (s.name, s.address)) = [("L", 1), ("end", 3)] ∧
        b.diagnostics.map (fun d => (d.location.kind, d.severity, d.cause)) =
          [("line", .error, .undefinedLabel "nowhere")] := by
  have htexts : texts jumpsAround = texts jumpsSpread := by decide
  refine ⟨htexts, ?_⟩
  rcases layout_does_not_matter htexts {} with ⟨a, b, ha, hb, hwords, hsymbols, hds⟩ |
    ⟨text, he, -⟩ | ⟨name, first, moved, he, -⟩
  · rw [assemble_jumpsAround] at ha
    obtain rfl := Except.ok.inj ha
    exact ⟨b, hb, hwords.symm, hsymbols.symm, hds.symm⟩
  · simp [assemble_jumpsAround] at he
  · simp [assemble_jumpsAround] at he

end Assembly

end Hue

import Hue.Proofs.Settling

/-!
An assembly without its loop. Settling drops all branches that go too far in one round, so the items
of a source determine its assembly through two rounds of dropping: first the branches to labels that
are not declared, then those to labels beyond the address field.
-/
namespace Hue

open Source

namespace SymbolTable

/-- The table of items whose labels are distinct. -/
def ofItems (items : List Item) : SymbolTable := ofSymbols (declarations 0 items)

theorem build_of_nodup {items : List Item} (h : ((labelsOf items).map Prod.snd).Nodup) :
    build items = .ok (ofItems items, items.countP Item.isStatement) :=
  build_eq_ok_iff.mpr ⟨h, rfl, rfl⟩

end SymbolTable

namespace Assembly

/-- The items without the branches to labels that are not declared. -/
def declaredPart (items : List Item) : List Item := keep (undefined? (.ofItems items)) items

/-- The items without the branches to labels beyond the address field. -/
def fittingPart (items : List Item) : List Item := keep (overflow? (.ofItems items)) items

/-- What is reported about a program: first by reading, then for each round of dropping. -/
def reports (program : Program) : List Diagnostic :=
  program.diagnostics ++ complaints (undefined? (.ofItems program.items)) program.items ++
    complaints (overflow? (.ofItems (declaredPart program.items))) (declaredPart program.items)

/-- The assembly of a program whose labels are distinct. -/
def ofProgram (program : Program) : Assembly :=
  let left := fittingPart (declaredPart program.items)
  ⟨wordsOf (.ofItems left) left, .ofItems left, inOrder (reports program)⟩

theorem labelsOf_declaredPart (items : List Item) :
    labelsOf (declaredPart items) = labelsOf items :=
  labelsOf_keep fun _ => undefined?_of_label _

theorem labelsOf_fittingPart (items : List Item) : labelsOf (fittingPart items) = labelsOf items :=
  labelsOf_keep fun _ => overflow?_of_label _

/-- Settling keeps the part that fits, with its own table. -/
theorem settle_declaredPart {items : List Item} (h : ((labelsOf items).map Prod.snd).Nodup) :
    settle (declaredPart items) =
      .ok ⟨.ofItems (fittingPart (declaredPart items)), fittingPart (declaredPart items),
        complaints (overflow? (.ofItems (declaredPart items))) (declaredPart items)⟩ := by
  rw [← labelsOf_declaredPart] at h
  have hfirst := SymbolTable.build_of_nodup h
  rw [← labelsOf_fittingPart] at h
  exact settle_of_build hfirst (SymbolTable.build_of_nodup h)

section Program

variable {settings : Settings} {source : List Char} {program : Program}

/-- A source has an assembly exactly when it is read and its labels are distinct, and the assembly
is then that of the program. -/
theorem assemble_eq_ok_iff {a : Assembly} :
    assemble settings source = .ok a ↔
      ∃ program, readProgram settings source = .ok program ∧
        ((labelsOf program.items).map Prod.snd).Nodup ∧ a = ofProgram program := by
  constructor
  · intro h
    obtain ⟨program, declared, count, settled, hread, hbuild, hsettle, -, rfl⟩ := exists_stages h
    obtain ⟨hnodup, rfl, -⟩ := SymbolTable.build_eq_ok_iff.mp hbuild
    obtain rfl := Except.ok.inj ((settle_declaredPart hnodup).symm.trans hsettle)
    exact ⟨program, hread, hnodup, rfl⟩
  · rintro ⟨program, hread, hnodup, rfl⟩
    rw [assemble_of_stages hread (SymbolTable.build_of_nodup hnodup) (settle_declaredPart hnodup)]
    rfl

end Program

end Assembly

end Hue

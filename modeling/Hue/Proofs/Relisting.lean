import Hue.Proofs.RoundTrip

/-!
The listing of an assembled source. A statement that is an instruction comes back as that
instruction, with the label that it names replaced by the label of the address. A source whose
words all come from instructions is listed without errors, and its listing is assembled into the
same words.
-/
namespace Hue.Assembly

open Source Listing

variable {settings : Settings} {source : List Char} {a : Assembly}

/-- No label is further than the end of the words. -/
theorem address_le_length (h : assemble settings source = .ok a) {name : String} {address : Nat}
    (ha : a.symbols.address? name = some address) : address ≤ a.words.length := by
  obtain ⟨symbol, hfind, rfl⟩ := Option.map_eq_some_iff.mp ha
  rw [SymbolTable.lookup?_eq_find?] at hfind
  rw [address_eq_countP_survivors h (List.mem_of_find?_eq_some hfind),
    ← (forall₂_survivors h).length_eq]
  exact List.countP_le_length

theorem branchTarget?_eq_none {i : Instruction} (h : i.Readable) : i.branchTarget? = none := by
  cases ht : i.branchTarget? with
  | none => rfl
  | some target =>
    obtain ⟨op, operands⟩ := i
    unfold Instruction.branchTarget? at ht
    split at ht
    case h_1 address hoperands =>
      obtain ⟨name, hname, -⟩ := h.2 _ hoperands
      simp at hname
    case h_2 => simp at ht

/-- The instruction that the word of a surviving instruction holds: the same one, or the branch to
the address of its label. -/
theorem decode_of_survivor (h : assemble settings source = .ok a) {k line : Nat} {i : Instruction}
    (hk : (a.survivors settings source)[k]? = some (line, .instruction i)) :
    ∃ w j, a.words[k]? = some w ∧ j.encode = .ok w ∧
      (i.branchLabel? = none ∧ j = i ∨
        ∃ name address, i.branchLabel? = some name ∧ a.symbols.address? name = some address ∧
          j = { i with operands := .branch (.address address) }) := by
  obtain ⟨w, hw, hencode⟩ := word_of_survivor h hk
  cases hname : i.branchLabel? with
  | none =>
    have hresolve : resolve a.symbols i = .ok i := by simp [resolve, hname]
    simp only [encodeStatement, hresolve] at hencode
    exact ⟨w, i, hw, hencode, .inl ⟨rfl, rfl⟩⟩
  | some name =>
    obtain ⟨address, hle, haddress⟩ :=
      address?_of_mem_survivors h (List.mem_of_getElem? hk) hname
    simp only [encodeStatement, resolve_of_address? hname haddress hle] at hencode
    exact ⟨w, _, hw, hencode, .inr ⟨name, address, rfl, haddress, rfl⟩⟩

/-- The line of a surviving instruction shows it with its label replaced. -/
theorem line_of_survivor (h : assemble settings source = .ok a) {k line : Nat} {i : Instruction}
    (hk : (a.survivors settings source)[k]? = some (line, .instruction i)) :
    ∃ w text, a.words[k]? = some w ∧
      (disassemble a.words).lines.filter (·.index? == some k) = [.instruction k w text] ∧
      (i.branchLabel? = none → text = i.text) ∧
      ∀ name, i.branchLabel? = some name → ∃ address, a.symbols.address? name = some address ∧
        text = Instruction.text
          { i with operands := .branch (.label ("BRANCH" ++ toString address)) } := by
  obtain ⟨w, j, hw, hencode, hj⟩ := decode_of_survivor h hk
  have hdecode := Instruction.decode_of_encode hencode
  have hreadable := readable_of_mem_survivors (List.mem_of_getElem? hk)
  refine ⟨w, j.named.text, hw, ?_, ?_⟩
  · rw [filter_index_disassemble hw, slotLine_of_decode hdecode]
    intro target htarget
    rcases hj with ⟨-, rfl⟩ | ⟨name, address, -, haddress, rfl⟩
    · simp [branchTarget?_eq_none hreadable] at htarget
    · obtain rfl : address = target := by simpa [Instruction.branchTarget?] using htarget
      exact address_le_length h haddress
  · rcases hj with ⟨hnone, rfl⟩ | ⟨name, address, hname, haddress, rfl⟩
    · rw [Instruction.named_of_not_branch (branchTarget?_eq_none hreadable)]
      exact ⟨fun _ => rfl, by simp [hnone]⟩
    · refine ⟨by simp [hname], ?_⟩
      intro other hother
      obtain rfl : name = other := Option.some.inj (hname.symm.trans hother)
      exact ⟨address, haddress, rfl⟩

/-- Without word directives every word is that of an instruction. -/
theorem exists_encode_of_mem_words (h : assemble settings source = .ok a)
    (hword : ∀ line w, (line, Statement.word w) ∉ a.survivors settings source) {w : Word}
    (hw : w ∈ a.words) : ∃ j : Instruction, j.encode = .ok w := by
  obtain ⟨k, hk⟩ := List.mem_iff_getElem?.mp hw
  have hlt : k < (a.survivors settings source).length := by
    rw [(forall₂_survivors h).length_eq]
    exact (List.getElem?_eq_some_iff.mp hk).1
  obtain ⟨⟨line, s⟩, hs⟩ : ∃ p, (a.survivors settings source)[k]? = some p :=
    ⟨_, List.getElem?_eq_getElem hlt⟩
  cases s with
  | word v => exact absurd (List.mem_of_getElem? hs) (hword line v)
  | instruction i =>
    obtain ⟨v, j, hv, hencode, -⟩ := decode_of_survivor h hs
    obtain rfl : w = v := Option.some.inj (hk.symm.trans hv)
    exact ⟨j, hencode⟩

/-- Surviving instructions are listed as they were written, up to the names of labels. If there
are no other statements, the listing has no errors and is assembled into the same words. -/
theorem source_comes_back (h : assemble settings source = .ok a) :
    (∀ (k line : Nat) (i : Instruction),
      (a.survivors settings source)[k]? = some (line, .instruction i) →
        ∃ w text, a.words[k]? = some w ∧
          (disassemble a.words).lines.filter (·.index? == some k) = [.instruction k w text] ∧
          (i.branchLabel? = none → text = i.text) ∧
          ∀ name, i.branchLabel? = some name → ∃ address, a.symbols.address? name = some address ∧
            text = Instruction.text
              { i with operands := .branch (.label ("BRANCH" ++ toString address)) }) ∧
      ((∀ line w, (line, Statement.word w) ∉ a.survivors settings source) →
        (disassemble a.words).hasErrors = false ∧
          ∃ b, assemble {} (disassemble a.words).text.toList = .ok b ∧ b.words = a.words) := by
  refine ⟨fun k line i => line_of_survivor h, ?_⟩
  intro hword
  have hencode := fun w hw => exists_encode_of_mem_words h hword (w := w) hw
  refine ⟨?_, ?_⟩
  · rw [hasErrors_disassemble_eq_false_iff]
    intro w hw
    obtain ⟨j, hj⟩ := hencode w hw
    exact ⟨j, Instruction.decode_of_encode hj⟩
  · obtain ⟨table, htext⟩ := assemble_text Settings.plainPrefix_default a.words
    refine ⟨_, htext, ?_⟩
    have hcanonical : ∀ w ∈ a.words, w.canonical = id w := by
      intro w hw
      obtain ⟨j, hj⟩ := hencode w hw
      exact Instruction.canonical_of_encode hj
    rw [List.map_congr_left hcanonical, List.map_id]

theorem jumpsAround_comes_back :
    (disassemble jumpsAssembled.words).text =
        "JUMP BRANCH3\nBRANCH1:\nPINK\nJUMP BRANCH1\nBRANCH3:\n" ∧
      (∃ w text, jumpsAssembled.words[0]? = some w ∧
        (disassemble jumpsAssembled.words).lines.filter (·.index? == some 0) =
          [.instruction 0 w text] ∧
        ∃ address, jumpsAssembled.symbols.address? "end" = some address ∧
          text = Instruction.text
            ⟨.jump, .branch (.label ("BRANCH" ++ toString address))⟩) ∧
      (disassemble jumpsAssembled.words).hasErrors = false ∧
        ∃ b, assemble {} (disassemble jumpsAssembled.words).text.toList = .ok b ∧
          b.words = jumpsAssembled.words := by
  obtain ⟨hlines, hback⟩ := source_comes_back assemble_jumpsAround
  have hjump : (jumpsAssembled.survivors {} jumpsAround)[0]? =
      some (1, .instruction ⟨.jump, .branch (.label "end")⟩) := by
    rw [survivors_jumpsAround]
    rfl
  obtain ⟨w, text, hw, hline, -, hlabel⟩ := hlines 0 1 _ hjump
  exact ⟨by decide, ⟨w, text, hw, hline, hlabel "end" rfl⟩, hback (by simp [survivors_jumpsAround])⟩

end Hue.Assembly

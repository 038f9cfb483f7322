/-!
Results that may be errors. A computation of several steps gives a result when every step does, and
otherwise the error of its first step that fails.
-/
namespace Hue

variable {ε α β : Type}

theorem bind_eq_ok {x : Except ε α} {f : α → Except ε β} {b : β} :
    x >>= f = .ok b ↔ ∃ a, x = .ok a ∧ f a = .ok b := by
  cases x <;> simp [bind, Except.bind]

theorem map_eq_ok {x : Except ε α} {f : α → β} {b : β} :
    x.map f = .ok b ↔ ∃ a, x = .ok a ∧ f a = b := by
  cases x <;> simp [Except.map]

theorem bind_eq_error {x : Except ε α} {f : α → Except ε β} {e : ε} :
    x >>= f = .error e ↔ x = .error e ∨ ∃ a, x = .ok a ∧ f a = .error e := by
  cases x <;> simp [bind, Except.bind]

theorem map_eq_error {x : Except ε α} {f : α → β} {e : ε} :
    x.map f = .error e ↔ x = .error e := by
  cases x <;> simp [Except.map]

/-- Steps along a list fail with the error of the first that does, in the state that those before it
reached. -/
theorem foldlM_eq_error_iff {f : β → α → Except ε β} {start : β} {xs : List α} {e : ε} :
    xs.foldlM f start = .error e ↔
      ∃ before x after reached, xs = before ++ x :: after ∧ before.foldlM f start = .ok reached ∧
        f reached x = .error e := by
  induction xs generalizing start with
  | nil => simp [pure, Except.pure]
  | cons x xs ih =>
    rw [List.foldlM_cons, bind_eq_error]
    constructor
    · rintro (hfail | ⟨next, hstep, hlater⟩)
      · exact ⟨[], x, xs, start, rfl, rfl, hfail⟩
      · obtain ⟨before, y, after, reached, rfl, hrun, hfail⟩ := ih.mp hlater
        refine ⟨x :: before, y, after, reached, rfl, ?_, hfail⟩
        rw [List.foldlM_cons]
        exact bind_eq_ok.mpr ⟨next, hstep, hrun⟩
    · rintro ⟨before, y, after, reached, hsplit, hrun, hfail⟩
      cases before with
      | nil =>
        obtain ⟨rfl, -⟩ := List.cons.inj hsplit
        cases hrun
        exact .inl hfail
      | cons head before =>
        obtain ⟨rfl, rfl⟩ := List.cons.inj hsplit
        rw [List.foldlM_cons] at hrun
        obtain ⟨next, hstep, hrun⟩ := bind_eq_ok.mp hrun
        exact .inr ⟨next, hstep, ih.mpr ⟨before, y, after, reached, rfl, hrun, hfail⟩⟩

end Hue

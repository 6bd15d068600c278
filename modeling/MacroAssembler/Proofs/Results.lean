/-!
# Results and failures

What a step that can fail has given, read off from what it gives together with the step behind it.
-/

namespace MacroAssembler

variable {ε α β : Type} {x : Except ε α}

/-- Two steps have a result together if the second has it behind a result of the first. -/
theorem bind_eq_ok_iff {f : α → Except ε β} {b : β} :
    x >>= f = .ok b ↔ ∃ a, x = .ok a ∧ f a = .ok b := by
  cases x <;> simp [bind, Except.bind]

/-- Two steps fail together if the first fails, or the second behind a result of the first. -/
theorem bind_eq_error_iff {f : α → Except ε β} {e : ε} :
    x >>= f = .error e ↔ x = .error e ∨ ∃ a, x = .ok a ∧ f a = .error e := by
  cases x <;> simp [bind, Except.bind]

/-- What is made of a result has the results that are made of one. -/
theorem map_eq_ok_iff {f : α → β} {b : β} :
    x.map f = .ok b ↔ ∃ a, x = .ok a ∧ f a = b := by
  cases x <;> simp [Except.map]

end MacroAssembler

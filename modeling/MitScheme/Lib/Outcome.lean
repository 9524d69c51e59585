/-! # Computations that may fail

What a sequence of two computations returns, for any type of failures. -/

namespace MitScheme.Lib.Outcome

variable {ε α β : Type} {x : Except ε α} {f : α → Except ε β} {b : β}

@[simp] theorem ok_bind (a : α) (f : α → Except ε β) :
    ((Except.ok a : Except ε α) >>= f) = f a := rfl

theorem bind_eq_ok (h : (x >>= f) = .ok b) : ∃ a, x = .ok a ∧ f a = .ok b := by
  cases x with
  | error e => cases h
  | ok a => exact ⟨a, rfl, h⟩

theorem bind_ne_ok (h : ∀ a, x = .ok a → f a ≠ .ok b) : (x >>= f) ≠ .ok b := by
  intro hx
  obtain ⟨a, ha, hf⟩ := bind_eq_ok hx
  exact h a ha hf

end MitScheme.Lib.Outcome

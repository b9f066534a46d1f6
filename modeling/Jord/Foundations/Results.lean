import Mathlib.Tactic.Common

/-!
# Computations that may fail

When one computation after the other returns, and when it fails.
-/

namespace Jord

variable {ε β γ : Type} {x : Except ε β}

/-- A computation with an intermediate result that returns. -/
theorem bind_eq_ok_iff {f : β → Except ε γ} {c : γ} :
    (x >>= f) = .ok c ↔ ∃ a, x = .ok a ∧ f a = .ok c := by
  cases x with
  | error e =>
    constructor
    · rintro ⟨⟩
    · rintro ⟨a, ⟨⟩, _⟩
  | ok a =>
    constructor
    · exact fun h => ⟨a, rfl, h⟩
    · rintro ⟨a', ⟨⟩, h⟩
      exact h

/-- A computation that fails at once or later. -/
theorem bind_eq_error_iff {f : β → Except ε γ} {e : ε} :
    (x >>= f) = .error e ↔ x = .error e ∨ ∃ a, x = .ok a ∧ f a = .error e := by
  cases x with
  | error e' =>
    constructor
    · exact fun h => .inl (congrArg Except.error (Except.error.inj h))
    · rintro (h | ⟨a, ⟨⟩, _⟩)
      exact congrArg Except.error (Except.error.inj h)
  | ok a =>
    constructor
    · exact fun h => .inr ⟨a, rfl, h⟩
    · rintro (⟨⟨⟩⟩ | ⟨a', ⟨⟩, h⟩)
      exact h

/-- Two computations that go on in the same way. -/
theorem bind_congr_ok {f g : β → Except ε γ} (h : ∀ a, x = .ok a → f a = g a) :
    x >>= f = x >>= g := by
  cases x with
  | error e => rfl
  | ok a => exact h a rfl

end Jord

import Mathlib.Init

/-!
# Sequences of steps that can fail

What a sequence of two steps in `Except` returns, by what its parts return.

* `bind_ok`, `bind_error`   the two ways in which a sequence ends;
* `ok_bind`, `error_bind`   rewriting by what its first step returns.
-/

namespace Fallible

section
variable {ε α β : Type} (x : Except ε α) (f : α → Except ε β)

theorem bind_ok (r : β) : x >>= f = .ok r ↔ ∃ a, x = .ok a ∧ f a = .ok r := by
  cases x with
  | error e =>
    refine ⟨fun h => ?_, fun ⟨a, h, _⟩ => ?_⟩
    · cases h
    · cases h
  | ok a =>
    refine ⟨fun h => ⟨a, rfl, h⟩, fun ⟨b, h, h'⟩ => ?_⟩
    cases h
    exact h'

theorem bind_error (e : ε) :
    x >>= f = .error e ↔ x = .error e ∨ ∃ a, x = .ok a ∧ f a = .error e := by
  cases x with
  | error e' =>
    constructor
    · intro h
      cases h
      exact .inl rfl
    · intro h
      rcases h with h | ⟨a, h, -⟩
      · cases h
        rfl
      · cases h
  | ok a =>
    refine ⟨fun h => .inr ⟨a, rfl, h⟩, fun h => ?_⟩
    rcases h with h | ⟨b, h, h'⟩
    · cases h
    · cases h
      exact h'

theorem ok_bind (a : α) (h : x = .ok a) : x >>= f = f a := by rw [h]; rfl

theorem error_bind (e : ε) (h : x = .error e) : x >>= f = .error e := by rw [h]; rfl

end

end Fallible

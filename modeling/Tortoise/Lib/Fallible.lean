import Mathlib

/-!
# Computations that can fail

What is known of the parts of a computation in `Except` that has succeeded.
-/

namespace Tortoise.Lib

variable {ε α β : Type}

theorem ok_of_bind {x : Except ε α} {f : α → Except ε β} {b : β} (h : x >>= f = .ok b) :
    ∃ a, x = .ok a ∧ f a = .ok b := by
  cases x with
  | error e => cases h
  | ok a => exact ⟨a, rfl, h⟩

end Tortoise.Lib

/-
  Sequencing of computations that may stop, one rule for each way the first one ends.
-/
import Linux011.Lib.Sizes
import Mathlib.Tactic.Common

namespace Linux011.Lib

variable {ε α β : Type*}

theorem bind_of_ok {x : Except ε α} {a : α} (h : x = .ok a) (f : α → Except ε β) :
    x.bind f = f a := by
  rw [h]
  rfl

theorem bind_of_error {x : Except ε α} {e : ε} (h : x = .error e) (f : α → Except ε β) :
    x.bind f = .error e := by
  rw [h]
  rfl

theorem bind_eq_ok {ε α β : Type} {x : Except ε α} {f : α → Except ε β} {b : β} :
    x >>= f = .ok b ↔ ∃ a, x = .ok a ∧ f a = .ok b := by
  cases x with
  | error e =>
    refine ⟨fun h => ?_, fun h => ?_⟩
    · cases h
    · obtain ⟨a, h, -⟩ := h
      cases h
  | ok a =>
    refine ⟨fun h => ⟨a, rfl, h⟩, fun h => ?_⟩
    obtain ⟨a', h, hf⟩ := h
    cases h
    exact hf

theorem return_eq_ok {ε α : Type} {a b : α} : (return a : Except ε α) = .ok b ↔ b = a := Except.ok.injEq a b ▸ eq_comm

/-- What stands behind a check. -/
theorem check_eq_ok {ε α : Type} {c : Prop} [Decidable c] {e : ε} {x : Except ε α} {a : α} :
    (if c then throw e else x : Except ε α) = .ok a ↔ ¬ c ∧ x = .ok a := by
  by_cases h : c
  · rw [if_pos h]
    refine ⟨fun h => ?_, fun h' => absurd h h'.1⟩
    cases h
  · rw [if_neg h]
    exact (and_iff_right h).symm

end Linux011.Lib

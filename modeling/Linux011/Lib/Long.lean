/-
  Signed machine words of 32 bits, as integers that wrap around.
-/
import Linux011.Lib.Sizes
import Mathlib.Data.Int.Notation
import Mathlib.Tactic.Common

namespace Linux011.Lib

/-- The value a 32-bit signed word keeps of `x`. -/
def long (x : ℤ) : ℤ := x.bmod 4294967296

/-- The values of a 32-bit signed word. -/
def IsLong (x : ℤ) : Prop := -2147483648 ≤ x ∧ x < 2147483648

instance (x : ℤ) : Decidable (IsLong x) := inferInstanceAs (Decidable (_ ∧ _))

theorem isLong_long (x : ℤ) : IsLong (long x) := by
  have h1 := Int.le_bmod (x := x) (m := 4294967296) (by decide)
  have h2 := Int.bmod_lt (x := x) (m := 4294967296) (by decide)
  exact ⟨by unfold long; omega, by unfold long; omega⟩

theorem long_of_isLong {x : ℤ} (h : IsLong x) : long x = x := by
  obtain ⟨h1, h2⟩ := h
  exact Int.bmod_eq_of_le (by omega) (by omega)

end Linux011.Lib

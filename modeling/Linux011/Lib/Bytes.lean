/-
  Byte memory. A number of `n` bytes is stored with its low byte first; what lies beside it is
  left alone.
-/
import Linux011.Lib.Sizes
import Mathlib.Data.Nat.Notation
import Mathlib.Logic.Function.Basic
import Mathlib.Tactic.Ring

namespace Linux011.Lib

abbrev Bytes := ℕ → BitVec 8

namespace Bytes

/-- The number in the `n` bytes at `a`. -/
def load (m : Bytes) : ℕ → ℕ → ℕ
  | 0, _ => 0
  | n + 1, a => (m a).toNat + 256 * load m n (a + 1)

def store (m : Bytes) : ℕ → ℕ → ℕ → Bytes
  | 0, _, _ => m
  | n + 1, a, v => Function.update (store m n (a + 1) (v / 256)) a (BitVec.ofNat 8 v)

variable {m m' : Bytes} {n k a b v : ℕ}

theorem load_congr (h : ∀ i < n, m' (a + i) = m (a + i)) : m'.load n a = m.load n a := by
  induction n generalizing a with
  | zero => rfl
  | succ n ih =>
    have h0 : m' a = m a := h 0 (by omega)
    have hrest : m'.load n (a + 1) = m.load n (a + 1) := ih fun i hi => by
      have := h (i + 1) (by omega)
      rwa [show a + 1 + i = a + (i + 1) by omega]
    rw [load, load, h0, hrest]

theorem load_lt (m : Bytes) (n a : ℕ) : m.load n a < 256 ^ n := by
  induction n generalizing a with
  | zero => exact Nat.one_pos
  | succ n ih =>
    have h0 : (m a).toNat < 256 := (m a).isLt
    have h1 := ih (a + 1)
    rw [load, pow_succ]
    omega

/-- A store changes its own bytes only. -/
theorem store_other (h : b < a ∨ a + n ≤ b) : m.store n a v b = m b := by
  induction n generalizing a v with
  | zero => rfl
  | succ n ih =>
    rw [store, Function.update_of_ne (by omega)]
    exact ih (by omega)

theorem load_store_self : (m.store n a v).load n a = v % 256 ^ n := by
  induction n generalizing a v with
  | zero => rw [load, pow_zero, Nat.mod_one]
  | succ n ih =>
    have hrest : (m.store (n + 1) a v).load n (a + 1) = v / 256 % 256 ^ n := by
      rw [← ih (a := a + 1)]
      refine load_congr fun i _ => ?_
      rw [store, Function.update_of_ne (by omega)]
    have hlow : (m.store (n + 1) a v a).toNat = v % 256 := by rw [store, Function.update_self, BitVec.toNat_ofNat]
    rw [load, hrest, hlow, pow_succ, mul_comm (256 ^ n), Nat.mod_mul]

theorem load_store_of_lt (h : v < 256 ^ n) : (m.store n a v).load n a = v := by
  rw [load_store_self, Nat.mod_eq_of_lt h]

theorem load_store_other (h : b + k ≤ a ∨ a + n ≤ b) : (m.store n a v).load k b = m.load k b :=
  load_congr fun _ _ => store_other (by omega)

end Bytes

end Linux011.Lib

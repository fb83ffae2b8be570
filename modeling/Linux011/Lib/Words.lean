/-
  Bits in an array of words: bit `n` is bit `n % w` of word `n / w`. To change one bit, and to look
  for the first clear one word after word.
-/
import Linux011.Lib.Sizes
import Mathlib.Data.Nat.Notation
import Mathlib.Logic.Function.Basic
import Mathlib.Tactic.Common

namespace Linux011.Lib

abbrev Words (w : ℕ) : Type := ℕ → BitVec w

namespace Words

variable {w : ℕ} {a : Words w} {k m n : ℕ}

def bit (a : Words w) (n : ℕ) : Bool := (a (n / w)).getLsbD (n % w)

/-- Bit `n` becomes `v`. -/
def put (a : Words w) (n : ℕ) (v : Bool) : Words w :=
  let mask := BitVec.twoPow w (n % w)
  Function.update a (n / w) (if v then a (n / w) ||| mask else a (n / w) &&& ~~~mask)

theorem put_bit (hw : 0 < w) (a : Words w) (n k : ℕ) (v : Bool) : (a.put n v).bit k = if k = n then v else a.bit k := by
  have hlt : k % w < w := Nat.mod_lt _ hw
  unfold put bit
  by_cases hword : k / w = n / w
  · rw [hword, Function.update_self]
    have hiff : k = n ↔ k % w = n % w := by
      refine ⟨fun h => by rw [h], fun h => ?_⟩
      rw [← Nat.div_add_mod k w, ← Nat.div_add_mod n w, hword, h]
    have hmask : (BitVec.twoPow w (n % w)).getLsbD (k % w) = decide (k = n) := by
      rw [BitVec.getLsbD_twoPow, decide_eq_true (Nat.mod_lt n hw), Bool.true_and]
      exact decide_eq_decide.mpr (eq_comm.trans hiff.symm)
    cases v with
    | true =>
      rw [if_pos rfl, BitVec.getLsbD_or, hmask]
      by_cases hk : k = n <;> simp [hk]
    | false =>
      rw [if_neg Bool.false_ne_true, BitVec.getLsbD_and, BitVec.getLsbD_not, hmask, decide_eq_true hlt]
      by_cases hk : k = n <;> simp [hk]
  · rw [Function.update_of_ne hword, if_neg fun h => hword (by rw [h])]

/-- The lowest bit that is set. -/
def lowest (x : BitVec w) : Option ℕ := (List.range w).find? x.getLsbD

theorem lowest_some {x : BitVec w} (h : lowest x = some k) : k < w ∧ x.getLsbD k = true ∧ ∀ i < k, x.getLsbD i = false := by
  obtain ⟨hx, hk, hi⟩ := List.find?_range_eq_some.mp h
  exact ⟨List.mem_range.mp hk, hx, fun i hik => by simpa using hi i hik⟩

theorem lowest_none {x : BitVec w} (h : lowest x = none) (hk : k < w) : x.getLsbD k = false := by
  simpa using List.find?_eq_none.mp h k (List.mem_range.mpr hk)

/-- The first clear bit of `n` words from word `m` on; the first bit behind them if there is none. -/
def firstClear (a : Words w) : ℕ → ℕ → ℕ
  | 0, m => w * m
  | n + 1, m => match lowest (~~~ a m) with
    | some k => w * m + k
    | none => firstClear a n (m + 1)

theorem bit_word (hk : k < w) (a : Words w) (m : ℕ) : a.bit (w * m + k) = (a m).getLsbD k := by
  rw [bit, Nat.mul_add_div (Nat.zero_lt_of_lt hk), Nat.div_eq_of_lt hk, Nat.mul_add_mod, Nat.mod_eq_of_lt hk, Nat.add_zero]

theorem firstClear_spec (a : Words w) (n m : ℕ) : w * m ≤ a.firstClear n m ∧ a.firstClear n m ≤ w * (m + n) ∧
    (∀ k, w * m ≤ k → k < a.firstClear n m → a.bit k = true) ∧
    (a.firstClear n m < w * (m + n) → a.bit (a.firstClear n m) = false) := by
  induction n generalizing m with
  | zero => exact ⟨Nat.le_refl _, Nat.le_refl _, fun k h1 h2 => absurd h1 (Nat.not_le.mpr h2), fun h => absurd h (Nat.lt_irrefl _)⟩
  | succ n ih =>
    unfold firstClear
    cases h : lowest (~~~ a m) with
    | some k =>
      obtain ⟨hk, hx, hi⟩ := lowest_some h
      have hle : w * (m + 1) ≤ w * (m + (n + 1)) := Nat.mul_le_mul_left w (by omega)
      have hsucc : w * (m + 1) = w * m + w := Nat.mul_succ w m
      refine ⟨Nat.le_add_right .., by dsimp only; omega, fun j h1 h2 => ?_, fun _ => ?_⟩
      · obtain ⟨i, rfl⟩ := Nat.exists_eq_add_of_le h1
        have hik : i < k := Nat.add_lt_add_iff_left.mp h2
        have hiw : i < w := Nat.lt_trans hik hk
        rw [bit_word hiw]
        simpa [hiw] using hi i hik
      · dsimp only
        rw [bit_word hk]
        simpa [hk] using hx
    | none =>
      obtain ⟨h1, h2, h3, h4⟩ := ih (m + 1)
      have hsucc : w * (m + 1) = w * m + w := Nat.mul_succ w m
      have hend : m + 1 + n = m + (n + 1) := by omega
      rw [hend] at h2 h4
      refine ⟨by dsimp only; omega, h2, fun j hj1 hj2 => ?_, h4⟩
      by_cases hj : w * (m + 1) ≤ j
      · exact h3 j hj hj2
      · obtain ⟨i, rfl⟩ := Nat.exists_eq_add_of_le hj1
        have hi : i < w := by omega
        rw [bit_word hi]
        simpa [hi] using lowest_none h hi

end Words

end Linux011.Lib

/-
  Machines that a function steps: what a state leads to, a machine run as a part of another one, and
  memory that is moved a piece at a time.
-/
import Linux011.Lib.Sizes
import Mathlib.Logic.Function.Iterate
import Mathlib.Tactic.SplitIfs

namespace Linux011.Lib

variable {σ τ α : Type}

/-- From one state to the other. -/
def LeadsTo (step : σ → σ) (s s' : σ) : Prop := ∃ n, step^[n] s = s'

namespace LeadsTo

variable {step : σ → σ} {step' : τ → τ} {s s' s'' : σ}

theorem refl : LeadsTo step s s := ⟨0, rfl⟩

theorem one (h : step s = s') : LeadsTo step s s' := ⟨1, h⟩

theorem trans (h : LeadsTo step s s') (h' : LeadsTo step s' s'') : LeadsTo step s s'' := by
  obtain ⟨n, rfl⟩ := h
  obtain ⟨n', rfl⟩ := h'
  exact ⟨n' + n, Function.iterate_add_apply _ _ _ _⟩

theorem head (h : step s = s') (h' : LeadsTo step s' s'') : LeadsTo step s s'' := (one h).trans h'

/-- The inner machine runs as `f` of its states until it is done; then the outer one goes on. -/
theorem embed {f : σ → τ} {done : σ → Prop} {t : τ} (h : LeadsTo step s s') (hstay : ∀ s, done s → step s = s)
    (hin : ∀ s, ¬ done s → step' (f s) = f (step s)) (hd : done s') (hout : step' (f s') = t) : LeadsTo step' (f s) t := by
  obtain ⟨n, rfl⟩ := h
  induction n generalizing s with
  | zero => exact one hout
  | succ n ih =>
    rw [Function.iterate_succ_apply] at hd hout
    by_cases hs : done s
    · rw [hstay s hs] at hd hout
      exact ih hd hout
    · exact head (hin s hs) (ih hd hout)

end LeadsTo

/-- The `n` bytes at `src` are at `dst` too. -/
def moved (mem : ℕ → α) (src dst n a : ℕ) : α := if dst ≤ a ∧ a < dst + n then mem (a - dst + src) else mem a

variable {mem : ℕ → α} {src dst n k a : ℕ}

theorem moved_none (mem : ℕ → α) (src dst : ℕ) : moved mem src dst 0 = mem := funext fun _ => if_neg (by omega)

theorem moved_inside (h : a < n) : moved mem src dst n (dst + a) = mem (a + src) := by
  unfold moved
  rw [if_pos (by omega), Nat.add_sub_cancel_left]

theorem moved_outside (h : a < dst ∨ dst + n ≤ a) : moved mem src dst n a = mem a := if_neg (by omega)

/-- The next piece behind the first, when the first did not run into its source. -/
theorem moved_moved (h : dst ≤ src ∨ src + (n + k) ≤ dst) :
    moved (moved mem src dst n) (src + n) (dst + n) k = moved mem src dst (n + k) := by
  funext a
  by_cases hk : dst + n ≤ a ∧ a < dst + n + k
  · obtain ⟨i, rfl⟩ := Nat.exists_eq_add_of_le hk.1
    rw [moved_inside (by omega), moved_outside (by omega), Nat.add_assoc dst, moved_inside (by omega)]
    congr 1
    omega
  · rw [moved_outside (by omega)]
    by_cases hn : dst ≤ a ∧ a < dst + n
    · obtain ⟨i, rfl⟩ := Nat.exists_eq_add_of_le hn.1
      rw [moved_inside (by omega), moved_inside (by omega)]
    · rw [moved_outside (by omega), moved_outside (by omega)]

/-- One word more of a block, when nothing of it has been overwritten. -/
theorem moved_word (mem : ℕ → α) (h : dst ≤ src ∨ src + (k + 2) ≤ dst) : moved mem src dst (k + 2) = fun a =>
    if a = dst + k then moved mem src dst k (src + k)
    else if a = dst + (k + 1) then moved mem src dst k (src + (k + 1)) else moved mem src dst k a := by
  rw [← moved_moved (by omega)]
  generalize moved mem src dst k = m
  funext a
  unfold moved
  by_cases h0 : a = dst + k
  · rw [if_pos h0, if_pos (by omega), h0, Nat.sub_self, Nat.zero_add]
  rw [if_neg h0]
  by_cases h1 : a = dst + (k + 1)
  · rw [if_pos h1, if_pos (by omega), h1, show dst + (k + 1) - (dst + k) + (src + k) = src + (k + 1) by omega]
  · rw [if_neg h1, if_neg (by omega)]

end Linux011.Lib

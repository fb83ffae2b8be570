/-
  Counting the places of a finite set that satisfy a predicate, when one place changes.
-/
import Linux011.Lib.Sizes
import Mathlib.Data.Finset.Card
import Mathlib.Data.Finset.Insert
import Mathlib.Data.Finset.Prod
import Mathlib.Algebra.BigOperators.Group.Finset.Basic
import Mathlib.Data.Fintype.BigOperators

namespace Linux011.Lib

variable {α : Type*}

/-- Two predicates that agree on `S` away from `x`: their counts differ by what happens
    at `x`. -/
theorem card_filter_agree [DecidableEq α] {S : Finset α} {P Q : α → Prop} [DecidablePred P] [DecidablePred Q]
    {x : α} (hx : x ∈ S) (h : ∀ y ∈ S, y ≠ x → (P y ↔ Q y)) :
    (S.filter Q).card + (if P x then 1 else 0) = (S.filter P).card + (if Q x then 1 else 0) := by
  have hrest : (S.erase x).filter P = (S.erase x).filter Q := by
    apply Finset.filter_congr
    intro y hy
    exact h y (Finset.mem_of_mem_erase hy) (Finset.ne_of_mem_erase hy)
  have split : ∀ R : α → Prop, [DecidablePred R] →
      (S.filter R).card = ((S.erase x).filter R).card + (if R x then 1 else 0) := by
    intro R _
    conv_lhs => rw [← Finset.insert_erase hx]
    rw [Finset.filter_insert]
    split_ifs with hR
    · rw [Finset.card_insert_of_notMem (by simp)]
    · rfl
  rw [split Q, split P, hrest]
  omega

/-- A count over `S` is zero exactly when the predicate fails on `S`. -/
theorem card_filter_zero {S : Finset α} {P : α → Prop} [DecidablePred P] :
    (S.filter P).card = 0 ↔ ∀ x ∈ S, ¬ P x := by
  rw [Finset.card_eq_zero, Finset.filter_eq_empty_iff]

/-- If the places with `P` are told apart by a number below `n`, there are at most `n`. -/
theorem card_filter_le_of_key {S : Finset α} {P : α → Prop} [DecidablePred P] (key : α → ℕ)
    {n : ℕ} (hlt : ∀ x ∈ S, P x → key x < n)
    (hinj : ∀ x ∈ S, ∀ y ∈ S, P x → P y → key x = key y → x = y) :
    (S.filter P).card ≤ n := by
  have hmaps : ∀ x ∈ S.filter P, key x ∈ Finset.range n := by
    intro x hx
    have hx' := Finset.mem_filter.mp hx
    exact Finset.mem_range.mpr (hlt x hx'.1 hx'.2)
  have hi : Set.InjOn key (S.filter P : Finset α) := by
    intro x hx y hy hk
    have hx' := Finset.mem_filter.mp hx
    have hy' := Finset.mem_filter.mp hy
    exact hinj x hx'.1 y hy'.1 hx'.2 hy'.2 hk
  simpa using Finset.card_le_card_of_injOn key hmaps hi

/-- A sum over all places when one of them changes, and with it what is added there. -/
theorem sum_update_at [Fintype α] [DecidableEq α] {β : Type*} (f : α → β) {g k : α → β → ℕ} (a : α) (x : β)
    (hg : ∀ b, b ≠ a → k b = g b) :
    ∑ b, k b (Function.update f a x b) + g a (f a) = ∑ b, g b (f b) + k a x := by
  rw [← Finset.add_sum_erase _ _ (Finset.mem_univ a), ← Finset.add_sum_erase _ (fun b => g b (f b))
    (Finset.mem_univ a), Function.update_self]
  have hrest : ∑ b ∈ Finset.univ.erase a, k b (Function.update f a x b) =
      ∑ b ∈ Finset.univ.erase a, g b (f b) := by
    refine Finset.sum_congr rfl fun b hb => ?_
    rw [Function.update_of_ne (Finset.ne_of_mem_erase hb), hg b (Finset.ne_of_mem_erase hb)]
  rw [hrest]
  omega

theorem sum_update [Fintype α] [DecidableEq α] {β : Type*} (f : α → β) (g : β → ℕ) (a : α) (x : β) :
    ∑ b, g (Function.update f a x b) + g (f a) = ∑ b, g (f b) + g x :=
  sum_update_at f a x fun _ _ => rfl

end Linux011.Lib

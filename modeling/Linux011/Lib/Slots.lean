/-
  Slots that are empty or hold a key and a value. With every key in one slot at most they are a
  finite map: to fill an empty slot adds a key, to empty one removes it.
-/
import Linux011.Lib.Sizes
import Mathlib.Data.Nat.Notation
import Mathlib.Data.Option.Basic
import Mathlib.Logic.Function.Basic
import Mathlib.Tactic.Common

namespace Linux011.Lib

abbrev Slots (κ α : Type*) : Type _ := ℕ → Option (κ × α)

namespace Slots

variable {κ α : Type*} [DecidableEq κ] {s s' : Slots κ α} {n n' k : ℕ} {a : κ} {x : α}

/-- No key is in two of the first `n` slots. -/
def Distinct (s : Slots κ α) (n : ℕ) : Prop :=
  ∀ j < n, ∀ k < n, ∀ a x y, s j = some (a, x) → s k = some (a, y) → j = k

/-- The value in the first of `n` slots that has the key. -/
def lookup (s : Slots κ α) : ℕ → κ → Option α
  | 0, _ => none
  | n + 1, a => (lookup s n a).or ((s n).bind fun p => if p.1 = a then some p.2 else none)

theorem lookup_mem (h : lookup s n a = some x) : ∃ k < n, s k = some (a, x) := by
  induction n with
  | zero => cases h
  | succ n ih =>
    rw [lookup, Option.or_eq_some_iff] at h
    obtain h | ⟨-, h⟩ := h
    · obtain ⟨k, hk, hs⟩ := ih h
      exact ⟨k, by omega, hs⟩
    · obtain ⟨⟨b, y⟩, hs, hy⟩ := Option.bind_eq_some_iff.mp h
      dsimp only at hy
      split_ifs at hy with hb
      cases hy
      exact ⟨n, by omega, by rw [hs, hb]⟩

theorem lookup_eq_none : lookup s n a = none ↔ ∀ k < n, ∀ x, s k ≠ some (a, x) := by
  induction n with
  | zero => exact iff_of_true rfl fun k hk => absurd hk (Nat.not_lt_zero k)
  | succ n ih =>
    rw [lookup, Option.or_eq_none_iff, ih, Option.bind_eq_none_iff]
    constructor
    · rintro ⟨hbefore, hlast⟩ k hk x hs
      obtain hk | rfl := Nat.lt_succ_iff_lt_or_eq.mp hk
      · exact hbefore k hk x hs
      · have := hlast _ hs
        rw [if_pos rfl] at this
        cases this
    · refine fun h => ⟨fun k hk => h k (by omega), fun p hs => if_neg fun hp => ?_⟩
      exact h n (by omega) p.2 (by rw [hs, ← hp])

namespace Distinct

theorem lookup_eq (h : Distinct s n) (hk : k < n) (hs : s k = some (a, x)) : lookup s n a = some x := by
  cases hl : lookup s n a with
  | none => exact absurd hs (lookup_eq_none.mp hl k hk x)
  | some y =>
    obtain ⟨j, hj, hy⟩ := lookup_mem hl
    obtain rfl := h j hj k hk a y x hy hs
    cases hy.symm.trans hs
    rfl

theorem lookup_iff (h : Distinct s n) : lookup s n a = some x ↔ ∃ k < n, s k = some (a, x) :=
  ⟨lookup_mem, fun ⟨_, hk, hs⟩ => h.lookup_eq hk hs⟩

/-- An empty slot, or the next one, gets a new key. -/
theorem fill (h : Distinct s n) (ha : lookup s n a = none) (hk : k < n') (hempty : k < n → s k = none) (hn : n ≤ n')
    (hself : s' k = some (a, x)) (hother : ∀ j < n', j ≠ k → j < n ∧ s' j = s j) :
    Distinct s' n' ∧ lookup s' n' = Function.update (lookup s n) a (some x) := by
  have hnew : ∀ j < n', ∀ y, s' j = some (a, y) → j = k := by
    intro j hj y hs
    by_contra hne
    obtain ⟨hjn, heq⟩ := hother j hj hne
    exact lookup_eq_none.mp ha j hjn y (heq.symm.trans hs)
  have hd : Distinct s' n' := by
    intro i hi j hj b y z hy hz
    by_cases hb : b = a
    · subst hb
      exact (hnew i hi y hy).trans (hnew j hj z hz).symm
    · have hne : ∀ l w, s' l = some (b, w) → l ≠ k := by
        rintro l w hw rfl
        exact hb (congrArg Prod.fst (Option.some.inj (hw.symm.trans hself)))
      obtain ⟨hin, hi'⟩ := hother i hi (hne i y hy)
      obtain ⟨hjn, hj'⟩ := hother j hj (hne j z hz)
      exact h i hin j hjn b y z (hi'.symm.trans hy) (hj'.symm.trans hz)
  refine ⟨hd, funext fun b => ?_⟩
  by_cases hb : b = a
  · subst hb
    rw [Function.update_self]
    exact hd.lookup_eq hk hself
  · rw [Function.update_of_ne hb]
    refine Option.ext fun y => hd.lookup_iff.trans (Iff.trans ⟨?_, ?_⟩ h.lookup_iff.symm)
    · rintro ⟨j, hj, hs⟩
      have hjk : j ≠ k := by
        rintro rfl
        exact hb (congrArg Prod.fst (Option.some.inj (hs.symm.trans hself)))
      obtain ⟨hjn, heq⟩ := hother j hj hjk
      exact ⟨j, hjn, heq.symm.trans hs⟩
    · rintro ⟨j, hj, hs⟩
      have hjk : j ≠ k := by
        rintro rfl
        cases (hempty hj).symm.trans hs
      exact ⟨j, by omega, (hother j (by omega) hjk).2.trans hs⟩

/-- A slot is emptied. -/
theorem clear (h : Distinct s n) (hk : k < n) (hs : s k = some (a, x)) (hself : s' k = none) (hother : ∀ j < n, j ≠ k → s' j = s j) :
    Distinct s' n ∧ lookup s' n = Function.update (lookup s n) a none := by
  have hold : ∀ j < n, ∀ p, s' j = some p → j ≠ k ∧ s j = some p := by
    intro j hj p hp
    have hjk : j ≠ k := by
      rintro rfl
      cases hself.symm.trans hp
    exact ⟨hjk, (hother j hj hjk).symm.trans hp⟩
  have hd : Distinct s' n := fun i hi j hj b y z hy hz => h i hi j hj b y z (hold i hi _ hy).2 (hold j hj _ hz).2
  refine ⟨hd, funext fun b => ?_⟩
  by_cases hb : b = a
  · subst hb
    rw [Function.update_self]
    refine lookup_eq_none.mpr fun j hj y hy => ?_
    obtain ⟨hjk, hj'⟩ := hold j hj _ hy
    exact hjk (h j hj k hk b y x hj' hs)
  · rw [Function.update_of_ne hb]
    refine Option.ext fun y => hd.lookup_iff.trans (Iff.trans ⟨?_, ?_⟩ h.lookup_iff.symm)
    · rintro ⟨j, hj, hy⟩
      exact ⟨j, hj, (hold j hj _ hy).2⟩
    · rintro ⟨j, hj, hy⟩
      have hjk : j ≠ k := by
        rintro rfl
        exact hb (congrArg Prod.fst (Option.some.inj (hy.symm.trans hs)))
      exact ⟨j, hj, (hother j hj hjk).trans hy⟩

end Distinct

end Slots

end Linux011.Lib

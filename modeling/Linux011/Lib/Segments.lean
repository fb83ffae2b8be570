/-
  The maximal runs of positions below `N` at which a predicate does not hold, and how a scan from left
  to right meets them.
-/
import Linux011.Lib.Sizes
import Mathlib.Data.Nat.Find
import Mathlib.Tactic.Common

namespace Linux011.Lib

variable {q : ℕ → Prop} {N i n e k m : ℕ}

/-- `n` positions from `i` on, without a delimiter, and they cannot be extended. -/
structure IsSegment (q : ℕ → Prop) (N i n : ℕ) : Prop where
  pos : 0 < n
  le : i + n ≤ N
  inside : ∀ j, i ≤ j → j < i + n → ¬ q j
  before : i = 0 ∨ q (i - 1)
  behind : i + n = N ∨ q (i + n)

/-- The scan stops at the first position where `q` holds, or at the end. -/
theorem exists_stop (q : ℕ → Prop) (h : e ≤ N) : ∃ k, e ≤ k ∧ k ≤ N ∧ (∀ j, e ≤ j → j < k → ¬ q j) ∧ (k = N ∨ q k) := by
  classical
  have hex : ∃ k, e ≤ k ∧ (k = N ∨ q k) := ⟨N, h, .inl rfl⟩
  obtain ⟨hle, hstop⟩ := Nat.find_spec hex
  refine ⟨Nat.find hex, hle, Nat.find_min' hex ⟨h, .inl rfl⟩, fun j hj hlt hq => Nat.find_min hex hlt ⟨hj, .inr hq⟩, hstop⟩

/-- Delimiters only. -/
theorem IsSegment.lt_of_delimiters (h : IsSegment q N i n) (hq : ∀ j, e ≤ j → j < N → q j) : i < e := by
  by_contra hi
  have hpos := h.pos
  have hle := h.le
  exact h.inside i le_rfl (by omega) (hq i (by omega) (by omega))

/-- Behind a delimiter the scan skips delimiters up to `k` and comes to `m`: this is the next segment. -/
theorem isSegment_scan (he : e = 0 ∨ q (e - 1)) (hek : e ≤ k) (hkm : k < m) (hm : m ≤ N) (hskip : ∀ j, e ≤ j → j < k → q j)
    (hrun : ∀ j, k ≤ j → j < m → ¬ q j) (hstop : m = N ∨ q m) :
    IsSegment q N k (m - k) ∧ ∀ {i n}, IsSegment q N i n → e ≤ i → i = k ∧ n = m - k ∨ m < i := by
  have hmk : k + (m - k) = m := by omega
  refine ⟨⟨by omega, by omega, fun j hj hlt => hrun j hj (by omega), ?_, by rwa [hmk]⟩, fun {i n} h hi => ?_⟩
  · obtain rfl | hlt := Nat.eq_or_lt_of_le hek
    · exact he
    · exact .inr (hskip (k - 1) (by omega) (by omega))
  · have hpos := h.pos
    have hle := h.le
    have hki : k ≤ i := by
      by_contra hlt
      exact h.inside i le_rfl (by omega) (hskip i hi (by omega))
    obtain rfl | hlt := Nat.eq_or_lt_of_le hki
    · refine .inl ⟨rfl, ?_⟩
      by_contra hne
      obtain hn | hn := Nat.lt_or_gt_of_ne hne
      · exact hrun (k + n) (by omega) (by omega) (h.behind.resolve_left (by omega))
      · exact h.inside m (by omega) (by omega) (hstop.resolve_left (by omega))
    · refine .inr ?_
      have hq := h.before.resolve_left (by omega)
      by_contra hle'
      exact hrun (i - 1) (by omega) (by omega) hq

end Linux011.Lib

/-
  Delta queues: each entry holds the time from its predecessor, so an entry is due after the
  sum of the differences up to it. `place` walks past the smaller entries, subtracting each,
  and leaves the entry it stops at as it is.
-/
import Linux011.Lib.Sizes
import Mathlib.Data.List.Basic
import Mathlib.Tactic.Linarith

namespace Linux011.Lib

variable {α : Type*}

/-- The entries with the time each is due, counted from `a`. -/
def dues (a : ℤ) : List (ℤ × α) → List (ℤ × α)
  | [] => []
  | (d, x) :: l => (a + d, x) :: dues (a + d) l

/-- Insertion before the first entry that is not smaller than what is left of `n`. -/
def place (n : ℤ) (x : α) : List (ℤ × α) → List (ℤ × α)
  | [] => [(n, x)]
  | (d, y) :: l => if d < n then (d, y) :: place (n - d) x l else (n, x) :: (d, y) :: l

theorem dues_map_snd (a : ℤ) (l : List (ℤ × α)) : (dues a l).map Prod.snd = l.map Prod.snd := by
  induction l generalizing a with
  | nil => rfl
  | cons e l ih => simp only [dues, List.map_cons, ih]

theorem place_perm (n : ℤ) (x : α) (l : List (ℤ × α)) :
    ((place n x l).map Prod.snd).Perm (x :: l.map Prod.snd) := by
  induction l generalizing n with
  | nil => rfl
  | cons e l ih =>
    unfold place
    split_ifs
    · exact ((ih (n - e.1)).cons e.2).trans (.swap _ _ _)
    · rfl

/-- Differences stay positive and below a bound of `n`. -/
theorem place_pos {n : ℤ} {x : α} {l : List (ℤ × α)} {b : ℤ} (hn : 0 < n) (hb : n < b)
    (hl : ∀ e ∈ l, 0 < e.1 ∧ e.1 < b) : ∀ e ∈ place n x l, 0 < e.1 ∧ e.1 < b := by
  induction l generalizing n with
  | nil => simpa [place] using ⟨hn, hb⟩
  | cons d l ih =>
    have hd := hl d List.mem_cons_self
    have hl' : ∀ e ∈ l, 0 < e.1 ∧ e.1 < b := fun e he => hl e (List.mem_cons_of_mem d he)
    unfold place
    split_ifs with h
    · exact List.forall_mem_cons.mpr ⟨hd, ih (by omega) (by omega) hl'⟩
    · exact List.forall_mem_cons.mpr ⟨⟨hn, hb⟩, hl⟩

/-- The new entry is due after `n`. -/
theorem mem_dues_place (a n : ℤ) (x : α) (l : List (ℤ × α)) :
    (a + n, x) ∈ dues a (place n x l) := by
  induction l generalizing a n with
  | nil => exact List.mem_cons_self
  | cons e l ih =>
    unfold place
    split_ifs
    · refine List.mem_cons_of_mem _ ?_
      have := ih (a + e.1) (n - e.1)
      rwa [show a + e.1 + (n - e.1) = a + n by omega] at this
    · exact List.mem_cons_self

theorem mem_of_mem_dues {a : ℤ} {e : ℤ × α} {l : List (ℤ × α)} (h : e ∈ dues a l) :
    e.2 ∈ l.map Prod.snd := by
  rw [← dues_map_snd a l]
  exact List.mem_map_of_mem h

theorem le_of_mem_dues {a : ℤ} {e : ℤ × α} {l : List (ℤ × α)} (hl : ∀ d ∈ l, 0 ≤ d.1)
    (h : e ∈ dues a l) : a ≤ e.1 := by
  induction l generalizing a with
  | nil => exact absurd h List.not_mem_nil
  | cons d l ih =>
    have hd := hl d List.mem_cons_self
    obtain rfl | h := List.mem_cons.mp h
    · show a ≤ a + d.1
      omega
    · have := ih (fun d' hd' => hl d' (List.mem_cons_of_mem d hd')) h
      omega

theorem lt_of_mem_dues {a : ℤ} {e : ℤ × α} {l : List (ℤ × α)} (hl : ∀ d ∈ l, 0 < d.1)
    (h : e ∈ dues a l) : a < e.1 := by
  cases l with
  | nil => exact absurd h List.not_mem_nil
  | cons d l =>
    have hd := hl d List.mem_cons_self
    have hl' : ∀ d' ∈ l, 0 ≤ d'.1 := fun d' hd' => (hl d' (List.mem_cons_of_mem d hd')).le
    obtain rfl | h := List.mem_cons.mp h
    · show a < a + d.1
      omega
    · have := le_of_mem_dues hl' h
      omega

/-- When everything is due before `n`, the new entry goes to the end and moves nothing. -/
theorem dues_place_last {a n : ℤ} {x : α} {l : List (ℤ × α)}
    (hl : ∀ e ∈ dues a l, e.1 < a + n) : dues a (place n x l) = dues a l ++ [(a + n, x)] := by
  induction l generalizing a n with
  | nil => rfl
  | cons e l ih =>
    have hd : a + e.1 < a + n := hl (a + e.1, e.2) List.mem_cons_self
    have hn : a + e.1 + (n - e.1) = a + n := by omega
    unfold place
    rw [if_pos (by omega)]
    simp only [dues, List.cons_append]
    rw [ih, hn]
    intro f hf
    rw [hn]
    exact hl f (List.mem_cons_of_mem _ hf)

/-- The entries keep the time they are due exactly when all of them come before the new one. -/
theorem dues_place_keeps_iff {a n : ℤ} {x : α} {l : List (ℤ × α)} (hn : 0 < n)
    (hnd : (x :: l.map Prod.snd).Nodup) :
    (∀ e ∈ dues a l, e ∈ dues a (place n x l)) ↔ ∀ e ∈ dues a l, e.1 < a + n := by
  refine ⟨?_, fun h e he => ?_⟩
  · induction l generalizing a n with
    | nil => exact fun _ e he => absurd he List.not_mem_nil
    | cons d l ih =>
      intro hkeep
      rw [List.map_cons, List.nodup_cons, List.nodup_cons] at hnd
      obtain ⟨hx, hy, hl⟩ := hnd
      rw [List.mem_cons, not_or] at hx
      by_cases hdn : d.1 < n
      · unfold place at hkeep
        rw [if_pos hdn] at hkeep
        have htail : ∀ e ∈ dues (a + d.1) l, e ∈ dues (a + d.1) (place (n - d.1) x l) := by
          intro e he
          have hne : e ≠ (a + d.1, d.2) := by
            intro h
            subst h
            have hm := mem_of_mem_dues he
            exact hy hm
          exact (List.mem_cons.mp (hkeep e (List.mem_cons_of_mem _ he))).resolve_left hne
        have hrest := ih (by omega) (List.nodup_cons.mpr ⟨hx.2, hl⟩) htail
        rw [show a + d.1 + (n - d.1) = a + n by omega] at hrest
        intro e he
        obtain rfl | he := List.mem_cons.mp he
        · show a + d.1 < a + n
          omega
        · exact hrest e he
      · -- the entry the walk stops at is put off by `n`
        unfold place at hkeep
        rw [if_neg hdn] at hkeep
        have h := hkeep (a + d.1, d.2) List.mem_cons_self
        simp only [dues, List.mem_cons, Prod.mk.injEq] at h
        obtain ⟨-, h⟩ | ⟨h, -⟩ | h := h
        · exact absurd h.symm hx.1
        · omega
        · exact absurd (mem_of_mem_dues h) hy
  · rw [dues_place_last h]
    exact List.mem_append_left _ he

end Linux011.Lib

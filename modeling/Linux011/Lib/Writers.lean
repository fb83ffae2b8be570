/-
  Writers of one array: each stores a list an element at a time, and they may take turns at any
  element. The array has a size, which grows before anything is stored behind it.
-/
import Linux011.Lib.Trans
import Mathlib.Logic.Function.Basic
import Mathlib.Data.List.GetD

namespace Linux011.Lib

variable {α ι : Type}

/-- The list `l` at `k` and behind it, over `f`. -/
def splice (f : ℕ → α) (k : ℕ) (l : List α) (a : ℕ) : α := if k ≤ a then l.getD (a - k) (f a) else f a

variable {f : ℕ → α} {k n a : ℕ} {l : List α}

@[simp] theorem splice_nil : splice f k [] = f := by
  funext a
  unfold splice
  split_ifs <;> rfl

/-- One element more. -/
theorem splice_append (x : α) : splice f k (l ++ [x]) = Function.update (splice f k l) (k + l.length) x := by
  funext a
  unfold splice
  by_cases ha : a = k + l.length
  · subst ha
    rw [Function.update_self, if_pos (Nat.le_add_right ..), Nat.add_sub_cancel_left, List.getD_append_right _ _ _ _ (Nat.le_refl _),
      Nat.sub_self]
    rfl
  · rw [Function.update_of_ne ha]
    split_ifs with hk
    · obtain hlt | hge := Nat.lt_or_ge (a - k) l.length
      · exact List.getD_append _ _ _ _ hlt
      · rw [List.getD_eq_default _ _ hge, List.getD_eq_default]
        rw [List.length_append, List.length_singleton]
        omega
    · rfl

/-- What a writer has stored at `start` and what it has still to store; `before` is the array it
    found. -/
structure Writing (α : Type) where
  before : ℕ → α
  start : ℕ
  done : List α
  todo : List α

/-- Where the next element goes. -/
def Writing.pos (w : Writing α) : ℕ := w.start + w.done.length

structure Tape (ι α : Type) where
  cell : ℕ → α
  size : ℕ
  writing : ι → Option (Writing α)

inductive Move (ι α : Type)
  /-- a writer is given a list -/
  | call (p : ι) (start : ℕ) (l : List α)
  | grow (p : ι) (n : ℕ)
  | put (p : ι)
  | rest

/-- The writers go on with what they have. -/
def Move.Goes : Move ι α → Prop
  | .call _ _ _ => False
  | _ => True

variable [DecidableEq ι]

def tapeSystem (f : ℕ → α) (n : ℕ) : Lts (Tape ι α) (Move ι α) where
  init t := t = ⟨f, n, fun _ => none⟩
  step t e t' := match e with
    | .call p start l => t' = { t with writing := Function.update t.writing p (some ⟨t.cell, start, [], l⟩) }
    | .grow p n => ∃ w, t.writing p = some w ∧ n ≤ w.pos + w.todo.length ∧ t' = { t with size := max t.size n }
    | .put p => ∃ w x l, t.writing p = some w ∧ w.todo = x :: l ∧ w.pos < t.size ∧
        t' = ⟨Function.update t.cell w.pos x, t.size,
          Function.update t.writing p (some ⟨w.before, w.start, w.done ++ [x], l⟩)⟩
    | .rest => t' = t

variable {t : Tape ι α}

/-- What was there behind the end is there still. -/
theorem tape_beyond (h : (tapeSystem (ι := ι) f n).Reachable t) : n ≤ t.size ∧ ∀ a, t.size ≤ a → t.cell a = f a := by
  refine h.invariant (I := fun t => n ≤ t.size ∧ ∀ a, t.size ≤ a → t.cell a = f a) ?_ ?_
  · rintro _ rfl
    exact ⟨Nat.le_refl n, fun _ _ => rfl⟩
  · rintro t e t' - ⟨hn, ht⟩ hs
    cases e with
    | call p start l =>
      cases hs
      exact ⟨hn, ht⟩
    | grow p n =>
      obtain ⟨w, -, -, rfl⟩ := hs
      exact ⟨Nat.le_trans hn (Nat.le_max_left ..), fun a ha => ht a (Nat.le_trans (Nat.le_max_left ..) ha)⟩
    | put p =>
      obtain ⟨w, x, l, -, -, hlt, rfl⟩ := hs
      refine ⟨hn, fun a ha => ?_⟩
      rw [← ht a ha]
      exact Function.update_of_ne (Nat.ne_of_gt (Nat.lt_of_lt_of_le hlt ha)) ..
    | rest =>
      cases hs
      exact ⟨hn, ht⟩

/-- A writer with the list `l` for `start` has stored what it has done, and nothing else; the array
    has grown no further than it needs. -/
def Tape.Alone (f : ℕ → α) (n start : ℕ) (l : List α) (p : ι) (t : Tape ι α) : Prop := ∃ done todo, done ++ todo = l ∧
  t.writing p = some ⟨f, start, done, todo⟩ ∧ t.cell = splice f start done ∧ n ≤ t.size ∧ t.size ≤ max n (start + l.length) ∧
  (done = [] ∨ start + done.length ≤ t.size)

theorem Tape.Alone.step [Subsingleton ι] {t' : Tape ι α} {e : Move ι α} {p : ι} {f' : ℕ → α} {n' start : ℕ}
    (h : t.Alone f n start l p) (hs : (tapeSystem f' n').step t e t') (hgoes : e.Goes) : t'.Alone f n start l p := by
  obtain ⟨done, todo, rfl, hw, hcell, hn, hle, hdone⟩ := h
  cases e with
  | call p' start l => exact hgoes.elim
  | grow p' k =>
    obtain ⟨w', hw', hk, rfl⟩ := hs
    cases Subsingleton.elim p p'
    cases hw.symm.trans hw'
    refine ⟨done, todo, rfl, hw, hcell, Nat.le_trans hn (Nat.le_max_left ..), Nat.max_le.mpr ⟨hle, ?_⟩,
      hdone.imp_right fun h => Nat.le_trans h (Nat.le_max_left ..)⟩
    rw [List.length_append, ← Nat.add_assoc]
    exact Nat.le_trans hk (Nat.le_max_right ..)
  | put p' =>
    obtain ⟨w', x, l, hw', htodo, hlt, rfl⟩ := hs
    cases Subsingleton.elim p p'
    cases hw.symm.trans hw'
    cases htodo
    refine ⟨done ++ [x], l, ?_, Function.update_self .., ?_, hn, hle, .inr ?_⟩
    · rw [List.append_assoc]
      rfl
    · rw [splice_append, ← hcell]
      rfl
    · rw [List.length_append]
      exact hlt
  | rest =>
    cases hs
    exact ⟨done, todo, rfl, hw, hcell, hn, hle, hdone⟩

end Linux011.Lib

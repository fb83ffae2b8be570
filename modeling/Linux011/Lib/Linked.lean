/-
  Singly linked lists: a `next` pointer for every node, and the list of nodes that a pointer
  leads to.
-/
import Linux011.Lib.Sizes
import Mathlib.Data.List.Nodup
import Mathlib.Data.Nat.Notation
import Mathlib.Logic.Function.Basic
import Mathlib.Tactic.Common

namespace Linux011.Lib

variable {α : Type*} {next next' : α → Option α}

/-- From `p` on, the pointers lead through the nodes of the list to the end. -/
def IsLinked (next : α → Option α) : Option α → List α → Prop
  | p, [] => p = none
  | p, a :: l => p = some a ∧ IsLinked next (next a) l

/-- `prev = q; for (a = p; a; a = a->next) { if (P a) break; prev = a; }`: the last `prev` and the last
    `a`, when the loop ends within `n` tests. -/
def walk (next : α → Option α) (P : α → Bool) : ℕ → Option α → Option α → Option (Option α × Option α)
  | 0, _, _ => none
  | _ + 1, q, none => some (q, none)
  | n + 1, q, some a => if P a then some (q, some a) else walk next P n (some a) (next a)

namespace IsLinked

theorem head {p : Option α} {l : List α} (h : IsLinked next p l) : l.head? = p := by
  cases l with
  | nil => exact h.symm
  | cons a l => exact h.1.symm

theorem unique {p : Option α} {l l' : List α} (h : IsLinked next p l) (h' : IsLinked next p l') :
    l = l' := by
  induction l generalizing p l' with
  | nil =>
    cases l' with
    | nil => rfl
    | cons b l' => cases h.symm.trans h'.1
  | cons a l ih =>
    cases l' with
    | nil => cases h'.symm.trans h.1
    | cons b l' =>
      have hab : a = b := Option.some.inj (h.1.symm.trans h'.1)
      subst hab
      rw [ih h.2 h'.2]

/-- The rest of the list from one of its nodes on. -/
theorem drop {p : Option α} {l l' : List α} {a : α} (h : IsLinked next p (l ++ a :: l')) :
    IsLinked next (some a) (a :: l') := by
  induction l generalizing p with
  | nil => exact ⟨rfl, h.2⟩
  | cons b l ih => exact ih h.2

/-- A list that ends is not a cycle. -/
theorem nodup {p : Option α} {l : List α} (h : IsLinked next p l) : l.Nodup := by
  induction l generalizing p with
  | nil => exact List.nodup_nil
  | cons a l ih =>
    refine List.nodup_cons.mpr ⟨fun ha => ?_, ih h.2⟩
    obtain ⟨s, t, rfl⟩ := List.append_of_mem ha
    have hself : IsLinked next (some a) (a :: (s ++ a :: t)) := ⟨rfl, h.2⟩
    have hlen := congrArg List.length (unique h.2.drop hself)
    simp only [List.length_cons, List.length_append] at hlen
    omega

/-- Only the pointers of the nodes count. -/
theorem congr {p : Option α} {l : List α} (h : IsLinked next p l)
    (heq : ∀ a ∈ l, next' a = next a) : IsLinked next' p l := by
  induction l generalizing p with
  | nil => exact h
  | cons a l ih =>
    refine ⟨h.1, ?_⟩
    rw [heq a List.mem_cons_self]
    exact ih h.2 fun b hb => heq b (List.mem_cons_of_mem _ hb)

theorem walk_none {P : α → Bool} {p q : Option α} {l : List α} {n : ℕ} (h : IsLinked next p l) (hn : l.length < n)
    (hP : ∀ a ∈ l, P a = false) : ∃ q', walk next P n q p = some (q', none) := by
  induction l generalizing n p q with
  | nil =>
    obtain ⟨n, rfl⟩ := Nat.exists_eq_succ_of_ne_zero (by omega : n ≠ 0)
    cases h
    exact ⟨q, rfl⟩
  | cons a l ih =>
    obtain ⟨n, rfl⟩ := Nat.exists_eq_succ_of_ne_zero (by omega : n ≠ 0)
    cases h.1
    have hlen : l.length < n := by
      rw [List.length_cons] at hn
      omega
    obtain ⟨q', hq'⟩ := ih (q := some a) h.2 hlen fun b hb => hP b (List.mem_cons_of_mem _ hb)
    refine ⟨q', ?_⟩
    rw [walk, hP a List.mem_cons_self, if_neg Bool.false_ne_true]
    exact hq'

/-- The first node with `P`, and the one before it. -/
theorem walk_some {P : α → Bool} {p q : Option α} {l l' : List α} {a : α} {n : ℕ} (h : IsLinked next p (l ++ a :: l'))
    (hn : l.length < n) (hP : ∀ b ∈ l, P b = false) (ha : P a = true) :
    walk next P n q p = some (l.getLast?.or q, some a) := by
  induction l generalizing n p q with
  | nil =>
    obtain ⟨n, rfl⟩ := Nat.exists_eq_succ_of_ne_zero (by omega : n ≠ 0)
    cases h.1
    rw [walk, if_pos ha]
    rfl
  | cons b l ih =>
    obtain ⟨n, rfl⟩ := Nat.exists_eq_succ_of_ne_zero (by omega : n ≠ 0)
    cases h.1
    rw [List.length_cons] at hn
    rw [walk, hP b List.mem_cons_self, if_neg Bool.false_ne_true,
      ih (q := some b) h.2 (by omega) fun c hc => hP c (List.mem_cons_of_mem _ hc)]
    cases l with
    | nil => rfl
    | cons c l =>
      rw [List.getLast?_cons_cons, List.getLast?_cons]
      rfl

theorem next_eq {p : Option α} {l l' : List α} {a b : α} (h : IsLinked next p (l ++ a :: b :: l')) : next a = some b := by
  induction l generalizing p with
  | nil => exact h.2.1
  | cons c l ih => exact ih h.2

/-- Node `b` is taken out behind node `a`. -/
theorem unlink [DecidableEq α] {p : Option α} {l l' : List α} {a b : α} (h : IsLinked next p (l ++ a :: b :: l')) :
    IsLinked (Function.update next a (next b)) p (l ++ a :: l') := by
  have hnd := h.nodup
  induction l generalizing p with
  | nil =>
    refine ⟨h.1, ?_⟩
    rw [Function.update_self]
    exact h.2.2.congr fun c hc => Function.update_of_ne
      (fun hca : c = a => (List.nodup_cons.mp hnd).1 (hca ▸ List.mem_cons_of_mem _ hc)) ..
  | cons c l ih =>
    have hca : c ≠ a := fun hca => (List.nodup_cons.mp hnd).1 (hca ▸ by simp)
    refine ⟨h.1, ?_⟩
    rw [Function.update_of_ne hca]
    exact ih h.2 (List.nodup_cons.mp hnd).2

theorem of_update [DecidableEq α] {p q : Option α} {l : List α} {x : α} (h : IsLinked next p l)
    (hx : x ∉ l) : IsLinked (Function.update next x q) p l :=
  h.congr fun a ha => Function.update_of_ne (fun hax : a = x => hx (hax ▸ ha)) q next

/-- A new node behind node `a`. -/
theorem insertAfter [DecidableEq α] {p : Option α} {l l' : List α} {a x : α}
    (h : IsLinked next p (l ++ a :: l')) (hx : x ∉ l ++ a :: l') :
    IsLinked (Function.update (Function.update next x (next a)) a (some x)) p
      (l ++ a :: x :: l') := by
  have hnd := h.nodup
  induction l generalizing p with
  | nil =>
    have hxa : x ≠ a := fun hxa => hx (by simp [hxa])
    have hal : a ∉ l' := (List.nodup_cons.mp hnd).1
    refine ⟨h.1, by rw [Function.update_self], ?_⟩
    rw [Function.update_of_ne hxa, Function.update_self]
    exact (h.2.of_update fun hm => hx (List.mem_cons_of_mem _ hm)).of_update hal
  | cons b l ih =>
    have hb : b ∉ l ++ a :: l' := (List.nodup_cons.mp hnd).1
    have hba : b ≠ a := fun hba => hb (by simp [hba])
    have hbx : b ≠ x := fun hbx => hx (by simp [hbx])
    refine ⟨h.1, ?_⟩
    rw [Function.update_of_ne hba, Function.update_of_ne hbx]
    exact ih h.2 (fun hm => hx (List.mem_cons_of_mem _ hm)) (List.nodup_cons.mp hnd).2

end IsLinked

end Linux011.Lib

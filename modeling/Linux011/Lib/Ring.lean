/-
  A ring of `N` places between a tail and a head. With head and tail equal it is empty, so that it
  holds `N - 1` elements at most; `contents` are those from the tail on.
-/
import Linux011.Lib.Sizes
import Mathlib.Data.ZMod.Defs
import Mathlib.Data.List.Basic
import Mathlib.Tactic.Abel

namespace Linux011.Lib

structure Ring (N : ℕ) (α : Type*) where
  head : Fin N
  tail : Fin N
  buf : Fin N → α

namespace Ring

variable {N : ℕ} [NeZero N] {α : Type*} (r : Ring N α)

def chars : ℕ := (r.head - r.tail).val

/-- How many more it takes. -/
def left : ℕ := (r.tail - r.head - 1).val

def put (a : α) : Ring N α := { r with buf := Function.update r.buf r.head a, head := r.head + 1 }

/-- The element at the tail, whether there is one or not. -/
def front : α := r.buf r.tail

def pop : Ring N α := { r with tail := r.tail + 1 }

def last : α := r.buf (r.head - 1)

def drop : Ring N α := { r with head := r.head - 1 }

def flush : Ring N α := { r with head := r.tail }

def contents : List α := (List.range r.chars).map fun k => r.buf (r.tail + Fin.ofNat N k)

/-! ## Places -/

theorem val_add_one {x : Fin N} (h : x + 1 ≠ 0) : (x + 1).val = x.val + 1 := by
  have hval : (x + 1).val = (x.val + 1) % N := by rw [Fin.val_add, Fin.val_one', Nat.add_mod_mod]
  have hlt := x.isLt
  by_cases he : x.val + 1 = N
  · refine absurd (Fin.ext ?_) h
    rw [hval, he, Nat.mod_self]
    rfl
  · rw [hval, Nat.mod_eq_of_lt (by omega)]

theorem val_sub_one {x : Fin N} (h : x ≠ 0) : x.val = (x - 1).val + 1 := by
  have hx : x - 1 + 1 = x := sub_add_cancel x 1
  rw [← val_add_one (by rw [hx]; exact h), hx]

theorem ofNat_succ (k : ℕ) : Fin.ofNat N (k + 1) = Fin.ofNat N k + 1 := by
  ext
  rw [Fin.val_add, Fin.val_one']
  simp

variable {r}

theorem tail_add_chars : r.tail + Fin.ofNat N r.chars = r.head := by
  have h : Fin.ofNat N r.chars = r.head - r.tail := Fin.ext (Nat.mod_eq_of_lt (r.head - r.tail).isLt)
  rw [h, add_sub_cancel]

theorem tail_add_ne {k : ℕ} (hk : k < r.chars) : r.tail + Fin.ofNat N k ≠ r.head := by
  intro he
  have hlt := (r.head - r.tail).isLt
  have hc : r.chars = (r.head - r.tail).val := rfl
  have hval : (Fin.ofNat N k).val = (r.head - r.tail).val := by rw [← he, add_sub_cancel_left]
  rw [Fin.val_ofNat, Nat.mod_eq_of_lt (by omega)] at hval
  omega

@[simp] theorem length_contents : r.contents.length = r.chars := by simp [contents]

theorem chars_eq_zero : r.chars = 0 ↔ r.head = r.tail := by
  rw [← sub_eq_zero (a := r.head), Fin.ext_iff]
  rfl

theorem contents_eq_nil : r.contents = [] ↔ r.head = r.tail := by
  rw [← List.length_eq_zero_iff, length_contents, chars_eq_zero]

theorem left_add_chars (r : Ring N α) : r.left + r.chars + 1 = N := by
  have hx := (r.head - r.tail).isLt
  have hy := (r.tail - r.head - 1).isLt
  have hsum : (r.tail - r.head - 1) + (r.head - r.tail) + 1 = 0 := by abel
  have hval : (r.left + r.chars + 1) % N = 0 := by
    have h := congrArg Fin.val hsum
    rw [Fin.val_add, Fin.val_add, Fin.val_one', Nat.add_mod_mod, Nat.mod_add_mod] at h
    exact h
  have hl : r.left = (r.tail - r.head - 1).val := rfl
  have hc : r.chars = (r.head - r.tail).val := rfl
  by_cases hlt : r.left + r.chars + 1 < N
  · rw [Nat.mod_eq_of_lt hlt] at hval
    omega
  · rw [Nat.mod_eq_sub_mod (by omega), Nat.mod_eq_of_lt (by omega)] at hval
    omega

/-! ## Contents -/

theorem contents_put (a : α) (h : r.left ≠ 0) : (r.put a).contents = r.contents ++ [a] := by
  have hfull := left_add_chars r
  have hchars : (r.put a).chars = r.chars + 1 := by
    have hne : r.head - r.tail + 1 ≠ 0 := fun he => by
      have hmod := congrArg Fin.val he
      rw [Fin.val_add, Fin.val_one', Nat.add_mod_mod, Nat.mod_eq_of_lt] at hmod
      · cases hmod
      · change r.chars + 1 < N
        omega
    change (r.head + 1 - r.tail).val = _
    rw [add_sub_right_comm, val_add_one hne]
    rfl
  unfold contents
  rw [hchars, List.range_succ, List.map_append, List.map_singleton]
  congr 1
  · refine List.map_congr_left fun k hk => ?_
    exact Function.update_of_ne (tail_add_ne (List.mem_range.mp hk)) ..
  · change [Function.update r.buf r.head a (r.tail + Fin.ofNat N r.chars)] = [a]
    rw [tail_add_chars, Function.update_self]

/-- What is written at the head is not in the ring yet. -/
theorem contents_update (a : α) : ({ r with buf := Function.update r.buf r.head a } : Ring N α).contents = r.contents :=
  List.map_congr_left fun _ hk => Function.update_of_ne (tail_add_ne (List.mem_range.mp hk)) ..

theorem left_eq_zero : r.left = 0 ↔ r.head + 1 = r.tail := by
  rw [eq_comm (a := r.head + 1), ← sub_eq_zero (a := r.tail), ← sub_sub, Fin.ext_iff]
  rfl

theorem contents_pop (h : r.head ≠ r.tail) : r.contents = r.front :: r.pop.contents := by
  have hchars : r.chars = r.pop.chars + 1 := by
    refine (val_sub_one (sub_ne_zero.mpr h)).trans ?_
    rw [sub_sub]
    rfl
  unfold contents
  rw [hchars, List.range_succ_eq_map, List.map_cons, List.map_map]
  congr 1
  · change r.buf (r.tail + Fin.ofNat N 0) = r.buf r.tail
    congr 1
    exact add_zero r.tail
  · refine List.map_congr_left fun k _ => ?_
    change r.buf (r.tail + Fin.ofNat N (k + 1)) = r.buf (r.tail + 1 + Fin.ofNat N k)
    rw [ofNat_succ]
    congr 1
    abel

theorem contents_drop (h : r.head ≠ r.tail) : r.contents = r.drop.contents ++ [r.last] := by
  have hchars : r.chars = r.drop.chars + 1 := by
    refine (val_sub_one (sub_ne_zero.mpr h)).trans ?_
    rw [sub_right_comm]
    rfl
  have hlast : r.tail + Fin.ofNat N r.drop.chars = r.head - 1 := tail_add_chars (r := r.drop)
  unfold contents
  rw [hchars, List.range_succ, List.map_append, List.map_singleton, hlast]
  rfl

theorem contents_flush : r.flush.contents = [] := contents_eq_nil.mpr rfl

end Ring

end Linux011.Lib

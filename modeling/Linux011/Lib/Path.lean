/-
  Singly linked lists in an array of cells: the cells met from a head pointer along the links.
-/
import Linux011.Lib.Sizes
import Mathlib.Logic.Function.Basic
import Mathlib.Data.List.Nodup

namespace Linux011.Lib

variable {ι : Type*}

/-- `l` is the list of cells met from `h` along `next`, up to the null pointer. -/
def Path (next : ι → Option ι) : Option ι → List ι → Prop
  | h, [] => h = none
  | h, p :: l => h = some p ∧ Path next (next p) l

namespace Path

variable {next next' : ι → Option ι} {h : Option ι} {l l' : List ι}

theorem unique (hl : Path next h l) (hl' : Path next h l') : l = l' := by
  induction l generalizing h l' with
  | nil =>
    cases l' with
    | nil => rfl
    | cons p l' => exact absurd (hl.symm.trans hl'.1) (by simp)
  | cons p l ih =>
    cases l' with
    | nil => exact absurd (hl.1.symm.trans hl') (by simp)
    | cons q l' =>
      have hpq : p = q := Option.some.inj (hl.1.symm.trans hl'.1)
      subst hpq
      rw [ih hl.2 hl'.2]

/-- Links outside the list do not matter. -/
theorem congr (hl : Path next h l) (he : ∀ p ∈ l, next' p = next p) : Path next' h l := by
  induction l generalizing h with
  | nil => exact hl
  | cons p l ih =>
    refine ⟨hl.1, ?_⟩
    rw [he p List.mem_cons_self]
    exact ih hl.2 fun q hq => he q (List.mem_cons_of_mem p hq)

end Path

end Linux011.Lib

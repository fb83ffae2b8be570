/-
  Sizes of tables. A numeral of `Fin n` needs to know that `n` is not 0; for the sizes of fixed tables
  this is said here once. Powers of naturals are the ones of the monoid everywhere.
-/
import Mathlib.Algebra.GroupWithZero.Nat
import Mathlib.Data.Nat.Notation

namespace Linux011.Lib

instance neZero_two : NeZero 2 := ⟨by decide⟩
instance neZero_eight : NeZero 8 := ⟨by decide⟩
instance neZero_nine : NeZero 9 := ⟨by decide⟩
instance neZero_seventeen : NeZero 17 := ⟨by decide⟩
instance neZero_thirtyTwo : NeZero 32 := ⟨by decide⟩
instance neZero_sixtyFour : NeZero 64 := ⟨by decide⟩
instance neZero_1024 : NeZero 1024 := ⟨by decide⟩

end Linux011.Lib

/-
  The buffers of one device as the caller of `bread` and `brelse` sees them: their counts, and
  beside them an account of the references the caller holds. The account is not in the source; a
  `brelse` of a buffer that the caller does not hold is noted in it.
-/
import Linux011.Fs.Tables

namespace Linux011.Fs

open Linux011.Lib

structure Ledger where
  /-- `b_count` of the buffer of a block, 0 if there is none; far below its limit of 255 -/
  count : ℕ → ℕ
  held : ℕ → ℕ
  /-- the releases of buffers that were not held -/
  strays : ℕ

namespace Ledger

/-- The blocks of a device; nothing where a block cannot be read. -/
abbrev Medium : Type := ℕ → Option Block

def take (s : Ledger) (z : ℕ) : Ledger :=
  { s with count := Function.update s.count z (s.count z + 1), held := Function.update s.held z (s.held z + 1) }

def give (s : Ledger) (z : ℕ) : Ledger where
  count := Function.update s.count z (s.count z - 1)
  held := Function.update s.held z (s.held z - 1)
  strays := if s.held z = 0 then s.strays + 1 else s.strays

/-- Nothing is held, and nothing was released by mistake. -/
structure Clean (s : Ledger) : Prop where
  held : ∀ z, s.held z = 0
  strays : s.strays = 0

/-- With one more reference, that is held, for each element of the list. -/
def plus (s : Ledger) (l : List ℕ) : Ledger :=
  { s with count := fun z => s.count z + l.count z, held := fun z => s.held z + l.count z }

variable {s : Ledger} {z : ℕ} {l : List ℕ}

@[simp] theorem take_count_self : (s.take z).count z = s.count z + 1 := Function.update_self ..

@[simp] theorem take_held_self : (s.take z).held z = s.held z + 1 := Function.update_self ..

@[simp] theorem take_strays : (s.take z).strays = s.strays := rfl

@[simp] theorem give_take : (s.take z).give z = s := by
  obtain ⟨count, held, strays⟩ := s
  simp [take, give]

@[simp] theorem plus_nil : s.plus [] = s := rfl

theorem take_plus : (s.plus l).take z = s.plus (l ++ [z]) := by
  unfold take plus
  congr 1
  · funext y
    by_cases hy : y = z
    · subst hy
      simp [Nat.add_assoc]
    · simp [Function.update_of_ne hy, Ne.symm hy]
  · funext y
    by_cases hy : y = z
    · subst hy
      simp [Nat.add_assoc]
    · simp [Function.update_of_ne hy, Ne.symm hy]

theorem give_plus : (s.plus (z :: l)).give z = s.plus l := by
  unfold give plus
  simp only [Ledger.mk.injEq]
  refine ⟨funext fun y => ?_, funext fun y => ?_, by simp⟩
  · by_cases hy : y = z
    · subst hy
      simp
    · simp [Function.update_of_ne hy, Ne.symm hy]
  · by_cases hy : y = z
    · subst hy
      simp
    · simp [Function.update_of_ne hy, Ne.symm hy]

theorem strays_le_give : s.strays ≤ (s.give z).strays := by
  unfold give
  dsimp only
  split_ifs <;> omega

end Ledger

open Ledger

abbrev L (α : Type) : Type := Prog Ledger Halted α

/-- `bread`; nothing for NULL. -/
def readBlock (medium : Medium) (z : ℕ) : L (Option Block) :=
  match medium z with
  | none => pure none
  | some b => do
    Prog.modify fun s => s.take z
    return some b

def releaseBlock (z : ℕ) : L Unit := do
  let s ← Prog.get
  if s.count z = 0 then Prog.halt (.panic "Trying to free free buffer")
  else Prog.modify fun s => s.give z

variable {medium : Medium} {s : Ledger} {z : ℕ}

theorem readBlock_none (h : medium z = none) : readBlock medium z s = .ok none s := by
  unfold readBlock
  rw [h]
  rfl

theorem readBlock_some {b : Block} (h : medium z = some b) : readBlock medium z s = .ok (some b) (s.take z) := by
  unfold readBlock
  rw [h]
  rfl

/-- `brelse` of a buffer the caller holds. -/
theorem releaseBlock_take : releaseBlock z (s.take z) = .ok () s := by
  refine (Prog.bind_run (Prog.get_run (s.take z))).trans ?_
  rw [if_neg (by simp)]
  exact congrArg (Out.ok ()) give_take

theorem releaseBlock_plus {l : List ℕ} : releaseBlock z (s.plus (z :: l)) = .ok () (s.plus l) := by
  refine (Prog.bind_run (Prog.get_run (s.plus (z :: l)))).trans ?_
  rw [if_neg (by simp [Ledger.plus])]
  exact congrArg (Out.ok ()) give_plus

/-- What the program has released by mistake stays noted. -/
def Spoils (m : L α) : Prop := Spec (fun _ => True) (fun _ => True) (fun s => 0 < s.strays) m fun _ s => 0 < s.strays

theorem readBlock_spoils (medium : Medium) (z : ℕ) : Spoils (readBlock medium z) := by
  unfold readBlock
  cases medium z with
  | none => exact Spec.pure fun _ hs => hs
  | some b => exact Spec.bind (M := fun _ s => 0 < s.strays) (Spec.modify fun _ hs => hs) fun _ => Spec.pure fun _ hs => hs

theorem releaseBlock_spoils (z : ℕ) : Spoils (releaseBlock z) :=
  Spec.get fun _ _ => Spec.ite (fun _ => Spec.halt trivial) fun _ => Spec.modify fun _ hs => hs.trans_le strays_le_give

/-- `brelse` of a buffer that is not held is noted, or stops the kernel. -/
theorem releaseBlock_stray (h : s.held z = 0) : (releaseBlock z s).Ends (fun _ s' => 0 < s'.strays) (fun _ => True) fun _ => True := by
  have hgive : 0 < (s.give z).strays := by simp [give, h]
  by_cases hc : s.count z = 0
  · rw [releaseBlock, Prog.bind_run (Prog.get_run s), if_pos hc]
    trivial
  · rw [releaseBlock, Prog.bind_run (Prog.get_run s), if_neg hc]
    exact hgive

end Linux011.Fs

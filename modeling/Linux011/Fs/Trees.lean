/-
  The file systems as a path lookup sees them: the inodes and blocks of all devices with the
  directory entries in them, and the mounts. `Below r` is what lies under the root `r` of a task,
  `Step` what one component of a path leads to. On trees a step from below `r` ends below `r`
  (`Below.step`), although `..` is treated in three ways: at `r`, at the root of a mounted file
  system, and elsewhere.
-/
import Linux011.Fs.Refs
import Linux011.Fs.Bmap
import Mathlib.Logic.Relation

namespace Linux011.Fs

/-- `(i_dev,i_num)` -/
abbrev Node : Type := ℕ × ℕ

/-- Neither `.` nor `..`. -/
def Ordinary (name : List UInt8) : Prop := name ≠ [] ∧ name ≠ [dot] ∧ name ≠ [dot, dot]

/-- `node` are the inodes that the entries of `inode_table` hold, `refs` the pointers to them from
    the other tables. -/
structure View where
  inode : Node → DInode
  block : ℕ → ℕ → Block
  dsuper : ℕ → DSuper
  super : Fin 8 → Super
  node : Fin 32 → Node
  refs : Fin 32 → ℕ
  task : Fin 64 → Task
  current : Fin 64

namespace View

variable {v v' : View} {r x y z : Node} {name : List UInt8} {c : ℕ}

/-- The device holds a file system. -/
def Formatted (v : View) (d : ℕ) : Prop := d ≠ 0 ∧ (v.dsuper d).magic = 0x137F

def Dir (v : View) (x : Node) : Prop := v.Formatted x.1 ∧ isDir (v.inode x).mode = true

/-- Directory `x` has an entry of this name, for inode `c`. -/
def Entry (v : View) (x : Node) (name : List UInt8) (c : ℕ) : Prop :=
  ∃ k < (v.inode x).size / 16, zoneBlock (v.block x.1) (v.inode x).zone (k / 64) ≠ 0 ∧ c ≠ 0 ∧
    (v.block x.1 (zoneBlock (v.block x.1) (v.inode x).zone (k / 64))).word (8 * (k % 64)) = c ∧
    entryName (v.block x.1 (zoneBlock (v.block x.1) (v.inode x).zone (k / 64))) (k % 64) = name

/-- The file systems are trees: `.` names the directory itself and `..` the one it is entered in,
    nothing enters a root, and what is entered has links. -/
structure Tree (v : View) : Prop where
  self : ∀ x c, v.Dir x → v.Entry x [dot] c → c = x.2
  hasParent : ∀ x, v.Dir x → ∃ c, v.Entry x [dot, dot] c
  parent : ∀ x y name c, v.Dir x → v.Dir y → y.1 = x.1 → Ordinary name → v.Entry y name x.2 →
    v.Entry x [dot, dot] c → c = y.2
  root : ∀ x name, v.Dir x → Ordinary name → ¬ v.Entry x name 1
  links : ∀ x name c, v.Dir x → v.Entry x name c → (v.inode (x.1, c)).nlinks ≠ 0
  rootLinks : ∀ d, v.Formatted d → (v.inode (d, 1)).nlinks ≠ 0

/-- Nothing is mounted on `x`, unless it is a root. -/
def Uncovered (v : View) (x : Node) : Prop := ∀ k m, (v.super k).imount = some m → (v.node m).2 ≠ 1 → v.node m ≠ x

/-- The mounts: a device at most once, on a directory that is not a root. Only the root file system is
    mounted on its own root. The root and the directory of a task are there, and nothing is mounted on
    them. -/
structure Mounts (v : View) : Prop where
  devs : ∀ k k', (v.super k).dev ≠ 0 → (v.super k).dev = (v.super k').dev → k = k'
  formatted : ∀ k, (v.super k).dev ≠ 0 → v.Formatted (v.super k).dev
  used : ∀ k, (v.super k).imount ≠ none → (v.super k).dev ≠ 0
  point : ∀ k m, (v.super k).imount = some m → v.node m = ((v.super k).dev, 1) ∨ (v.node m).2 ≠ 1 ∧ v.Dir (v.node m)
  homes : ∀ t i, (v.task t).root = some i ∨ (v.task t).pwd = some i →
    (v.node i).1 ≠ 0 ∧ (v.inode (v.node i)).nlinks ≠ 0 ∧ v.Uncovered (v.node i)

/-- `x` is `r` or a descendant of it, through mount points too. -/
inductive Below (v : View) (r : Node) : Node → Prop
  | root : Below v r r
  | child {x : Node} {name : List UInt8} {c : ℕ} : Below v r x → v.Dir x → Ordinary name → v.Entry x name c →
      Below v r (x.1, c)
  | mount {k : Fin 8} {m : Fin 32} : Below v r (v.node m) → (v.super k).imount = some m → (v.node m).2 ≠ 1 →
      Below v r ((v.super k).dev, 1)

/-- What `iget` makes of a node: the root of what is mounted on it. -/
inductive Follows (v : View) : Node → Node → Prop
  | here {x : Node} : v.Uncovered x → Follows v x x
  | mounted {k : Fin 8} {m : Fin 32} {y : Node} : (v.super k).imount = some m → Follows v ((v.super k).dev, 1) y →
      Follows v (v.node m) y

/-- The directory and the name that `find_entry` takes for `name` in `x`, when the root is `r`. -/
inductive Crossed (v : View) (r x : Node) : List UInt8 → Node → List UInt8 → Prop
  | plain {name : List UInt8} : name ≠ [dot, dot] → Crossed v r x name x name
  | root : x = r → Crossed v r x [dot, dot] x [dot]
  | inside : x ≠ r → x.2 ≠ 1 → Crossed v r x [dot, dot] x [dot, dot]
  | top {k : Fin 8} : x ≠ r → x.2 = 1 → x.1 ≠ 0 → (v.super k).dev = x.1 → (v.super k).imount = none →
      Crossed v r x [dot, dot] x [dot, dot]
  | across {k : Fin 8} {m : Fin 32} : x ≠ r → x.2 = 1 → x.1 ≠ 0 → (v.super k).dev = x.1 → (v.super k).imount = some m →
      Crossed v r x [dot, dot] (v.node m) [dot, dot]

/-- One component of a path leads from `x` to `y`. -/
def Step (v : View) (r x y : Node) : Prop := v.Dir x ∧ ∃ name z name' c, name ≠ [] ∧ v.Crossed r x name z name' ∧
  v.Entry z name' c ∧ v.Follows (z.1, c) y

/-- `y` is reached from `x` by the components of a path. -/
def Reaches (v : View) (r : Node) : Node → Node → Prop := Relation.ReflTransGen (v.Step r)

/-! ## What is below the root -/

theorem Below.follows (hm : v.Mounts) (h : v.Below r x) (hf : v.Follows x y) : v.Below r y := by
  induction hf with
  | here => exact h
  | mounted hk _ ih =>
    refine ih ?_
    obtain heq | ⟨hne, -⟩ := hm.point _ _ hk
    · rwa [heq] at h
    · exact h.mount hk hne

theorem Follows.uncovered (hf : v.Follows x y) : v.Uncovered y := by
  induction hf with
  | here hu => exact hu
  | mounted _ _ ih => exact ih

theorem Reaches.uncovered (hx : v.Uncovered x) (hs : v.Reaches r x y) : v.Uncovered y := by
  induction hs with
  | refl => exact hx
  | tail _ hs =>
    obtain ⟨-, _, _, _, _, -, -, -, hf⟩ := hs
    exact hf.uncovered

theorem Crossed.dir (hm : v.Mounts) (hd : v.Dir x) {name' : List UInt8} (hc : v.Crossed r x name z name') : v.Dir z := by
  cases hc with
  | @across k m hr h1 h0 hk hs =>
    obtain heq | ⟨-, hdir⟩ := hm.point k m hs
    · rw [heq, hk, ← h1]
      exact hd
    · exact hdir
  | _ => exact hd

theorem Crossed.same_or_dotDot {name' : List UInt8} (hc : v.Crossed r x name z name') : z = x ∨ name' = [dot, dot] := by
  cases hc with
  | across => exact Or.inr rfl
  | _ => exact Or.inl rfl

theorem Crossed.nameOk {name' : List UInt8} (hc : v.Crossed r x name z name') (h0 : 0 ∉ name) (hl : name.length ≤ 14) :
    0 ∉ name' ∧ name'.length ≤ 14 := by
  cases hc with
  | root => exact ⟨by decide, by decide⟩
  | _ => exact ⟨h0, hl⟩

theorem Follows.links (ht : v.Tree) (hm : v.Mounts) (hf : v.Follows x y) (hx : (v.inode x).nlinks ≠ 0) : (v.inode y).nlinks ≠ 0 := by
  induction hf with
  | here => exact hx
  | @mounted k m y hk _ ih => exact ih (ht.rootLinks _ (hm.formatted k (hm.used k (by rw [hk]; exact nofun))))

/-- `..` away from the roots. -/
theorem Below.parent (ht : v.Tree) (h : v.Below r x) (hd : v.Dir x) (hr : x ≠ r) (h1 : x.2 ≠ 1)
    (he : v.Entry x [dot, dot] c) : v.Below r (x.1, c) := by
  cases h with
  | root => exact absurd rfl hr
  | @child y name c' hy hdy ho hey =>
    have hc : c = y.2 := ht.parent (y.1, c') y name c hd hdy rfl ho hey he
    rw [hc]
    exact hy
  | mount hp hk hne => exact absurd rfl h1

/-- The root of a mounted file system is below `r` because its mount point is. -/
theorem Below.mountPoint (ht : v.Tree) (hm : v.Mounts) (h : v.Below r x) (hr : x ≠ r) (h1 : x.2 = 1) (h0 : x.1 ≠ 0)
    {k : Fin 8} (hk : (v.super k).dev = x.1) :
    ∃ m, (v.super k).imount = some m ∧ (v.node m).2 ≠ 1 ∧ v.Below r (v.node m) := by
  cases h with
  | root => exact absurd rfl hr
  | @child y name c' hy hdy ho hey =>
    change c' = 1 at h1
    rw [h1] at hey
    exact absurd hey (ht.root y name hdy ho)
  | @mount k' m hp hk' hne =>
    have heq : k = k' := hm.devs k k' (hk ▸ h0) hk
    rw [heq]
    exact ⟨m, hk', hne, hp⟩

/-- The directory searched is below the root, and what the name leads to as well. -/
theorem Below.crossed (ht : v.Tree) (hm : v.Mounts) (hu : v.Uncovered r) (h : v.Below r x) (hd : v.Dir x) {name' : List UInt8}
    (hc : v.Crossed r x name z name') (hn : name ≠ []) :
    v.Below r z ∧ v.Dir z ∧ ∀ c, v.Entry z name' c → v.Below r (z.1, c) := by
  cases hc with
  | plain hne =>
    refine ⟨h, hd, fun c he => ?_⟩
    by_cases hdot : name = [dot]
    · rw [hdot] at he
      rw [ht.self x c hd he]
      exact h
    · exact h.child hd ⟨hn, hdot, hne⟩ he
  | root hr =>
    refine ⟨h, hd, fun c he => ?_⟩
    rw [ht.self x c hd he]
    exact h
  | inside hr h1 => exact ⟨h, hd, fun c he => h.parent ht hd hr h1 he⟩
  | top hr h1 h0 hk hnone =>
    obtain ⟨m, hs, -⟩ := h.mountPoint ht hm hr h1 h0 hk
    rw [hnone] at hs
    cases hs
  | @across k m hr h1 h0 hk hs =>
    obtain ⟨m', hs', hne, hb⟩ := h.mountPoint ht hm hr h1 h0 hk
    rw [hs] at hs'
    cases hs'
    have hdir : v.Dir (v.node m) := (Crossed.across hr h1 h0 hk hs).dir hm hd
    exact ⟨hb, hdir, fun c he => hb.parent ht hdir (hu k m hs hne) hne he⟩

theorem Below.step (ht : v.Tree) (hm : v.Mounts) (hu : v.Uncovered r) (h : v.Below r x) (hs : v.Step r x y) : v.Below r y := by
  obtain ⟨hd, name, z, name', c, hn, hc, he, hf⟩ := hs
  exact ((h.crossed ht hm hu hd hc hn).2.2 c he).follows hm hf

theorem Below.reaches (ht : v.Tree) (hm : v.Mounts) (hu : v.Uncovered r) (h : v.Below r x) (hs : v.Reaches r x y) :
    v.Below r y := by
  induction hs with
  | refl => exact h
  | tail _ hs ih => exact ih.step ht hm hu hs

end View

end Linux011.Fs

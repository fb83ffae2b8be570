/-
  Which inode an entry of `inode_table` holds, while any number of processes call `iget`, `iput`,
  `get_empty_inode` and `sync_inodes`: the steps of inode.c with their sleeps, and beside them the
  references that the callers hold and what they have asked `iget` for.

  A caller only puts back what it holds, and may change the bytes and `i_dirt` of an inode it holds;
  super blocks stay as they are, so mounts are those of the start. No link count is 0 when the last
  reference goes, and an inode has fewer than 65535 references (there are 64 tasks and 64 files).
-/
import Linux011.Fs.InodeLocks
import Linux011.Lib.Count

namespace Linux011.Fs.Locks

open Linux011.Lib

variable {ι : Type} [DecidableEq ι]

/-- `want`: what the process has asked `iget` for, if that was its last call. -/
structure Tracked (ι : Type) where
  σ : Sys ι
  held : ι → Fin 32 → ℕ
  want : ι → Option (ℕ × ℕ)

/-- `(i_dev,i_num)` -/
def Tables.id (t : Tables ι) (i : Fin 32) : ℕ × ℕ := ((t.inode i).dev, (t.inode i).num)

namespace Tracked

variable (τ : Tracked ι)

/-- The links are there when the last reference goes, and `i_count` does not wrap. -/
def PlaceFits (t : Tables ι) : Place → Prop
  | .iput i => (t.inode i).dev ≠ 0 → 1 < (t.inode i).count ∨ (t.inode i).nlinks ≠ 0
  | .iputAgain i => 1 < (t.inode i).count ∨ (t.inode i).nlinks ≠ 0
  | .igetWait _ _ _ i => (t.inode i).count < 65535
  | _ => True

/-- An edit that leaves the entry what it is. -/
def Keeps (x y : Inode) : Prop := y.dev = x.dev ∧ y.num = x.num ∧ y.count = x.count ∧ y.pipe = x.pipe

def Allows : Event ι → Prop
  | .call (.iput i) => τ.held τ.σ.cur i ≠ 0
  | .edit i x => τ.held τ.σ.cur i ≠ 0 ∧ Keeps (τ.σ.t.inode i) x
  | .editSuper _ _ => False
  | .place => ∀ q st, τ.σ.stack τ.σ.cur = ⟨[], q⟩ :: st → PlaceFits τ.σ.t q
  | _ => True

/-- The running process gets a reference to `i`, or gives one up. -/
def take (i : Fin 32) : ι → Fin 32 → ℕ :=
  Function.update τ.held τ.σ.cur (Function.update (τ.held τ.σ.cur) i (τ.held τ.σ.cur i + 1))

def give (i : Fin 32) : ι → Fin 32 → ℕ :=
  Function.update τ.held τ.σ.cur (Function.update (τ.held τ.σ.cur) i (τ.held τ.σ.cur i - 1))

def heldAfter : Event ι → ι → Fin 32 → ℕ
  | .call (.iput i) => τ.give i
  | .place => match τ.σ.stack τ.σ.cur with
    | ⟨[], .ret i⟩ :: ⟨_, .other⟩ :: _ => τ.take i
    | _ => τ.held
  | _ => τ.held

def wantAfter : Event ι → ι → Option (ℕ × ℕ)
  | .call (.iget dev nr) => Function.update τ.want τ.σ.cur (some (dev, nr))
  | .call _ => Function.update τ.want τ.σ.cur none
  | _ => τ.want

structure Step (τ : Tracked ι) (e : Event ι) (τ' : Tracked ι) : Prop where
  allows : τ.Allows e
  step : Sys.Step τ.σ e τ'.σ
  held : τ'.held = τ.heldAfter e
  want : τ'.want = τ.wantAfter e

end Tracked

/-! ## References -/

def Place.refs (i : Fin 32) : Place → ℕ
  | .igetLoop j _ _ _ | .igetWait j _ _ _ | .igetMounted j _ | .igetEnd j | .iput j | .iputAgain j | .ret j =>
    if j = i then 1 else 0
  | _ => 0

def stackRefs (i : Fin 32) : List Seg → ℕ
  | [] => 0
  | s :: st => s.place.refs i + stackRefs i st

/-- The mount points. -/
def Tables.mounts (t : Tables ι) (i : Fin 32) : ℕ := ∑ k, if (t.super k).imount = some i then 1 else 0

/-- The references to entry `i`: of callers, of calls under way, and of super blocks. -/
def Tracked.refs [Fintype ι] (τ : Tracked ι) (i : Fin 32) : ℕ :=
  ∑ p, (τ.held p i + stackRefs i (τ.σ.stack p)) + τ.σ.t.mounts i

/-- No two entries hold one inode. -/
def Tables.Unique (t : Tables ι) : Prop := ∀ i j, (t.inode i).dev ≠ 0 → t.id i = t.id j → i = j

/-- A mount point is in use and not a root (`sys_mount`), and the device on it is one. -/
def Tables.MountsOk (t : Tables ι) : Prop := ∀ k i, (t.super k).imount = some i →
  (t.inode i).dev ≠ 0 ∧ (t.inode i).num ≠ 1 ∧ (t.super k).dev ≠ 0

/-- A table with mounts and with references that callers hold, before any call. -/
structure Tracked.Initial [Fintype ι] (τ : Tracked ι) : Prop where
  stack : ∀ p, τ.σ.stack p = [⟨[.work []], .other⟩]
  lock : ∀ i, τ.σ.t.lock i = none
  counts : ∀ i, τ.refs i ≤ (τ.σ.t.inode i).count ∧ (τ.σ.t.inode i).count < 65536
  unique : τ.σ.t.Unique
  pipe : ∀ i, (τ.σ.t.inode i).pipe = false
  mounts : τ.σ.t.MountsOk

def idSystem (ι : Type) [DecidableEq ι] [Fintype ι] : Lts (Tracked ι) (Event ι) where
  init τ := τ.Initial
  step := Tracked.Step

/-- `y`, or the root of the file system mounted on it. -/
def Tables.Follows (t : Tables ι) (y x : ℕ × ℕ) : Prop :=
  x = y ∨ ∃ k i, (t.super k).imount = some i ∧ t.id i = y ∧ x = ((t.super k).dev, 1)

end Linux011.Fs.Locks

/-
  References to inodes and open files. `Acct h g half s`: every `i_count` is the number of
  pointers to the inode in the tables plus what the running call holds (`h`), every `f_count` the
  number of descriptors plus `g`; the entries in `half` are in use but their `f_inode` is not set
  yet. One lemma for each change of a table entry.
-/
import Linux011.Lib.Count
import Linux011.Fs.TaskCalls
import Mathlib.Algebra.Order.BigOperators.Group.Finset
import Mathlib.Algebra.Module.NatInt
import Mathlib.Tactic.Abel

namespace Linux011.Fs

open Linux011.Lib

/-! ## Counting -/

def ptr (p : Option (Fin 32)) (i : Fin 32) : ℕ := if p = some i then 1 else 0

def fileRefs (half : Finset (Fin 64)) (i : Fin 32) (f : Fin 64) (x : File) : ℕ :=
  if x.count ≠ 0 ∧ f ∉ half then ptr x.inode i else 0

def taskRefs (i : Fin 32) (τ : Task) : ℕ := ptr τ.pwd i + ptr τ.root i + ptr τ.executable i

def superRefs (i : Fin 32) (x : Super) : ℕ := ptr x.isup i + ptr x.imount i

/-- The pointers to inode `i` in the tables. -/
def inodeRefs (s : Kern) (half : Finset (Fin 64)) (i : Fin 32) : ℕ :=
  ∑ f, fileRefs half i f (s.file f) + ∑ t, taskRefs i (s.task t) + ∑ k, superRefs i (s.super k)

def fdRef (f : Fin 64) (p : Option (Fin 64)) : ℕ := if p = some f then 1 else 0

/-- The descriptors of one task that point to file `f`. -/
def taskFds (f : Fin 64) (τ : Task) : ℕ := ∑ fd, fdRef f (τ.filp fd)

def fdRefs (s : Kern) (f : Fin 64) : ℕ := ∑ t, taskFds f (s.task t)

/-- A task without pointers. -/
def Task.Empty (τ : Task) : Prop :=
  τ.filp = (fun _ => .none) ∧ τ.pwd = .none ∧ τ.root = .none ∧ τ.executable = .none

/-- An entry without a device has no pointers, and only the root's entry points to its root. -/
def SuperOk (s : Kern) : Prop := ∀ k,
  ((s.super k).dev = 0 → (s.super k).isup = none ∧ (s.super k).imount = none) ∧
    ((s.super k).isup ≠ none → (s.super k).dev = s.rootDev)

/-- The entries of `file_table` a call has taken and not set up yet, and the descriptors it has
    given them. -/
structure Half where
  files : Finset (Fin 64)
  fds : List (Fin 20 × Fin 64)

def Half.none : Half := ⟨∅, []⟩

structure Acct (h : Fin 32 → ℤ) (g : Fin 64 → ℤ) (half : Half) (s : Kern) : Prop where
  inode : ∀ i, ((s.inode i).count : ℤ) = inodeRefs s half.files i + h i
  word : ∀ i, (s.inode i).count < 65536
  file : ∀ f, ((s.file f).count : ℤ) = fdRefs s f + g f
  idle : ∀ t, (s.task t).state ≠ .live → (s.task t).Empty
  live : s.cur.state = .live
  mounts : SuperOk s
  fds : ∀ p ∈ half.fds, s.cur.filp p.1 = some p.2 ∧ (s.file p.2).count = 1

/-- One reference. -/
def one (i : Fin 32) : Fin 32 → ℤ := fun j => if j = i then 1 else 0

/-- One descriptor. -/
def oneFd (f : Fin 64) : Fin 64 → ℤ := fun j => fdRef j (some f)

@[simp] theorem oneFd_self (f : Fin 64) : oneFd f f = 1 := by simp [oneFd, fdRef]

theorem oneFd_ne {f f' : Fin 64} (h : f' ≠ f) : oneFd f f' = 0 := by simp [oneFd, fdRef, Ne.symm h]

@[simp] theorem one_self (i : Fin 32) : one i i = 1 := if_pos rfl

theorem one_nonneg (i j : Fin 32) : 0 ≤ one i j := by
  unfold one
  split_ifs <;> omega

theorem one_le (i j : Fin 32) : one i j ≤ 1 := by
  unfold one
  split_ifs <;> omega

/-- The call owes nothing, and holds less than any counter could not take. -/
def Mild (n : ℤ) (h : Fin 32 → ℤ) : Prop := ∀ i, 0 ≤ h i ∧ h i ≤ n

theorem Mild.zero {n : ℤ} (hn : 0 ≤ n) : Mild n 0 := fun _ => ⟨Int.le_refl 0, hn⟩

theorem Mild.add {n m : ℤ} {h : Fin 32 → ℤ} (hh : Mild n h) (i : Fin 32) (hm : n + 1 ≤ m) : Mild m (h + one i) := by
  intro j
  have h1 := hh j
  have h2 := one_nonneg i j
  have h3 := one_le i j
  simp only [Pi.add_apply]
  omega

theorem Mild.mono {n m : ℤ} {h : Fin 32 → ℤ} (hh : Mild n h) (hm : n ≤ m) : Mild m h := fun i =>
  ⟨(hh i).1, (hh i).2.trans hm⟩

theorem ptr_le (p : Option (Fin 32)) (i : Fin 32) : ptr p i ≤ 1 := by
  unfold ptr
  split_ifs <;> omega

theorem inodeRefs_le (s : Kern) (half : Finset (Fin 64)) (i : Fin 32) : inodeRefs s half i ≤ 272 := by
  have h1 : ∑ f, fileRefs half i f (s.file f) ≤ ∑ _f : Fin 64, 1 := by
    refine Finset.sum_le_sum fun f _ => ?_
    unfold fileRefs
    have := ptr_le (s.file f).inode i
    split_ifs <;> omega
  have h2 : ∑ t, taskRefs i (s.task t) ≤ ∑ _t : Fin 64, 3 := by
    refine Finset.sum_le_sum fun t _ => ?_
    have h1 := ptr_le (s.task t).pwd i
    have h2 := ptr_le (s.task t).root i
    have h3 := ptr_le (s.task t).executable i
    unfold taskRefs
    omega
  have h3 : ∑ k, superRefs i (s.super k) ≤ ∑ _k : Fin 8, 2 := by
    refine Finset.sum_le_sum fun k _ => ?_
    have h1 := ptr_le (s.super k).isup i
    have h2 := ptr_le (s.super k).imount i
    unfold superRefs
    omega
  simp only [Finset.sum_const, Finset.card_univ, Fintype.card_fin, smul_eq_mul] at h1 h2 h3
  unfold inodeRefs
  omega

theorem fdRefs_le (s : Kern) (f : Fin 64) : fdRefs s f ≤ 1280 := by
  have h1 : fdRefs s f ≤ ∑ _t : Fin 64, 20 := by
    refine Finset.sum_le_sum fun t _ => ?_
    have h2 : taskFds f (s.task t) ≤ ∑ _d : Fin 20, 1 := by
      refine Finset.sum_le_sum fun d _ => ?_
      unfold fdRef
      split_ifs <;> omega
    simpa using h2
  simpa using h1

/-! ## What the counts depend on -/

/-- The two states agree in everything that is counted. -/
structure Core (s s' : Kern) : Prop where
  inode : ∀ i, (s'.inode i).count = (s.inode i).count
  file : ∀ f, (s'.file f).count = (s.file f).count ∧ (s'.file f).inode = (s.file f).inode
  task : ∀ t, s'.task t = s.task t
  super : s'.super = s.super
  current : s'.current = s.current
  rootDev : s'.rootDev = s.rootDev

theorem Core.refl (s : Kern) : Core s s :=
  ⟨fun _ => rfl, fun _ => ⟨rfl, rfl⟩, fun _ => rfl, rfl, rfl, rfl⟩

theorem Core.trans {s s' s'' : Kern} (h : Core s s') (h' : Core s' s'') : Core s s'' where
  inode i := (h'.inode i).trans (h.inode i)
  file f := ⟨(h'.file f).1.trans (h.file f).1, (h'.file f).2.trans (h.file f).2⟩
  task t := (h'.task t).trans (h.task t)
  super := h'.super.trans h.super
  current := h'.current.trans h.current
  rootDev := h'.rootDev.trans h.rootDev

theorem Core.cur {s s' : Kern} (h : Core s s') : s'.cur = s.cur := by
  unfold Kern.cur
  rw [h.task, h.current]

theorem Core.inodeRefs {s s' : Kern} (h : Core s s') (half : Finset (Fin 64)) (i : Fin 32) :
    inodeRefs s' half i = inodeRefs s half i := by
  unfold Fs.inodeRefs fileRefs taskRefs superRefs
  simp only [h.file, h.task, h.super]

theorem Core.fdRefs {s s' : Kern} (h : Core s s') (f : Fin 64) : fdRefs s' f = fdRefs s f := by
  unfold Fs.fdRefs taskFds
  simp only [h.task]

variable {h h' : Fin 32 → ℤ} {g : Fin 64 → ℤ} {half : Half} {s s' : Kern} {i : Fin 32}

theorem Acct.core (ha : Acct h g half s) (hc : Core s s') : Acct h g half s' where
  inode i := by rw [hc.inode, hc.inodeRefs, ha.inode]
  word i := by rw [hc.inode]; exact ha.word i
  file f := by rw [(hc.file f).1, hc.fdRefs, ha.file]
  idle t := by rw [hc.task]; exact ha.idle t
  live := by rw [hc.cur]; exact ha.live
  mounts k := by rw [hc.super, hc.rootDev]; exact ha.mounts k
  fds p hp := by rw [hc.cur, (hc.file p.2).1]; exact ha.fds p hp

theorem core_setInode (s : Kern) (i : Fin 32) {x : MInode} (hx : x.count = (s.inode i).count) :
    Core s (s.setInode i x) := by
  refine ⟨fun j => ?_, fun _ => ⟨rfl, rfl⟩, fun _ => rfl, rfl, rfl, rfl⟩
  by_cases hj : j = i
  · subst hj
    rw [Kern.setInode_self, hx]
  · rw [Kern.setInode_ne _ hj]

theorem inodeRefs_setInode (s : Kern) (i : Fin 32) (x : MInode) (half : Finset (Fin 64)) :
    inodeRefs (s.setInode i x) half = inodeRefs s half := rfl

/-- A new `i_count`. -/
theorem Acct.setInode (ha : Acct h g half s) {x : MInode} (hx : x.count < 65536)
    (hi : (x.count : ℤ) = inodeRefs s half.files i + h' i) (hne : ∀ j, j ≠ i → h' j = h j) :
    Acct h' g half (s.setInode i x) := by
  refine ⟨fun j => ?_, fun j => ?_, fun f => ha.file f, ha.idle, ha.live, ha.mounts, ha.fds⟩
  · rw [inodeRefs_setInode]
    by_cases hj : j = i
    · subst hj
      rw [Kern.setInode_self, hi]
    · rw [Kern.setInode_ne _ hj, ha.inode, hne j hj]
  · by_cases hj : j = i
    · subst hj
      rw [Kern.setInode_self]
      exact hx
    · rw [Kern.setInode_ne _ hj]
      exact ha.word j

/-! ## Pointers -/

/-- The tables with another entry for task `t`. -/
theorem inodeRefs_setTask (s : Kern) (t : Fin 64) (x : Task) (half : Finset (Fin 64)) (i : Fin 32) :
    inodeRefs (s.setTask t x) half i + taskRefs i (s.task t) = inodeRefs s half i + taskRefs i x := by
  have := sum_update s.task (taskRefs i) t x
  unfold inodeRefs Kern.setTask
  dsimp only
  omega

theorem fdRefs_setTask (s : Kern) (t : Fin 64) (x : Task) (f : Fin 64) :
    fdRefs (s.setTask t x) f + taskFds f (s.task t) = fdRefs s f + taskFds f x :=
  sum_update s.task (taskFds f) t x

theorem inodeRefs_setSuper (s : Kern) (k : Fin 8) (x : Super) (half : Finset (Fin 64)) (i : Fin 32) :
    inodeRefs (s.setSuper k x) half i + superRefs i (s.super k) = inodeRefs s half i + superRefs i x := by
  have := sum_update s.super (superRefs i) k x
  unfold inodeRefs Kern.setSuper
  dsimp only
  omega

theorem inodeRefs_setFile (s : Kern) (f : Fin 64) (x : File) {half half' : Finset (Fin 64)}
    (hh : ∀ f', f' ≠ f → (f' ∈ half' ↔ f' ∈ half)) (i : Fin 32) :
    inodeRefs (s.setFile f x) half' i + fileRefs half i f (s.file f) =
      inodeRefs s half i + fileRefs half' i f x := by
  have hg : ∀ f', f' ≠ f → fileRefs half' i f' = fileRefs half i f' := by
    intro f' hf
    unfold fileRefs
    simp only [hh f' hf]
  have := sum_update_at s.file f x hg
  unfold inodeRefs Kern.setFile
  dsimp only
  omega

theorem taskFds_update (f : Fin 64) (τ : Task) (fd : Fin 20) (p : Option (Fin 64)) :
    taskFds f { τ with filp := Function.update τ.filp fd p } + fdRef f (τ.filp fd) =
      taskFds f τ + fdRef f p :=
  sum_update τ.filp (fdRef f) fd p

variable {g' : Fin 64 → ℤ} {half' : Half}

/-- A new entry of `file_table`. -/
theorem Acct.setFile (ha : Acct h g half s) {f : Fin 64} {x : File}
    (hh : ∀ f', f' ≠ f → (f' ∈ half'.files ↔ f' ∈ half.files))
    (hd : half'.fds = [] ∨ half'.fds = half.fds ∧ x.count = (s.file f).count)
    (hi : ∀ i, (fileRefs half'.files i f x : ℤ) + h' i = fileRefs half.files i f (s.file f) + h i)
    (hf : (x.count : ℤ) = fdRefs s f + g' f) (hne : ∀ f', f' ≠ f → g' f' = g f') :
    Acct h' g' half' (s.setFile f x) := by
  refine ⟨fun i => ?_, ha.word, fun f' => ?_, ha.idle, ha.live, ha.mounts, fun p hp => ?_⟩
  · have h1 := inodeRefs_setFile s f x hh i
    have h2 := hi i
    have h3 := ha.inode i
    change ((s.inode i).count : ℤ) = _
    omega
  · change _ = (fdRefs s f' : ℤ) + g' f'
    by_cases hf' : f' = f
    · subst hf'
      rw [Kern.setFile_self, hf]
    · rw [Kern.setFile_ne _ hf', ha.file, hne f' hf']
  · obtain hd | ⟨hd, hx⟩ := hd
    · rw [hd] at hp
      exact nomatch hp
    rw [hd] at hp
    have h1 := ha.fds p hp
    refine ⟨h1.1, ?_⟩
    by_cases hf' : p.2 = f
    · rw [hf', Kern.setFile_self, hx, ← hf']
      exact h1.2
    · rw [Kern.setFile_ne _ hf']
      exact h1.2

/-- New pointers and descriptors of the running task. -/
theorem Acct.setCur (ha : Acct h g half s) {x : Task} (hs : x.state = .live)
    (hd : half.fds = [] ∨ x.filp = s.cur.filp) (hi : ∀ i, (taskRefs i x : ℤ) + h' i = taskRefs i s.cur + h i)
    (hf : ∀ f, (taskFds f x : ℤ) + g' f = taskFds f s.cur + g f) :
    Acct h' g' half (s.setTask s.current x) := by
  have hcur : (s.setTask s.current x).cur = x := Kern.setTask_self ..
  refine ⟨fun i => ?_, ha.word, fun f => ?_, fun t ht => ?_, by rw [hcur]; exact hs, ha.mounts, fun p hp => ?_⟩
  · have h1 := inodeRefs_setTask s s.current x half.files i
    have h2 := hi i
    have h3 := ha.inode i
    unfold Kern.cur at h2
    change ((s.inode i).count : ℤ) = _
    omega
  · have h1 := fdRefs_setTask s s.current x f
    have h2 := hf f
    have h3 := ha.file f
    unfold Kern.cur at h2
    change ((s.file f).count : ℤ) = _
    omega
  · by_cases hc : t = s.current
    · subst hc
      rw [Kern.setTask_self] at ht
      exact absurd hs ht
    · rw [Kern.setTask_ne _ hc] at ht ⊢
      exact ha.idle t ht
  · obtain hd | hd := hd
    · rw [hd] at hp
      exact nomatch hp
    · rw [hcur, hd]
      exact ha.fds p hp

/-- New pointers of a super block. -/
theorem Acct.setSuper (ha : Acct h g half s) {k : Fin 8} {x : Super}
    (hi : ∀ i, (superRefs i x : ℤ) + h' i = superRefs i (s.super k) + h i)
    (hx : (x.dev = 0 → x.isup = none ∧ x.imount = none) ∧ (x.isup ≠ none → x.dev = s.rootDev)) :
    Acct h' g half (s.setSuper k x) := by
  refine ⟨fun i => ?_, ha.word, ha.file, ha.idle, ha.live, fun j => ?_, ha.fds⟩
  · have h1 := inodeRefs_setSuper s k x half.files i
    have h2 := hi i
    have h3 := ha.inode i
    change ((s.inode i).count : ℤ) = _
    omega
  · by_cases hj : j = k
    · subst hj
      rw [Kern.setSuper_self]
      exact hx
    · rw [Kern.setSuper_ne _ hj]
      exact ha.mounts j

end Linux011.Fs

/-
  Who a task is (kernel/sys.c, with fork and execve): real, effective and saved ids, process groups and
  sessions. `ids_confined` is about a family of tasks without privileges, `session_leaders` about the
  tasks that have called setsid.
-/
import Linux011.Lib.Trans
import Mathlib.Logic.Function.Basic
import Mathlib.Data.Set.Defs

namespace Linux011.Kernel.Ids

open Linux011.Lib

def EPERM : ℤ := 1
def ESRCH : ℤ := 3

structure Task where
  uid : UInt16
  euid : UInt16
  suid : UInt16
  gid : UInt16
  egid : UInt16
  sgid : UInt16
  pid : ℤ
  pgrp : ℤ
  session : ℤ
  leader : Bool
  tty : ℤ

namespace Task

variable (t : Task)

def suser : Bool := t.euid = 0

/-- A store into an `unsigned short`. -/
def short (x : ℤ) : UInt16 := UInt16.ofNat (x % 65536).toNat

/-- `sys_setreuid`: the task, and what the call returns. -/
def setreuid (ruid euid : ℤ) : Task × ℤ :=
  let oldRuid := t.uid
  if 0 < ruid ∧ ¬ (t.euid.toNat = ruid ∨ oldRuid.toNat = ruid ∨ t.suser) then (t, -EPERM)
  else
    let t := if 0 < ruid then { t with uid := short ruid } else t
    if 0 < euid then
      if oldRuid.toNat = euid ∨ t.euid.toNat = euid ∨ t.suser then ({ t with euid := short euid }, 0)
      else ({ t with uid := oldRuid }, -EPERM)
    else (t, 0)

def setuid (uid : ℤ) : Task × ℤ := t.setreuid uid uid

def setregid (rgid egid : ℤ) : Task × ℤ :=
  if 0 < rgid ∧ ¬ (t.gid.toNat = rgid ∨ t.suser) then (t, -EPERM)
  else
    let t := if 0 < rgid then { t with gid := short rgid } else t
    if 0 < egid then
      if t.gid.toNat = egid ∨ t.egid.toNat = egid ∨ t.sgid.toNat = egid ∨ t.suser then ({ t with egid := short egid }, 0)
      else (t, -EPERM)
    else (t, 0)

def setgid (gid : ℤ) : Task × ℤ := t.setregid gid gid

def setsid : Task × ℤ :=
  if t.leader ∧ ¬ t.suser then (t, -EPERM)
  else ({ t with leader := true, session := t.pid, pgrp := t.pid, tty := -1 }, t.pid)

/-- The ids that `do_execve` leaves: those of the file when the set-uid and set-gid bits are on. -/
def execve (isuid isgid : Bool) (iUid : UInt16) (iGid : UInt8) : Task :=
  { t with euid := if isuid then iUid else t.euid, egid := if isgid then iGid.toUInt16 else t.egid }

/-- The ids of the task that `copy_process` makes. -/
def child (lastPid : ℤ) : Task := { t with pid := lastPid, leader := false }

end Task

abbrev TaskTable := Fin 64 → Option Task

/-- The loop of `sys_setpgid` from entry `i` on, `n` of them. -/
def findPid (tab : TaskTable) (pid : ℤ) : List (Fin 64) → Option (Fin 64 × Task)
  | [] => none
  | i :: l => match tab i with
    | some t => if t.pid = pid then some (i, t) else findPid tab pid l
    | none => findPid tab pid l

/-- `sys_setpgid` of task `t`. -/
def setpgid (tab : TaskTable) (t : Task) (pid pgid : ℤ) : TaskTable × ℤ :=
  let pid := if pid = 0 then t.pid else pid
  let pgid := if pgid = 0 then t.pid else pgid
  match findPid tab pid (List.finRange 64) with
  | some (i, u) =>
    if u.leader then (tab, -EPERM)
    else if u.session ≠ t.session then (tab, -EPERM)
    else (Function.update tab i (some { u with pgrp := pgid }), 0)
  | none => (tab, -ESRCH)

/-- The tasks; `family` are the members of a family, with all their children. -/
structure Sys where
  task : TaskTable
  family : Fin 64 → Prop

inductive Event
  | setreuid (i : Fin 64) (ruid euid : ℤ)
  | setuid (i : Fin 64) (uid : ℤ)
  | setregid (i : Fin 64) (rgid egid : ℤ)
  | setgid (i : Fin 64) (gid : ℤ)
  | setsid (i : Fin 64)
  | setpgid (i : Fin 64) (pid pgid : ℤ)
  | execve (i : Fin 64) (isuid isgid : Bool) (iUid : UInt16) (iGid : UInt8)
  | fork (i j : Fin 64) (lastPid : ℤ)
  | release (i : Fin 64)

namespace Sys

variable (σ : Sys)

/-- A call of task `i` that changes only its own entry. -/
def own (i : Fin 64) (f : Task → Task) : Option Sys :=
  (σ.task i).map fun t => { σ with task := Function.update σ.task i (some (f t)) }

/-- `copy_process` into the free entry `j`; the child is of the family of its parent. -/
def fork (i j : Fin 64) (lastPid : ℤ) : Option Sys :=
  match σ.task i, σ.task j with
  | some t, none =>
    some { task := Function.update σ.task j (some (t.child lastPid)), family := Function.update σ.family j (σ.family i) }
  | _, _ => none

def release (i : Fin 64) : Sys := { task := Function.update σ.task i none, family := Function.update σ.family i False }

def step : Event → Option Sys
  | .setreuid i r e => σ.own i fun t => (t.setreuid r e).1
  | .setuid i u => σ.own i fun t => (t.setuid u).1
  | .setregid i r e => σ.own i fun t => (t.setregid r e).1
  | .setgid i g => σ.own i fun t => (t.setgid g).1
  | .setsid i => σ.own i fun t => t.setsid.1
  | .setpgid i pid pgid => (σ.task i).map fun t => { σ with task := (setpgid σ.task t pid pgid).1 }
  | .execve i su sg u g => σ.own i fun t => t.execve su sg u g
  | .fork i j pid => σ.fork i j pid
  | .release i => some (σ.release i)

end Sys

/-- From any tasks and any family of them. -/
def idSystem (start : Sys) : Lts Sys Event where
  init σ := σ = start
  step σ e σ' := σ.step e = some σ'

/-- The ids are of these users and groups. -/
structure Confined (U G : Set UInt16) (t : Task) : Prop where
  uid : t.uid ∈ U
  euid : t.euid ∈ U
  gid : t.gid ∈ G
  egid : t.egid ∈ G
  sgid : t.sgid ∈ G

/-- The family executes set-uid files of these users only, and set-gid files of these groups. -/
def Clean (U G : Set UInt16) (σ : Sys) : Event → Prop
  | .execve i isuid isgid iUid iGid => σ.family i → (isuid = true → iUid ∈ U) ∧ (isgid = true → iGid.toUInt16 ∈ G)
  | _ => True

/-- A leader leads its session and its process group. -/
def Task.Leads (t : Task) : Prop := t.leader = true → t.session = t.pid ∧ t.pgrp = t.pid

section

variable {σ σ' : Sys} {i : Fin 64} {U G : Set UInt16} {t : Task}

/-- What holds of every task and is kept by the change holds afterwards. -/
theorem own_forall {f : Task → Task} {P : Fin 64 → Task → Prop} (h : σ.own i f = some σ') (hP : ∀ j t, σ.task j = some t → P j t)
    (hf : ∀ t, P i t → P i (f t)) : σ'.family = σ.family ∧ ∀ j t, σ'.task j = some t → P j t := by
  obtain ⟨t, ht, rfl⟩ := Option.map_eq_some_iff.mp h
  refine ⟨rfl, fun j u hu => ?_⟩
  dsimp only at hu
  by_cases hj : j = i
  · rw [hj, Function.update_self] at hu
    cases hu
    rw [hj]
    exact hf t (hP i t ht)
  · rw [Function.update_of_ne hj] at hu
    exact hP j u hu

theorem findPid_some {tab : TaskTable} {pid : ℤ} {l : List (Fin 64)} {x : Fin 64 × Task} (h : findPid tab pid l = some x) :
    tab x.1 = some x.2 := by
  induction l with
  | nil => cases h
  | cons j l ih =>
    unfold findPid at h
    cases ht : tab j with
    | none =>
      rw [ht] at h
      exact ih h
    | some u =>
      rw [ht] at h
      dsimp only at h
      split_ifs at h with hp
      · cases h
        exact ht
      · exact ih h

/-- `sys_setpgid` changes the group of one task, which is no leader, or nothing. -/
theorem setpgid_forall {tab : TaskTable} {pid pgid : ℤ} {P : Fin 64 → Task → Prop} (hP : ∀ j u, tab j = some u → P j u)
    (hg : ∀ j u g, P j u → u.leader = false → P j { u with pgrp := g }) :
    ∀ j u, (setpgid tab t pid pgid).1 j = some u → P j u := by
  intro j u hu
  unfold setpgid at hu
  dsimp only at hu
  generalize (if pid = 0 then t.pid else pid) = p at hu
  generalize (if pgid = 0 then t.pid else pgid) = g at hu
  cases hx : findPid tab p (List.finRange 64) with
  | none =>
    rw [hx] at hu
    exact hP j u hu
  | some x =>
    have hsome := findPid_some hx
    rw [hx] at hu
    dsimp only at hu
    split_ifs at hu with hl hs
    · exact hP j u hu
    · exact hP j u hu
    · dsimp only at hu
      by_cases hj : j = x.1
      · rw [hj, Function.update_self] at hu
        cases hu
        rw [hj]
        exact hg _ _ _ (hP _ _ hsome) (Bool.eq_false_iff.mpr hl)
      · rw [Function.update_of_ne hj] at hu
        exact hP j u hu

/-- An id that the caller has is stored as it is. -/
theorem short_of_eq {x : UInt16} {n : ℤ} (h : (x.toNat : ℤ) = n) : Task.short n = x := by
  have hlt : x.toNat < 65536 := x.toNat_lt
  unfold Task.short
  rw [← h, show (x.toNat : ℤ) % 65536 = x.toNat by omega, Int.toNat_natCast, UInt16.ofNat_toNat]

/-- Without privileges only the real and the effective id can be had. -/
theorem setreuid_ids (t : Task) (r e : ℤ) : ∃ a b, (t.setreuid r e).1 = { t with uid := a, euid := b } ∧
    (t.suser = true ∨ (a = t.uid ∨ a = t.euid) ∧ (b = t.uid ∨ b = t.euid)) := by
  unfold Task.setreuid
  dsimp only
  by_cases h1 : 0 < r ∧ ¬ (t.euid.toNat = r ∨ t.uid.toNat = r ∨ t.suser = true)
  · rw [if_pos h1]
    exact ⟨t.uid, t.euid, rfl, .inr ⟨.inl rfl, .inr rfl⟩⟩
  rw [if_neg h1]
  have hr : ∃ a, (if 0 < r then { t with uid := Task.short r } else t) = { t with uid := a } ∧
      (t.suser = true ∨ a = t.uid ∨ a = t.euid) := by
    split_ifs with hpos
    · refine ⟨_, rfl, ?_⟩
      obtain he | hu | hs := not_not.mp fun h => h1 ⟨hpos, h⟩
      · exact .inr (.inr (short_of_eq he))
      · exact .inr (.inl (short_of_eq hu))
      · exact .inl hs
    · exact ⟨t.uid, rfl, .inr (.inl rfl)⟩
  obtain ⟨a, ha, hor⟩ := hr
  rw [ha]
  have hsame : ({ t with uid := a } : Task).suser = t.suser := rfl
  rw [hsame]
  split_ifs with hpos h2
  · refine ⟨a, _, rfl, ?_⟩
    obtain hu | he | hs := h2
    · exact hor.imp_right fun h => ⟨h, .inl (short_of_eq hu)⟩
    · exact hor.imp_right fun h => ⟨h, .inr (short_of_eq he)⟩
    · exact .inl hs
  · exact ⟨t.uid, t.euid, rfl, .inr ⟨.inl rfl, .inr rfl⟩⟩
  · exact ⟨a, t.euid, rfl, hor.imp_right fun h => ⟨h, .inr rfl⟩⟩

/-- The group has the saved id as well. -/
theorem setregid_ids (t : Task) (r e : ℤ) : ∃ a b, (t.setregid r e).1 = { t with gid := a, egid := b } ∧
    (t.suser = true ∨ a = t.gid ∧ (b = t.gid ∨ b = t.egid ∨ b = t.sgid)) := by
  unfold Task.setregid
  dsimp only
  by_cases h1 : 0 < r ∧ ¬ (t.gid.toNat = r ∨ t.suser = true)
  · rw [if_pos h1]
    exact ⟨t.gid, t.egid, rfl, .inr ⟨rfl, .inr (.inl rfl)⟩⟩
  rw [if_neg h1]
  have hr : ∃ a, (if 0 < r then { t with gid := Task.short r } else t) = { t with gid := a } ∧ (t.suser = true ∨ a = t.gid) := by
    split_ifs with hpos
    · refine ⟨_, rfl, ?_⟩
      obtain hg | hs := not_not.mp fun h => h1 ⟨hpos, h⟩
      · exact .inr (short_of_eq hg)
      · exact .inl hs
    · exact ⟨t.gid, rfl, .inr rfl⟩
  obtain ⟨a, ha, hor⟩ := hr
  rw [ha]
  have hsame : ({ t with gid := a } : Task).suser = t.suser := rfl
  rw [hsame]
  split_ifs with hpos h2
  · refine ⟨a, _, rfl, ?_⟩
    dsimp only at h2
    obtain hg | he | hsg | hs := h2
    · exact hor.imp_right fun h => ⟨h, .inl ((short_of_eq hg).trans h)⟩
    · exact hor.imp_right fun h => ⟨h, .inr (.inl (short_of_eq he))⟩
    · exact hor.imp_right fun h => ⟨h, .inr (.inr (short_of_eq hsg))⟩
    · exact .inl hs
  · exact ⟨a, t.egid, rfl, hor.imp_right fun h => ⟨h, .inr (.inl rfl)⟩⟩
  · exact ⟨a, t.egid, rfl, hor.imp_right fun h => ⟨h, .inr (.inl rfl)⟩⟩

theorem Confined.suser (hc : Confined U G t) (h0 : (0 : UInt16) ∉ U) : ¬ t.suser = true := fun h => by
  have he : t.euid = 0 := of_decide_eq_true h
  exact h0 (he ▸ hc.euid)

theorem Confined.setreuid (hc : Confined U G t) (h0 : (0 : UInt16) ∉ U) (r e : ℤ) : Confined U G (t.setreuid r e).1 := by
  obtain ⟨a, b, heq, hor⟩ := setreuid_ids t r e
  obtain ⟨ha, hb⟩ := hor.resolve_left (hc.suser h0)
  rw [heq]
  exact ⟨ha.elim (· ▸ hc.uid) (· ▸ hc.euid), hb.elim (· ▸ hc.uid) (· ▸ hc.euid), hc.gid, hc.egid, hc.sgid⟩

theorem Confined.setregid (hc : Confined U G t) (h0 : (0 : UInt16) ∉ U) (r e : ℤ) : Confined U G (t.setregid r e).1 := by
  obtain ⟨a, b, heq, hor⟩ := setregid_ids t r e
  obtain ⟨ha, hb⟩ := hor.resolve_left (hc.suser h0)
  rw [heq]
  refine ⟨hc.uid, hc.euid, ha ▸ hc.gid, ?_, hc.sgid⟩
  obtain rfl | rfl | rfl := hb
  · exact hc.gid
  · exact hc.egid
  · exact hc.sgid

theorem Confined.setsid (hc : Confined U G t) : Confined U G t.setsid.1 := by
  unfold Task.setsid
  split_ifs
  · exact hc
  · exact ⟨hc.uid, hc.euid, hc.gid, hc.egid, hc.sgid⟩

theorem Task.Leads.setsid (h : t.Leads) : t.setsid.1.Leads := by
  unfold Task.setsid
  split_ifs
  · exact h
  · exact fun _ => ⟨rfl, rfl⟩

/-- The entry of a new task. -/
theorem fork_forall {P : Prop → Fin 64 → Task → Prop} {i j : Fin 64} {pid : ℤ} (h : σ.fork i j pid = some σ')
    (hP : ∀ k t, σ.task k = some t → P (σ.family k) k t) (hc : ∀ t, P (σ.family i) i t → P (σ.family i) j (t.child pid)) :
    ∀ k t, σ'.task k = some t → P (σ'.family k) k t := by
  unfold Sys.fork at h
  split at h
  · rename_i t ht _
    cases h
    intro k u hu
    dsimp only at hu ⊢
    by_cases hk : k = j
    · rw [hk, Function.update_self] at hu
      cases hu
      rw [hk, Function.update_self]
      exact hc t (hP i t ht)
    · rw [Function.update_of_ne hk] at hu ⊢
      exact hP k u hu
  · cases h

theorem release_forall {P : Prop → Fin 64 → Task → Prop} {i : Fin 64} (hP : ∀ k t, σ.task k = some t → P (σ.family k) k t) :
    ∀ k t, (σ.release i).task k = some t → P ((σ.release i).family k) k t := by
  intro k u hu
  unfold Sys.release at hu ⊢
  dsimp only at hu ⊢
  by_cases hk : k = i
  · rw [hk, Function.update_self] at hu
    cases hu
  · rw [Function.update_of_ne hk] at hu ⊢
    exact hP k u hu

end

variable {start σ : Sys} {U G : Set UInt16}

/-- A family of tasks without privileges keeps to the users and groups it has and to the owners of
    the set-uid and set-gid files it executes. -/
theorem ids_confined (h0 : (0 : UInt16) ∉ U) (hstart : ∀ i t, start.task i = some t → start.family i → Confined U G t)
    (hr : ((idSystem start).restrict (Clean U G)).Reachable σ) : ∀ i t, σ.task i = some t → σ.family i → Confined U G t := by
  refine hr.invariant (I := fun σ => ∀ i t, σ.task i = some t → σ.family i → Confined U G t) (fun s hs => ?_)
    fun s e s' _ hI hs => ?_
  · obtain rfl : s = start := hs
    exact hstart
  obtain ⟨hclean, hs⟩ := hs
  have hown : ∀ {i : Fin 64} {f : Task → Task}, s.own i f = some s' → (s.family i → ∀ t, Confined U G t → Confined U G (f t)) →
      ∀ j t, s'.task j = some t → s'.family j → Confined U G t := fun h hf => by
    obtain ⟨hfam, hall⟩ := own_forall (P := fun j t => s.family j → Confined U G t) h hI fun t ht hi => hf hi t (ht hi)
    rw [hfam]
    exact hall
  cases e with
  | setreuid i r e => exact hown hs fun _ t ht => ht.setreuid h0 r e
  | setuid i u => exact hown hs fun _ t ht => ht.setreuid h0 u u
  | setregid i r e => exact hown hs fun _ t ht => ht.setregid h0 r e
  | setgid i g => exact hown hs fun _ t ht => ht.setregid h0 g g
  | setsid i => exact hown hs fun _ t ht => ht.setsid
  | execve i su sg u g =>
    refine hown hs fun hi t ht => ⟨ht.uid, ?_, ht.gid, ?_, ht.sgid⟩
    · dsimp only [Task.execve]
      split_ifs with hsu
      · exact (hclean hi).1 hsu
      · exact ht.euid
    · dsimp only [Task.execve]
      split_ifs with hsg
      · exact (hclean hi).2 hsg
      · exact ht.egid
  | setpgid i pid pgid =>
    obtain ⟨t, ht, rfl⟩ := Option.map_eq_some_iff.mp hs
    exact setpgid_forall (P := fun j t => s.family j → Confined U G t) hI
      fun j u g hu _ hj => ⟨(hu hj).uid, (hu hj).euid, (hu hj).gid, (hu hj).egid, (hu hj).sgid⟩
  | fork i j pid =>
    exact fork_forall (P := fun q _ t => q → Confined U G t) hs hI
      fun t ht hi => ⟨(ht hi).uid, (ht hi).euid, (ht hi).gid, (ht hi).egid, (ht hi).sgid⟩
  | release i =>
    cases hs
    exact release_forall (P := fun q _ t => q → Confined U G t) hI

/-- A session leader leads its session and its group as long as it lives: no call of any task takes it
    out of them. -/
theorem session_leaders (hstart : ∀ i t, start.task i = some t → t.Leads) (hr : (idSystem start).Reachable σ) :
    ∀ i t, σ.task i = some t → t.Leads := by
  refine hr.invariant (I := fun σ => ∀ i t, σ.task i = some t → t.Leads) (fun s hs => ?_) fun s e s' _ hI hs => ?_
  · obtain rfl : s = start := hs
    exact hstart
  have hown : ∀ {i : Fin 64} {f : Task → Task}, s.own i f = some s' → (∀ t : Task, t.Leads → (f t).Leads) →
      ∀ j t, s'.task j = some t → t.Leads := fun h hf => (own_forall (P := fun _ t => t.Leads) h hI hf).2
  cases e with
  | setreuid i r e =>
    refine hown hs fun t ht => ?_
    obtain ⟨a, b, heq, -⟩ := setreuid_ids t r e
    rw [heq]
    exact ht
  | setuid i u =>
    refine hown hs fun t ht => ?_
    obtain ⟨a, b, heq, -⟩ := setreuid_ids t u u
    rw [Task.setuid, heq]
    exact ht
  | setregid i r e =>
    refine hown hs fun t ht => ?_
    obtain ⟨a, b, heq, -⟩ := setregid_ids t r e
    rw [heq]
    exact ht
  | setgid i g =>
    refine hown hs fun t ht => ?_
    obtain ⟨a, b, heq, -⟩ := setregid_ids t g g
    rw [Task.setgid, heq]
    exact ht
  | setsid i => exact hown hs fun t ht => ht.setsid
  | execve i su sg u g => exact hown hs fun t ht => ht
  | setpgid i pid pgid =>
    obtain ⟨t, ht, rfl⟩ := Option.map_eq_some_iff.mp hs
    exact setpgid_forall (P := fun _ t => t.Leads) hI fun j u g _ hl hl' => absurd (hl.symm.trans hl') Bool.false_ne_true
  | fork i j pid =>
    exact fork_forall (P := fun _ _ t => t.Leads) hs hI fun t _ hl => absurd hl Bool.false_ne_true
  | release i =>
    cases hs
    exact release_forall (P := fun _ _ t => t.Leads) hI

/-- One task of user 5 and group 5. -/
def single : Sys where
  task := Function.update (fun _ => none) 1 (some ⟨5, 5, 0, 5, 5, 0, 2, 1, 1, false, 0⟩)
  family i := i = 1

theorem single_task {i : Fin 64} {t : Task} (h : single.task i = some t) : t = ⟨5, 5, 0, 5, 5, 0, 2, 1, 1, false, 0⟩ := by
  unfold single at h
  dsimp only at h
  by_cases hi : i = 1
  · rw [hi, Function.update_self] at h
    exact (Option.some.inj h).symm
  · rw [Function.update_of_ne hi] at h
    cases h

theorem ids_confined_single : ∃ σ, single.step (.setreuid 1 7 7) = some σ ∧ ∀ i t, σ.task i = some t → σ.family i →
    Confined {5} {0, 5} t := by
  have hs : single.step (.setreuid 1 7 7) = some { single with
      task := Function.update single.task 1 (some ⟨5, 5, 0, 5, 5, 0, 2, 1, 1, false, 0⟩) } := rfl
  have hclean : Clean {5} {0, 5} single (.setreuid 1 7 7) := trivial
  have h0 : (0 : UInt16) ≠ 5 := by decide
  refine ⟨_, hs, ids_confined h0 (fun i t ht _ => ?_) ((Lts.Reachable.init rfl).step ⟨hclean, hs⟩)⟩
  rw [single_task ht]
  exact ⟨rfl, rfl, .inr rfl, .inr rfl, .inl rfl⟩

theorem session_leaders_single : ∃ σ, single.step (.setsid 1) = some σ ∧ ∀ i t, σ.task i = some t → t.Leads := by
  have hs : single.step (.setsid 1) = some { single with
      task := Function.update single.task 1 (some ⟨5, 5, 0, 5, 5, 0, 2, 2, 2, true, -1⟩) } := rfl
  have hr : (idSystem single).Reachable _ := (Lts.Reachable.init rfl).step hs
  refine ⟨_, hs, session_leaders (fun i t ht => ?_) hr⟩
  rw [single_task ht]
  exact fun h => absurd h Bool.false_ne_true

end Linux011.Kernel.Ids

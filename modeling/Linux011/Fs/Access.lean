/-
  `sys_access` (fs/open.c) beside `permission` (fs/namei.c). Both choose among the bits for the
  owner, the group and the others, but access takes the owner's bits for the group.
-/
import Linux011.Fs.WriteAccess

namespace Linux011.Fs

open Linux011.Lib

/-- The tests of `sys_access`; `mode` are the bits of the inode under the mask 0777, `x` is the
    inode after `iput`. -/
def mayAccess (uid gid mode : ℕ) (x : MInode) (mask : ℕ) : Bool :=
  let res := if uid = x.uid then mode >>> 6 else if gid = x.gid then mode >>> 6 else mode
  res &&& 7 &&& mask = mask || uid = 0 && (mask &&& 1 = 0 || mode &&& 0o111 ≠ 0)

/-- `uid` and `gid` are the real ids of the task. -/
def sysAccess (uid gid : ℕ) (path : List UInt8) (mask : ℕ) : K ℤ := do
  match ← namei path with
  | none => return -eACCES
  | some i =>
    let s ← Prog.get
    let mode := (s.inode i).mode &&& 0o777
    iput (some i)
    let s ← Prog.get
    return if mayAccess uid gid mode (s.inode i) (mask &&& 7) then 0 else -eACCES

/-- `permission` lets nobody use such an inode. -/
def MInode.Deleted (x : MInode) : Prop := x.dev ≠ 0 ∧ x.nlinks = 0

instance (x : MInode) : Decidable x.Deleted := inferInstanceAs (Decidable (_ ∧ _))

/-! ## The owner after iput -/

variable {s s' : Kern} {i : Fin 32}

/-- The inode has the same owner and group. -/
def HasOwner (uid gid : ℕ) (i : Fin 32) (s : Kern) : Prop := (s.inode i).uid = uid ∧ (s.inode i).gid = gid

theorem modInode_owned {uid gid : ℕ} {f : MInode → MInode} (hf : ∀ x, (f x).uid = x.uid ∧ (f x).gid = x.gid) :
    Spec (fun _ => True) (fun _ => True) (HasOwner uid gid i) (modInode i f) fun _ => HasOwner uid gid i := by
  refine Spec.modify fun s hs => ?_
  unfold HasOwner
  rw [Kern.setInode_self]
  exact ⟨(hf _).1.trans hs.1, (hf _).2.trans hs.2⟩

theorem writeInode_owned {uid gid : ℕ} :
    Spec (fun _ => True) (fun _ => True) (HasOwner uid gid i) (writeInode i) fun _ => HasOwner uid gid i := by
  refine Spec.get fun s _ => Spec.ite (fun _ => Spec.pure fun _ hs => hs) fun _ => ?_
  refine Spec.bind (M := fun _ => HasOwner uid gid i) (Spec.get fun _ _ => Spec.pure fun _ hs => hs) fun k => ?_
  cases k with
  | none => exact Spec.halt trivial
  | some k => exact Spec.bind (M := fun _ => HasOwner uid gid i) (Spec.modify fun _ hs => hs) fun _ => modInode_owned fun _ => ⟨rfl, rfl⟩

theorem iput_owned (hx : ¬ (s.inode i).Deleted) (h : iput (some i) s = .ok () s') :
    (s'.inode i).uid = (s.inode i).uid ∧ (s'.inode i).gid = (s.inode i).gid := by
  have hdec : Spec (fun _ => True) (fun _ => True) (HasOwner (s.inode i).uid (s.inode i).gid i) (decCount i) fun _ =>
      HasOwner (s.inode i).uid (s.inode i).gid i := modInode_owned fun _ => ⟨rfl, rfl⟩
  have hput : Spec (fun _ => True) (fun _ => True) (fun s' => s' = s) (iput (some i)) fun _ =>
      HasOwner (s.inode i).uid (s.inode i).gid i := by
    refine Spec.get_bind fun s₁ h₁ => ?_
    subst h₁
    refine Spec.pre (P := HasOwner (s₁.inode i).uid (s₁.inode i).gid i) ?_ fun s' h => h ▸ ⟨rfl, rfl⟩
    refine Spec.ite (fun _ => Spec.halt trivial) fun _ => Spec.ite (fun _ => ?_) fun _ => ?_
    · exact Spec.ite (fun _ => modInode_owned fun _ => ⟨rfl, rfl⟩) fun _ => hdec
    refine Spec.ite (fun _ => hdec) fun hdev => Spec.ite (fun _ => hdec) fun _ => ?_
    refine Spec.ite (fun hn => absurd ⟨hdev, hn⟩ hx) fun _ => Spec.ite (fun _ => ?_) fun _ => hdec
    exact writeInode_owned.bind fun _ => hdec
  exact hput.at_ok rfl h

/-! ## access and permission -/

/-- Of the last three bits every one in the mask is set. -/
def Grants (mode mask : ℕ) : Prop := mode &&& 7 &&& mask = mask

instance (mode mask : ℕ) : Decidable (Grants mode mask) := inferInstanceAs (Decidable (_ = _))

theorem permission_grants {τ : Task} {x : MInode} (hx : ¬ x.Deleted) (h0 : τ.euid ≠ 0) (mask : ℕ) :
    permission τ x (mask &&& 7) = true ↔
      Grants (if τ.euid = x.uid then x.mode >>> 6 else if τ.egid = x.gid then x.mode >>> 3 else x.mode) (mask &&& 7) := by
  have hand : ∀ mode : ℕ, mode &&& (mask &&& 7) &&& 7 = mode &&& 7 &&& (mask &&& 7) := fun mode => by
    rw [Nat.and_assoc, Nat.and_comm (mask &&& 7) 7, ← Nat.and_assoc]
  unfold permission
  rw [if_neg (show ¬ (x.dev ≠ 0 ∧ x.nlinks = 0) from hx)]
  simp [Grants, suser, h0, hand]

theorem access_grants {uid gid : ℕ} {x y : MInode} (h0 : uid ≠ 0) (hu : y.uid = x.uid) (hg : y.gid = x.gid) (mask : ℕ) :
    mayAccess uid gid (x.mode &&& 0o777) y mask = true ↔
      Grants (if uid = x.uid then x.mode >>> 6 else if gid = x.gid then x.mode >>> 6 else x.mode) mask := by
  have h6 : (x.mode &&& 0o777) >>> 6 &&& 7 = x.mode >>> 6 &&& 7 := by
    rw [Nat.shiftRight_and_distrib, Nat.and_assoc]
    rfl
  have h7 : x.mode &&& 0o777 &&& 7 = x.mode &&& 7 := by
    rw [Nat.and_assoc]
    rfl
  unfold mayAccess
  rw [hu, hg]
  split_ifs
  · simp [Grants, h0, h6]
  · simp [Grants, h0, h6]
  · simp [Grants, h0, h7]

/-- access says what permission says exactly if the task is the owner, or not of the group, or the
    owner's bits and the group's bits are of one mind. -/
theorem access_agrees {s s₁ s₂ : Kern} {path : List UInt8} {i : Fin 32} {mask uid gid : ℕ} {r : ℤ}
    (hname : namei path s = .ok (some i) s₁) (hrun : sysAccess uid gid path mask s = .ok r s₂)
    (hx : ¬ (s₁.inode i).Deleted) (huid : s₁.cur.euid = uid) (hgid : s₁.cur.egid = gid) (h0 : uid ≠ 0) :
    (r = 0 ↔ permission s₁.cur (s₁.inode i) (mask &&& 7) = true) ↔
      uid = (s₁.inode i).uid ∨ gid ≠ (s₁.inode i).gid ∨
        (Grants ((s₁.inode i).mode >>> 6) (mask &&& 7) ↔ Grants ((s₁.inode i).mode >>> 3) (mask &&& 7)) := by
  unfold sysAccess at hrun
  rw [Prog.bind_run hname] at hrun
  obtain ⟨_, _, hget, hrun⟩ := Prog.bind_ok hrun
  cases hget
  obtain ⟨_, s', hput, hrun⟩ := Prog.bind_ok hrun
  obtain ⟨hu, hg⟩ := iput_owned hx hput
  have hr : r = 0 ↔ mayAccess uid gid ((s₁.inode i).mode &&& 0o777) (s'.inode i) (mask &&& 7) = true := by
    cases hrun
    split_ifs with h
    · exact iff_of_true rfl h
    · exact iff_of_false (by decide) h
  rw [hr, access_grants h0 hu hg, permission_grants hx (huid ▸ h0), huid, hgid]
  by_cases howner : uid = (s₁.inode i).uid
  · rw [if_pos howner, if_pos howner]
    exact iff_of_true Iff.rfl (.inl howner)
  rw [if_neg howner, if_neg howner]
  by_cases hgroup : gid = (s₁.inode i).gid
  · rw [if_pos hgroup, if_pos hgroup]
    simp [howner, hgroup]
  · rw [if_neg hgroup, if_neg hgroup]
    exact iff_of_true Iff.rfl (.inr (.inl hgroup))

/-- `fileKern` with the file `f` in the group of the task. -/
def groupKern (mode : ℕ) : Kern :=
  { fileKern mode 0 with
    disk := fun d => { (fileKern mode 0).disk d with
      inode := fun n => if n = 2 then ⟨mode, 0, 0, 1, 1, fun _ => 30⟩ else MInode.zero.toDInode } }

/-- access and `namei` for the file `f`, to read it. -/
def tryAccess (mode : ℕ) (P : Kern → MInode → ℤ → Bool) : Bool :=
  match namei [102] (groupKern mode), sysAccess 1 1 [102] 4 (groupKern mode) with
  | .ok (some i) s, .ok r _ => P s (s.inode i) r
  | _, _ => false

theorem tryAccess_runs (mode : ℕ) (P : Kern → MInode → ℤ → Bool) (h : tryAccess mode P = true) :
    ∃ i s₁ r s₂, namei [102] (groupKern mode) = .ok (some i) s₁ ∧
      sysAccess 1 1 [102] 4 (groupKern mode) = .ok r s₂ ∧ P s₁ (s₁.inode i) r = true := by
  unfold tryAccess at h
  split at h
  · rename_i i s r s' h1 h2
    exact ⟨i, s, r, s', h1, h2, h⟩
  · cases h

/-- Owner and group may read the file. -/
theorem access_agrees_both : ∃ i s₁ r s₂, namei [102] (groupKern 0o100440) = .ok (some i) s₁ ∧
    sysAccess 1 1 [102] 4 (groupKern 0o100440) = .ok r s₂ ∧
      (r = 0 ↔ permission s₁.cur (s₁.inode i) (4 &&& 7) = true) := by
  obtain ⟨i, s₁, r, s₂, h1, h2, h⟩ := tryAccess_runs 0o100440 (fun s x _ =>
    ! decide x.Deleted && (s.cur.euid = 1 && (s.cur.egid = 1 && x.mode = 0o100440))) (by decide)
  simp only [Bool.and_eq_true, Bool.not_eq_true', decide_eq_false_iff_not, decide_eq_true_eq] at h
  obtain ⟨hx, hu, hg, hm⟩ := h
  exact ⟨i, s₁, r, s₂, h1, h2, (access_agrees h1 h2 hx hu hg (by decide)).mpr (.inr (.inr (by rw [hm]; decide)))⟩

/-- Only the group may read the file: `permission` grants it, access does not. -/
theorem access_denied : ∃ i s₁ r s₂, namei [102] (groupKern 0o100040) = .ok (some i) s₁ ∧
    sysAccess 1 1 [102] 4 (groupKern 0o100040) = .ok r s₂ ∧ s₁.cur.euid = 1 ∧ s₁.cur.egid = 1 ∧
      ¬ (s₁.inode i).Deleted ∧ r ≠ 0 ∧ permission s₁.cur (s₁.inode i) (4 &&& 7) = true := by
  obtain ⟨i, s₁, r, s₂, h1, h2, h⟩ := tryAccess_runs 0o100040 (fun s x r => decide
    (s.cur.euid = 1 ∧ s.cur.egid = 1 ∧ ¬ x.Deleted ∧ r ≠ 0 ∧ permission s.cur x (4 &&& 7) = true)) (by decide)
  exact ⟨i, s₁, r, s₂, h1, h2, of_decide_eq_true h⟩

end Linux011.Fs

/-
  The access mode of an open file. open_namei asks for permission, sys_open keeps the flags in
  `file_table`, and sys_write does not look at them. A session is a task that opens, duplicates,
  changes and writes; for each entry of `file_table` it also has the open that set it up last.
-/
import Linux011.Lib.Trans
import Linux011.Fs.Tabled

namespace Linux011.Fs

open Linux011.Lib

/-! ## What open_namei allows -/

/-- The search of `open_namei`: the inode under the name, or nothing if there is no such entry. -/
def lookUp (path : List UInt8) : K (Option (Fin 32)) := do
  match ← dirNamei path with
  | none => return none
  | some (dir, name) =>
    if name.length = 0 then return some dir
    else match ← findEntry dir name with
      | (_, none) => return none
      | (dir, some e) =>
        let s ← Prog.get
        let d := (s.inode dir).dev
        let nr ← entryInode d e
        brelse d e.block
        iput (some dir)
        let i ← iget d nr
        return some i

/-- A successful open: its path and flags, and the state in which it called `open_namei`. -/
structure Opening where
  path : List UInt8
  flag : ℕ
  start : Kern

namespace Opening

variable (o : Opening)

/-- `O_WRONLY` or `O_RDWR` -/
def Asked : Prop := o.flag &&& oACCMODE = 1 ∨ o.flag &&& oACCMODE = 2

/-- The file was there, and could be written. -/
def Permitted : Prop := ∃ i s, lookUp o.path o.start = .ok (some i) s ∧ permission s.cur (s.inode i) mayWrite

/-- There was no entry, and the open succeeded all the same. -/
def Created : Prop := ∃ s, lookUp o.path o.start = .ok none s

end Opening

theorem lookUp_leaves (path : List UInt8) : Leaves (lookUp path) := by
  refine (dirNamei_leaves path).bind fun p => ?_
  obtain _ | ⟨dir, name⟩ := p
  · exact Leaves.pure _
  refine Leaves.ite (Leaves.pure _) ((findEntry_leaves dir name).bind fun r => ?_)
  obtain ⟨dir, _ | e⟩ := r
  · exact Leaves.pure _
  · refine Leaves.get.bind fun s => (entryInode_leaves _ e).bind fun nr => (brelse_leaves _ e.block).bind fun _ => ?_
    exact (iput_leaves (some dir)).bind fun _ => (iget_leaves _ nr).bind fun _ => Leaves.pure _

theorem and_of_has {flag m k : ℕ} (h : has flag m = false) (hk : m &&& k = k) : flag &&& k = 0 := by
  have h0 : flag &&& m = 0 := by simpa [has] using h
  rw [← hk, ← Nat.and_assoc, h0, Nat.zero_and]

/-- The flags `open_namei` goes on with. -/
theorem trunc_flag {flag : ℕ} (h : flag &&& oACCMODE ≠ 0) :
    (if has flag oTRUNC ∧ ¬ has flag oACCMODE then flag ||| oWRONLY else flag) = flag :=
  if_neg fun hc => hc.2 (by simpa [has] using h)

/-- `open_namei` succeeds for writing only on a file it was allowed to write, or makes the file. -/
theorem openNamei_ok {path : List UInt8} {flag mode : ℕ} {s s' : Kern} {i : Fin 32} (hacc : flag &&& oACCMODE ≠ 0)
    (h : openNamei path flag mode s = .ok (.inr i) s') : (∃ s1, lookUp path s = .ok none s1) ∨
      ∃ j s1, lookUp path s = .ok (some j) s1 ∧ permission s1.cur (s1.inode j) (accMode flag) := by
  unfold openNamei at h
  rw [trunc_flag hacc] at h
  unfold lookUp
  obtain ⟨p, s1, h1, h⟩ := Prog.bind_ok h
  rw [Prog.bind_run h1]
  obtain _ | ⟨dir, name⟩ := p
  · cases h
  dsimp only at h ⊢
  by_cases hlen : name.length = 0
  · rw [if_pos hlen] at h
    split_ifs at h with hflag
    · obtain ⟨_, _, _, h⟩ := Prog.bind_ok h
      cases h
    · exact absurd (and_of_has (by simpa using hflag) (by decide)) hacc
  rw [if_neg hlen] at h ⊢
  obtain ⟨⟨dir, r⟩, s2, h2, h⟩ := Prog.bind_ok h
  rw [Prog.bind_run h2]
  cases r with
  | none => exact .inl ⟨s2, rfl⟩
  | some e =>
    obtain ⟨s3, _, h3, h⟩ := Prog.bind_ok h
    cases h3
    obtain ⟨nr, s3, h3, h⟩ := Prog.bind_ok h
    obtain ⟨_, s4, h4, h⟩ := Prog.bind_ok h
    obtain ⟨_, s5, h5, h⟩ := Prog.bind_ok h
    by_cases hexcl : has flag oEXCL
    · change (if has flag oEXCL then (pure (.inl (-eEXIST)) : K (ℤ ⊕ Fin 32)) else _) s5 = _ at h
      rw [if_pos hexcl] at h
      cases h
    change (if has flag oEXCL then (pure (.inl (-eEXIST)) : K (ℤ ⊕ Fin 32)) else _) s5 = _ at h
    rw [if_neg hexcl] at h
    obtain ⟨j, s6, h6, h⟩ := Prog.bind_ok h
    obtain ⟨_, _, h7, h⟩ := Prog.bind_ok h
    cases h7
    have hperm : permission s6.cur (s6.inode j) (accMode flag) := by
      by_contra hp
      rw [if_pos (.inr hp)] at h
      obtain ⟨_, _, _, h⟩ := Prog.bind_ok h
      cases h
    have hrun : (Prog.get >>= fun s => entryInode (s.inode dir).dev e >>= fun nr =>
        brelse (s.inode dir).dev e.block >>= fun _ => iput (some dir) >>= fun _ =>
        iget (s.inode dir).dev nr >>= fun i => pure (some i) : K (Option (Fin 32))) s2 = .ok (some j) s6 := by
      rw [Prog.bind_run (Prog.get_run s2), Prog.bind_run h3, Prog.bind_run h4,
        Prog.bind_run h5, Prog.bind_run h6]
      rfl
    exact .inr ⟨j, s6, hrun, hperm⟩

/-! ## Sessions -/

/-- The state after `sys_open` has taken descriptor `fd` and file `f`. -/
def Kern.taken (s : Kern) (fd : Fin 20) (f : Fin 64) : Kern :=
  let s := s.setTask s.current { s.cur with closeOnExec := Function.update s.cur.closeOnExec fd false }
  let s := s.setTask s.current { s.cur with filp := Function.update s.cur.filp fd (some f) }
  s.setFile f { s.file f with count := ((s.file f).count + 1) % 65536 }

inductive IoCall
  | open (path : List UInt8) (flag mode : ℕ)
  | dup (fd : ℕ)
  | dup2 (oldfd newfd : ℕ)
  | fcntl (fd cmd arg : ℕ)
  | write (fd : ℕ) (buf : List UInt8)

def IoCall.run : IoCall → K ℤ
  | .open path flag mode => sysOpen path flag mode
  | .dup fd => sysDup fd
  | .dup2 oldfd newfd => sysDup2 oldfd newfd
  | .fcntl fd cmd arg => sysFcntl fd cmd arg
  | .write fd buf => sysWrite fd buf

structure Session where
  kern : Kern
  opens : Fin 64 → Option Opening

/-- The opens after a call from `s` that ended in `s'`: an open that left its descriptor in use has
    set up the file. -/
def IoCall.opens (c : IoCall) (s s' : Kern) (opens : Fin 64 → Option Opening) : Fin 64 → Option Opening :=
  match c, freeFd s, freeFile s with
  | .open path flag _, some fd, some f =>
    if s'.cur.filp fd = some f then Function.update opens f (some ⟨path, flag, s.taken fd f⟩) else opens
  | _, _, _ => opens

/-- A call of the task, with what it finds outside the file system. -/
inductive SessionStep : Session → Env × IoCall → Session → Prop
  | call {σ : Session} {env : Env} {c : IoCall} {r : ℤ} {s' : Kern} :
      c.run { σ.kern with env := env } = .ok r s' →
      SessionStep σ (env, c) ⟨s', c.opens { σ.kern with env := env } s' σ.opens⟩

/-- It begins with a task that is not the super user and has no descriptors. -/
def sessionSystem : Lts Session (Env × IoCall) where
  init σ := σ.kern.cur.euid ≠ 0 ∧ (∀ fd, σ.kern.cur.filp fd = none) ∧ ∀ f, σ.opens f = none
  step := SessionStep

/-- A byte of a block or the size of an inode has changed. -/
def Alters (s s' : Kern) : Prop :=
  (∃ d b, (s'.disk d).block b ≠ (s.disk d).block b) ∨ ∃ i, (s'.inode i).size ≠ (s.inode i).size

/-- The call ends in `s'`, or faults there. -/
def EndsIn (o : Out Kern Halted ℤ) (s' : Kern) : Prop := o.state? = some s' ∨ o.fault? = some s'

/-- The descriptor comes from an open that asked for write access and was permitted to write, or
    that created the file. -/
def Session.Entitled (σ : Session) (fd : ℕ) : Prop := ∃ f o, Fs.filp σ.kern fd = some f ∧ σ.opens f = some o ∧
  (o.Asked ∧ o.Permitted ∨ o.Created)

/-- The file of the descriptor is open for writing, or its open created it. -/
def Session.Writable (σ : Session) (fd : ℕ) : Prop := ∃ f, Fs.filp σ.kern fd = some f ∧
  ((σ.kern.file f).flags &&& oACCMODE ≠ 0 ∨ ∃ o, σ.opens f = some o ∧ o.Created)

/-! ## What a call does to the descriptors -/

/-- The task has no new files, and the access modes are what they were. -/
structure Within (s s' : Kern) : Prop where
  euid : s'.cur.euid = s.cur.euid
  filp : ∀ fd f, s'.cur.filp fd = some f → ∃ fd', s.cur.filp fd' = some f
  mode : ∀ f, (s'.file f).flags &&& oACCMODE = (s.file f).flags &&& oACCMODE

namespace Within

variable {s s' s'' : Kern}

theorem refl (s : Kern) : Within s s := ⟨rfl, fun fd _ h => ⟨fd, h⟩, fun _ => rfl⟩

theorem trans (h : Within s s') (h' : Within s' s'') : Within s s'' where
  euid := h'.euid.trans h.euid
  filp fd f hf := by
    obtain ⟨fd', h1⟩ := h'.filp fd f hf
    exact h.filp fd' f h1
  mode f := (h'.mode f).trans (h.mode f)

theorem tabled (h : Tabled s s') : Within s s' := by
  refine ⟨by rw [h.cur], fun fd f hf => ⟨fd, ?_⟩, fun f => by rw [h.file]⟩
  rw [h.cur] at hf
  exact hf

theorem setFile (s : Kern) {f : Fin 64} {x : File} (hx : x.flags &&& oACCMODE = (s.file f).flags &&& oACCMODE) :
    Within s (s.setFile f x) := by
  refine ⟨rfl, fun fd _ h => ⟨fd, h⟩, fun f' => ?_⟩
  by_cases hf : f' = f
  · subst hf
    rw [Kern.setFile_self, hx]
  · rw [Kern.setFile_ne _ hf]

theorem cur_setCur (s : Kern) (τ : Task) : (s.setTask s.current τ).cur = τ := Kern.setTask_self ..

theorem setCur (s : Kern) {τ : Task} (he : τ.euid = s.cur.euid)
    (hf : ∀ fd f, τ.filp fd = some f → ∃ fd', s.cur.filp fd' = some f) : Within s (s.setTask s.current τ) := by
  exact ⟨by rw [cur_setCur, he], by rw [cur_setCur]; exact hf, fun _ => rfl⟩

end Within

/-- The call gives the task no file it did not have. -/
def Confined {α : Type} (m : K α) : Prop :=
  ∀ s₀, Spec (fun _ => True) (fun _ => True) (Within s₀) m fun _ => Within s₀

namespace Confined

variable {α β : Type} {m : K α}

theorem pure (a : α) : Confined (Pure.pure a : K α) := fun _ => Spec.pure fun _ hs => hs

theorem bind {f : α → K β} (hm : Confined m) (hf : ∀ a, Confined (f a)) : Confined (m >>= f) := fun s₀ =>
  (hm s₀).bind fun a => hf a s₀

theorem get {f : Kern → K α} (hf : ∀ s, Confined (f s)) : Confined (Prog.get >>= f) := fun s₀ =>
  Spec.get fun s _ => hf s s₀

theorem ite {c : Prop} [Decidable c] {n : K α} (ht : Confined m) (hf : Confined n) : Confined (if c then m else n) :=
  fun s₀ => Spec.ite (fun _ => ht s₀) fun _ => hf s₀

theorem modify {f : Kern → Kern} (hf : ∀ s, Within s (f s)) : Confined (Prog.modify f) := fun _ =>
  Spec.modify fun s hs => hs.trans (hf s)

theorem leaves (h : Leaves m) : Confined m := by
  intro s₀ s hs
  have h1 := h s s (Tabled.refl s)
  cases he : m s with
  | ok a s' =>
    rw [he] at h1
    exact hs.trans (Within.tabled h1)
  | fault s' => trivial
  | stop e => trivial

theorem ok (h : Confined m) {s s' : Kern} {a : α} (he : m s = .ok a s') : Within s s' := by
  have := h s s (Within.refl s)
  rw [he] at this
  exact this

end Confined

theorem clearOnExec_confined (fd : Fin 20) : Confined (clearOnExec fd) :=
  Confined.modify fun s => Within.setCur s rfl fun fd' _ h => ⟨fd', h⟩

theorem modFile_confined (f : Fin 64) {g : File → File} (hg : ∀ x, (g x).flags &&& oACCMODE = x.flags &&& oACCMODE) :
    Confined (modFile f g) :=
  Confined.modify fun s => Within.setFile s (hg _)

theorem setFCount_confined (f : Fin 64) (n : ℕ) : Confined (setFCount f n) := modFile_confined f fun _ => rfl

theorem incFCount_confined (f : Fin 64) : Confined (incFCount f) := modFile_confined f fun _ => rfl

theorem update_eq_some {filp : Fin 20 → Option (Fin 64)} {k fd : Fin 20} {p : Option (Fin 64)} {f : Fin 64}
    (h : Function.update filp k p fd = some f) : p = some f ∨ filp fd = some f := by
  by_cases hk : fd = k
  · subst hk
    rw [Function.update_self] at h
    exact .inl h
  · rw [Function.update_of_ne hk] at h
    exact .inr h

theorem setFilp_none_confined (fd : Fin 20) : Confined (setFilp fd none) := by
  refine Confined.modify fun s => Within.setCur s rfl fun fd' f h => ⟨fd', ?_⟩
  obtain h1 | h1 := update_eq_some h
  · cases h1
  · exact h1

theorem sysClose_confined (fd : ℕ) : Confined (sysClose fd) := by
  unfold sysClose
  split_ifs with hfd
  · refine (clearOnExec_confined _).bind fun _ => Confined.get fun s => ?_
    cases s.cur.filp ⟨fd, hfd⟩ with
    | none => exact Confined.pure _
    | some f =>
      refine (setFilp_none_confined _).bind fun _ => Confined.get fun s => Confined.ite (Confined.leaves (Leaves.panic _)) ?_
      refine (setFCount_confined f _).bind fun _ => Confined.ite ?_ (Confined.pure _)
      exact (Confined.leaves (iput_leaves _)).bind fun _ => Confined.pure _
  · exact Confined.pure _

theorem filp_eq_some {s : Kern} {fd : ℕ} {f : Fin 64} (h : filp s fd = some f) :
    ∃ fd', fd'.val = fd ∧ s.cur.filp fd' = some f := by
  unfold filp at h
  split_ifs at h with hfd
  exact ⟨⟨fd, hfd⟩, rfl, h⟩

theorem dupfd_confined (fd arg : ℕ) : Confined (dupfd fd arg) := by
  intro s₀
  refine Spec.get_bind fun s hs => ?_
  cases hf : filp s fd with
  | none => exact Spec.pure fun s' h => h ▸ hs
  | some f =>
    refine Spec.ite (fun _ => Spec.pure fun s' h => h ▸ hs) fun _ => ?_
    cases (List.finRange 20).find? fun k => arg ≤ k.val ∧ s.cur.filp k = none with
    | none => exact Spec.pure fun s' h => h ▸ hs
    | some k =>
      obtain ⟨fd', _, hfd⟩ := filp_eq_some hf
      obtain ⟨fd₀, h₀⟩ := hs.filp fd' f hfd
      have hclear : Spec (fun _ => True) (fun _ => True) (fun s' => s' = s) (clearOnExec k) fun _ => Within s₀ :=
        (clearOnExec_confined k s₀).pre fun s' (h : s' = s) => h ▸ hs
      refine hclear.bind fun _ => Spec.bind (M := fun _ => Within s₀) ?_ fun _ =>
        Spec.bind (incFCount_confined f s₀) fun _ => Spec.pure fun _ hs => hs
      refine Spec.modify fun s1 hs1 => ⟨?_, fun fd1 f1 h1 => ?_, hs1.mode⟩
      · rw [Within.cur_setCur]
        exact hs1.euid
      · rw [Within.cur_setCur] at h1
        obtain h2 | h2 := update_eq_some h1
        · exact ⟨fd₀, h₀.trans h2⟩
        · exact hs1.filp fd1 f1 h2

/-- `F_SETFL` changes neither `O_WRONLY` nor `O_RDWR`. -/
theorem setfl_mode (flags arg : ℕ) :
    ((flags &&& (0xffff ^^^ 0o6000)) ||| (arg &&& 0o6000)) &&& oACCMODE = flags &&& oACCMODE := by
  have h1 : (0xffff ^^^ 0o6000) &&& oACCMODE = oACCMODE := by decide
  have h2 : 0o6000 &&& oACCMODE = 0 := by decide
  rw [Nat.and_or_distrib_right, Nat.and_assoc, Nat.and_assoc, h1, h2, Nat.and_zero, Nat.or_zero]

theorem sysFcntl_confined (fd cmd arg : ℕ) : Confined (sysFcntl fd cmd arg) := by
  refine Confined.get fun s => ?_
  cases filp s fd with
  | none => exact Confined.pure _
  | some f =>
    refine Confined.ite (dupfd_confined fd arg) (Confined.ite (Confined.pure _) (Confined.ite ?_ ?_))
    · dsimp only
      split_ifs with hfd
      · refine Confined.bind (Confined.modify fun s => ?_) fun _ => Confined.pure _
        exact Within.setCur s rfl fun fd' _ h => ⟨fd', h⟩
      · exact Confined.pure _
    · refine Confined.ite (Confined.pure _) (Confined.ite ?_ (Confined.pure _))
      exact (modFile_confined f (g := fun x => _) fun x => setfl_mode x.flags arg).bind fun _ => Confined.pure _

theorem sysWrite_confined (fd : ℕ) (buf : List UInt8) : Confined (sysWrite fd buf) := by
  refine Confined.get fun s => ?_
  cases filp s fd with
  | none => exact Confined.pure _
  | some f =>
    refine Confined.ite (Confined.pure _) ?_
    cases (s.file f).inode with
    | none => exact Confined.pure _
    | some i =>
      refine Confined.ite (Confined.get fun s => ?_) (Confined.pure _)
      refine (Confined.leaves (writeLoop_leaves i _ _ buf)).bind fun r => Confined.ite (Confined.pure _) ?_
      exact Confined.bind (modFile_confined f fun _ => rfl) fun _ => Confined.pure _

/-! ## What an open does -/

/-- The task has the same descriptors, and `file_table` is the same. -/
structure SameFds (s s' : Kern) : Prop where
  euid : s'.cur.euid = s.cur.euid
  filp : s'.cur.filp = s.cur.filp
  file : s'.file = s.file

theorem SameFds.trans {s s' s'' : Kern} (h : SameFds s s') (h' : SameFds s' s'') : SameFds s s'' :=
  ⟨h'.euid.trans h.euid, h'.filp.trans h.filp, h'.file.trans h.file⟩

theorem Tabled.sameFds {s s' : Kern} (h : Tabled s s') : SameFds s s' := ⟨by rw [h.cur], by rw [h.cur], h.file⟩

theorem openTty_sameFds {i : Fin 32} {s s' : Kern} {b : Bool} (h : openTty i s = .ok b s') : SameFds s s' := by
  have hset : ∀ tty, SameFds s (s.setTask s.current { s.cur with tty := tty }) := fun tty =>
    ⟨by rw [Within.cur_setCur], by rw [Within.cur_setCur], rfl⟩
  change (if isChr (s.inode i).mode then _ else _ : K Bool) s = _ at h
  by_cases hchr : isChr (s.inode i).mode
  · rw [if_pos hchr] at h
    by_cases hmaj : major ((s.inode i).zone 0) = 4
    · rw [if_pos hmaj] at h
      by_cases hlead : s.cur.leader ∧ s.cur.tty = none
      · rw [if_pos hlead] at h
        cases h
        exact hset _
      · rw [if_neg hlead] at h
        cases h
        exact (Tabled.refl s).sameFds
    · rw [if_neg hmaj] at h
      cases h
      exact (Tabled.refl s).sameFds
  · rw [if_neg hchr] at h
    cases h
    exact (Tabled.refl s).sameFds

variable {s s' : Kern} {fd : Fin 20} {f : Fin 64}

@[simp] theorem taken_filp (s : Kern) (fd : Fin 20) (f : Fin 64) :
    (s.taken fd f).cur.filp = Function.update s.cur.filp fd (some f) := by
  change (Kern.cur (Kern.setTask _ _ _)).filp = _
  rw [Within.cur_setCur, Within.cur_setCur]

@[simp] theorem taken_euid (s : Kern) (fd : Fin 20) (f : Fin 64) : (s.taken fd f).cur.euid = s.cur.euid := by
  change (Kern.cur (Kern.setTask _ _ _)).euid = _
  rw [Within.cur_setCur, Within.cur_setCur]

theorem taken_flags (s : Kern) (fd : Fin 20) (f f' : Fin 64) : ((s.taken fd f).file f').flags = (s.file f').flags := by
  change (Function.update s.file f _ f').flags = _
  by_cases hf : f' = f
  · subst hf
    rw [Function.update_self]
    rfl
  · rw [Function.update_of_ne hf]

/-- A failed open gives descriptor and file back. -/
theorem undoOpen_within {err r : ℤ} {s1 : Kern} (hs : SameFds (s.taken fd f) s1)
    (h : undoOpen fd f err s1 = .ok r s') : Within s s' ∧ s'.cur.filp fd ≠ some f := by
  have hfilp : s'.cur.filp = Function.update s1.cur.filp fd none := by
    cases h
    change ((s1.setTask s1.current _).cur).filp = _
    rw [Within.cur_setCur]
  have hmode : ∀ f', (s'.file f').flags = (s1.file f').flags := by
    cases h
    intro f'
    change (Function.update s1.file f _ f').flags = _
    by_cases hf : f' = f
    · subst hf
      rw [Function.update_self]
      rfl
    · rw [Function.update_of_ne hf]
  refine ⟨⟨?_, fun fd' f' h' => ⟨fd', ?_⟩, fun f' => ?_⟩, by rw [hfilp, Function.update_self]; nofun⟩
  · cases h
    change ((s1.setTask s1.current _).cur).euid = _
    rw [Within.cur_setCur]
    exact hs.euid.trans (taken_euid ..)
  · rw [hfilp, hs.filp, taken_filp, Function.update_idem] at h'
    obtain h' | h' := update_eq_some h'
    · cases h'
    · exact h'
  · rw [hmode, hs.file, taken_flags]

/-- The task has opened `f` on descriptor `fd`. -/
structure Opened (s s' : Kern) (fd : Fin 20) (f : Fin 64) (flag : ℕ) : Prop where
  euid : s'.cur.euid = s.cur.euid
  filp : s'.cur.filp = Function.update s.cur.filp fd (some f)
  flags : (s'.file f).flags = flag
  other : ∀ f', f' ≠ f → (s'.file f').flags = (s.file f').flags

/-- The two ends of `sys_open`. -/
theorem sysOpen_ok {path : List UInt8} {flag mode : ℕ} {r : ℤ} (h : sysOpen path flag mode s = .ok r s') :
    (Within s s' ∧ ∀ fd f, freeFd s = some fd → freeFile s = some f → s'.cur.filp fd ≠ some f) ∨
      ∃ fd f i s1, freeFd s = some fd ∧ freeFile s = some f ∧
        openNamei path flag mode (s.taken fd f) = .ok (.inr i) s1 ∧ Opened s s' fd f flag := by
  unfold sysOpen at h
  rw [Prog.bind_run (Prog.get_run s)] at h
  cases hfd : freeFd s with
  | none =>
    rw [hfd] at h
    cases h
    exact .inl ⟨Within.refl s, fun _ _ he => absurd he.symm (Option.some_ne_none _)⟩
  | some fd =>
    rw [hfd] at h
    obtain ⟨_, s1, h1, h⟩ := Prog.bind_ok h
    cases hf : freeFile s with
    | none =>
      rw [hf] at h
      cases h
      exact .inl ⟨(clearOnExec_confined fd).ok h1, fun _ _ _ he => absurd he.symm (Option.some_ne_none _)⟩
    | some f =>
      rw [hf] at h
      cases h1
      obtain ⟨_, s1, h1, h⟩ := Prog.bind_ok h
      cases h1
      obtain ⟨_, s1, h1, h⟩ := Prog.bind_ok h
      cases h1
      obtain ⟨p, s1, hopen, h⟩ := Prog.bind_ok h
      change openNamei path flag mode (s.taken fd f) = .ok p s1 at hopen
      have hs1 : SameFds (s.taken fd f) s1 := ((openNamei_leaves path flag mode).ok hopen).sameFds
      have hfail : ∀ {err : ℤ} {s2 : Kern}, SameFds s1 s2 → undoOpen fd f err s2 = .ok r s' →
          Within s s' ∧ ∀ fd' f', some fd = some fd' → some f = some f' → s'.cur.filp fd' ≠ some f' := by
        intro err s2 hs2 hundo
        obtain ⟨h1, h2⟩ := undoOpen_within (hs1.trans hs2) hundo
        refine ⟨h1, fun fd' f' he he' => ?_⟩
        cases he
        cases he'
        exact h2
      cases p with
      | inl err => exact .inl (hfail (Tabled.refl s1).sameFds h)
      | inr i =>
        obtain ⟨refused, s2, htty, h⟩ := Prog.bind_ok h
        have hs2 := openTty_sameFds htty
        cases refused with
        | true =>
          obtain ⟨_, s3, hput, h⟩ := Prog.bind_ok h
          exact .inl (hfail (hs2.trans ((iput_leaves _).ok hput).sameFds) h)
        | false =>
          have hend : ∀ {s3 : Kern} {x : File}, SameFds s2 s3 → x.flags = flag →
              (modFile f (fun _ => x) >>= fun _ => pure (fd : ℤ) : K ℤ) s3 = .ok r s' → Opened s s' fd f flag := by
            intro s3 x hs3 hx hrun
            have hs := (hs1.trans hs2).trans hs3
            cases hrun
            refine ⟨hs.euid.trans (taken_euid ..), hs.filp.trans (taken_filp ..), ?_, fun f' hf' => ?_⟩
            · rw [Kern.setFile_self, hx]
            · rw [Kern.setFile_ne _ hf', hs.file, taken_flags]
          refine .inr ⟨fd, f, i, s1, rfl, rfl, hopen, ?_⟩
          obtain ⟨_, _, hget, h⟩ := Prog.bind_ok h
          cases hget
          by_cases hblk : isBlk (s2.inode i).mode
          · change (if isBlk (s2.inode i).mode then _ else _ : K ℤ) s2 = _ at h
            rw [if_pos hblk] at h
            obtain ⟨_, s3, hdisk, h⟩ := Prog.bind_ok h
            exact hend ((checkDiskChange_leaves _).ok hdisk).sameFds rfl h
          · change (if isBlk (s2.inode i).mode then _ else _ : K ℤ) s2 = _ at h
            rw [if_neg hblk] at h
            exact hend (Tabled.refl s2).sameFds rfl h

/-! ## Every session -/

/-- The open that set up the file is one that could write it, if the file is open for writing. -/
structure Opening.Fits (o : Opening) (flags : ℕ) : Prop where
  mode : flags &&& oACCMODE = o.flag &&& oACCMODE
  writes : o.flag &&& oACCMODE ≠ 0 → o.Asked ∧ o.Permitted ∨ o.Created

/-- The files of the task are those of its opens. -/
structure Session.Known (σ : Session) : Prop where
  euid : σ.kern.cur.euid ≠ 0
  opens : ∀ fd f, σ.kern.cur.filp fd = some f → ∃ o, σ.opens f = some o ∧ o.Fits (σ.kern.file f).flags

/-- For anybody but the super user the mode has every bit of the mask. -/
theorem permission_iff {τ : Task} {x : MInode} (hu : τ.euid ≠ 0) (mask : ℕ) : permission τ x mask ↔
    ¬ (x.dev ≠ 0 ∧ x.nlinks = 0) ∧
      (if τ.euid = x.uid then x.mode >>> 6 else if τ.egid = x.gid then x.mode >>> 3 else x.mode) &&& mask &&& 7 = mask := by
  unfold permission
  split_ifs with hlink <;> simp [hlink, suser, hu]

theorem permission_write {τ : Task} {x : MInode} (hu : τ.euid ≠ 0) {mask : ℕ} (hm : mask &&& mayWrite = mayWrite)
    (h : permission τ x mask) : permission τ x mayWrite := by
  rw [permission_iff hu] at h ⊢
  obtain ⟨hlink, hmode⟩ := h
  refine ⟨hlink, ?_⟩
  generalize (if τ.euid = x.uid then x.mode >>> 6 else if τ.egid = x.gid then x.mode >>> 3 else x.mode) = mode at *
  have h7 : 7 &&& mayWrite = mayWrite := by decide
  have h1 : mode &&& mayWrite = mayWrite := calc
    mode &&& mayWrite = mode &&& mask &&& (7 &&& mayWrite) := by rw [h7, Nat.and_assoc, hm]
    _ = mask &&& mayWrite := by rw [← Nat.and_assoc, hmode]
    _ = mayWrite := hm
  rw [h1]
  rfl

theorem Opening.fits {path : List UInt8} {flag mode : ℕ} {s1 : Kern} {i : Fin 32} (hu : s.cur.euid ≠ 0)
    (h : openNamei path flag mode s = .ok (.inr i) s1) : Opening.Fits ⟨path, flag, s⟩ flag := by
  refine ⟨rfl, fun hacc => ?_⟩
  obtain hnew | ⟨j, s2, hlook, hperm⟩ := openNamei_ok hacc h
  · exact .inr hnew
  have hu2 : s2.cur.euid ≠ 0 := by
    rw [((lookUp_leaves path).ok hlook).cur]
    exact hu
  have hlt : flag &&& oACCMODE ≤ 3 := Nat.and_le_right
  have hacc' : flag &&& oACCMODE = 1 ∨ flag &&& oACCMODE = 2 ∨ flag &&& oACCMODE = 3 := by
    dsimp only at hacc
    omega
  unfold accMode at hperm
  obtain h1 | h1 | h1 := hacc'
  · rw [h1] at hperm
    exact .inl ⟨.inl h1, j, s2, hlook, hperm⟩
  · rw [h1] at hperm
    exact .inl ⟨.inr h1, j, s2, hlook, permission_write hu2 (by decide) hperm⟩
  · -- ACC_MODE is -1 here, and no mode has so many bits
    rw [h1] at hperm
    have h2 := ((permission_iff hu2 _).mp hperm).2
    have h3 := h2.symm.trans_le Nat.and_le_right
    exact absurd h3 (by decide)

theorem Session.Known.within {σ : Session} {s' : Kern} (hk : σ.Known) (hw : Within σ.kern s') :
    Session.Known ⟨s', σ.opens⟩ := by
  refine ⟨hw.euid ▸ hk.euid, fun fd f hf => ?_⟩
  obtain ⟨fd', hf'⟩ := hw.filp fd f hf
  obtain ⟨o, ho, hfit⟩ := hk.opens fd' f hf'
  exact ⟨o, ho, (hw.mode f).trans hfit.mode, hfit.writes⟩


theorem Session.Known.opened {σ : Session} {path : List UInt8} {flag mode : ℕ} {s s1 s' : Kern} {fd : Fin 20} {f : Fin 64}
    {i : Fin 32} (hk : σ.Known) (hs : Within σ.kern s) (hopen : openNamei path flag mode (s.taken fd f) = .ok (.inr i) s1)
    (ho : Opened s s' fd f flag) :
    Session.Known ⟨s', Function.update σ.opens f (some ⟨path, flag, s.taken fd f⟩)⟩ := by
  have hu : s.cur.euid ≠ 0 := hs.euid ▸ hk.euid
  refine ⟨ho.euid ▸ hu, fun fd' f' hf' => ?_⟩
  dsimp only at hf' ⊢
  by_cases hff : f' = f
  · subst hff
    rw [Function.update_self, ho.flags]
    exact ⟨_, rfl, Opening.fits (by rwa [taken_euid]) hopen⟩
  · rw [ho.filp] at hf'
    obtain h1 | h1 := update_eq_some hf'
    · exact absurd (Option.some.inj h1).symm hff
    · rw [Function.update_of_ne hff, ho.other f' hff]
      exact (hk.within hs).opens fd' f' h1

theorem IoCall.opens_of_ne {c : IoCall} (hc : ∀ path flag mode, c ≠ .open path flag mode) (s s' : Kern)
    (opens : Fin 64 → Option Opening) : c.opens s s' opens = opens := by
  cases c with
  | «open» path flag mode => exact absurd rfl (hc path flag mode)
  | dup fd => rfl
  | dup2 oldfd newfd => rfl
  | fcntl fd cmd arg => rfl
  | write fd buf => rfl

theorem IoCall.confined {c : IoCall} (hc : ∀ path flag mode, c ≠ .open path flag mode) : Confined c.run := by
  cases c with
  | «open» path flag mode => exact absurd rfl (hc path flag mode)
  | dup fd => exact dupfd_confined fd 0
  | dup2 oldfd newfd => exact (sysClose_confined newfd).bind fun _ => dupfd_confined oldfd newfd
  | fcntl fd cmd arg => exact sysFcntl_confined fd cmd arg
  | write fd buf => exact sysWrite_confined fd buf

theorem Session.Known.step {σ σ' : Session} {e : Env × IoCall} (hk : σ.Known) (h : SessionStep σ e σ') : σ'.Known := by
  cases h with
  | call hrun =>
    rename_i env c r s'
    have henv : Within σ.kern { σ.kern with env := env } := ⟨rfl, fun fd _ h => ⟨fd, h⟩, fun _ => rfl⟩
    by_cases hc : ∃ path flag mode, c = .open path flag mode
    · obtain ⟨path, flag, mode, rfl⟩ := hc
      obtain ⟨hw, hne⟩ | ⟨fd, f, i, s1, hfd, hf, hopen, ho⟩ := sysOpen_ok hrun
      · have hsame : IoCall.opens (.open path flag mode) { σ.kern with env := env } s' σ.opens = σ.opens := by
          unfold IoCall.opens
          split
          · rename_i h1 h2
            exact if_neg (hne _ _ h1 h2)
          · rfl
        rw [hsame]
        exact hk.within (henv.trans hw)
      · have hset : IoCall.opens (.open path flag mode) { σ.kern with env := env } s' σ.opens =
            Function.update σ.opens f (some ⟨path, flag, Kern.taken { σ.kern with env := env } fd f⟩) := by
          unfold IoCall.opens
          rw [hfd, hf]
          exact if_pos (by rw [ho.filp, Function.update_self])
        rw [hset]
        exact hk.opened henv hopen ho
    · have hc : ∀ path flag mode, c ≠ .open path flag mode := fun path flag mode he => hc ⟨path, flag, mode, he⟩
      rw [IoCall.opens_of_ne hc]
      exact hk.within (henv.trans ((IoCall.confined hc).ok hrun))

theorem reachable_known {σ : Session} (hr : sessionSystem.Reachable σ) : σ.Known := by
  refine hr.invariant (fun σ h => ⟨h.1, fun fd f hf => ?_⟩) fun _ _ _ _ hk hstep => hk.step hstep
  rw [h.2.1] at hf
  cases hf

/-- Without a descriptor nothing is written. -/
theorem sysWrite_none {s s' : Kern} {fd : ℕ} {buf : List UInt8} (hfd : filp s fd = none)
    (h : EndsIn (sysWrite fd buf s) s') : s' = s := by
  have hrun : sysWrite fd buf s = (pure (-eINVAL) : K ℤ) s := by
    unfold sysWrite
    refine (Prog.bind_run (Prog.get_run s)).trans ?_
    rw [hfd]
  rw [hrun] at h
  obtain h | h := h
  · cases h
    rfl
  · cases h

/-- A write that changes a file goes through a descriptor of an open that asked for write access
    and was permitted to write, or that created the file, exactly when the file is open for writing
    or its open created it. -/
theorem write_access {σ : Session} (hr : sessionSystem.Reachable σ) {env : Env} {fd : ℕ} {buf : List UInt8} {s' : Kern}
    (hrun : EndsIn (sysWrite fd buf { σ.kern with env := env }) s') (halt : Alters σ.kern s') :
    σ.Entitled fd ↔ σ.Writable fd := by
  have hk := reachable_known hr
  cases hfd : filp σ.kern fd with
  | none =>
    have hs : s' = { σ.kern with env := env } := sysWrite_none hfd hrun
    subst hs
    obtain ⟨d, b, h⟩ | ⟨i, h⟩ := halt
    · exact absurd rfl h
    · exact absurd rfl h
  | some f =>
    obtain ⟨fd', _, hf⟩ := filp_eq_some hfd
    obtain ⟨o, ho, hfit⟩ := hk.opens fd' f hf
    constructor
    · rintro ⟨f1, o1, hf1, ho1, ⟨hask, -⟩ | hnew⟩
      · cases hfd.symm.trans hf1
        cases ho.symm.trans ho1
        refine ⟨f, hfd, .inl ?_⟩
        rw [hfit.mode]
        obtain h1 | h1 := hask <;> omega
      · exact ⟨f1, hf1, .inr ⟨o1, ho1, hnew⟩⟩
    · rintro ⟨f1, hf1, hmode | ⟨o1, ho1, hnew⟩⟩
      · cases hfd.symm.trans hf1
        rw [hfit.mode] at hmode
        exact ⟨f, o, hfd, ho, hfit.writes hmode⟩
      · exact ⟨f1, o1, hf1, ho1, .inr hnew⟩

def callSession (σ : Session) (e : Env × IoCall) : Option Session :=
  match e.2.run { σ.kern with env := e.1 } with
  | .ok _ s' => some ⟨s', e.2.opens { σ.kern with env := e.1 } s' σ.opens⟩
  | _ => none

theorem callSession_step {σ σ' : Session} {e : Env × IoCall} (h : callSession σ e = some σ') : SessionStep σ e σ' := by
  unfold callSession at h
  cases he : e.2.run { σ.kern with env := e.1 } with
  | ok r s' =>
    rw [he] at h
    cases h
    exact .call he
  | fault s' => rw [he] at h; cases h
  | stop r => rw [he] at h; cases h

/-- A task of user 1, and the root directory with an empty file `f` of mode `mode` whose owner is
    `uid`. -/
def fileKern (mode uid : ℕ) : Kern where
  inode i := if i = 0 then ⟨⟨0o040755, 0, 48, 0, 2, fun _ => 20⟩, 769, 1, 4, false, false, false⟩ else MInode.zero
  lastInode := 0
  super k := if k = 0 then ⟨⟨64, 1440, 1, 1, 16, 0x137F⟩, 769, some 0, some 0⟩ else ⟨⟨0, 0, 0, 0, 0, 0⟩, 0, none, none⟩
  file _ := ⟨0, 0, 0, none, 0⟩
  task t :=
    if t = 0 then { Task.none with state := .live, pwd := some 0, root := some 0, euid := 1, egid := 1 } else Task.none
  disk _ :=
    { super := ⟨64, 1440, 1, 1, 16, 0x137F⟩
      imap := fun _ => true
      zmap := fun _ => true
      inode := fun n => if n = 2 then ⟨mode, uid, 0, 0, 1, fun _ => 30⟩ else MInode.zero.toDInode
      block := fun b => if b = 20 then fun k => if k = 32 then 2 else if k = 34 then 102 else 0 else Block.zero }
  bcount _ _ := 0
  rootDev := 769
  current := 0
  env := ⟨none, false, true⟩

def fileSession (mode uid : ℕ) : Session := ⟨fileKern mode uid, fun _ => none⟩

/-- The file `f` is opened. -/
def openF (flag : ℕ) : Env × IoCall := (⟨none, false, true⟩, .open [102] flag 0)

theorem reachable_openF {mode uid flag : ℕ} {σ : Session} (h : callSession (fileSession mode uid) (openF flag) = some σ) :
    sessionSystem.Reachable σ := by
  have hinit : sessionSystem.init (fileSession mode uid) := ⟨Nat.one_ne_zero, fun _ => rfl, fun _ => rfl⟩
  exact (Lts.Reachable.init hinit).step (callSession_step h)

/-- What a write of one byte to descriptor 0 leaves. -/
def writeByte (σ : Session) : Option Kern := (sysWrite 0 [65] { σ.kern with env := ⟨none, false, true⟩ }).state?

theorem write_access_own_file : ∃ σ s', sessionSystem.Reachable σ ∧ Alters σ.kern s' ∧ σ.Writable 0 ∧ σ.Entitled 0 := by
  have h1 : ((callSession (fileSession 0o100600 1) (openF 1)).bind fun σ => (writeByte σ).map fun s =>
      (filp σ.kern 0, (σ.kern.file 0).flags, (σ.kern.disk 769).block 30 0, (s.disk 769).block 30 0)) =
        some (some 0, 1, 0, 65) := by decide +kernel
  obtain ⟨σ, hσ, h2⟩ := Option.bind_eq_some_iff.mp h1
  obtain ⟨s', hs', h3⟩ := Option.map_eq_some_iff.mp h2
  obtain ⟨hf, hm, hb, hb'⟩ : _ ∧ _ ∧ _ ∧ _ := by simpa only [Prod.mk.injEq] using h3
  have hr := reachable_openF hσ
  have hw : σ.Writable 0 := ⟨0, hf, .inl (by rw [hm]; decide)⟩
  have halt : Alters σ.kern s' := .inl ⟨769, 30, fun he => by
    rw [he, hb] at hb'
    exact absurd hb' (by decide)⟩
  exact ⟨σ, s', hr, halt, hw, (write_access hr (.inl hs') halt).mpr hw⟩

/-- The owner lets everybody read, a task opens the file for reading and writes it. -/
theorem write_through_read_only_open : ∃ σ s', sessionSystem.Reachable σ ∧
    EndsIn (sysWrite 0 [65] { σ.kern with env := ⟨none, false, true⟩ }) s' ∧ Alters σ.kern s' ∧ ¬ σ.Entitled 0 := by
  have h1 : ((callSession (fileSession 0o100444 0) (openF 0)).bind fun σ => (writeByte σ).map fun s =>
      (filp σ.kern 0, (σ.opens 0).map fun o => (o.flag, (lookUp o.path o.start).value?.any Option.isSome),
        (σ.kern.disk 769).block 30 0, (s.disk 769).block 30 0)) =
        some (some 0, some (0, true), 0, 65) := by decide +kernel
  obtain ⟨σ, hσ, h2⟩ := Option.bind_eq_some_iff.mp h1
  obtain ⟨s', hs', h3⟩ := Option.map_eq_some_iff.mp h2
  obtain ⟨hf, ho, hb, hb'⟩ : _ ∧ _ ∧ _ ∧ _ := by simpa only [Prod.mk.injEq] using h3
  obtain ⟨o, ho, hlook⟩ := Option.map_eq_some_iff.mp ho
  obtain ⟨hflag, hlook⟩ := Prod.mk.inj hlook
  refine ⟨σ, s', reachable_openF hσ, .inl hs', .inl ⟨769, 30, fun he => ?_⟩, ?_⟩
  · rw [he, hb] at hb'
    exact absurd hb' (by decide)
  · rintro ⟨f, o', hf', ho', ⟨hask, -⟩ | ⟨s1, hnew⟩⟩
    all_goals cases hf.symm.trans hf'
    all_goals cases ho.symm.trans ho'
    · rw [Opening.Asked, hflag] at hask
      exact absurd hask (by decide)
    · rw [hnew] at hlook
      cases hlook

end Linux011.Fs

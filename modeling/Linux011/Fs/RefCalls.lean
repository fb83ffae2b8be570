/-
  The calls of fs/namei.c, fs/open.c, fs/fcntl.c, fs/super.c, fs/exec.c, kernel/fork.c and
  kernel/exit.c in terms of `Acct`: whatever the way out, a call ends with the account it began
  with.
-/
import Linux011.Fs.RefPaths

namespace Linux011.Fs

open Linux011.Lib

variable {R : Kern → Prop} {h : Fin 32 → ℤ} {g : Fin 64 → ℤ} {half : Half} {s : Kern}

/-! ## Calls of namei.c -/

theorem dropNew_spec (i : Fin 32) (hi : 0 ≤ h i) (nlinks : ℕ → ℕ) :
    Spec R Fine (Acct (h + one i) g half) (dropNew i nlinks) fun _ => Acct h g half := by
  refine Spec.bind (M := fun _ => Acct (h + one i) g half) ?_ fun _ => iput_held i hi
  exact modInode_acct i fun _ => rfl

/-- The inode of a call that may also have failed. -/
def leftRef : ℤ ⊕ Fin 32 → Fin 32 → ℤ
  | .inl _ => 0
  | .inr i => one i

theorem openNamei_spec (hh : Mild 800 h) (hR : Held R h g half) (h0 : ∀ s, Acct h g half s → R s)
    (path : List UInt8) (flag mode : ℕ) : Spec R Fine (Acct h g half) (openNamei path flag mode) fun r =>
      Acct (h + leftRef r) g half := by
  have hh' : Mild 900 h := hh.mono (by decide)
  have herr : ∀ err : ℤ, Spec R Fine (Acct h g half) (pure (.inl err) : K (ℤ ⊕ Fin 32))
      fun r => Acct (h + leftRef r) g half := fun err => Spec.pure fun _ hs => by simpa [leftRef] using hs
  unfold openNamei
  generalize (if has flag oTRUNC ∧ ¬ has flag oACCMODE then flag ||| oWRONLY else flag) = flag
  refine (dirNamei_spec hh' hR h0 path).bind fun p => ?_
  match p with
  | none => exact Spec.pure fun _ hs => hs
  | some (dir, name) =>
    have hput : ∀ (dir : Fin 32) (err : ℤ), Spec R Fine (Acct (h + one dir) g half)
        (do iput (some dir); return .inl err : K (ℤ ⊕ Fin 32)) fun r => Acct (h + leftRef r) g half :=
      fun dir err => iput_after dir (hh dir).1 (herr err)
    refine Spec.ite (fun _ => Spec.ite (fun _ => Spec.pure fun _ hs => hs) fun _ => hput dir _) fun _ => ?_
    refine (findEntry_spec hh' hR dir name).bind fun r => ?_
    match r with
    | (dir, none) =>
      refine Spec.get fun s _ => Spec.ite (fun _ => hput dir _) fun _ => Spec.ite (fun _ => hput dir _) fun _ => ?_
      refine (newInode_spec (hh.add dir (by decide)) _).bind fun p => ?_
      cases p with
      | none => exact (hput dir _).pre fun _ hs => by simpa [oneOpt] using hs
      | some i =>
        refine Spec.bind (M := fun _ => Acct (h + one dir + one i) g half) (modInode_acct i fun _ => rfl) fun _ => ?_
        refine (addEntry_spec (fun s => (hR.add dir).fault) dir name).bind fun e => ?_
        cases e with
        | none => exact (dropNew_spec i ((hh.add dir le_rfl) i).1 _).bind fun _ => hput dir _
        | some e =>
          refine Spec.get fun s _ => (setEntry_keeps _ e _).acct.bind fun _ => (brelse_keeps _ _).acct.bind fun _ => ?_
          exact iput_under dir i (hh dir).1 (Spec.pure fun _ hs => hs)
    | (dir, some e) =>
      refine Spec.get fun s _ => (entryInode_keeps _ e).acct.bind fun nr => (brelse_keeps _ _).acct.bind fun _ => ?_
      refine iput_after dir (hh dir).1 (Spec.ite (fun _ => herr _) fun _ => (iget_spec hh' _ nr).bind fun i => ?_)
      refine Spec.get fun s _ => Spec.ite (fun _ => hput i _) fun _ => ?_
      dsimp only
      refine Spec.ite (fun _ => (truncate_keeps i).acct.bind fun _ => ?_) fun _ => ?_
      · exact Spec.pure fun _ hs => hs
      · exact Spec.pure fun _ hs => hs

/-- What a call holds that has a directory and an inode, unless it has failed. -/
def Both {α : Type} (h : Fin 32 → ℤ) (g : Fin 64 → ℤ) (half : Half) : ℤ ⊕ Fin 32 × α × Fin 32 → Kern → Prop
  | .inl _ => Acct h g half
  | .inr (dir, _, i) => Acct (h + one dir + one i) g half

theorem startEntry_spec (hh : Mild 800 h) (hR : Held R h g half) (h0 : ∀ s, Acct h g half s → R s)
    (path : List UInt8) : Spec R Fine (Acct h g half) (startEntry path) (Both h g half) := by
  have hh' : Mild 900 h := hh.mono (by decide)
  have hput : ∀ (dir : Fin 32) (err : ℤ), Spec R Fine (Acct (h + one dir) g half)
      (do iput (some dir); return .inl err : K (ℤ ⊕ Fin 32 × List UInt8 × Fin 32)) (Both h g half) :=
    fun dir err => iput_after dir (hh dir).1 (Spec.pure fun _ hs => hs)
  refine Spec.get fun s _ => Spec.ite (fun _ => Spec.pure fun _ hs => hs) fun _ => ?_
  refine (dirNamei_spec hh' hR h0 path).bind fun p => ?_
  cases p with
  | none => exact Spec.pure fun _ hs => by simpa [oneOpt, Both] using hs
  | some p =>
    obtain ⟨dir, name⟩ := p
    refine Spec.get fun s _ => Spec.ite (fun _ => hput dir _) fun _ => Spec.ite (fun _ => hput dir _) fun _ => ?_
    refine (findEntry_spec hh' hR dir name).bind fun r => ?_
    obtain ⟨dir, e⟩ := r
    cases e with
    | some e => exact Spec.get fun s _ => (brelse_keeps _ _).acct.bind fun _ => hput dir _
    | none =>
      refine Spec.get fun s _ => (newInode_spec (hh.add dir (by decide)) _).bind fun p => ?_
      cases p with
      | none => exact (hput dir _).pre fun _ hs => by simpa [oneOpt] using hs
      | some i => exact Spec.pure fun _ hs => hs

theorem sysMknod_spec (hh : Mild 800 h) (hR : Held R h g half) (h0 : ∀ s, Acct h g half s → R s)
    (path : List UInt8) (mode dev : ℕ) :
    Spec R Fine (Acct h g half) (sysMknod path mode dev) fun _ => Acct h g half := by
  refine (startEntry_spec hh hR h0 path).bind fun r => ?_
  match r with
  | .inl err => exact Spec.pure fun _ hs => hs
  | .inr (dir, name, i) =>
    refine Spec.bind (M := fun _ => Acct (h + one dir + one i) g half) (modInode_acct i fun _ => rfl) fun _ => ?_
    refine (addEntry_spec (fun s => (hR.add dir).fault) dir name).bind fun e => ?_
    cases e with
    | none =>
      refine iput_under dir i (hh dir).1 ((dropNew_spec i (hh i).1 _).bind fun _ => ?_)
      exact Spec.pure fun _ hs => hs
    | some e =>
      refine Spec.get fun s _ => (setEntry_keeps _ e _).acct.bind fun _ => ?_
      refine iput_under dir i (hh dir).1 (iput_after i (hh i).1 ((brelse_keeps _ _).acct.bind fun _ => ?_))
      exact Spec.pure fun _ hs => hs

theorem sysMkdir_spec (hh : Mild 800 h) (hR : Held R h g half) (h0 : ∀ s, Acct h g half s → R s)
    (path : List UInt8) (mode : ℕ) :
    Spec R Fine (Acct h g half) (sysMkdir path mode) fun _ => Acct h g half := by
  refine (startEntry_spec hh hR h0 path).bind fun r => ?_
  match r with
  | .inl err => exact Spec.pure fun _ hs => hs
  | .inr (dir, name, i) =>
    have hdrop : ∀ (f : ℕ → ℕ) (err : ℤ), Spec R Fine (Acct (h + one i) g half)
        (do dropNew i f; return err : K ℤ) fun _ => Acct h g half := fun f err =>
      (dropNew_spec i (hh i).1 f).bind fun _ => Spec.pure fun _ hs => hs
    refine Spec.bind (M := fun _ => Acct (h + one dir + one i) g half) (modInode_acct i fun _ => rfl) fun _ => ?_
    refine Spec.get fun s _ => (newBlock_keeps _).acct.bind fun block => ?_
    refine Spec.bind (M := fun _ => Acct (h + one dir + one i) g half) (modInode_acct i fun _ => rfl) fun _ => ?_
    refine Spec.ite (fun _ => iput_under dir i (hh dir).1 (hdrop _ _)) fun _ => ?_
    refine (bread_keeps _ block).acct.bind fun ok => Spec.ite (fun _ => ?_) fun _ => ?_
    · refine Spec.get fun s' _ => (Keeps.modify fun s => core_disk s _).acct.bind fun _ => ?_
      refine (brelse_keeps _ _).acct.bind fun _ => ?_
      refine Spec.bind (M := fun _ => Acct (h + one dir + one i) g half) (modInode_acct i fun _ => rfl) fun _ => ?_
      refine (addEntry_spec (fun s => (hR.add dir).fault) dir name).bind fun e => ?_
      cases e with
      | none => exact iput_under dir i (hh dir).1 ((freeBlock_keeps _ _).acct.bind fun _ => hdrop _ _)
      | some e =>
        refine Spec.get fun s _ => (setEntry_keeps _ e _).acct.bind fun _ => ?_
        refine Spec.bind (M := fun _ => Acct (h + one dir + one i) g half) (modInode_acct dir fun _ => rfl) fun _ => ?_
        refine iput_under dir i (hh dir).1 (iput_after i (hh i).1 ((brelse_keeps _ _).acct.bind fun _ => ?_))
        exact Spec.pure fun _ hs => hs
    · exact iput_under dir i (hh dir).1 ((freeBlock_keeps _ _).acct.bind fun _ => hdrop _ _)

theorem emptyBuffer_keeps (i : Fin 32) (d nr : ℕ) (bh : Option ℕ) : Keeps (emptyBuffer i d nr bh) := by
  refine Keeps.ite ((brelseOpt_keeps d bh).bind fun _ => ?_) (Keeps.pure _)
  refine (bmapCreate_keeps i _ false).bind fun block => Keeps.ite (Keeps.pure _) ?_
  exact (bread_keeps d block).bind fun _ => Keeps.ite (Keeps.pure _) (Keeps.pure _)

theorem emptyFrom_keeps (i : Fin 32) (d len n nr : ℕ) (bh : Option ℕ) : Keeps (emptyFrom i d len n nr bh) := by
  induction n generalizing nr bh with
  | zero => exact Keeps.halt (by decide)
  | succ n ih =>
    refine Keeps.ite ((brelseOpt_keeps d bh).bind fun _ => Keeps.pure _) ?_
    refine (emptyBuffer_keeps i d nr bh).bind fun r => ?_
    match r with
    | none => exact Keeps.pure _
    | some none => exact ih _ _
    | some (some b) =>
      exact Keeps.get fun s => Keeps.ite ((brelse_keeps d b).bind fun _ => Keeps.pure _) (ih _ _)

theorem emptyDir_keeps (i : Fin 32) : Keeps (emptyDir i) := by
  refine Keeps.get fun s => Keeps.ite (Keeps.pure _) ((bread_keeps _ _).bind fun ok => ?_)
  refine Keeps.ite (Keeps.get fun s' => Keeps.ite (Keeps.pure _) ?_) (Keeps.pure _)
  exact emptyFrom_keeps i _ _ _ _ _

theorem startRemove_spec (hh : Mild 800 h) (hR : Held R h g half) (h0 : ∀ s, Acct h g half s → R s)
    (path : List UInt8) : Spec R Fine (Acct h g half) (startRemove path) (Both h g half) := by
  have hh' : Mild 900 h := hh.mono (by decide)
  have hput : ∀ (dir : Fin 32) (err : ℤ), Spec R Fine (Acct (h + one dir) g half)
      (do iput (some dir); return .inl err : K (ℤ ⊕ Fin 32 × DirEntry × Fin 32)) (Both h g half) :=
    fun dir err => iput_after dir (hh dir).1 (Spec.pure fun _ hs => hs)
  refine (dirNamei_spec hh' hR h0 path).bind fun p => ?_
  cases p with
  | none => exact Spec.pure fun _ hs => by simpa [oneOpt, Both] using hs
  | some p =>
    obtain ⟨dir, name⟩ := p
    refine Spec.get fun s _ => Spec.ite (fun _ => hput dir _) fun _ => Spec.ite (fun _ => hput dir _) fun _ => ?_
    refine (findEntry_spec hh' hR dir name).bind fun r => ?_
    obtain ⟨dir, e⟩ := r
    cases e with
    | none => exact hput dir _
    | some e =>
      refine Spec.get fun s _ => (entryInode_keeps _ e).acct.bind fun nr => ?_
      exact (iget_spec (hh.add dir (by decide)) _ nr).bind fun i => Spec.pure fun _ hs => hs

theorem refuse_spec (hh : Mild 800 h) (i j : Fin 32) (d b : ℕ) (err : ℤ) :
    Spec R Fine (Acct (h + one i + one j) g half) (refuse i j d b err) fun _ => Acct h g half := by
  refine iput_under i j (hh i).1 (iput_after j (hh j).1 ((brelse_keeps d b).acct.bind fun _ => ?_))
  exact Spec.pure fun _ hs => hs

theorem refuse_swap (hh : Mild 800 h) (i j : Fin 32) (d b : ℕ) (err : ℤ) :
    Spec R Fine (Acct (h + one j + one i) g half) (refuse i j d b err) fun _ => Acct h g half := by
  rw [add_right_comm]
  exact refuse_spec hh i j d b err

theorem sysRmdir_spec (hh : Mild 800 h) (hR : Held R h g half) (h0 : ∀ s, Acct h g half s → R s)
    (path : List UInt8) : Spec R Fine (Acct h g half) (sysRmdir path) fun _ => Acct h g half := by
  refine Spec.get fun s _ => Spec.ite (fun _ => Spec.pure fun _ hs => hs) fun _ => ?_
  refine (startRemove_spec hh hR h0 path).bind fun r => ?_
  match r with
  | .inl err => exact Spec.pure fun _ hs => hs
  | .inr (dir, e, i) =>
    refine Spec.get fun s _ => Spec.ite (fun _ => refuse_spec hh dir i _ _ _) fun _ => ?_
    refine Spec.ite (fun _ => refuse_spec hh dir i _ _ _) fun _ => ?_
    refine Spec.ite (fun _ => refuse_swap hh i dir _ _ _) fun _ => ?_
    refine Spec.ite (fun _ => refuse_swap hh i dir _ _ _) fun _ => ?_
    refine (emptyDir_keeps i).acct.bind fun ok => Spec.ite (fun _ => ?_) fun _ => refuse_swap hh i dir _ _ _
    refine (setEntry_keeps _ e 0).acct.bind fun _ => (brelse_keeps _ _).acct.bind fun _ => ?_
    refine Spec.bind (M := fun _ => Acct (h + one dir + one i) g half) (modInode_acct i fun _ => rfl) fun _ => ?_
    refine Spec.bind (M := fun _ => Acct (h + one dir + one i) g half) (modInode_acct dir fun _ => rfl) fun _ => ?_
    exact iput_under dir i (hh dir).1 (iput_after i (hh i).1 (Spec.pure fun _ hs => hs))

theorem sysUnlink_spec (hh : Mild 800 h) (hR : Held R h g half) (h0 : ∀ s, Acct h g half s → R s)
    (path : List UInt8) : Spec R Fine (Acct h g half) (sysUnlink path) fun _ => Acct h g half := by
  refine (startRemove_spec hh hR h0 path).bind fun r => ?_
  match r with
  | .inl err => exact Spec.pure fun _ hs => hs
  | .inr (dir, e, i) =>
    refine Spec.get fun s _ => Spec.ite (fun _ => refuse_spec hh dir i _ _ _) fun _ => ?_
    refine Spec.ite (fun _ => refuse_swap hh i dir _ _ _) fun _ => ?_
    refine (setEntry_keeps _ e 0).acct.bind fun _ => (brelse_keeps _ _).acct.bind fun _ => ?_
    refine Spec.bind (M := fun _ => Acct (h + one dir + one i) g half) (modInode_acct i fun _ => rfl) fun _ => ?_
    exact iput_after i ((hh.add dir le_rfl) i).1 (iput_after dir (hh dir).1 (Spec.pure fun _ hs => hs))

theorem sysLink_spec (hh : Mild 800 h) (hR : Held R h g half) (h0 : ∀ s, Acct h g half s → R s)
    (oldname newname : List UInt8) :
    Spec R Fine (Acct h g half) (sysLink oldname newname) fun _ => Acct h g half := by
  refine (namei_spec (hh.mono (by decide)) hR h0 oldname).bind fun p => ?_
  cases p with
  | none => exact Spec.pure fun _ hs => by simpa [oneOpt] using hs
  | some old =>
    have hold : ∀ err : ℤ, Spec R Fine (Acct (h + one old) g half) (do iput (some old); return err : K ℤ)
        fun _ => Acct h g half := fun err => iput_after old (hh old).1 (Spec.pure fun _ hs => hs)
    refine Spec.get fun s _ => Spec.ite (fun _ => hold _) fun _ => ?_
    have hh1 : Mild 900 (h + one old) := hh.add old (by decide)
    refine (dirNamei_spec hh1 (hR.add old) (fun s => hR.fault) newname).bind fun p => ?_
    cases p with
    | none => exact (hold _).pre fun _ hs => by simpa [oneOpt] using hs
    | some p =>
      obtain ⟨dir, name⟩ := p
      have hboth : ∀ (dir : Fin 32) (err : ℤ), Spec R Fine (Acct (h + one old + one dir) g half)
          (do iput (some dir); iput (some old); return err : K ℤ) fun _ => Acct h g half := fun dir err =>
        iput_after dir ((hh.add old le_rfl) dir).1 (hold err)
      refine Spec.get fun s _ => Spec.ite (fun _ => ?_) fun _ => ?_
      · exact iput_under old dir (hh old).1 (iput_after dir (hh dir).1 (Spec.pure fun _ hs => hs))
      refine Spec.ite (fun _ => hboth dir _) fun _ => Spec.ite (fun _ => hboth dir _) fun _ => ?_
      refine (findEntry_spec hh1 (hR.add old) dir name).bind fun r => ?_
      obtain ⟨dir, e⟩ := r
      cases e with
      | some e => exact Spec.get fun s _ => (brelse_keeps _ _).acct.bind fun _ => hboth dir _
      | none =>
        refine (addEntry_spec (fun s => (hR.add old).fault) dir name).bind fun e => ?_
        cases e with
        | none => exact hboth dir _
        | some e =>
          refine Spec.get fun s _ => (setEntry_keeps _ e _).acct.bind fun _ => (brelse_keeps _ _).acct.bind fun _ => ?_
          refine iput_after dir ((hh.add old le_rfl) dir).1 ?_
          refine Spec.bind (M := fun _ => Acct (h + one old) g half) (modInode_acct old fun _ => rfl) fun _ => ?_
          exact hold 0

/-! ## Descriptors -/

/-- The running task changes in nothing that is counted. -/
theorem modTask_acct {f : Task → Task} (hf : ∀ τ, (f τ).state = τ.state ∧ (f τ).filp = τ.filp ∧ (f τ).pwd = τ.pwd ∧
    (f τ).root = τ.root ∧ (f τ).executable = τ.executable) :
    Spec R Fine (Acct h g half) (modTask f) fun _ => Acct h g half := by
  refine Spec.modify fun s hs => ?_
  obtain ⟨h1, h2, h3, h4, h5⟩ := hf s.cur
  refine hs.setCur (h1.trans hs.live) (.inr h2) (fun i => ?_) fun f => ?_
  · simp only [taskRefs, h3, h4, h5]
  · simp only [taskFds, h2]

theorem modFile_acct (f : Fin 64) {k : File → File} (hk : ∀ x, (k x).count = x.count ∧ (k x).inode = x.inode) :
    Spec R Fine (Acct h g half) (modFile f k) fun _ => Acct h g half := by
  refine Spec.modify fun s hs => hs.setFile (fun _ _ => Iff.rfl) (.inr ⟨rfl, (hk _).1⟩) (fun i => ?_) ?_ fun _ _ => rfl
  · simp only [fileRefs, hk]
  · rw [(hk _).1]
    exact hs.file f

/-- A descriptor that was free. -/
theorem setFilp_new (hd : half.fds = []) (fd : Fin 20) (f : Fin 64) : Spec R Fine (fun s => Acct h g half s ∧ s.cur.filp fd = none)
    (setFilp fd (some f)) fun _ => Acct h (g - oneFd f) half := by
  refine Spec.modify fun s hs => hs.1.setCur hs.1.live (.inl hd) (fun _ => rfl) fun f' => ?_
  have h1 := taskFds_update f' s.cur fd (some f)
  rw [hs.2] at h1
  have h2 : fdRef f' none = 0 := rfl
  dsimp only [Pi.sub_apply, oneFd]
  omega

theorem setFilp_none (hd : half.fds = []) (fd : Fin 20) (f : Fin 64) :
    Spec R Fine (fun s => Acct h g half s ∧ s.cur.filp fd = some f) (setFilp fd none) fun _ =>
      Acct h (g + oneFd f) half := by
  refine Spec.modify fun s hs => hs.1.setCur hs.1.live (.inl hd) (fun _ => rfl) fun f' => ?_
  have h1 := taskFds_update f' s.cur fd none
  rw [hs.2] at h1
  have h2 : fdRef f' none = 0 := rfl
  dsimp only [Pi.add_apply, oneFd]
  omega

/-- A file that is open already is opened once more. -/
theorem incFCount_again (f : Fin 64) (hg : g f = 0) : Spec R Fine
    (fun s => Acct h (g - oneFd f) half s ∧ (s.file f).count ≠ 0 ∧ half.fds = []) (incFCount f) fun _ => Acct h g half := by
  refine Spec.modify fun s hs => ?_
  have h1 := hs.1.file f
  have h2 := fdRefs_le s f
  rw [Pi.sub_apply, oneFd_self, hg] at h1
  have hc : ((s.file f).count + 1) % 65536 = (s.file f).count + 1 := Nat.mod_eq_of_lt (by omega)
  refine hs.1.setFile (fun _ _ => Iff.rfl) (.inl hs.2.2) (fun i => ?_) ?_ fun f' hf => ?_
  · simp [fileRefs, hc, hs.2.1]
  · dsimp only
    rw [hc, hg]
    push_cast
    omega
  · rw [Pi.sub_apply, oneFd_ne hf]
    omega

/-- A free entry comes into use, without its inode. -/
theorem incFCount_first (fd : Fin 20) (f : Fin 64) : Spec R Fine (fun s => Acct h (g - oneFd f) half s ∧
    half.fds = [] ∧ s.cur.filp fd = some f ∧ (s.file f).count = 0) (incFCount f) fun _ s =>
      Acct h g ⟨insert f half.files, [(fd, f)]⟩ s := by
  refine Spec.modify fun s hs => ?_
  obtain ⟨ha, hd, hfd, h0⟩ := hs
  have h1 := ha.file f
  rw [Pi.sub_apply, oneFd_self, h0] at h1
  have ha' : Acct h g ⟨insert f half.files, []⟩ (s.setFile f { s.file f with count := ((s.file f).count + 1) % 65536 }) := by
    refine ha.setFile (fun f' hf => by simp [hf]) (.inl rfl) (fun i => ?_) ?_ fun f' hf => ?_
    · simp [fileRefs, h0]
    · dsimp only
      rw [h0]
      push_cast
      omega
    · rw [Pi.sub_apply, oneFd_ne hf]
      omega
  refine { ha' with fds := fun p hp => ?_ }
  cases List.mem_singleton.mp hp
  refine ⟨hfd, ?_⟩
  change ((s.setFile f _).file f).count = 1
  rw [Kern.setFile_self]
  dsimp only
  rw [h0]

/-- An entry that was not set up goes. -/
theorem setFCount_zero {F F' : Finset (Fin 64)} {f : Fin 64} (hf : f ∈ F) (hF : ∀ f', f' ≠ f → (f' ∈ F' ↔ f' ∈ F)) :
    Spec R Fine (fun s => Acct h (g + oneFd f) ⟨F, []⟩ s ∧ (s.file f).count = 1) (setFCount f 0) fun _ =>
      Acct h g ⟨F', []⟩ := by
  refine Spec.modify fun s hs => hs.1.setFile hF (.inl rfl) (fun i => ?_) ?_ fun f' hf' => ?_
  · simp [fileRefs, hf]
  · have h1 := hs.1.file f
    rw [Pi.add_apply, oneFd_self, hs.2] at h1
    push_cast at h1 ⊢
    omega
  · rw [Pi.add_apply, oneFd_ne hf']
    omega

/-- An entry gets its inode. -/
theorem Acct.setUp {F F' : Finset (Fin 64)} {f : Fin 64} {i : Fin 32} (ha : Acct (h + one i) g ⟨F, []⟩ s)
    (h1 : (s.file f).count = 1) (hf : f ∈ F) (hF : ∀ f', f' ≠ f → (f' ∈ F' ↔ f' ∈ F)) (hf' : f ∉ F') {x : File}
    (hx : x.count = 1) (hi : x.inode = some i) : Acct h g ⟨F', []⟩ (s.setFile f x) := by
  refine ha.setFile hF (.inl rfl) (fun j => ?_) ?_ fun _ _ => rfl
  · by_cases hj : i = j
    · simp [fileRefs, hf, hf', hx, hi, ptr, one, hj, add_comm]
    · simp [fileRefs, hf, hf', hx, hi, ptr, one, hj, Ne.symm hj]
  · have := ha.file f
    rw [h1] at this
    rw [hx]
    exact this

theorem Acct.unpin {F : Finset (Fin 64)} {l : List (Fin 20 × Fin 64)} (ha : Acct h g ⟨F, l⟩ s) : Acct h g ⟨F, []⟩ s :=
  { ha with fds := nofun }

theorem undoOpen_spec (fd : Fin 20) (f : Fin 64) (err : ℤ) :
    Spec R Fine (Acct h g ⟨{f}, [(fd, f)]⟩) (undoOpen fd f err) fun _ => Acct h g .none := by
  refine Spec.bind (M := fun _ s => Acct h (g + oneFd f) ⟨{f}, []⟩ s ∧ (s.file f).count = 1) ?_ fun _ => ?_
  · intro s hs
    have h1 := hs.fds _ (List.mem_singleton.mpr rfl)
    exact ⟨setFilp_none (R := R) rfl fd f s ⟨hs.unpin, h1.1⟩, h1.2⟩
  · refine (setFCount_zero (Finset.mem_singleton_self f) fun f' hf => ?_).bind fun _ => Spec.pure fun _ hs => hs
    simp [hf]

theorem openTty_spec (i : Fin 32) : Spec R Fine (Acct h g half) (openTty i) fun _ => Acct h g half := by
  have hdone : ∀ b : Bool, Spec R Fine (Acct h g half) (pure b : K Bool) fun _ => Acct h g half :=
    fun b => Spec.pure fun _ hs => hs
  refine Spec.get fun s _ => Spec.ite (fun _ => Spec.ite (fun _ => ?_) fun _ => hdone _) fun _ => hdone _
  dsimp only
  refine Spec.ite (fun _ => Spec.bind (M := fun _ => Acct h g half) ?_ fun _ => hdone _) fun _ => hdone _
  exact modTask_acct fun _ => ⟨rfl, rfl, rfl, rfl, rfl⟩

theorem sysOpen_spec (hh : Mild 800 h) (hR : ∀ fd f, Held R h 0 ⟨{f}, [(fd, f)]⟩)
    (h0 : ∀ fd f s, Acct h 0 ⟨{f}, [(fd, f)]⟩ s → R s) (path : List UInt8) (flag mode : ℕ) :
    Spec R Fine (Acct h 0 .none) (sysOpen path flag mode) fun _ => Acct h 0 .none := by
  refine Spec.get_bind fun s hs => ?_
  cases hfd : freeFd s with
  | none => exact Spec.pure fun s' hs' => by rw [hs']; exact hs
  | some fd =>
    have hfree : s.cur.filp fd = none := by simpa using List.find?_some hfd
    refine Spec.bind (M := fun _ s' => Acct h 0 .none s' ∧ s'.cur.filp fd = none ∧ s'.file = s.file) ?_ fun _ => ?_
    · refine Spec.modify fun s' hs' => ?_
      rw [hs']
      refine ⟨hs.setCur hs.live (.inl rfl) (fun _ => rfl) fun _ => rfl, ?_, rfl⟩
      change ((s.setTask s.current _).task s.current).filp fd = none
      rw [Kern.setTask_self]
      exact hfree
    cases hff : freeFile s with
    | none => exact Spec.pure fun _ hs' => hs'.1
    | some f =>
      have hcount : (s.file f).count = 0 := by simpa using List.find?_some hff
      refine Spec.bind (M := fun _ s => Acct h (0 - oneFd f) .none s ∧ Half.none.fds = [] ∧ s.cur.filp fd = some f ∧
        (s.file f).count = 0) ?_ fun _ => (incFCount_first fd f).bind fun _ => ?_
      · intro s' hs'
        refine ⟨setFilp_new (R := R) rfl fd f s' ⟨hs'.1, hs'.2.1⟩, rfl, ?_, ?_⟩
        · change ((s'.setTask s'.current _).task s'.current).filp fd = some f
          rw [Kern.setTask_self]
          exact Function.update_self ..
        · change (s'.file f).count = 0
          rw [hs'.2.2, hcount]
      refine (openNamei_spec hh (hR fd f) (h0 fd f) path flag mode).bind fun r => ?_
      cases r with
      | inl err => exact (undoOpen_spec fd f err).pre fun _ hs => by simpa [leftRef] using hs
      | inr i =>
        refine (openTty_spec i).bind fun bad => Spec.ite (fun _ => ?_) fun _ => ?_
        · exact iput_after i (hh i).1 (undoOpen_spec fd f _)
        refine Spec.get fun s' _ => ?_
        have hset : Spec R Fine (Acct (h + one i) 0 ⟨insert f Half.none.files, [(fd, f)]⟩) (do
            modFile f fun _ => ⟨(s'.inode i).mode, flag, 1, some i, 0⟩
            return (fd : ℤ) : K ℤ) fun _ => Acct h 0 .none := by
          refine Spec.bind (M := fun _ => Acct h 0 .none) (Spec.modify fun s hs => ?_) fun _ => Spec.pure fun _ hs => hs
          refine hs.unpin.setUp (hs.fds _ (List.mem_singleton.mpr rfl)).2 (Finset.mem_insert_self f _) (fun f' hf => ?_)
            (Finset.notMem_empty f) rfl rfl
          simp [hf, Half.none]
        dsimp only
        exact Spec.ite (fun _ => (checkDiskChange_spec _).bind fun _ => hset) fun _ => hset

theorem iputOpt_held (hh : Mild 800 h) (p : Option (Fin 32)) :
    Spec R Fine (Acct (h + oneOpt p) g half) (iput p) fun _ => Acct h g half := by
  cases p with
  | none => exact Spec.pure fun _ hs => by simpa [oneOpt] using hs
  | some i => exact iput_held i (hh i).1

/-- The last descriptor of a file takes the file's reference to its inode with it. -/
theorem Acct.lastClose {f : Fin 64} (ha : Acct h (0 + oneFd f) .none s) (h1 : (s.file f).count = 1) :
    Acct (h + oneOpt (s.file f).inode) 0 .none (s.setFile f { s.file f with count := 0 }) := by
  refine ha.setFile (fun _ _ => Iff.rfl) (.inl rfl) (fun i => ?_) ?_ fun f' hf => ?_
  · cases hp : (s.file f).inode with
    | none => simp [fileRefs, ptr, oneOpt, hp]
    | some j =>
      by_cases hj : j = i
      · simp [fileRefs, h1, ptr, oneOpt, one, hp, hj, Half.none, add_comm]
      · simp [fileRefs, h1, ptr, oneOpt, one, hp, hj, Ne.symm hj, Half.none]
  · have h2 := ha.file f
    rw [Pi.add_apply, oneFd_self, h1] at h2
    push_cast at h2 ⊢
    simp only [Pi.zero_apply] at h2 ⊢
    omega
  · rw [Pi.add_apply, oneFd_ne hf]
    rfl

theorem Acct.nextClose {f : Fin 64} {n : ℕ} (ha : Acct h (0 + oneFd f) .none s) (h1 : (s.file f).count = n + 2) :
    Acct h 0 .none (s.setFile f { s.file f with count := n + 1 }) := by
  refine ha.setFile (fun _ _ => Iff.rfl) (.inl rfl) (fun i => ?_) ?_ fun f' hf => ?_
  · simp [fileRefs, h1]
  · have h2 := ha.file f
    rw [Pi.add_apply, oneFd_self, h1] at h2
    push_cast at h2 ⊢
    simp only [Pi.zero_apply] at h2 ⊢
    omega
  · rw [Pi.add_apply, oneFd_ne hf]
    rfl

theorem closeFd_spec (hh : Mild 800 h) (fd : Fin 20) (f : Fin 64) :
    Spec R Fine (fun s => Acct h 0 .none s ∧ s.cur.filp fd = some f) (closeFd fd f) fun _ => Acct h 0 .none := by
  refine (setFilp_none rfl fd f).bind fun _ => Spec.get_bind fun s hs => ?_
  have hdone : Spec R Fine (Acct h 0 .none) (pure 0 : K ℤ) fun _ => Acct h 0 .none := Spec.pure fun _ hs => hs
  have hpos : (s.file f).count ≠ 0 := by
    have := hs.file f
    rw [Pi.add_apply, oneFd_self] at this
    simp only [Pi.zero_apply] at this
    omega
  refine Spec.ite (fun h0 => absurd h0 hpos) fun _ => ?_
  refine Spec.bind (M := fun _ s' => s' = s.setFile f { s.file f with count := (s.file f).count - 1 }) ?_ fun _ => ?_
  · exact Spec.modify fun s' hs' => by rw [hs']
  dsimp only
  refine Spec.ite (fun h1 => ?_) fun h1 => ?_
  · refine ((iputOpt_held hh _).pre fun s' hs' => ?_).bind fun _ => hdone
    rw [hs', h1]
    exact hs.lastClose h1
  · refine hdone.pre fun s' hs' => ?_
    obtain ⟨n, hn⟩ : ∃ n, (s.file f).count = n + 2 := ⟨(s.file f).count - 2, by omega⟩
    rw [hs', hn]
    exact hs.nextClose hn

theorem sysClose_spec (hh : Mild 800 h) (fd : ℕ) :
    Spec R Fine (Acct h 0 .none) (sysClose fd) fun _ => Acct h 0 .none := by
  unfold sysClose
  split_ifs with hfd
  · refine Spec.bind (M := fun _ => Acct h 0 .none) (modTask_acct fun _ => ⟨rfl, rfl, rfl, rfl, rfl⟩) fun _ => ?_
    refine Spec.get_bind fun s hs => ?_
    cases hf : s.cur.filp ⟨fd, hfd⟩ with
    | none => exact Spec.pure fun s' hs' => by rw [hs']; exact hs
    | some f => exact (closeFd_spec hh ⟨fd, hfd⟩ f).pre fun s' hs' => by rw [hs']; exact ⟨hs, hf⟩
  · exact Spec.pure fun _ hs => hs

/-- A file some descriptor points to is in use. -/
theorem Acct.count_pos (ha : Acct h 0 half s) {fd : Fin 20} {f : Fin 64} (hfd : s.cur.filp fd = some f) :
    (s.file f).count ≠ 0 := by
  have h1 : 1 ≤ taskFds f s.cur := by
    have := Finset.single_le_sum (f := fun d => fdRef f (s.cur.filp d)) (fun _ _ => Nat.zero_le _) (Finset.mem_univ fd)
    have h2 : fdRef f (s.cur.filp fd) = 1 := by simp [fdRef, hfd]
    rw [← h2]
    exact this
  have h2 : taskFds f s.cur ≤ fdRefs s f :=
    Finset.single_le_sum (f := fun t => taskFds f (s.task t)) (fun _ _ => Nat.zero_le _) (Finset.mem_univ s.current)
  have h3 := ha.file f
  simp only [Pi.zero_apply] at h3
  omega

theorem dupfd_spec (fd arg : ℕ) : Spec R Fine (Acct h 0 .none) (dupfd fd arg) fun _ => Acct h 0 .none := by
  refine Spec.get_bind fun s hs => ?_
  have hdone : ∀ err : ℤ, Spec R Fine (fun s' => s' = s) (pure err : K ℤ) fun _ => Acct h 0 .none := fun err =>
    Spec.pure fun s' hs' => by rw [hs']; exact hs
  cases hf : filp s fd with
  | none => exact hdone _
  | some f =>
    have hpos : (s.file f).count ≠ 0 := by
      unfold filp at hf
      split_ifs at hf with hfd
      exact hs.count_pos hf
    refine Spec.ite (fun _ => hdone _) fun _ => ?_
    cases hk : (List.finRange 20).find? fun k => arg ≤ k.val ∧ s.cur.filp k = none with
    | none => exact hdone _
    | some k =>
      have hfree : s.cur.filp k = none := by
        have := List.find?_some hk
        simp only [decide_eq_true_eq] at this
        exact this.2
      refine Spec.bind (M := fun _ s' => Acct h 0 .none s' ∧ s'.cur.filp k = none ∧ s'.file = s.file) ?_ fun _ => ?_
      · refine Spec.modify fun s' hs' => ?_
        rw [hs']
        refine ⟨hs.setCur hs.live (.inl rfl) (fun _ => rfl) fun _ => rfl, ?_, rfl⟩
        change ((s.setTask s.current _).task s.current).filp k = none
        rw [Kern.setTask_self]
        exact hfree
      refine Spec.bind (M := fun _ s => Acct h (0 - oneFd f) .none s ∧ (s.file f).count ≠ 0 ∧ Half.none.fds = [])
        ?_ fun _ => (incFCount_again f rfl).bind fun _ => Spec.pure fun _ hs => hs
      intro s' hs'
      refine ⟨setFilp_new (R := R) rfl k f s' ⟨hs'.1, hs'.2.1⟩, ?_, rfl⟩
      change (s'.file f).count ≠ 0
      rw [hs'.2.2]
      exact hpos

theorem sysFcntl_spec (fd cmd arg : ℕ) : Spec R Fine (Acct h 0 .none) (sysFcntl fd cmd arg) fun _ => Acct h 0 .none := by
  refine Spec.get fun s _ => ?_
  have hdone : ∀ err : ℤ, Spec R Fine (Acct h 0 .none) (pure err : K ℤ) fun _ => Acct h 0 .none := fun err =>
    Spec.pure fun _ hs => hs
  cases filp s fd with
  | none => exact hdone _
  | some f =>
    refine Spec.ite (fun _ => dupfd_spec fd arg) fun _ => Spec.ite (fun _ => hdone _) fun _ => Spec.ite (fun _ => ?_) fun _ => ?_
    · dsimp only
      split_ifs
      · exact Spec.bind (M := fun _ => Acct h 0 .none) (modTask_acct fun _ => ⟨rfl, rfl, rfl, rfl, rfl⟩) fun _ => hdone _
      · exact hdone _
    · refine Spec.ite (fun _ => hdone _) fun _ => Spec.ite (fun _ => ?_) fun _ => hdone _
      exact Spec.bind (M := fun _ => Acct h 0 .none) (modFile_acct f fun _ => ⟨rfl, rfl⟩) fun _ => hdone _

/-! ## sys_pipe -/

theorem firstTwo {n : ℕ} {p : Fin n → Bool} {a b : Fin n}
    (hl : ((List.finRange n).filter p).take 2 = [a, b]) : a ≠ b ∧ p a = true ∧ p b = true := by
  have hnd : (((List.finRange n).filter p).take 2).Nodup :=
    ((List.nodup_finRange n).filter p).sublist (List.take_sublist 2 _)
  have hmem : ∀ c ∈ ((List.finRange n).filter p).take 2, p c = true := fun c hc =>
    (List.mem_filter.mp (List.mem_of_mem_take hc)).2
  rw [hl] at hnd hmem
  exact ⟨by simpa using hnd, hmem a (by simp), hmem b (by simp)⟩

theorem Acct.takeFile {F : Finset (Fin 64)} {f : Fin 64} (ha : Acct h g ⟨F, []⟩ s) (h0 : (s.file f).count = 0) :
    Acct h (g + oneFd f) ⟨insert f F, []⟩ (s.setFile f { s.file f with count := 1 }) := by
  refine ha.setFile (fun f' hf => by simp [hf]) (.inl rfl) (fun i => ?_) ?_ fun f' hf => ?_
  · simp [fileRefs, h0]
  · have h1 := ha.file f
    rw [h0] at h1
    rw [Pi.add_apply, oneFd_self]
    push_cast at h1 ⊢
    omega
  · rw [Pi.add_apply, oneFd_ne hf]
    omega

theorem pipeFiles {f0 f1 : Fin 64} (hne : f0 ≠ f1) (ha : Acct h 0 .none s) (h0 : (s.file f0).count = 0)
    (h1 : (s.file f1).count = 0) : Spec R Fine (fun s' => s' = s) (do setFCount f0 1; setFCount f1 1) fun _ s' =>
      Acct h (0 + oneFd f0 + oneFd f1) ⟨{f1, f0}, []⟩ s' ∧
        s'.cur = s.cur ∧ (s'.file f0).count = 1 ∧ (s'.file f1).count = 1 := by
  rintro s' rfl
  have h2 : ((s'.setFile f0 { s'.file f0 with count := 1 }).file f1).count = 0 := by
    rw [Kern.setFile_ne _ hne.symm, h1]
  refine ⟨(ha.takeFile h0).takeFile h2, rfl, ?_, ?_⟩
  · change ((Kern.setFile _ f1 _).file f0).count = 1
    rw [Kern.setFile_ne _ hne]
    change ((s'.setFile f0 _).file f0).count = 1
    rw [Kern.setFile_self]
  · change ((Kern.setFile _ f1 _).file f1).count = 1
    rw [Kern.setFile_self]

theorem filp_setFilp (s : Kern) (fd fd' : Fin 20) (p : Option (Fin 64)) :
    (s.setTask s.current { s.cur with filp := Function.update s.cur.filp fd p }).cur.filp fd' =
      if fd' = fd then p else s.cur.filp fd' := by
  change ((s.setTask s.current _).task s.current).filp fd' = _
  rw [Kern.setTask_self]
  exact Function.update_apply ..

theorem pipeFds {d0 d1 : Fin 20} {f0 f1 : Fin 64} (hd : d0 ≠ d1) : Spec R Fine
    (fun s => Acct h (0 + oneFd f0 + oneFd f1) ⟨{f1, f0}, []⟩ s ∧ (s.cur.filp d0 = none ∧ s.cur.filp d1 = none) ∧
      (s.file f0).count = 1 ∧ (s.file f1).count = 1)
    (do setFilp d0 (some f0); setFilp d1 (some f1)) fun _ => Acct h 0 ⟨{f1, f0}, [(d0, f0), (d1, f1)]⟩ := by
  intro s hs
  obtain ⟨ha, ⟨hd0, hd1⟩, hf0, hf1⟩ := hs
  have h1 := setFilp_new (R := R) rfl d0 f0 s ⟨ha, hd0⟩
  have h2 := setFilp_new (R := R) rfl d1 f1 _ ⟨h1, by rw [filp_setFilp, if_neg hd.symm, hd1]⟩
  have hg : (0 + oneFd f0 + oneFd f1 - oneFd f0 - oneFd f1 : Fin 64 → ℤ) = 0 := by abel
  rw [hg] at h2
  refine { h2 with fds := fun p hp => ?_ }
  obtain rfl | hp := List.mem_cons.mp hp
  · refine ⟨?_, hf0⟩
    change (Kern.cur (Kern.setTask _ _ _)).filp d0 = _
    rw [filp_setFilp, if_neg hd, filp_setFilp, if_pos rfl]
  · cases List.mem_singleton.mp hp
    refine ⟨?_, hf1⟩
    change (Kern.cur (Kern.setTask _ _ _)).filp d1 = _
    rw [filp_setFilp, if_pos rfl]

theorem pipeUndo {d0 d1 : Fin 20} {f0 f1 : Fin 64} (hd : d0 ≠ d1) : Spec R Fine
    (Acct h 0 ⟨{f1, f0}, [(d0, f0), (d1, f1)]⟩) (do setFilp d0 none; setFilp d1 none) fun _ s =>
      Acct h (0 + oneFd f0 + oneFd f1) ⟨{f1, f0}, []⟩ s ∧ (s.file f0).count = 1 ∧ (s.file f1).count = 1 := by
  intro s hs
  obtain ⟨hd0, hf0⟩ := hs.fds (d0, f0) (by simp)
  obtain ⟨hd1, hf1⟩ := hs.fds (d1, f1) (by simp)
  have h1 := setFilp_none (R := R) rfl d0 f0 s ⟨hs.unpin, hd0⟩
  have h2 := setFilp_none (R := R) rfl d1 f1 _ ⟨h1, by rw [filp_setFilp, if_neg hd.symm, hd1]⟩
  exact ⟨h2, hf0, hf1⟩

theorem pipeDrop {f0 f1 : Fin 64} (hne : f0 ≠ f1) : Spec R Fine
    (fun s => Acct h (0 + oneFd f0 + oneFd f1) ⟨{f1, f0}, []⟩ s ∧ (s.file f0).count = 1 ∧ (s.file f1).count = 1)
    (do setFCount f0 0; setFCount f1 0; return -1 : K ℤ) fun _ => Acct h 0 .none := by
  refine Spec.bind (M := fun _ s => Acct h (0 + oneFd f1) ⟨{f1}, []⟩ s ∧ (s.file f1).count = 1) ?_ fun _ => ?_
  · intro s hs
    obtain ⟨ha, hf0, hf1⟩ := hs
    rw [add_right_comm] at ha
    have hF : ∀ f', f' ≠ f0 → (f' ∈ ({f1} : Finset (Fin 64)) ↔ f' ∈ ({f1, f0} : Finset (Fin 64))) := fun f' hf => by simp [hf]
    refine ⟨setFCount_zero (R := R) (Finset.mem_insert_of_mem (Finset.mem_singleton_self f0)) hF s ⟨ha, hf0⟩, ?_⟩
    change ((s.setFile f0 _).file f1).count = 1
    rw [Kern.setFile_ne _ hne.symm, hf1]
  · refine (setFCount_zero (Finset.mem_singleton_self f1) fun f' hf => ?_).bind fun _ => Spec.pure fun _ hs => hs
    simp [hf]

theorem pipeSet {d0 d1 : Fin 20} {f0 f1 : Fin 64} (hne : f0 ≠ f1) (i : Fin 32) : Spec R Fine
    (Acct (h + one i + one i) 0 ⟨{f1, f0}, [(d0, f0), (d1, f1)]⟩) (do
      modFile f0 fun x => { x with inode := some i, pos := 0, mode := 1 }
      modFile f1 fun x => { x with inode := some i, pos := 0, mode := 2 }) fun _ => Acct h 0 .none := by
  intro s hs
  obtain ⟨-, hf0⟩ := hs.fds (d0, f0) (by simp)
  obtain ⟨-, hf1⟩ := hs.fds (d1, f1) (by simp)
  have h1 : Acct (h + one i) 0 ⟨{f1}, []⟩ (s.setFile f0 { s.file f0 with inode := some i, pos := 0, mode := 1 }) :=
    hs.unpin.setUp hf0 (by simp) (fun f' hf => by simp [hf]) (by simpa using hne) hf0 rfl
  have h2 : ((s.setFile f0 { s.file f0 with inode := some i, pos := 0, mode := 1 }).file f1).count = 1 := by
    rw [Kern.setFile_ne _ hne.symm, hf1]
  exact h1.setUp h2 (by simp) (fun f' hf => by simp [hf]) (Finset.notMem_empty f1) h2 rfl

theorem sysPipe_spec (h0 : ∀ s, Acct h 0 .none s → R s) :
    Spec R Fine (Acct h 0 .none) sysPipe fun _ => Acct h 0 .none := by
  refine Spec.get_bind fun s hs => ?_
  have hfail : Spec R Fine (fun s' => s' = s) (pure (-1) : K ℤ) fun _ => Acct h 0 .none :=
    Spec.pure fun s' hs' => by rw [hs']; exact hs
  match hff : freeFiles s with
  | [] => exact hfail
  | [_] => exact hfail
  | _ :: _ :: _ :: _ => exact hfail
  | [f0, f1] =>
    obtain ⟨hne, hc0, hc1⟩ := firstTwo hff
    refine Spec.assoc ((pipeFiles hne hs (by simpa using hc0) (by simpa using hc1)).bind fun _ => ?_)
    have hdrop : Spec R Fine (fun s' => Acct h (0 + oneFd f0 + oneFd f1) ⟨{f1, f0}, []⟩ s' ∧
        s'.cur = s.cur ∧ (s'.file f0).count = 1 ∧ (s'.file f1).count = 1)
        (do setFCount f0 0; setFCount f1 0; return -1 : K ℤ) fun _ => Acct h 0 .none :=
      (pipeDrop hne).pre fun _ hs' => ⟨hs'.1, hs'.2.2⟩
    match hfd : freeFds s with
    | [] => exact hdrop
    | [_] => exact hdrop
    | _ :: _ :: _ :: _ => exact hdrop
    | [d0, d1] =>
      obtain ⟨hd, hd0, hd1⟩ := firstTwo hfd
      refine Spec.assoc (((pipeFds (h := h) hd).pre fun s' hs' => ?_).bind fun _ => ?_)
      · refine ⟨hs'.1, ?_, hs'.2.2⟩
        rw [hs'.2.1]
        exact ⟨by simpa using hd0, by simpa using hd1⟩
      refine getPipeInode_spec.bind fun p => ?_
      cases p with
      | none =>
        refine Spec.assoc (((pipeUndo (h := h) hd).pre fun _ hs => ?_).bind fun _ => pipeDrop hne)
        simpa [oneOpt] using hs
      | some i =>
        refine Spec.assoc ((pipeSet hne i).bind fun _ => ?_)
        refine (access_spec h0).bind fun _ => (access_spec h0).bind fun _ => Spec.pure fun _ hs => hs

/-! ## stat, chdir, chroot, read, write -/

theorem sysStat_spec (hh : Mild 800 h) (hR : Held R h g half) (h0 : ∀ s, Acct h g half s → R s) (path : List UInt8) :
    Spec R Fine (Acct h g half) (sysStat path) fun _ => Acct h g half := by
  refine (namei_spec (hh.mono (by decide)) hR h0 path).bind fun p => ?_
  cases p with
  | none => exact Spec.pure fun _ hs => by simpa [oneOpt] using hs
  | some i =>
    refine (accesses_spec (fun s => hR.fault) _).bind fun _ => ?_
    exact iput_after i (hh i).1 (Spec.pure fun _ hs => hs)

theorem taskRefs_le_inodeRefs (s : Kern) (F : Finset (Fin 64)) (t : Fin 64) (i : Fin 32) :
    taskRefs i (s.task t) ≤ inodeRefs s F i := by
  have : taskRefs i (s.task t) ≤ ∑ t, taskRefs i (s.task t) :=
    Finset.single_le_sum (f := fun t => taskRefs i (s.task t)) (fun _ _ => Nat.zero_le _) (Finset.mem_univ t)
  unfold inodeRefs
  omega

theorem superRefs_le_inodeRefs (s : Kern) (F : Finset (Fin 64)) (k : Fin 8) (i : Fin 32) :
    superRefs i (s.super k) ≤ inodeRefs s F i := by
  have : superRefs i (s.super k) ≤ ∑ k, superRefs i (s.super k) :=
    Finset.single_le_sum (f := fun k => superRefs i (s.super k)) (fun _ _ => Nat.zero_le _) (Finset.mem_univ k)
  unfold inodeRefs
  omega

/-- A pointer of the running task is counted. -/
theorem Acct.task_pointer (ha : Acct h g half s) (hh : Mild 1000 h) {p : Option (Fin 32)}
    (hp : ∀ i, ptr p i ≤ taskRefs i s.cur) : ∀ i ∈ p, 0 < (s.inode i).count := by
  intro i hi
  have h1 := hp i
  have h2 : ptr p i = 1 := if_pos hi
  have h3 : taskRefs i s.cur ≤ inodeRefs s half.files i := taskRefs_le_inodeRefs s half.files s.current i
  have h4 := ha.inode i
  have h5 := hh i
  omega

theorem Acct.super_pointer (ha : Acct h g half s) (hh : Mild 1000 h) {k : Fin 8} {p : Option (Fin 32)}
    (hp : ∀ i, ptr p i ≤ superRefs i (s.super k)) : ∀ i ∈ p, 0 < (s.inode i).count := by
  intro i hi
  have h1 := hp i
  have h2 : ptr p i = 1 := if_pos hi
  have h3 := superRefs_le_inodeRefs s half.files k i
  have h4 := ha.inode i
  have h5 := hh i
  omega

/-- The running task drops the pointer `p` and gets `q`. -/
theorem exchange_spec (hh : Mild 800 h) (τ : Task) (p q : Option (Fin 32)) {f : Task → Task}
    (hp : ∀ i, ptr p i ≤ taskRefs i τ) (hf : (f τ).state = τ.state ∧ (f τ).filp = τ.filp ∧
      ∀ i, taskRefs i (f τ) + ptr p i = taskRefs i τ + ptr q i) :
    Spec R Fine (fun s => Acct (h + oneOpt q) g half s ∧ s.cur = τ) (do iput p; modTask f) fun _ s =>
      Acct h g half s ∧ s.cur = f τ := by
  intro s hs
  obtain ⟨ha, rfl⟩ := hs
  have hm : Mild 1000 (h + oneOpt q) := by
    intro i
    have h1 := hh i
    have h2 := ptr_le q i
    rw [Pi.add_apply, oneOpt_apply]
    omega
  refine (Spec.bind (iput_pointer p s (ha.task_pointer hm hp)) fun _ => Spec.modify fun s' hs' => ?_) s ⟨rfl, ha⟩
  obtain ⟨ha', hsame⟩ := hs'
  have hcur := hsame.cur
  refine ⟨ha'.setCur ?_ (.inr ?_) (fun i => ?_) fun f' => ?_, ?_⟩
  · rw [hcur, hf.1]
    exact ha.live
  · rw [hcur]
    exact hf.2.1
  · have h1 := hf.2.2 i
    rw [hcur, Pi.sub_apply, Pi.add_apply, oneOpt_apply, oneOpt_apply]
    omega
  · rw [hcur]
    simp only [taskFds, hf.2.1]
  · change (s'.setTask s'.current _).task s'.current = _
    rw [Kern.setTask_self, hcur]

theorem changeDir_spec (hh : Mild 800 h) (hR : Held R h g half) (h0 : ∀ s, Acct h g half s → R s) (path : List UInt8)
    {p : Task → Option (Fin 32)} {set : Task → Fin 32 → Task} (hp : ∀ τ i, ptr (p τ) i ≤ taskRefs i τ)
    (hs : ∀ τ j, (set τ j).state = τ.state ∧ (set τ j).filp = τ.filp ∧
      ∀ i, taskRefs i (set τ j) + ptr (p τ) i = taskRefs i τ + ptr (some j) i) :
    Spec R Fine (Acct h g half) (changeDir path p set) fun _ => Acct h g half := by
  refine (namei_spec (hh.mono (by decide)) hR h0 path).bind fun o => ?_
  cases o with
  | none => exact Spec.pure fun _ hs => by simpa [oneOpt] using hs
  | some i =>
    refine Spec.get_bind fun s ha => Spec.ite (fun _ => ?_) fun _ => ?_
    · have hput : Spec R Fine (Acct (h + one i) g half) (do iput (some i); return -eNOTDIR : K ℤ)
          fun _ => Acct h g half := iput_after i (hh i).1 (Spec.pure fun _ hs => hs)
      refine hput.pre fun s' hs' => ?_
      rw [hs']
      exact ha
    · have hex : Spec R Fine (fun s' => Acct (h + oneOpt (some i)) g half s' ∧ s'.cur = s.cur)
          (do iput (p s.cur); modTask fun τ => set τ i) fun _ s' => Acct h g half s' ∧ s'.cur = set s.cur i :=
        exchange_spec hh s.cur (p s.cur) (some i) (hp s.cur) (hs s.cur i)
      refine Spec.assoc ((hex.pre fun s' hs' => ?_).bind fun _ => Spec.pure fun _ hs => hs.1)
      rw [hs']
      exact ⟨ha, rfl⟩

theorem sysChdir_spec (hh : Mild 800 h) (hR : Held R h g half) (h0 : ∀ s, Acct h g half s → R s) (path : List UInt8) :
    Spec R Fine (Acct h g half) (sysChdir path) fun _ => Acct h g half := by
  refine changeDir_spec hh hR h0 path (fun τ i => ?_) fun τ j => ⟨rfl, rfl, fun i => ?_⟩
  · unfold taskRefs
    omega
  · dsimp only [taskRefs]
    omega

theorem sysChroot_spec (hh : Mild 800 h) (hR : Held R h g half) (h0 : ∀ s, Acct h g half s → R s) (path : List UInt8) :
    Spec R Fine (Acct h g half) (sysChroot path) fun _ => Acct h g half := by
  refine changeDir_spec hh hR h0 path (fun τ i => ?_) fun τ j => ⟨rfl, rfl, fun i => ?_⟩
  · unfold taskRefs
    omega
  · dsimp only [taskRefs]
    omega

theorem readLoop_spec (h0 : ∀ s, Acct h g half s → R s) (i : Fin 32) (f : Fin 64) (n left : ℕ) :
    Spec R Fine (Acct h g half) (readLoop i f n left) fun _ => Acct h g half := by
  induction n generalizing left with
  | zero => exact Spec.pure fun _ hs => hs
  | succ n ih =>
    refine Spec.ite (fun _ => Spec.pure fun _ hs => hs) fun _ => Spec.get fun s _ => ?_
    refine (bmapCreate_keeps i _ false).acct.bind fun block => Spec.ite (fun _ => ?_) fun _ => ?_
    · refine Spec.bind (M := fun _ => Acct h g half) (modFile_acct f fun _ => ⟨rfl, rfl⟩) fun _ => ?_
      exact (accesses_spec h0 _).bind fun _ => (ih _).bind fun _ => Spec.pure fun _ hs => hs
    · refine (bread_keeps _ _).acct.bind fun ok => Spec.ite (fun _ => ?_) fun _ => Spec.pure fun _ hs => hs
      refine Spec.bind (M := fun _ => Acct h g half) (modFile_acct f fun _ => ⟨rfl, rfl⟩) fun _ => ?_
      refine Spec.get fun s' _ => (accesses_spec h0 _).bind fun _ => (brelse_keeps _ _).acct.bind fun _ => ?_
      exact (ih _).bind fun _ => Spec.pure fun _ hs => hs

theorem sysRead_spec (h0 : ∀ s, Acct h g half s → R s) (fd count : ℕ) :
    Spec R Fine (Acct h g half) (sysRead fd count) fun _ => Acct h g half := by
  have hdone : ∀ r : ℤ × List UInt8, Spec R Fine (Acct h g half) (pure r : K _) fun _ => Acct h g half := fun r =>
    Spec.pure fun _ hs => hs
  have hread : ∀ i f n, Spec R Fine (Acct h g half) (fileRead i f n) fun _ => Acct h g half := fun i f n =>
    Spec.ite (fun _ => hdone _) fun _ => (readLoop_spec h0 i f _ _).bind fun _ => hdone _
  refine Spec.get fun s _ => ?_
  cases filp s fd with
  | none => exact hdone _
  | some f =>
    refine Spec.ite (fun _ => hdone _) fun _ => ?_
    dsimp only
    cases (s.file f).inode with
    | none => exact hdone _
    | some i => exact Spec.ite (fun _ => Spec.ite (fun _ => hdone _) fun _ => hread i f _) fun _ => hdone _

theorem getBytes_spec (h0 : ∀ s, Acct h g half s → R s) (d b c : ℕ) (l : List UInt8) :
    Spec R Fine (Acct h g half) (getBytes d b c l) fun _ => Acct h g half := by
  induction l generalizing c with
  | nil => exact Spec.pure fun _ hs => hs
  | cons x l ih =>
    refine (access_spec h0).bind fun _ => Spec.bind (M := fun _ => Acct h g half) ?_ fun _ => ih _
    exact Spec.modify fun s hs => hs.core (core_disk _ _)

theorem writeLoop_spec (h0 : ∀ s, Acct h g half s → R s) (i : Fin 32) (n pos : ℕ) (buf : List UInt8) :
    Spec R Fine (Acct h g half) (writeLoop i n pos buf) fun _ => Acct h g half := by
  induction n generalizing pos buf with
  | zero => exact Spec.pure fun _ hs => hs
  | succ n ih =>
    refine Spec.ite (fun _ => Spec.pure fun _ hs => hs) fun _ => Spec.get fun s _ => ?_
    refine (bmapCreate_keeps i _ true).acct.bind fun block => Spec.ite (fun _ => Spec.pure fun _ hs => hs) fun _ => ?_
    refine (bread_keeps _ _).acct.bind fun ok => Spec.ite (fun _ => ?_) fun _ => Spec.pure fun _ hs => hs
    refine Spec.bind (M := fun _ => Acct h g half) (modInode_acct i fun x => ?_) fun _ => ?_
    · split_ifs <;> rfl
    · exact (getBytes_spec h0 _ _ _ _).bind fun _ => (brelse_keeps _ _).acct.bind fun _ => ih _ _

theorem sysWrite_spec (h0 : ∀ s, Acct h g half s → R s) (fd : ℕ) (buf : List UInt8) :
    Spec R Fine (Acct h g half) (sysWrite fd buf) fun _ => Acct h g half := by
  have hdone : ∀ r : ℤ, Spec R Fine (Acct h g half) (pure r : K _) fun _ => Acct h g half := fun r =>
    Spec.pure fun _ hs => hs
  refine Spec.get fun s _ => ?_
  cases filp s fd with
  | none => exact hdone _
  | some f =>
    refine Spec.ite (fun _ => hdone _) fun _ => ?_
    dsimp only
    cases (s.file f).inode with
    | none => exact hdone _
    | some i =>
      refine Spec.ite (fun _ => Spec.get fun s' _ => (writeLoop_spec h0 i _ _ _).bind fun r => ?_) fun _ => hdone _
      dsimp only
      refine Spec.ite (fun _ => hdone _) fun _ => ?_
      exact Spec.bind (M := fun _ => Acct h g half) (modFile_acct f fun _ => ⟨rfl, rfl⟩) fun _ => hdone _

end Linux011.Fs

/-
  mount, umount, execve, exit and fork in terms of `Acct`, and what follows for every run: between
  calls each count is the number of pointers, and neither of the two panics of a lost reference
  is ever met.
-/
import Linux011.Fs.RefCalls
import Mathlib.Algebra.BigOperators.Fin

namespace Linux011.Fs

open Linux011.Lib

variable {R : Kern → Prop} {h : Fin 32 → ℤ} {g : Fin 64 → ℤ} {half : Half} {s : Kern}

/-! ## mount, umount -/

theorem nameiBlk_spec (hh : Mild 800 h) (hR : Held R h g half) (h0 : ∀ s, Acct h g half s → R s)
    (path : List UInt8) (err : ℤ) : Spec R Fine (Acct h g half) (nameiBlk path err) fun _ => Acct h g half := by
  refine (namei_spec (hh.mono (by decide)) hR h0 path).bind fun p => ?_
  cases p with
  | none => exact Spec.pure fun _ hs => by simpa [oneOpt] using hs
  | some i => exact Spec.get fun s _ => iput_after i (hh i).1 (Spec.pure fun _ hs => hs)

/-- A super block drops one of its pointers. -/
theorem Acct.dropMount (hh : Mild 800 h) (k : Fin 8) (p : Option (Fin 32)) {f : Super → Super} (x : Super)
    (hp : ∀ i, ptr p i ≤ superRefs i x) (hf : ∀ i, superRefs i (f x) + ptr p i = superRefs i x)
    (hx : ∀ r : ℕ, (x.dev = 0 → x.isup = none ∧ x.imount = none) ∧ (x.isup ≠ none → x.dev = r) →
      ((f x).dev = 0 → (f x).isup = none ∧ (f x).imount = none) ∧ ((f x).isup ≠ none → (f x).dev = r)) :
    Spec R Fine (fun s => Acct h g half s ∧ s.super k = x) (do iput p; modSuper k f) fun _ s =>
      Acct h g half s ∧ s.super k = f x := by
  intro s hs
  obtain ⟨ha, rfl⟩ := hs
  refine (Spec.bind (iput_pointer p s (ha.super_pointer (hh.mono (by decide)) hp)) fun _ => Spec.modify fun s' hs' => ?_)
    s ⟨rfl, ha⟩
  obtain ⟨ha', hsame⟩ := hs'
  have hk : s'.super k = s.super k := by rw [hsame.super]
  rw [hk]
  refine ⟨ha'.setSuper (fun i => ?_) ?_, by rw [Kern.setSuper_self]⟩
  · have h1 := hf i
    rw [hk, Pi.sub_apply, oneOpt_apply]
    omega
  · rw [hsame.rootDev]
    exact hx _ (ha.mounts k)

theorem sysUmount_spec (hh : Mild 800 h) (hR : Held R h g half) (h0 : ∀ s, Acct h g half s → R s)
    (path : List UInt8) : Spec R Fine (Acct h g half) (sysUmount path) fun _ => Acct h g half := by
  refine (nameiBlk_spec hh hR h0 path _).bind fun r => ?_
  cases r with
  | inl err => exact Spec.pure fun _ hs => hs
  | inr d =>
    refine Spec.get_bind fun s hs => ?_
    have hdone : ∀ err : ℤ, Spec R Fine (fun s' => s' = s) (pure err : K ℤ) fun _ => Acct h g half := fun err =>
      Spec.pure fun s' hs' => by rw [hs']; exact hs
    refine Spec.ite (fun _ => hdone _) fun _ => ?_
    refine Spec.bind (M := fun _ s' => s' = s) ?_ fun k => ?_
    · exact Spec.get_bind fun s' hs' => Spec.pure fun s'' hs'' => hs''.trans hs'
    cases k with
    | none => exact hdone _
    | some k =>
      dsimp only
      cases hm : (s.super k).imount with
      | none => exact hdone _
      | some m =>
        refine Spec.ite (fun _ => hdone _) fun _ => ?_
        refine Spec.bind (M := fun _ s' => Acct h g half s' ∧ s'.super k = s.super k) ?_ fun _ => ?_
        · refine Spec.modify fun s' hs' => ?_
          rw [hs']
          exact ⟨hs.core (core_setInode s m rfl), rfl⟩
        refine Spec.assoc (Spec.bind (M := fun _ s' => Acct h g half s' ∧ s'.super k = { s.super k with imount := none })
          ?_ fun _ => ?_)
        · refine Acct.dropMount hh k (some m) (s.super k) (fun i => ?_) (fun i => ?_) fun r hr => ⟨fun h0 => ?_, hr.2⟩
          · simp only [superRefs, hm]
            omega
          · simp [superRefs, hm, ptr]
          · exact ⟨(hr.1 h0).1, rfl⟩
        refine Spec.get_bind fun s' hs' => ?_
        rw [hs'.2]
        refine Spec.assoc (Spec.bind (M := fun _ => Acct h g half) ?_ fun _ => ?_)
        · refine ((Acct.dropMount hh k (s.super k).isup { s.super k with imount := none } (fun i => ?_) (fun i => ?_)
            fun r hr => ⟨fun _ => ⟨rfl, rfl⟩, fun hne => absurd rfl hne⟩).pre fun s'' hs'' => ?_).post fun _ _ hs'' => hs''.1
          · simp [superRefs, ptr]
          · simp [superRefs, ptr]
          · rw [hs'']
            exact hs'
        · exact (putSuper_spec d).bind fun _ => Spec.pure fun _ hs => hs

theorem sysMount_spec (hh : Mild 800 h) (hR : Held R h g half) (h0 : ∀ s, Acct h g half s → R s)
    (devName dirName : List UInt8) :
    Spec R Fine (Acct h g half) (sysMount devName dirName) fun _ => Acct h g half := by
  refine (nameiBlk_spec hh hR h0 devName _).bind fun r => ?_
  cases r with
  | inl err => exact Spec.pure fun _ hs => hs
  | inr d =>
    refine (namei_spec (hh.mono (by decide)) hR h0 dirName).bind fun p => ?_
    cases p with
    | none => exact Spec.pure fun _ hs => by simpa [oneOpt] using hs
    | some i =>
      have hput : ∀ err : ℤ, Spec R Fine (Acct (h + one i) g half) (do iput (some i); return err : K ℤ)
          fun _ => Acct h g half := fun err => iput_after i (hh i).1 (Spec.pure fun _ hs => hs)
      refine Spec.get fun s _ => Spec.ite (fun _ => hput _) fun _ => Spec.ite (fun _ => hput _) fun _ => ?_
      refine (readSuper_spec d).bind fun k => ?_
      cases k with
      | none => exact (hput _).pre fun _ hs => hs.1
      | some k =>
        refine Spec.get_bind fun s' hs => ?_
        have hput' : ∀ err : ℤ, Spec R Fine (fun s => s = s') (do iput (some i); return err : K ℤ)
            fun _ => Acct h g half := fun err => (hput err).pre fun _ hs' => by rw [hs']; exact hs.1
        refine Spec.ite (fun _ => hput' _) fun hm => Spec.ite (fun _ => hput' _) fun _ => ?_
        refine Spec.bind (M := fun _ => Acct h g half) ?_ fun _ => ?_
        · refine Spec.modify fun s'' hs' => ?_
          rw [hs']
          obtain ⟨hdev, hd⟩ := hs.2 k rfl
          refine hs.1.setSuper (fun j => ?_) ⟨fun h1 => absurd (hdev.symm.trans h1) hd, (hs.1.mounts k).2⟩
          have h1 : ptr none j = 0 := rfl
          simp only [superRefs, not_not.mp hm, Pi.add_apply, oneOpt_apply, h1]
          push_cast
          omega
        · refine Spec.bind (M := fun _ => Acct h g half) (modInode_acct i fun _ => rfl) fun _ => ?_
          exact Spec.pure fun _ hs => hs

/-! ## execve -/

theorem closeMarked_spec (hh : Mild 800 h) : Spec R Fine (Acct h 0 .none) closeMarked fun _ => Acct h 0 .none := by
  refine Spec.bind (M := fun _ => Acct h 0 .none) (Spec.each (fun fd => ?_) _) fun _ => ?_
  · refine Spec.get fun s _ => Spec.ite (fun _ => ?_) fun _ => Spec.pure fun _ hs => hs
    exact (sysClose_spec hh fd.val).bind fun _ => Spec.pure fun _ hs => hs
  · exact modTask_acct fun _ => ⟨rfl, rfl, rfl, rfl, rfl⟩

theorem newExecutable (hh : Mild 800 h) (i : Fin 32) (hs : Acct (h + one i) g half s) : Spec R Fine (fun s' => s' = s)
    (do iput s.cur.executable; modTask fun τ => { τ with executable := some i }) fun _ => Acct h g half := by
  have hex : Spec R Fine (fun s' => Acct (h + oneOpt (some i)) g half s' ∧ s'.cur = s.cur)
      (do iput s.cur.executable; modTask fun τ => { τ with executable := some i }) fun _ s' =>
        Acct h g half s' ∧ s'.cur = { s.cur with executable := some i } := by
    refine exchange_spec hh s.cur _ (some i) (fun j => ?_) ⟨rfl, rfl, fun j => ?_⟩
    · unfold taskRefs
      omega
    · dsimp only [taskRefs]
      omega
  refine hex.conseq (fun s' hs' => ?_) fun _ _ hs' => hs'.1
  rw [hs']
  exact ⟨hs, rfl⟩

theorem execInode_spec (hh : Mild 800 h) (hR : Held R h 0 .none) (h0 : ∀ s, Acct h 0 .none s → R s) (args : ExecArgs)
    (script : Bool) (n : ℕ) (i : Fin 32) :
    Spec R Fine (Acct (h + one i) 0 .none) (execInode args script n i) fun _ => Acct h 0 .none := by
  induction n generalizing script i with
  | zero => exact Spec.halt (by decide)
  | succ n ih =>
    have hdone : ∀ err : ℤ, Spec R Fine (Acct h 0 .none) (pure err : K ℤ) fun _ => Acct h 0 .none := fun err =>
      Spec.pure fun _ hs => hs
    have hput : ∀ err : ℤ, Spec R Fine (Acct (h + one i) 0 .none) (do iput (some i); return err : K ℤ)
        fun _ => Acct h 0 .none := fun err => iput_after i (hh i).1 (hdone err)
    refine Spec.get fun s _ => Spec.ite (fun _ => hput _) fun _ => Spec.ite (fun _ => hput _) fun _ => ?_
    refine (bread_keeps _ _).acct.bind fun ok => Spec.ite (fun _ => ?_) fun _ => hput _
    refine Spec.get fun s' _ => (brelse_keeps _ _).acct.bind fun _ => Spec.ite (fun _ => ?_) fun _ => ?_
    · refine iput_after i (hh i).1 ?_
      cases interpreter _ with
      | none => exact hdone _
      | some interp =>
        refine (accesses_spec h0 _).bind fun _ => Spec.ite (fun _ => ?_) fun _ => hdone _
        refine (namei_spec (hh.mono (by decide)) hR h0 interp).bind fun p => ?_
        cases p with
        | none => exact Spec.pure fun _ hs => by simpa [oneOpt] using hs
        | some j => exact ih true j
    · refine Spec.ite (fun _ => hput _) fun _ => ?_
      have hrest : Spec R Fine (Acct (h + one i) 0 .none) (do
          if ¬ script ∧ ¬ args.fits then do
            iput (some i)
            return -eNOMEM
          else do
            let s' ← Prog.get
            iput s'.cur.executable
            modTask fun τ => { τ with executable := some i }
            closeMarked
            modTask fun τ => { τ with
              euid := if has (s.inode i).mode 0o4000 then (s.inode i).uid else τ.euid
              egid := if has (s.inode i).mode 0o2000 then (s.inode i).gid else τ.egid }
            return 0 : K ℤ) fun _ => Acct h 0 .none := by
        refine Spec.ite (fun _ => hput _) fun _ => Spec.get_bind fun s'' hs => ?_
        refine Spec.assoc ((newExecutable hh i hs).bind fun _ => (closeMarked_spec hh).bind fun _ => ?_)
        exact Spec.bind (M := fun _ => Acct h 0 .none) (modTask_acct fun _ => ⟨rfl, rfl, rfl, rfl, rfl⟩) fun _ => hdone _
      dsimp only
      exact Spec.ite (fun _ => hrest) fun _ => (accesses_spec (fun s => hR.fault) _).bind fun _ => hrest

theorem doExecve_spec (hh : Mild 800 h) (hR : Held R h 0 .none) (h0 : ∀ s, Acct h 0 .none s → R s) (path : List UInt8)
    (args : ExecArgs) : Spec R Fine (Acct h 0 .none) (doExecve path args) fun _ => Acct h 0 .none := by
  refine (namei_spec (hh.mono (by decide)) hR h0 path).bind fun p => ?_
  cases p with
  | none => exact Spec.pure fun _ hs => by simpa [oneOpt] using hs
  | some i => exact (accesses_spec (fun s => hR.fault) _).bind fun _ => execInode_spec hh hR h0 args false 2 i

/-! ## exit -/

/-- The account between calls; nobody need be running. -/
structure Counted (h : Fin 32 → ℤ) (s : Kern) : Prop where
  inode : ∀ i, ((s.inode i).count : ℤ) = inodeRefs s ∅ i + h i
  word : ∀ i, (s.inode i).count < 65536
  file : ∀ f, (s.file f).count = fdRefs s f
  idle : ∀ t, (s.task t).state ≠ .live → (s.task t).Empty
  mounts : SuperOk s

theorem Acct.counted (ha : Acct h 0 .none s) : Counted h s :=
  ⟨ha.inode, ha.word, fun f => Int.ofNat_inj.mp ((ha.file f).trans (Int.add_zero _)), ha.idle, ha.mounts⟩

theorem Counted.acct (hc : Counted h s) (hl : s.cur.state = .live) : Acct h 0 .none s :=
  ⟨hc.inode, hc.word, fun f => (Int.ofNat_inj.mpr (hc.file f)).trans (Int.add_zero _).symm, hc.idle, hl, hc.mounts, nofun⟩

theorem Counted.enter (hc : Counted h s) {t : Fin 64} (ht : (s.task t).state = .live) (env : Env) :
    Acct h 0 .none (s.enter t env) :=
  Counted.acct ⟨hc.inode, hc.word, hc.file, hc.idle, hc.mounts⟩ ht

/-- Descriptors that are not in the list are closed. -/
def Closed (l : List (Fin 20)) (s : Kern) : Prop := ∀ fd, fd ∉ l → s.cur.filp fd = none

theorem closeFd_closed (fd : Fin 20) (f : Fin 64) (l : List (Fin 20)) :
    Spec (fun _ => True) (fun _ => True) (Closed (fd :: l)) (closeFd fd f) fun _ => Closed l := by
  refine Spec.bind (M := fun _ => Closed l) ?_ fun _ => Spec.get fun s _ => Spec.ite (fun _ => Spec.halt trivial) fun _ => ?_
  · intro s hs fd' hfd'
    change (Kern.cur (Kern.setTask _ _ _)).filp fd' = none
    rw [filp_setFilp]
    split_ifs with he
    · rfl
    · exact hs fd' (List.mem_cons.not.mpr (not_or.mpr ⟨he, hfd'⟩))
  refine Spec.bind (M := fun _ => Closed l) (Spec.modify fun s' hs' => hs') fun _ => ?_
  have hput : Spec (fun _ => True) (fun _ => True) (Closed l) (iput (s.file f).inode) fun _ => Closed l := by
    intro s' hs'
    refine ((iput_same _ s').post fun _ s'' hsame fd' hfd' => ?_) s' (Same.refl s')
    rw [hsame.cur]
    exact hs' fd' hfd'
  dsimp only
  exact Spec.ite (fun _ => hput.bind fun _ => Spec.pure fun _ hs => hs) fun _ => Spec.pure fun _ hs => hs

theorem sysClose_closed (fd : Fin 20) (l : List (Fin 20)) :
    Spec (fun _ => True) (fun _ => True) (Closed (fd :: l)) (sysClose fd.val) fun _ => Closed l := by
  unfold sysClose
  rw [dif_pos fd.isLt]
  refine Spec.bind (M := fun _ => Closed (fd :: l)) ?_ fun _ => Spec.get_bind fun s hs => ?_
  · intro s hs fd' hfd'
    change ((s.setTask s.current _).task s.current).filp fd' = none
    rw [Kern.setTask_self]
    exact hs fd' hfd'
  cases hf : s.cur.filp ⟨fd.val, fd.isLt⟩ with
  | none =>
    refine Spec.pure fun s' hs' fd' hfd' => ?_
    rw [hs']
    by_cases he : fd' = fd
    · rw [he]
      exact hf
    · exact hs fd' (List.mem_cons.not.mpr (not_or.mpr ⟨he, hfd'⟩))
  | some f =>
    refine (closeFd_closed fd f l).pre fun s' hs' => ?_
    rw [hs']
    exact hs

theorem closeAll_spec (hh : Mild 800 h) : Spec R Fine (Acct h 0 .none) (Prog.each (fun fd => do
    let s ← Prog.get
    match s.cur.filp fd with
    | none => pure ()
    | some _ =>
      let _ ← sysClose fd.val) (List.finRange 20)) fun _ s => Acct h 0 .none s ∧ Closed [] s := by
  refine Spec.pre (Spec.each_rest (P := fun l s => Acct h 0 .none s ∧ Closed l s) (fun fd l => ?_) (List.finRange 20))
    fun s hs => ⟨hs, fun fd hfd => absurd (List.mem_finRange fd) hfd⟩
  refine Spec.get_bind fun s hs => ?_
  cases hf : s.cur.filp fd with
  | none =>
    refine Spec.pure fun s' hs' => ?_
    rw [hs']
    refine ⟨hs.1, fun fd' hfd' => ?_⟩
    by_cases he : fd' = fd
    · rw [he, hf]
    · exact hs.2 fd' (List.mem_cons.not.mpr (not_or.mpr ⟨he, hfd'⟩))
  | some f =>
    refine (((sysClose_spec hh fd.val).and (sysClose_closed fd l)).pre fun s' hs' => ?_).bind fun _ => Spec.pure fun _ hs => hs
    rw [hs']
    exact hs

theorem dropPointer (hh : Mild 800 h) (τ : Task) (p : Option (Fin 32)) {f : Task → Task} (hp : ∀ i, ptr p i ≤ taskRefs i τ)
    (hf : (f τ).state = τ.state ∧ (f τ).filp = τ.filp ∧ ∀ i, taskRefs i (f τ) + ptr p i = taskRefs i τ) :
    Spec R Fine (fun s => Acct h g half s ∧ s.cur = τ) (do iput p; modTask f) fun _ s => Acct h g half s ∧ s.cur = f τ := by
  refine (exchange_spec hh τ p none hp ⟨hf.1, hf.2.1, hf.2.2⟩).pre fun s hs => ?_
  simpa [oneOpt] using hs

/-- The last pointer goes and the task is a zombie. -/
theorem Acct.zombie {p : Option (Fin 32)} (ha : Acct (h - oneOpt p) 0 .none s) (hfd : s.cur.filp = fun _ => none)
    (h1 : s.cur.pwd = none) (h2 : s.cur.root = none) (h3 : s.cur.executable = p) :
    Counted h (s.setTask s.current { s.cur with executable := none, state := .zombie }) := by
  have hcur : s.task s.current = s.cur := rfl
  refine ⟨fun i => ?_, ha.word, fun f => ?_, fun t ht => ?_, ha.mounts⟩
  · have h4 := inodeRefs_setTask s s.current { s.cur with executable := none, state := .zombie } ∅ i
    have h5 : ((s.inode i).count : ℤ) = inodeRefs s ∅ i + (h - oneOpt p) i := ha.inode i
    have h6 : taskRefs i { s.cur with executable := none, state := .zombie } = 0 := by simp [taskRefs, h1, h2, ptr]
    have h7 : taskRefs i s.cur = ptr p i := by simp [taskRefs, h1, h2, h3, ptr]
    rw [Pi.sub_apply, oneOpt_apply] at h5
    rw [hcur, h6, h7] at h4
    change ((s.inode i).count : ℤ) = _
    omega
  · have h4 := fdRefs_setTask s s.current { s.cur with executable := none, state := .zombie } f
    have h5 := ha.counted.file f
    have h6 : taskFds f { s.cur with executable := none, state := .zombie } = taskFds f s.cur := rfl
    rw [hcur] at h4
    change (s.file f).count = _
    omega
  · by_cases hc : t = s.current
    · subst hc
      rw [Kern.setTask_self]
      exact ⟨hfd, h1, h2, rfl⟩
    · rw [Kern.setTask_ne _ hc] at ht ⊢
      exact ha.idle t ht

theorem doExit_spec (hh : Mild 800 h) : Spec R Fine (Acct h 0 .none) doExit fun _ => Counted h := by
  refine (closeAll_spec hh).bind fun _ => Spec.get_bind fun s hs => ?_
  have hfd : s.cur.filp = fun _ => none := funext fun fd => hs.2 fd (List.not_mem_nil)
  have hpwd : Spec R Fine (fun s' => s' = s) (do iput s.cur.pwd; modTask fun τ => { τ with pwd := none }) fun _ s' =>
      Acct h 0 .none s' ∧ s'.cur = { s.cur with pwd := none } := by
    refine Spec.pre (dropPointer hh s.cur s.cur.pwd (fun i => ?_) ⟨rfl, rfl, fun i => ?_⟩) fun s' hs' => ?_
    · unfold taskRefs
      omega
    · have : ptr none i = 0 := rfl
      dsimp only [taskRefs]
      omega
    · rw [hs']
      exact ⟨hs.1, rfl⟩
  refine Spec.assoc (hpwd.bind fun _ => Spec.get_bind fun s1 hs1 => ?_)
  have hroot : Spec R Fine (fun s' => s' = s1) (do iput s1.cur.root; modTask fun τ => { τ with root := none }) fun _ s' =>
      Acct h 0 .none s' ∧ s'.cur = { s1.cur with root := none } := by
    refine Spec.pre (dropPointer hh s1.cur s1.cur.root (fun i => ?_) ⟨rfl, rfl, fun i => ?_⟩) fun s' hs' => ?_
    · unfold taskRefs
      omega
    · have : ptr none i = 0 := rfl
      dsimp only [taskRefs]
      omega
    · rw [hs']
      exact ⟨hs1.1, rfl⟩
  refine Spec.assoc (hroot.bind fun _ => Spec.get_bind fun s2 hs2 => ?_)
  have hpos : ∀ i ∈ s2.cur.executable, 0 < (s2.inode i).count := by
    refine hs2.1.task_pointer (hh.mono (by decide)) fun i => ?_
    unfold taskRefs
    omega
  refine Spec.bind (M := fun _ s' => Acct (h - oneOpt s2.cur.executable) 0 .none s' ∧ Same s2 s') ?_ fun _ =>
    Spec.modify fun s' hs' => ?_
  · exact (iput_pointer s2.cur.executable s2 hpos).pre fun s' hs' => ⟨hs', by rw [hs']; exact hs2.1⟩
  · have hcur : s'.cur = { s.cur with pwd := none, root := none } := by
      rw [hs'.2.cur, hs2.2, hs1.2]
    have hexec : s2.cur.executable = s.cur.executable := by rw [hs2.2, hs1.2]
    rw [hexec] at hs'
    exact hs'.1.zombie (by rw [hcur]; exact hfd) (by rw [hcur]) (by rw [hcur]) (by rw [hcur])

/-! ## fork -/

/-- The child's pointers are there before they are counted. -/
theorem Acct.copyTask (ha : Acct h 0 .none s) {c : Fin 64} (hc : (s.task c).state = .free) :
    Acct (fun i => h i - taskRefs i s.cur) (fun f => -(taskFds f s.cur : ℤ)) .none
      (s.setTask c { s.cur with leader := false }) := by
  have hne : s.current ≠ c := by
    rintro rfl
    exact nomatch ha.live.symm.trans hc
  have hempty : (s.task c).Empty := ha.idle c (by rw [hc]; decide)
  have hcur : (s.setTask c { s.cur with leader := false }).cur = s.cur := Kern.setTask_ne _ hne _
  refine ⟨fun i => ?_, ha.word, fun f => ?_, fun t ht => ?_, by rw [hcur]; exact ha.live, ha.mounts, nofun⟩
  · have h1 := inodeRefs_setTask s c { s.cur with leader := false } ∅ i
    have h2 : ((s.inode i).count : ℤ) = inodeRefs s ∅ i + h i := ha.inode i
    have h3 : taskRefs i (s.task c) = 0 := by simp [taskRefs, hempty.2.1, hempty.2.2.1, hempty.2.2.2, ptr]
    have h4 : taskRefs i { s.cur with leader := false } = taskRefs i s.cur := rfl
    change ((s.inode i).count : ℤ) = (inodeRefs (s.setTask c { s.cur with leader := false }) ∅ i : ℤ) + _
    omega
  · have h1 := fdRefs_setTask s c { s.cur with leader := false } f
    have h2 := ha.counted.file f
    have h3 : taskFds f (s.task c) = 0 := by simp [taskFds, hempty.1, fdRef]
    have h4 : taskFds f { s.cur with leader := false } = taskFds f s.cur := rfl
    change ((s.file f).count : ℤ) = _
    omega
  · by_cases he : t = c
    · subst he
      rw [Kern.setTask_self] at ht
      exact absurd ha.live ht
    · rw [Kern.setTask_ne _ he] at ht ⊢
      exact ha.idle t ht

/-- The descriptors of the list that point to `f`. -/
def listFds (τ : Task) (l : List (Fin 20)) (f : Fin 64) : ℕ := (l.map fun fd => fdRef f (τ.filp fd)).sum

theorem copyFds_spec (τ : Task) (fd : Fin 20) (l : List (Fin 20)) : Spec R Fine
    (fun s => Acct h (fun f => -(listFds τ (fd :: l) f : ℤ)) .none s ∧ ∀ d f, τ.filp d = some f → (s.file f).count ≠ 0)
    (match τ.filp fd with
      | none => pure ()
      | some f => incFCount f)
    fun _ s => Acct h (fun f => -(listFds τ l f : ℤ)) .none s ∧ ∀ d f, τ.filp d = some f → (s.file f).count ≠ 0 := by
  cases hf : τ.filp fd with
  | none =>
    have hl : listFds τ (fd :: l) = listFds τ l := by
      funext f
      simp [listFds, hf, fdRef]
    rw [hl]
    exact Spec.pure fun _ hs => hs
  | some f =>
    refine Spec.modify fun s hs => ?_
    obtain ⟨ha, hpos⟩ := hs
    have hl : ∀ f', listFds τ (fd :: l) f' = fdRef f' (some f) + listFds τ l f' := by
      intro f'
      simp [listFds, hf]
    have h1 := ha.file f
    have h2 := fdRefs_le s f
    have h3 : fdRef f (some f) = 1 := if_pos rfl
    rw [hl, h3] at h1
    have hc : ((s.file f).count + 1) % 65536 = (s.file f).count + 1 := Nat.mod_eq_of_lt (by omega)
    refine ⟨ha.setFile (fun _ _ => Iff.rfl) (.inl rfl) (fun i => ?_) ?_ fun f' hf' => ?_, fun d f' hd => ?_⟩
    · simp [fileRefs, hc, hpos fd f hf]
    · dsimp only
      rw [hc]
      push_cast at h1 ⊢
      omega
    · have h4 : fdRef f' (some f) = 0 := if_neg fun he => hf' (Option.some.inj he).symm
      rw [hl, h4, Nat.zero_add]
    · by_cases he : f' = f
      · subst he
        rw [Kern.setFile_self]
        dsimp only
        omega
      · rw [Kern.setFile_ne _ he]
        exact hpos d f' hd

theorem incOpt_spec (p : Option (Fin 32)) (hh : ∀ i, h i ≤ 1000) :
    Spec R Fine (Acct h g half) (incOpt p) fun _ => Acct (h + oneOpt p) g half := by
  cases p with
  | none => exact Spec.pure fun _ hs => by simpa [oneOpt] using hs
  | some i => exact incCount_spec i (hh i)

theorem copyProcess_spec (hh : Mild 800 h) (c : Fin 64) : Spec R Fine
    (fun s => Acct h 0 .none s ∧ (s.task c).state = .free) (copyProcess c) fun _ => Acct h 0 .none := by
  refine Spec.get_bind fun s hs => ?_
  obtain ⟨ha, hc⟩ := hs
  have hfds : ∀ f, listFds s.cur (List.finRange 20) f = taskFds f s.cur := fun f => (Fin.sum_univ_def _).symm
  refine Spec.bind (M := fun _ s' => Acct (fun i => h i - taskRefs i s.cur)
    (fun f => -(listFds s.cur (List.finRange 20) f : ℤ)) .none s' ∧
      ∀ d f, s.cur.filp d = some f → (s'.file f).count ≠ 0) ?_ fun _ => ?_
  · refine Spec.modify fun s' hs' => ?_
    rw [hs']
    refine ⟨?_, fun d f hd => ha.count_pos hd⟩
    simp only [hfds]
    exact ha.copyTask hc
  refine (Spec.each_rest (P := fun l s' => Acct (fun i => h i - taskRefs i s.cur)
    (fun f => -(listFds s.cur l f : ℤ)) .none s' ∧ ∀ d f, s.cur.filp d = some f → (s'.file f).count ≠ 0)
    (copyFds_spec s.cur) (List.finRange 20)).bind fun _ => ?_
  have hstart : ∀ s', Acct (fun i => h i - taskRefs i s.cur) (fun f => -(listFds s.cur [] f : ℤ)) .none s' ∧
      (∀ d f, s.cur.filp d = some f → (s'.file f).count ≠ 0) → Acct (fun i => h i - taskRefs i s.cur) 0 .none s' := fun s' hs' => hs'.1
  have h1 : ∀ i, h i - taskRefs i s.cur ≤ 800 := fun i => by
    have := (hh i).2
    omega
  have h2 : ∀ p i, oneOpt p i ≤ 1 := fun p i => by
    have := ptr_le p i
    rw [oneOpt_apply]
    omega
  refine ((incOpt_spec s.cur.pwd fun i => (h1 i).trans (by decide)).pre hstart).bind fun _ => ?_
  refine (incOpt_spec s.cur.root fun i => ?_).bind fun _ => (incOpt_spec s.cur.executable fun i => ?_).post fun _ s' hs' => ?_
  · have := h1 i
    have := h2 s.cur.pwd i
    dsimp only [Pi.add_apply]
    omega
  · have := h1 i
    have := h2 s.cur.pwd i
    have := h2 s.cur.root i
    dsimp only [Pi.add_apply]
    omega
  · have he : (fun i => h i - (taskRefs i s.cur : ℤ)) + oneOpt s.cur.pwd + oneOpt s.cur.root + oneOpt s.cur.executable = h := by
      funext i
      simp only [Pi.add_apply, oneOpt_apply, taskRefs]
      push_cast
      omega
    rw [he] at hs'
    exact hs'

/-! ## mount_root -/

/-- No file system is mounted yet. -/
structure Fresh (τ : Task) (r : ℕ) (s : Kern) : Prop where
  super : ∀ k, (s.super k).isup = none ∧ (s.super k).imount = none
  rootDev : s.rootDev = r
  cur : s.cur = τ

variable {τ : Task} {r : ℕ}

theorem Fresh.same {s' : Kern} (hs : Fresh τ r s) (h : Same s s') : Fresh τ r s' :=
  ⟨fun k => by rw [h.super]; exact hs.super k, h.rootDev.trans hs.rootDev, h.cur.trans hs.cur⟩

theorem Sames.fresh {α : Type} {m : K α} (hm : Sames m) :
    Spec (fun _ => True) (fun _ => True) (Fresh τ r) m fun _ => Fresh τ r := fun s hs =>
  (hm s).post (fun _ _ hsame => hs.same hsame) s (Same.refl s)

theorem modSuper_fresh (k : Fin 8) {f : Super → Super}
    (hf : ∀ x, x.isup = none → x.imount = none → (f x).isup = none ∧ (f x).imount = none) :
    Spec (fun _ => True) (fun _ => True) (Fresh τ r) (modSuper k f) fun _ => Fresh τ r := by
  refine Spec.modify fun s hs => ⟨fun j => ?_, hs.rootDev, hs.cur⟩
  by_cases hj : j = k
  · subst hj
    rw [Kern.setSuper_self]
    exact hf _ (hs.super j).1 (hs.super j).2
  · rw [Kern.setSuper_ne _ hj]
    exact hs.super j

theorem readSuper_fresh (d : ℕ) :
    Spec (fun _ => True) (fun _ => True) (Fresh τ r) (readSuper d) fun _ => Fresh τ r := by
  have hput : ∀ d, Spec (fun _ => True) (fun _ => True) (Fresh τ r) (putSuper d) fun _ => Fresh τ r := by
    refine fun d => Spec.get fun s _ => Spec.ite (fun _ => Spec.pure fun _ hs => hs) fun _ => ?_
    refine (getSuper_keeps d).same.fresh.bind fun k => ?_
    cases k with
    | none => exact Spec.pure fun _ hs => hs
    | some k =>
      refine Spec.ite (fun _ => Spec.pure fun _ hs => hs) fun _ => ?_
      exact modSuper_fresh k fun _ h1 h2 => ⟨h1, h2⟩
  have hchange : Spec (fun _ => True) (fun _ => True) (Fresh τ r) (checkDiskChange d) fun _ => Fresh τ r := by
    refine Spec.get fun s _ => Spec.ite (fun _ => Spec.pure fun _ hs => hs) fun _ => ?_
    refine Spec.bind (M := fun _ => Fresh τ r) (Spec.each (fun k => ?_) _) fun _ => (invalidateInodes_keeps d).same.fresh
    exact Spec.get fun s _ => Spec.ite (fun _ => hput d) fun _ => Spec.pure fun _ hs => hs
  refine Spec.ite (fun _ => Spec.pure fun _ hs => hs) fun _ => hchange.bind fun _ => ?_
  refine (getSuper_keeps d).same.fresh.bind fun k => ?_
  cases k with
  | some k => exact Spec.pure fun _ hs => hs
  | none =>
    refine Spec.get fun s _ => ?_
    cases (List.finRange 8).find? fun k => (s.super k).dev = 0 with
    | none => exact Spec.pure fun _ hs => hs
    | some k =>
      refine Spec.bind (M := fun _ => Fresh τ r) (modSuper_fresh k fun _ _ _ => ⟨rfl, rfl⟩) fun _ => Spec.ite (fun _ => ?_) fun _ => ?_
      · refine Spec.bind (M := fun _ => Fresh τ r) ?_ fun _ => Spec.pure fun _ hs => hs
        exact modSuper_fresh k fun _ h1 h2 => ⟨h1, h2⟩
      · refine (setImap_keeps d 0 true).same.fresh.bind fun _ => ?_
        exact (setZmap_keeps d 0 true).same.fresh.bind fun _ => Spec.pure fun _ hs => hs

theorem iget_same (d nr : ℕ) : Sames (iget d nr) := by
  have hempty : Sames getEmptyInode := by
    refine Sames.get fun s => Sames.bind (fun s₀ => Spec.modify fun _ hs => hs.trans ⟨rfl, rfl, rfl, rfl⟩) fun _ => ?_
    dsimp only
    cases (scanEmpty s 32 s.lastInode none).1 with
    | none => exact Sames.halt _
    | some i =>
      refine (writeInode_keeps i).same.bind fun _ => Sames.get fun s' => Sames.ite (Sames.halt _) ?_
      exact (Sames.modInode i _).bind fun _ => Sames.pure _
  have hloop : ∀ (empty : Fin 32) (n d nr : ℕ), Sames (igetLoop empty n d nr) := by
    intro empty n
    induction n with
    | zero => exact fun _ _ => Sames.halt _
    | succ n ih =>
      intro d nr
      refine Sames.get fun s => ?_
      cases incoreInode s d nr with
      | none =>
        refine (Sames.modInode empty _).bind fun _ => (readInode_keeps empty).same.bind fun _ => Sames.pure _
      | some i =>
        have hend : Sames (do iput (some empty); return i : K (Fin 32)) :=
          (iput_same (some empty)).bind fun _ => Sames.pure _
        refine (Sames.modInode i _).bind fun _ => Sames.ite ?_ hend
        cases (List.finRange 8).find? fun k => (s.super k).imount = some i with
        | none => exact hend
        | some k => exact (iput_same (some i)).bind fun _ => ih _ _
  exact Sames.ite (Sames.halt _) (hempty.bind fun empty => hloop empty 9 d nr)

/-- The tables when `mount_root` has cleared them. -/
def Kern.cleared (s : Kern) : Kern :=
  { s with file := fun f => { s.file f with count := 0 }, super := fun k => { s.super k with dev := 0 } }

theorem Booted.acct (hb : Booted s) : Acct 0 0 .none s.cleared := by
  have htask : ∀ t, (s.task t).Empty := by
    intro t
    by_cases ht : t = s.current
    · subst ht
      exact hb.cur.2
    · exact hb.task t ht
  refine ⟨fun i => ?_, fun i => ?_, fun f => ?_, fun t _ => htask t, hb.cur.1, fun k => ?_, nofun⟩
  · have h1 : inodeRefs s.cleared ∅ i = 0 := by
      have h2 : ∀ t, taskRefs i (s.task t) = 0 := fun t => by
        simp [taskRefs, (htask t).2.1, (htask t).2.2.1, (htask t).2.2.2, ptr]
      have h3 : ∀ k, superRefs i { s.super k with dev := 0 } = 0 := fun k => by
        simp [superRefs, (hb.super k).1, (hb.super k).2, ptr]
      simp [inodeRefs, Kern.cleared, h2, h3, fileRefs]
    change ((s.inode i).count : ℤ) = (inodeRefs s.cleared ∅ i : ℤ) + 0
    rw [h1, hb.inode]
    rfl
  · change (s.inode i).count < 65536
    rw [hb.inode]
    decide
  · have h1 : fdRefs s.cleared f = 0 := by
      have h2 : ∀ t, taskFds f (s.task t) = 0 := fun t => by simp [taskFds, (htask t).1, fdRef]
      simp [fdRefs, Kern.cleared, h2]
    rw [h1]
    rfl
  · exact ⟨fun _ => hb.super k, fun hne => absurd (hb.super k).1 hne⟩

theorem mountRoot_spec : Spec R Fine Booted mountRoot fun _ => Counted 0 := by
  intro s₀ hb
  have hstart : Fresh s₀.cur s₀.rootDev s₀.cleared := ⟨hb.super, rfl, rfl⟩
  refine (Spec.bind (P := fun s => s = s₀) (M := fun _ s => s = s₀.cleared) (Spec.modify fun s hs => ?_) fun _ =>
    Spec.get_bind fun s hs => ?_) s₀ rfl
  · rw [hs]
    rfl
  have hread : Spec R Fine (fun s' => s' = s) (readSuper s.rootDev) fun p s' =>
      (Acct 0 0 .none s' ∧ ∀ k ∈ p, (s'.super k).dev = s.rootDev ∧ s.rootDev ≠ 0) ∧ Fresh s₀.cur s₀.rootDev s' := by
    refine ((readSuper_spec s.rootDev).and (readSuper_fresh s.rootDev)).pre fun s' hs' => ?_
    rw [hs', hs]
    exact ⟨hb.acct, hstart⟩
  refine hread.bind fun p => ?_
  cases p with
  | none => exact Spec.halt (by decide)
  | some k =>
    have higet : Spec R Fine (fun s' => (Acct 0 0 .none s' ∧ ∀ k' ∈ some k, (s'.super k').dev = s.rootDev ∧ s.rootDev ≠ 0) ∧
        Fresh s₀.cur s₀.rootDev s') (iget s.rootDev 1) fun mi s' =>
          (Acct (0 + one mi) 0 .none s' ∧ (s'.super k).dev = s.rootDev ∧ s.rootDev ≠ 0) ∧ Fresh s₀.cur s₀.rootDev s' := by
      intro s1 hs1
      refine ((iget_spec (Mild.zero (by decide)) s.rootDev 1).and (iget_same s.rootDev 1 s1)).post (fun mi s2 hs2 => ?_) s1
        ⟨hs1.1.1, Same.refl s1⟩
      refine ⟨⟨hs2.1, ?_⟩, hs1.2.same hs2.2⟩
      rw [hs2.2.super]
      exact hs1.1.2 k rfl
    refine higet.bind fun mi => ?_
    -- three more references, for pwd, root and the second pointer of the super block
    refine Spec.bind (M := fun _ s' => (Acct (fun j => 4 * one mi j) 0 .none s' ∧ (s'.super k).dev = s.rootDev ∧ s.rootDev ≠ 0) ∧
      Fresh s₀.cur s₀.rootDev s') (Spec.modify fun s' hs' => ?_) fun _ => ?_
    · refine ⟨⟨?_, hs'.1.2⟩, hs'.2.super, hs'.2.rootDev, hs'.2.cur⟩
      have h1 : (s'.inode mi).count + 10 < 65536 := hs'.1.1.count_lt (by simp)
      have h2 := hs'.1.1.inode mi
      refine hs'.1.1.setInode (Nat.mod_lt _ (by decide)) ?_ fun j hj => by simp [one, hj]
      dsimp only
      rw [Nat.mod_eq_of_lt (by omega), one_self]
      simp only [Pi.add_apply, Pi.zero_apply, one_self] at h2
      push_cast
      omega
    refine Spec.bind (M := fun _ s' => Acct (fun j => 2 * one mi j) 0 .none s' ∧ s'.cur = s₀.cur)
      (Spec.modify fun s' hs' => ?_) fun _ => Spec.modify fun s' hs' => ?_
    · obtain ⟨⟨ha, hdev, hne⟩, hf⟩ := hs'
      have hroot : s.rootDev = s'.rootDev := by
        rw [hs, hf.rootDev]
        rfl
      refine ⟨ha.setSuper (fun j => ?_) ⟨fun h0 => absurd (hdev.symm.trans h0) hne, fun _ => hdev.trans hroot⟩,
        hf.cur⟩
      have h1 : one mi j = (ptr (some mi) j : ℤ) := oneOpt_apply (some mi) j
      have h2 : ptr none j = 0 := rfl
      simp only [superRefs, (hf.super k).1, (hf.super k).2, h1, h2]
      push_cast
      omega
    · refine Acct.counted (hs'.1.setCur hs'.1.live (.inl rfl) (fun j => ?_) fun f => ?_)
      · have h1 : one mi j = (ptr (some mi) j : ℤ) := oneOpt_apply (some mi) j
        have h2 : ptr none j = 0 := rfl
        rw [hs'.2]
        simp only [taskRefs, hb.cur.2.2.1, hb.cur.2.2.2.1, hb.cur.2.2.2.2, h1, h2, Pi.zero_apply]
        push_cast
        omega
      · rfl

/-! ## Every run -/

/-- A call that ends leaves the counts right, and it does not stop for a wrong one. -/
theorem call_spec (c : Call) : Spec (fun _ => True) Fine (fun s => Acct 0 0 .none s ∧ c.Pre s) c.run fun _ => Counted 0 := by
  have hh : Mild 800 0 := Mild.zero (by decide)
  have hR : Held (fun _ => True) 0 0 .none := fun _ _ _ _ _ => trivial
  have h0 : ∀ s, Acct 0 0 .none s → True := fun _ _ => trivial
  have hcall : ∀ {α : Type} {m : K α}, Spec (fun _ => True) Fine (Acct 0 0 .none) m (fun _ => Acct 0 0 .none) →
      ∀ P : Kern → Prop, Spec (fun _ => True) Fine (fun s => Acct 0 0 .none s ∧ P s) (Prog.void m) fun _ => Counted 0 :=
    fun hm P => Spec.void (hm.conseq (fun _ hs => hs.1) fun _ _ hs => hs.counted)
  have hopen : ∀ path flag mode, Spec (fun _ => True) Fine (Acct 0 0 .none) (sysOpen path flag mode) fun _ =>
      Acct 0 0 .none := sysOpen_spec hh (fun _ _ _ _ _ _ _ => trivial) fun _ _ _ _ => trivial
  cases c with
  | «open» path flag mode => exact hcall (hopen path flag mode) _
  | creat path mode => exact hcall (hopen path _ mode) _
  | close fd => exact hcall (sysClose_spec hh fd) _
  | dup fd => exact hcall (dupfd_spec fd 0) _
  | dup2 oldfd newfd => exact hcall ((sysClose_spec hh newfd).bind fun _ => dupfd_spec oldfd newfd) _
  | fcntl fd cmd arg => exact hcall (sysFcntl_spec fd cmd arg) _
  | pipe => exact hcall (sysPipe_spec h0) _
  | execve path args => exact hcall (doExecve_spec hh hR h0 path args) _
  | chdir path => exact hcall (sysChdir_spec hh hR h0 path) _
  | chroot path => exact hcall (sysChroot_spec hh hR h0 path) _
  | mount devName dirName => exact hcall (sysMount_spec hh hR h0 devName dirName) _
  | umount path => exact hcall (sysUmount_spec hh hR h0 path) _
  | stat path => exact hcall (sysStat_spec hh hR h0 path) _
  | link oldname newname => exact hcall (sysLink_spec hh hR h0 oldname newname) _
  | unlink path => exact hcall (sysUnlink_spec hh hR h0 path) _
  | mkdir path mode => exact hcall (sysMkdir_spec hh hR h0 path mode) _
  | rmdir path => exact hcall (sysRmdir_spec hh hR h0 path) _
  | mknod path mode dev => exact hcall (sysMknod_spec hh hR h0 path mode dev) _
  | read fd count => exact hcall (sysRead_spec h0 fd count) _
  | write fd buf => exact hcall (sysWrite_spec h0 fd buf) _
  | fork c => exact (copyProcess_spec hh c).post fun _ _ hs => hs.counted
  | exit => exact (doExit_spec hh).pre fun _ hs => hs.1

theorem Counted.release (hc : Counted h s) {t : Fin 64} (ht : (s.task t).state = .zombie) :
    Counted h (s.setTask t Task.none) := by
  have hempty := hc.idle t (by rw [ht]; decide)
  refine ⟨fun i => ?_, hc.word, fun f => ?_, fun t' ht' => ?_, hc.mounts⟩
  · have h1 := inodeRefs_setTask s t Task.none ∅ i
    have h2 := hc.inode i
    have h3 : taskRefs i (s.task t) = 0 := by simp [taskRefs, hempty.2.1, hempty.2.2.1, hempty.2.2.2, ptr]
    have h4 : taskRefs i Task.none = 0 := rfl
    change ((s.inode i).count : ℤ) = _
    omega
  · have h1 := fdRefs_setTask s t Task.none f
    have h2 := hc.file f
    have h3 : taskFds f (s.task t) = 0 := by simp [taskFds, hempty.1, fdRef]
    have h4 : taskFds f Task.none = 0 := by simp [taskFds, Task.none, fdRef]
    change (s.file f).count = _
    omega
  · by_cases he : t' = t
    · subst he
      rw [Kern.setTask_self]
      exact ⟨rfl, rfl, rfl, rfl⟩
    · rw [Kern.setTask_ne _ he] at ht' ⊢
      exact hc.idle t' ht'

theorem Call.Pre.enter {c : Call} (hc : c.Pre s) (t : Fin 64) (env : Env) : c.Pre (s.enter t env) := by
  cases c <;> exact hc

theorem Counted.step {e : CallEvent} {s' : Kern} (hc : Counted 0 s) (hstep : CallStep s e s') : Counted 0 s' := by
  cases hstep with
  | call ht hpre hrun =>
    rename_i t env c
    have := call_spec c (s.enter t env) ⟨hc.enter ht env, hpre.enter t env⟩
    rw [hrun] at this
    exact this
  | release ht => exact hc.release ht

theorem reachable_counted (hr : callSystem.Reachable s) : Counted 0 s := by
  refine hr.invariant (fun s hs => ?_) fun s e s' _ hc hstep => ?_
  · obtain ⟨s₀, hb, hm⟩ := hs
    have := mountRoot_spec (R := fun _ => True) s₀ hb
    rw [hm] at this
    exact this
  · exact hc.step hstep

/-- Only live tasks have descriptors. -/
theorem Counted.live_fds (hc : Counted h s) (f : Fin 64) :
    fdRefs s f = ∑ t with (s.task t).state = .live, taskFds f (s.task t) := by
  refine (Finset.sum_filter_of_ne fun t _ hne => ?_).symm
  by_contra hl
  exact hne (by simp [taskFds, (hc.idle t hl).1, fdRef])

theorem Counted.inode_eq (hc : Counted 0 s) (i : Fin 32) : (s.inode i).count = inodeRefs s ∅ i :=
  Int.ofNat_inj.mp ((hc.inode i).trans (Int.add_zero _))

/-- One task and a root device with nothing on it but a super block and the root directory. -/
def bootKern : Kern where
  inode _ := MInode.zero
  lastInode := 0
  super _ := ⟨⟨0, 0, 0, 0, 0, 0⟩, 0, none, none⟩
  file _ := ⟨0, 0, 0, none, 0⟩
  task t := if t = 0 then { Task.none with state := .live } else Task.none
  disk _ := ⟨⟨64, 1440, 1, 1, 16, 0x137F⟩, fun _ => true, fun _ => true,
    fun n => if n = 1 then ⟨0o040755, 0, 32, 0, 2, fun _ => 0⟩ else MInode.zero.toDInode, fun _ => Block.zero⟩
  bcount _ _ := 0
  rootDev := 769
  current := 0
  env := ⟨none, false, true⟩

theorem booted_bootKern : Booted bootKern := by
  refine ⟨fun _ => rfl, fun _ => ⟨rfl, rfl⟩, fun _ => rfl, ⟨rfl, rfl, rfl, rfl, rfl⟩, fun t ht => ?_, fun _ _ => rfl⟩
  have ht : t ≠ 0 := ht
  simp [bootKern, ht, Task.none]

/-- After `mount_root`. -/
def rootKern : Option Kern := (mountRoot bootKern).state?

theorem reachable_rootKern (hs : rootKern = some s) : callSystem.Reachable s := by
  obtain ⟨_, hroot⟩ := Out.state?_eq_some.mp hs
  exact .init ⟨bootKern, booted_bootKern, hroot⟩

end Linux011.Fs

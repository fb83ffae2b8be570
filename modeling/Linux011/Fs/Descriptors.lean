/-
  What the calls do to the descriptors of a task: `filp`, `close_on_exec` and `file_table`. The
  specifications follow the code, one for each function, and say what holds where it faults too.
-/
import Linux011.Fs.RefCalls
import Linux011.Fs.Tabled

namespace Linux011.Fs

open Linux011.Lib

/-! ## The descriptors of a task -/

structure Fds where
  filp : Fin 20 → Option (Fin 64)
  closeOnExec : Fin 20 → Bool

def Task.fds (τ : Task) : Fds := ⟨τ.filp, τ.closeOnExec⟩

namespace Fds

def none : Fds := ⟨fun _ => .none, fun _ => false⟩

/-- Only descriptors that are open have their flag set. -/
def Sound (v : Fds) : Prop := ∀ i, v.closeOnExec i = true → v.filp i ≠ .none

/-- `fd` as an argument of a call -/
def get (v : Fds) (fd : ℕ) : Option (Fin 64) := if h : fd < 20 then v.filp ⟨fd, h⟩ else .none

def clear (v : Fds) (fd : Fin 20) : Fds := { v with closeOnExec := Function.update v.closeOnExec fd false }

def mark (v : Fds) (fd : Fin 20) (b : Bool) : Fds := { v with closeOnExec := Function.update v.closeOnExec fd b }

def set (v : Fds) (fd : Fin 20) (p : Option (Fin 64)) : Fds := { v with filp := Function.update v.filp fd p }

def close (v : Fds) (fd : Fin 20) : Fds := (v.clear fd).set fd .none

/-- What an execve leaves open. -/
def exec (v : Fds) : Fds := ⟨fun i => if v.closeOnExec i then .none else v.filp i, fun _ => false⟩

variable {v : Fds} {fd : Fin 20}

theorem get_eq_some {n : ℕ} {f : Fin 64} (h : v.get n = some f) : ∃ fd : Fin 20, fd.val = n ∧ v.filp fd = some f := by
  unfold get at h
  split_ifs at h with hn
  exact ⟨⟨n, hn⟩, rfl, h⟩

@[simp] theorem get_val (v : Fds) (fd : Fin 20) : v.get fd = v.filp fd := dif_pos fd.isLt

/-- On a free descriptor there is no flag to clear. -/
theorem Sound.clear_free (h : v.Sound) (hfd : v.filp fd = .none) : v.clear fd = v := by
  have hflag : v.closeOnExec fd = false := by
    by_contra hc
    exact h fd (by simpa using hc) hfd
  unfold clear
  rw [← hflag, Function.update_eq_self]

theorem set_free (hfd : v.filp fd = .none) : v.set fd .none = v := by
  unfold set
  rw [← hfd, Function.update_eq_self]

theorem set_undo (hfd : v.filp fd = .none) (p : Option (Fin 64)) : (v.set fd p).set fd .none = v := by
  unfold set
  dsimp only
  rw [Function.update_idem, ← hfd, Function.update_eq_self]

theorem Sound.clear (h : v.Sound) (fd : Fin 20) : (v.clear fd).Sound := by
  intro i hi
  unfold Fds.clear at hi
  by_cases hfd : i = fd
  · subst hfd
    simp at hi
  · exact h i (by simpa [Function.update_of_ne hfd] using hi)

theorem Sound.set_some (h : v.Sound) (fd : Fin 20) (f : Fin 64) : (v.set fd (some f)).Sound := by
  intro i hi
  unfold Fds.set
  by_cases hfd : i = fd
  · subst hfd
    simp
  · simpa [Function.update_of_ne hfd] using h i hi

theorem Sound.mark (h : v.Sound) (hfd : v.filp fd ≠ .none) (b : Bool) : (v.mark fd b).Sound := by
  intro i hi
  by_cases hi' : i = fd
  · subst hi'
    exact hfd
  · exact h i (by simpa [Fds.mark, Function.update_of_ne hi'] using hi)

theorem Sound.close (h : v.Sound) (fd : Fin 20) : (v.close fd).Sound := by
  intro i hi
  by_cases hfd : i = fd
  · subst hfd
    simp [Fds.close, Fds.clear, Fds.set] at hi
  · have hi' : v.closeOnExec i = true := by simpa [Fds.close, Fds.clear, Fds.set, Function.update_of_ne hfd] using hi
    simpa [Fds.close, Fds.clear, Fds.set, Function.update_of_ne hfd] using h i hi'

theorem Sound.none : Fds.none.Sound := nofun

theorem Sound.exec (v : Fds) : v.exec.Sound := nofun

end Fds

/-! ## A task with its descriptors -/

/-- Task `t` runs, with the descriptors `v` and with `T` as `file_table`; the other tasks have the
    descriptors `F`. -/
structure Has (F : Fin 64 → Fds) (t : Fin 64) (T : Fin 64 → File) (v : Fds) (s : Kern) : Prop where
  current : s.current = t
  own : s.cur.fds = v
  rest : ∀ u, u ≠ t → (s.task u).fds = F u
  file : s.file = T

/-- Where a call is cut short, the flags are those of open descriptors. -/
def Cut (F : Fin 64 → Fds) (t : Fin 64) (s : Kern) : Prop := ∃ T v, v.Sound ∧ Has F t T v s

/-- How a call that works on descriptors ends. -/
abbrev Fdwise {α : Type} (F : Fin 64 → Fds) (t : Fin 64) (P : Kern → Prop) (m : K α) (Q : α → Kern → Prop) : Prop :=
  Spec (Cut F t) (fun _ => True) P m Q

variable {α : Type} {F : Fin 64 → Fds} {t : Fin 64} {T : Fin 64 → File} {v : Fds} {s s' : Kern}

theorem Has.cut (h : Has F t T v s) (hv : v.Sound) : Cut F t s := ⟨T, v, hv, h⟩

theorem Has.filp (h : Has F t T v s) : s.cur.filp = v.filp := by rw [← h.own]; rfl

theorem Has.closeOnExec (h : Has F t T v s) : s.cur.closeOnExec = v.closeOnExec := by rw [← h.own]; rfl

theorem Has.get (h : Has F t T v s) (fd : ℕ) : Fs.filp s fd = v.get fd := by
  unfold Fs.filp Fds.get
  rw [h.filp]

theorem Has.tabled (h : Has F t T v s) (ht : Tabled s s') : Has F t T v s' where
  current := ht.current.trans h.current
  own := by rw [ht.cur, h.own]
  rest u hu := by rw [ht.task, h.rest u hu]
  file := ht.file.trans h.file

/-- The start of a call of task `t`. -/
theorem Has.enter (s : Kern) (t : Fin 64) (env : Env) : Has (fun u => (s.task u).fds) t s.file (s.task t).fds (s.enter t env) :=
  ⟨rfl, rfl, fun _ _ => rfl, rfl⟩

theorem Leaves.has {m : K α} (h : Leaves m) (hv : v.Sound) : Fdwise F t (Has F t T v) m fun _ => Has F t T v := by
  intro s hs
  have h1 := h s s (Tabled.refl s)
  cases he : m s with
  | ok a s' => rw [he] at h1; exact hs.tabled h1
  | fault s' => rw [he] at h1; exact (hs.tabled h1).cut hv
  | stop e => trivial

/-- A change of the task that runs. -/
theorem modTask_has {f : Task → Task} {v' : Fds} (hf : ∀ τ : Task, τ.fds = v → (f τ).fds = v') :
    Fdwise F t (Has F t T v) (modTask f) fun _ => Has F t T v' := by
  refine Spec.modify fun s hs => ⟨hs.current, ?_, fun u hu => ?_, hs.file⟩
  · rw [show (s.setTask s.current (f s.cur)).cur = f s.cur from Kern.setTask_self ..]
    exact hf _ hs.own
  · rw [Kern.setTask_ne _ (fun he => hu (he.trans hs.current))]
    exact hs.rest u hu

/-- A change of what is not a descriptor. -/
theorem modTask_keeps {f : Task → Task} (hf : ∀ τ : Task, (f τ).fds = τ.fds) :
    Fdwise F t (Has F t T v) (modTask f) fun _ => Has F t T v :=
  modTask_has fun τ hτ => (hf τ).trans hτ

theorem clearOnExec_has (fd : Fin 20) : Fdwise F t (Has F t T v) (clearOnExec fd) fun _ => Has F t T (v.clear fd) :=
  modTask_has fun τ hτ => by rw [← hτ]; rfl

theorem setFilp_has (fd : Fin 20) (p : Option (Fin 64)) :
    Fdwise F t (Has F t T v) (setFilp fd p) fun _ => Has F t T (v.set fd p) :=
  modTask_has fun τ hτ => by rw [← hτ]; rfl

theorem modFile_has (f : Fin 64) (g : File → File) :
    Fdwise F t (Has F t T v) (modFile f g) fun _ => Has F t (Function.update T f (g (T f))) v :=
  Spec.modify fun _ hs => ⟨hs.current, hs.own, hs.rest, by rw [← hs.file]; rfl⟩

/-! ## open -/

/-- The errors of `open_namei` are negative. -/
def Refuses (m : K (ℤ ⊕ Fin 32)) : Prop :=
  Spec (fun _ => True) (fun _ => True) (fun _ => True) m fun r _ => ∀ e, r = .inl e → e < 0

namespace Refuses

theorem bind {m : K α} {f : α → K (ℤ ⊕ Fin 32)} (hf : ∀ a, Refuses (f a)) : Refuses (m >>= f) := by
  refine Spec.bind (M := fun _ _ => True) (fun s _ => ?_) hf
  cases m s with
  | ok a s' => exact True.intro
  | fault s' => exact True.intro
  | stop e => exact True.intro

theorem err {e : ℤ} (he : e < 0) : Refuses (pure (.inl e)) := Spec.pure fun _ _ e' h => by
  cases h
  exact he

theorem inode (i : Fin 32) : Refuses (pure (.inr i)) := Spec.pure fun _ _ => nofun

theorem ite {c : Prop} [Decidable c] {m n : K (ℤ ⊕ Fin 32)} (hm : Refuses m) (hn : Refuses n) :
    Refuses (if c then m else n) :=
  Spec.ite (fun _ => hm) fun _ => hn

end Refuses

theorem openNamei_refuses (path : List UInt8) (flag mode : ℕ) : Refuses (openNamei path flag mode) := by
  have hput : ∀ (dir : Fin 32) {e : ℤ}, e < 0 → Refuses (iput (some dir) >>= fun _ => pure (.inl e)) := fun _ _ he =>
    Refuses.bind fun _ => Refuses.err he
  refine Refuses.bind fun p => ?_
  obtain _ | ⟨dir, name⟩ := p
  · exact Refuses.err (by decide)
  refine Refuses.ite (Refuses.ite (Refuses.inode dir) (hput dir (by decide))) (Refuses.bind fun r => ?_)
  obtain ⟨dir, _ | e⟩ := r
  · refine Refuses.bind fun s => Refuses.ite (hput dir (by decide)) (Refuses.ite (hput dir (by decide)) ?_)
    refine Refuses.bind fun p => ?_
    cases p with
    | none => exact hput dir (by decide)
    | some i =>
      refine Refuses.bind fun _ => Refuses.bind fun e => ?_
      cases e with
      | none => exact Refuses.bind fun _ => hput dir (by decide)
      | some e =>
        exact Refuses.bind fun s => Refuses.bind fun _ => Refuses.bind fun _ => Refuses.bind fun _ => Refuses.inode i
  · refine Refuses.bind fun s => Refuses.bind fun nr => Refuses.bind fun _ => Refuses.bind fun _ => ?_
    refine Refuses.ite (Refuses.err (by decide)) (Refuses.bind fun i => Refuses.bind fun s => ?_)
    exact Refuses.ite (hput i (by decide)) (Refuses.ite (Refuses.bind fun _ => Refuses.inode i) (Refuses.inode i))

theorem freeFd_has (h : Has F t T v s) {fd : Fin 20} (hfd : freeFd s = some fd) : v.filp fd = none := by
  have h1 := List.find?_some hfd
  rw [h.filp] at h1
  simpa using h1

theorem freeFile_has (h : Has F t T v s) {f : Fin 64} (hf : freeFile s = some f) : (T f).count = 0 := by
  have h1 := List.find?_some hf
  rw [h.file] at h1
  simpa using h1

/-- An entry that was free is free again. -/
theorem count_undone {f : Fin 64} (hf : (T f).count = 0) (n : ℕ) :
    Function.update (Function.update T f { T f with count := n }) f
      { Function.update T f { T f with count := n } f with count := 0 } = T := by
  rw [Function.update_idem, Function.update_self]
  dsimp only
  rw [← hf, Function.update_eq_self]

theorem undoOpen_has {fd : Fin 20} {f : Fin 64} {n : ℕ} {err : ℤ} (hfd : v.filp fd = none) (hf : (T f).count = 0) :
    Fdwise F t (Has F t (Function.update T f { T f with count := n }) (v.set fd (some f))) (undoOpen fd f err) fun r s =>
      r = err ∧ Has F t T v s := by
  refine (setFilp_has fd none).bind fun _ => (modFile_has f _).bind fun _ => Spec.pure fun s hs => ⟨rfl, ?_⟩
  rw [count_undone hf, Fds.set_undo hfd] at hs
  exact hs

theorem openTty_has (i : Fin 32) : Fdwise F t (Has F t T v) (openTty i) fun _ => Has F t T v := by
  refine Spec.get fun s _ => Spec.ite (fun _ => ?_) fun _ => Spec.pure fun _ hs => hs
  refine Spec.ite (fun _ => ?_) fun _ => Spec.pure fun _ hs => hs
  refine Spec.ite (fun _ => ?_) fun _ => Spec.pure fun _ hs => hs
  exact (modTask_keeps fun _ => by rfl).bind fun _ => Spec.pure fun _ hs => hs

/-- The call fails and nothing is changed, or it has taken the descriptor it returns. -/
def Gives (F : Fin 64 → Fds) (t : Fin 64) (T : Fin 64 → File) (v : Fds) (r : ℤ) (s : Kern) : Prop :=
  r < 0 ∧ Has F t T v s ∨
    ∃ (fd : Fin 20) (f : Fin 64) (T' : Fin 64 → File), r = fd ∧ v.filp fd = none ∧ Has F t T' (v.set fd (some f)) s

theorem sysOpen_has (path : List UInt8) (flag mode : ℕ) (hv : v.Sound) :
    Fdwise F t (Has F t T v) (sysOpen path flag mode) (Gives F t T v) := by
  refine Spec.get_bind fun s hs => ?_
  cases hfd : freeFd s with
  | none => exact Spec.pure fun s' h => .inl ⟨by decide, h ▸ hs⟩
  | some fd =>
    have hfree := freeFd_has hs hfd
    refine (((clearOnExec_has fd).pre fun s' (h : s' = s) => h ▸ hs).bind fun _ => ?_)
    rw [hv.clear_free hfree]
    cases hf : freeFile s with
    | none => exact Spec.pure fun s' h => .inl ⟨by decide, h⟩
    | some f =>
      have hcount := freeFile_has hs hf
      have hv' := hv.set_some fd f
      refine (setFilp_has fd (some f)).bind fun _ => (modFile_has f _).bind fun _ => ?_
      generalize hT : Function.update T f _ = T₁
      have hundo : ∀ err, err < 0 → Fdwise F t (Has F t T₁ (v.set fd (some f))) (undoOpen fd f err) (Gives F t T v) :=
        fun err he => hT ▸ (undoOpen_has hfree hcount).post fun r s hs => .inl ⟨lt_of_eq_of_lt hs.1 he, hs.2⟩
      have hopen := ((openNamei_leaves path flag mode).has (F := F) (t := t) (T := T₁) hv').and
        (openNamei_refuses path flag mode)
      refine (hopen.pre fun s hs => ⟨hs, trivial⟩).bind fun r => Spec.of_fact_right fun hr => ?_
      cases r with
      | inl err => exact hundo err (hr err rfl)
      | inr i =>
        refine (openTty_has i).bind fun refused => ?_
        cases refused with
        | true => exact ((iput_leaves (some i)).has hv').bind fun _ => hundo (-ePERM) (by decide)
        | false =>
          refine Spec.get fun s _ => ?_
          have hend : ∀ x : File, Fdwise F t (Has F t T₁ (v.set fd (some f)))
              (modFile f (fun _ => x) >>= fun _ => pure (fd : ℤ)) (Gives F t T v) := fun x =>
            (modFile_has f _).bind fun _ => Spec.pure fun s hs => .inr ⟨fd, f, _, rfl, hfree, hs⟩
          exact Spec.ite (fun _ => ((checkDiskChange_leaves _).has hv').bind fun _ => hend _) fun _ => hend _

/-! ## close, dup, fcntl -/

/-- The descriptor is not open, or it is closed. -/
def Closes (F : Fin 64 → Fds) (t : Fin 64) (T : Fin 64 → File) (v : Fds) (fd : ℕ) (r : ℤ) (s : Kern) : Prop :=
  v.get fd = none ∧ r < 0 ∧ Has F t T v s ∨
    ∃ (fd' : Fin 20) (T' : Fin 64 → File), fd'.val = fd ∧ v.filp fd' ≠ none ∧ r = 0 ∧ Has F t T' (v.close fd') s

theorem sysClose_has (fd : ℕ) (hv : v.Sound) :
    Fdwise F t (Has F t T v) (sysClose fd) (Closes F t T v fd) := by
  unfold sysClose
  split_ifs with hfd
  · refine (clearOnExec_has ⟨fd, hfd⟩).bind fun _ => Spec.get fun s hs => ?_
    have hfilp : s.cur.filp ⟨fd, hfd⟩ = v.filp ⟨fd, hfd⟩ := by rw [hs.filp]; rfl
    cases hf : s.cur.filp ⟨fd, hfd⟩ with
    | none =>
      rw [hf] at hfilp
      refine Spec.pure fun s hs => .inl ⟨by rw [hfilp]; exact dif_pos hfd, by decide, ?_⟩
      rwa [hv.clear_free hfilp.symm] at hs
    | some f =>
      rw [hf] at hfilp
      have hdone : ∀ T', Fdwise F t (Has F t T' (v.close ⟨fd, hfd⟩)) (pure 0) (Closes F t T v fd) := fun T' =>
        Spec.pure fun s hs => .inr ⟨⟨fd, hfd⟩, T', rfl, by rw [← hfilp]; simp, rfl, hs⟩
      refine (setFilp_has _ none).bind fun _ => Spec.get fun s hs => Spec.ite (fun _ => Spec.halt trivial) fun _ => ?_
      refine (modFile_has f _).bind fun _ => Spec.ite (fun _ => ?_) fun _ => hdone _
      exact ((iput_leaves _).has (hv.close _)).bind fun _ => hdone _
  · exact Spec.pure fun s hs => .inl ⟨dif_neg hfd, by decide, hs⟩

/-- The search of `dupfd`. -/
def Fds.free (v : Fds) (arg : ℕ) : Option (Fin 20) :=
  (List.finRange 20).find? fun k => arg ≤ k.val ∧ v.filp k = .none

/-- The call fails and nothing is changed, or the file has got the first free descriptor. -/
def Dups (F : Fin 64 → Fds) (t : Fin 64) (T : Fin 64 → File) (v : Fds) (fd arg : ℕ) (r : ℤ) (s : Kern) : Prop :=
  (v.get fd = none ∨ 20 ≤ arg ∨ v.free arg = none) ∧ r < 0 ∧ Has F t T v s ∨
    ∃ (f : Fin 64) (k : Fin 20) (T' : Fin 64 → File), v.get fd = some f ∧ v.free arg = some k ∧ r = k ∧
      Has F t T' (v.set k (some f)) s

theorem dupfd_has (fd arg : ℕ) (hv : v.Sound) :
    Fdwise F t (Has F t T v) (dupfd fd arg) (Dups F t T v fd arg) := by
  refine Spec.get_bind fun s hs => ?_
  have hsame : ∀ {err : ℤ}, err < 0 → (v.get fd = none ∨ 20 ≤ arg ∨ v.free arg = none) →
      Fdwise F t (fun s' => s' = s) (pure err) (Dups F t T v fd arg) := fun he hc =>
    Spec.pure fun s' h => .inl ⟨hc, he, h ▸ hs⟩
  have hget := hs.get fd
  cases hf : filp s fd with
  | none => exact hsame (by decide) (.inl (hget.symm.trans hf))
  | some f =>
    refine Spec.ite (fun harg => hsame (by decide) (.inr (.inl harg))) fun _ => ?_
    have hfree : ((List.finRange 20).find? fun k => arg ≤ k.val ∧ s.cur.filp k = none) = v.free arg := by
      rw [hs.filp]
      rfl
    rw [hfree]
    cases hk : v.free arg with
    | none => exact hsame (by decide) (.inr (.inr hk))
    | some k =>
      have hnone : arg ≤ k.val ∧ v.filp k = none := by simpa using List.find?_some hk
      refine ((clearOnExec_has k).pre fun s' (h : s' = s) => h ▸ hs).bind fun _ => ?_
      rw [hv.clear_free hnone.2]
      refine (setFilp_has k (some f)).bind fun _ => (modFile_has f _).bind fun _ => ?_
      exact Spec.pure fun s hs => .inr ⟨f, k, _, hget.symm.trans hf, hk, rfl, hs⟩

theorem Dups.gives {fd arg : ℕ} {r : ℤ} (h : Dups F t T v fd arg r s) : Gives F t T v r s := by
  obtain ⟨-, hr, hs⟩ | ⟨f, k, T', -, hk, hr, hs⟩ := h
  · exact .inl ⟨hr, hs⟩
  · have hnone : arg ≤ k.val ∧ v.filp k = none := by simpa using List.find?_some hk
    exact .inr ⟨k, f, T', hr, hnone.2, hs⟩

/-- `sys_dup2`: a close, whose result is not looked at, and a dup. -/
theorem sysDup2_has (oldfd newfd : ℕ) (hv : v.Sound) : Fdwise F t (Has F t T v) (sysDup2 oldfd newfd) fun r s =>
    v.get newfd = none ∧ Dups F t T v oldfd newfd r s ∨
      ∃ (fd : Fin 20) (T' : Fin 64 → File), fd.val = newfd ∧ v.filp fd ≠ none ∧ Dups F t T' (v.close fd) oldfd newfd r s := by
  refine (sysClose_has newfd hv).bind fun r₀ s hs => ?_
  obtain ⟨hnone, -, hs⟩ | ⟨fd, T', hfd, hopen, -, hs⟩ := hs
  · exact (dupfd_has oldfd newfd hv).post (fun r s h => .inl ⟨hnone, h⟩) s hs
  · exact (dupfd_has oldfd newfd (hv.close fd)).post (fun r s h => .inr ⟨fd, T', hfd, hopen, h⟩) s hs

/-- What fcntl leaves of the descriptors; only `F_SETFD` changes one. -/
def fcntlFds (v : Fds) (fd : Fin 20) (cmd arg : ℕ) : Fds := if cmd = 2 then v.mark fd (arg % 2 = 1) else v

def Fcntls (F : Fin 64 → Fds) (t : Fin 64) (T : Fin 64 → File) (v : Fds) (fd cmd arg : ℕ) (r : ℤ) (s : Kern) : Prop :=
  v.get fd = none ∧ r < 0 ∧ Has F t T v s ∨
    ∃ (fd' : Fin 20) (T' : Fin 64 → File), fd'.val = fd ∧ v.filp fd' ≠ none ∧ (cmd = 2 → r = 0) ∧
      Has F t T' (fcntlFds v fd' cmd arg) s

theorem sysFcntl_has (fd cmd arg : ℕ) (hv : v.Sound) : Fdwise F t (Has F t T v) (sysFcntl fd cmd arg) fun r s =>
    if cmd = 0 then Gives F t T v r s else Fcntls F t T v fd cmd arg r s := by
  by_cases h0 : cmd = 0
  · subst h0
    simp only [if_true]
    refine Spec.get_bind fun s hs => ?_
    cases hf : filp s fd with
    | none => exact Spec.pure fun s' h => .inl ⟨by decide, h ▸ hs⟩
    | some f => exact ((dupfd_has fd arg hv).post fun _ _ => Dups.gives).pre fun s' (h : s' = s) => h ▸ hs
  simp only [if_neg h0]
  refine Spec.get_bind fun s hs => ?_
  cases hf : filp s fd with
  | none => exact Spec.pure fun s' h => .inl ⟨(hs.get fd).symm.trans hf, by decide, h ▸ hs⟩
  | some f =>
    obtain ⟨fd', hfd, hopen⟩ := Fds.get_eq_some ((hs.get fd).symm.trans hf)
    have hne : v.filp fd' ≠ none := by rw [hopen]; nofun
    have hsame : ∀ {T' : Fin 64 → File} {r : ℤ}, cmd ≠ 2 → Fdwise F t (Has F t T' v) (pure r) (Fcntls F t T v fd cmd arg) :=
      fun h2 => Spec.pure fun s hs => .inr ⟨fd', _, hfd, hne, fun h => absurd h h2, by rwa [fcntlFds, if_neg h2]⟩
    refine Spec.pre (P := Has F t T v) ?_ fun s' (h : s' = s) => h ▸ hs
    refine Spec.ite (fun h => absurd h h0) fun _ => Spec.ite (fun h1 => hsame (by omega)) fun _ => ?_
    refine Spec.ite (fun h2 => ?_) fun h2 => Spec.ite (fun _ => hsame h2) fun _ => ?_
    · have hlt : fd < 20 := hfd ▸ fd'.isLt
      have hfd' : (⟨fd, hlt⟩ : Fin 20) = fd' := Fin.ext hfd.symm
      rw [dif_pos hlt, hfd']
      refine Spec.bind (M := fun _ => Has F t T (v.mark fd' (arg % 2 = 1))) (modTask_has fun τ hτ => ?_) fun _ => ?_
      · rw [← hτ]
        rfl
      · exact Spec.pure fun s hs => .inr ⟨fd', T, hfd, hne, fun _ => rfl, by rwa [fcntlFds, if_pos h2]⟩
    · exact Spec.ite (fun _ => (modFile_has f _).bind fun _ => hsame h2) fun _ => hsame h2

/-! ## pipe -/

/-- The two descriptors of `sys_pipe`. -/
def Fds.two (v : Fds) : List (Fin 20) := ((List.finRange 20).filter fun fd => v.filp fd = .none).take 2

def Pipes (F : Fin 64 → Fds) (t : Fin 64) (T : Fin 64 → File) (v : Fds) (r : ℤ) (s : Kern) : Prop :=
  r < 0 ∧ Has F t T v s ∨ ∃ (fd0 fd1 : Fin 20) (f0 f1 : Fin 64) (T' : Fin 64 → File), v.two = [fd0, fd1] ∧ r = 0 ∧
    Has F t T' ((v.set fd0 (some f0)).set fd1 (some f1)) s

theorem getPipeInode_leaves : Leaves getPipeInode := by
  refine getEmptyInode_leaves.bind fun i => Leaves.get.bind fun s => Leaves.ite ?_ ?_
  · exact (modInode_leaves i _).bind fun _ => Leaves.pure _
  · exact (modInode_leaves i _).bind fun _ => Leaves.pure _

/-- Both descriptors are free again. -/
theorem Fds.two_undone {fd0 fd1 : Fin 20} (hne : fd0 ≠ fd1) (h0 : v.filp fd0 = .none) (h1 : v.filp fd1 = .none)
    (p0 p1 : Option (Fin 64)) : (((v.set fd0 p0).set fd1 p1).set fd0 .none).set fd1 .none = v := by
  have h : (((v.set fd0 p0).set fd1 p1).set fd0 .none).set fd1 .none = (v.set fd0 .none).set fd1 .none := by
    unfold set
    dsimp only
    rw [Function.update_comm hne, Function.update_idem, Function.update_comm hne.symm, Function.update_idem]
  rw [h, set_free h0, set_free h1]

/-- Both entries are free again. -/
theorem counts_undone {f0 f1 : Fin 64} (hne : f0 ≠ f1) (h0 : (T f0).count = 0) (h1 : (T f1).count = 0) :
    let T₁ := Function.update T f0 { T f0 with count := 1 }
    let T₂ := Function.update T₁ f1 { T₁ f1 with count := 1 }
    let T₃ := Function.update T₂ f0 { T₂ f0 with count := 0 }
    Function.update T₃ f1 { T₃ f1 with count := 0 } = T := by
  intro T₁ T₂ T₃
  funext f
  by_cases hf1 : f = f1
  · subst hf1
    have h : T₃ f = { T f with count := 1 } := by simp [T₃, T₂, T₁, Function.update_of_ne hne.symm]
    rw [Function.update_self, h, ← h1]
  rw [Function.update_of_ne hf1]
  by_cases hf0 : f = f0
  · subst hf0
    have h : T₂ f = { T f with count := 1 } := by simp [T₂, T₁, Function.update_of_ne hne]
    have h₃ : T₃ f = { T₂ f with count := 0 } := Function.update_self ..
    rw [h₃, h, ← h0]
  · simp [T₃, T₂, T₁, Function.update_of_ne hf0, Function.update_of_ne hf1]

theorem sysPipe_has (hv : v.Sound) : Fdwise F t (Has F t T v) sysPipe (Pipes F t T v) := by
  refine Spec.get_bind fun s hs => ?_
  have hfail : Fdwise F t (fun s' => s' = s) (pure (-1)) (Pipes F t T v) :=
    Spec.pure fun s' h => .inl ⟨by decide, h ▸ hs⟩
  match hff : freeFiles s with
  | [] => exact hfail
  | [_] => exact hfail
  | _ :: _ :: _ :: _ => exact hfail
  | [f0, f1] =>
    obtain ⟨hne, hc0, hc1⟩ := firstTwo hff
    rw [hs.file] at hc0 hc1
    have hcount := counts_undone hne (by simpa using hc0) (by simpa using hc1)
    refine ((modFile_has f0 _).pre fun s' (h : s' = s) => h ▸ hs).bind fun _ => (modFile_has f1 _).bind fun _ => ?_
    have htwo : freeFds s = v.two := by
      unfold freeFds
      rw [hs.filp]
      rfl
    rw [htwo]
    have hdrop : Fdwise F t (Has F t _ v) (setFCount f0 0 >>= fun _ => setFCount f1 0 >>= fun _ => pure (-1))
        (Pipes F t T v) :=
      (modFile_has f0 _).bind fun _ => (modFile_has f1 _).bind fun _ => Spec.pure fun s hs => .inl ⟨by decide, hcount ▸ hs⟩
    match hfd : v.two with
    | [] => exact hdrop
    | [_] => exact hdrop
    | _ :: _ :: _ :: _ => exact hdrop
    | [fd0, fd1] =>
      obtain ⟨hfne, hfd0, hfd1⟩ := firstTwo hfd
      have hv' := (hv.set_some fd0 f0).set_some fd1 f1
      refine (setFilp_has fd0 (some f0)).bind fun _ => (setFilp_has fd1 (some f1)).bind fun _ => ?_
      refine (getPipeInode_leaves.has hv').bind fun p => ?_
      cases p with
      | none =>
        refine (setFilp_has fd0 none).bind fun _ => (setFilp_has fd1 none).bind fun _ => ?_
        rw [Fds.two_undone hfne (by simpa using hfd0) (by simpa using hfd1)]
        exact hdrop
      | some i =>
        refine (modFile_has f0 _).bind fun _ => (modFile_has f1 _).bind fun _ => ?_
        refine (access_leaves.has hv').bind fun _ => (access_leaves.has hv').bind fun _ => ?_
        exact Spec.pure fun s hs => .inr ⟨fd0, fd1, f0, f1, _, hfd, rfl, hs⟩

/-! ## execve -/

/-- The loop over `close_on_exec` when the descriptors of `l` are left to do. -/
structure Fds.Swept (v : Fds) (l : List (Fin 20)) (v' : Fds) : Prop where
  nodup : l.Nodup
  sound : v'.Sound
  left : ∀ i ∈ l, v'.filp i = v.filp i ∧ v'.closeOnExec i = v.closeOnExec i
  done : ∀ i, i ∉ l → v'.filp i = if v.closeOnExec i then .none else v.filp i

theorem Fds.Swept.keep {v' : Fds} {fd : Fin 20} {l : List (Fin 20)} (h : v.Swept (fd :: l) v')
    (hfd : v.closeOnExec fd = false) : v.Swept l v' where
  nodup := h.nodup.of_cons
  sound := h.sound
  left i hi := h.left i (List.mem_cons_of_mem fd hi)
  done i hi := by
    by_cases hif : i = fd
    · subst hif
      rw [hfd, (h.left i List.mem_cons_self).1]
      rfl
    · exact h.done i (by simp [hif, hi])

theorem Fds.Swept.close {v' : Fds} {fd : Fin 20} {l : List (Fin 20)} (h : v.Swept (fd :: l) v')
    (hfd : v.closeOnExec fd = true) : v.Swept l (v'.close fd) where
  nodup := h.nodup.of_cons
  sound := h.sound.close fd
  left i hi := by
    have hne : i ≠ fd := fun he => (List.nodup_cons.mp h.nodup).1 (he ▸ hi)
    simpa [Fds.close, Fds.clear, Fds.set, Function.update_of_ne hne] using h.left i (List.mem_cons_of_mem fd hi)
  done i hi := by
    by_cases hif : i = fd
    · subst hif
      simp [Fds.close, Fds.set, hfd]
    · simpa [Fds.close, Fds.clear, Fds.set, Function.update_of_ne hif] using h.done i (by simp [hif, hi])

theorem closeMarked_has (hv : v.Sound) :
    Fdwise F t (Has F t T v) closeMarked fun _ s => ∃ T', Has F t T' v.exec s := by
  let P : List (Fin 20) → Kern → Prop := fun l s => ∃ T' v', v.Swept l v' ∧ Has F t T' v' s
  have hloop : ∀ l, Fdwise F t (P l) (Prog.each (fun fd => do
      let s ← Prog.get
      if s.cur.closeOnExec fd then
        let _ ← sysClose fd.val
      else pure ()) l) fun _ => P [] := by
    refine Spec.each_rest fun fd l => Spec.get_bind fun s hs => ?_
    obtain ⟨T', v', hsw, hs⟩ := hs
    have hflag : s.cur.closeOnExec fd = v.closeOnExec fd := by rw [hs.closeOnExec, (hsw.left fd List.mem_cons_self).2]
    rw [hflag]
    refine Spec.ite (fun hfd => ?_) fun hfd => Spec.pure fun s' h => ⟨T', v', hsw.keep (by simpa using hfd), h ▸ hs⟩
    refine ((sysClose_has fd hsw.sound).pre fun s' (h : s' = s) => h ▸ hs).bind fun _ => Spec.pure fun s' h => ?_
    obtain ⟨hnone, -⟩ | ⟨fd', T₁, hfd', -, -, h⟩ := h
    · rw [Fds.get_val, (hsw.left fd List.mem_cons_self).1] at hnone
      exact absurd hnone (hv fd hfd)
    · cases Fin.ext hfd'
      exact ⟨T₁, _, hsw.close hfd, h⟩
  refine ((hloop (List.finRange 20)).pre fun s hs => ⟨T, v, ⟨List.nodup_finRange 20, hv, fun _ _ => ⟨rfl, rfl⟩,
    fun i hi => absurd (List.mem_finRange i) hi⟩, hs⟩).bind fun _ s hs => ?_
  obtain ⟨T', v', hsw, hs⟩ := hs
  refine (modTask_has fun τ hτ => ?_ : Fdwise F t (Has F t T' v') (modTask _) fun _ => Has F t T' v.exec).post
    (fun _ s h => ⟨T', h⟩) s hs
  have hfilp : τ.filp = fun i => if v.closeOnExec i then .none else v.filp i := by
    funext i
    rw [← hsw.done i (List.not_mem_nil), ← hτ]
    rfl
  change (⟨τ.filp, fun _ => false⟩ : Fds) = v.exec
  rw [hfilp]
  rfl

/-- The call fails and nothing is changed, or it has closed what was flagged. -/
def Execs (F : Fin 64 → Fds) (t : Fin 64) (T : Fin 64 → File) (v : Fds) (r : ℤ) (s : Kern) : Prop :=
  r < 0 ∧ Has F t T v s ∨ r = 0 ∧ ∃ T', Has F t T' v.exec s

theorem accesses_leaves (n : ℕ) : Leaves (accesses n) := Leaves.each (fun _ => access_leaves) _

theorem execInode_has (args : ExecArgs) (hv : v.Sound) (n : ℕ) (script : Bool) (i : Fin 32) :
    Fdwise F t (Has F t T v) (execInode args script n i) (Execs F t T v) := by
  induction n generalizing script i with
  | zero => exact Spec.halt trivial
  | succ n ih =>
    have herr : ∀ {err : ℤ}, err < 0 → Fdwise F t (Has F t T v) (pure err) (Execs F t T v) := fun he =>
      Spec.pure fun s hs => .inl ⟨he, hs⟩
    have hput : ∀ (j : Fin 32) {err : ℤ}, err < 0 →
        Fdwise F t (Has F t T v) (iput (some j) >>= fun _ => pure err) (Execs F t T v) := fun j _ he =>
      ((iput_leaves (some j)).has hv).bind fun _ => herr he
    refine Spec.get fun s _ => Spec.ite (fun _ => hput i (by decide)) fun _ => Spec.ite (fun _ => hput i (by decide)) fun _ => ?_
    refine ((bread_leaves _ _).has hv).bind fun ok => Spec.ite (fun _ => ?_) fun _ => hput i (by decide)
    refine Spec.get fun s' _ => ((brelse_leaves _ _).has hv).bind fun _ => Spec.ite (fun _ => ?_) fun _ => ?_
    · refine ((iput_leaves (some i)).has hv).bind fun _ => ?_
      cases interpreter ((s'.disk (s.inode i).dev).block ((s.inode i).zone 0)) with
      | none => exact herr (by decide)
      | some interp =>
        refine ((accesses_leaves _).has hv).bind fun _ => Spec.ite (fun _ => ?_) fun _ => herr (by decide)
        refine ((namei_leaves interp).has hv).bind fun p => ?_
        cases p with
        | none => exact herr (by decide)
        | some j => exact ih true j
    · refine Spec.ite (fun _ => hput i (by decide)) fun _ => ?_
      have hload : Fdwise F t (Has F t T v) (do
          if ¬ script ∧ ¬ args.fits then do
            iput (some i)
            return -eNOMEM
          else do
            let s' ← Prog.get
            iput s'.cur.executable
            modTask fun τ => { τ with executable := some i }
            closeMarked
            modTask fun τ => { τ with
              euid := if has (s.inode i).mode 0o4000 then (s.inode i).uid else τ.euid
              egid := if has (s.inode i).mode 0o2000 then (s.inode i).gid else τ.egid }
            return 0) (Execs F t T v) := by
        refine Spec.ite (fun _ => hput i (by decide)) fun _ => Spec.get fun s' _ => ?_
        refine ((iput_leaves _).has hv).bind fun _ => ?_
        refine (modTask_keeps fun _ => by rfl).bind fun _ => (closeMarked_has hv).bind fun _ s hs => ?_
        obtain ⟨T', hs⟩ := hs
        exact Spec.bind (M := fun _ => Has F t T' v.exec) (modTask_keeps fun _ => by rfl)
          (fun _ => Spec.pure fun s hs => .inr ⟨rfl, T', hs⟩) s hs
      exact Spec.ite (fun _ => hload) fun _ => ((accesses_leaves _).has hv).bind fun _ => hload

theorem doExecve_has (path : List UInt8) (args : ExecArgs) (hv : v.Sound) :
    Fdwise F t (Has F t T v) (doExecve path args) (Execs F t T v) := by
  refine ((namei_leaves path).has hv).bind fun p => ?_
  cases p with
  | none => exact Spec.pure fun s hs => .inl ⟨by decide, hs⟩
  | some i => exact ((accesses_leaves _).has hv).bind fun _ => execInode_has args hv 2 false i

/-! ## exit, fork -/

/-- `do_exit`, wherever it is called, leaves no descriptor and no flag. -/
theorem doExit_has : Fdwise F t (Cut F t) doExit fun _ s => ∃ T', Has F t T' Fds.none s := by
  let P : List (Fin 20) → Kern → Prop := fun l s => ∃ T v, v.Sound ∧ (∀ i, i ∉ l → v.filp i = .none) ∧ Has F t T v s
  unfold doExit
  refine ((Spec.each_rest (P := P) (fun fd l => Spec.get_bind fun s hs => ?_) (List.finRange 20)).pre fun s hs => ?_).bind
    fun _ s hs => ?_
  · obtain ⟨T, v, hv, hdone, hs⟩ := hs
    cases hf : s.cur.filp fd with
    | none =>
      refine Spec.pure fun s' h => ⟨T, v, hv, fun i hi => ?_, h ▸ hs⟩
      by_cases hif : i = fd
      · rw [hif, ← hs.filp, hf]
      · exact hdone i (by simp [hif, hi])
    | some f =>
      refine ((sysClose_has fd hv).pre fun s' (h : s' = s) => h ▸ hs).bind fun _ => Spec.pure fun s' h => ?_
      obtain ⟨hnone, -⟩ | ⟨fd', T₁, hfd', -, -, h⟩ := h
      · rw [Fds.get_val, ← hs.filp, hf] at hnone
        cases hnone
      · cases Fin.ext hfd'
        refine ⟨T₁, _, hv.close fd, fun i hi => ?_, h⟩
        by_cases hif : i = fd
        · subst hif
          simp [Fds.close, Fds.set]
        · simpa [Fds.close, Fds.clear, Fds.set, Function.update_of_ne hif] using hdone i (by simp [hif, hi])
  · obtain ⟨T, v, hv, hs⟩ := hs
    exact ⟨T, v, hv, fun i hi => absurd (List.mem_finRange i) hi, hs⟩
  obtain ⟨T, v, hv, hnone, hs⟩ := hs
  have hall : v = Fds.none := by
    have hfilp : v.filp = fun _ => none := funext fun i => hnone i List.not_mem_nil
    have hflag : v.closeOnExec = fun _ => false := funext fun i => by
      by_contra hc
      exact hv i (by simpa using hc) (by rw [hfilp])
    calc v = ⟨v.filp, v.closeOnExec⟩ := rfl
      _ = Fds.none := by rw [hfilp, hflag]; rfl
  subst hall
  have hput : ∀ p, Fdwise F t (Has F t T Fds.none) (iput p) fun _ => Has F t T Fds.none := fun p =>
    (iput_leaves p).has Fds.Sound.none
  refine Spec.post (Q := fun _ => Has F t T Fds.none) ?_ (fun _ s hs => ⟨T, hs⟩) s hs
  refine Spec.get fun s _ => (hput _).bind fun _ => (modTask_keeps fun _ => by rfl).bind fun _ => ?_
  refine Spec.get fun s _ => (hput _).bind fun _ => (modTask_keeps fun _ => by rfl).bind fun _ => ?_
  exact Spec.get fun s _ => (hput _).bind fun _ => modTask_keeps fun _ => by rfl

theorem incOpt_leaves (p : Option (Fin 32)) : Leaves (incOpt p) := by
  cases p with
  | none => exact Leaves.pure _
  | some i =>
    have hinc : Leaves (incCount i) := modInode_leaves i _
    exact hinc

theorem Has.child (h : Has F t T v s) (c : Fin 64) {τ : Task} (hτ : τ.fds = v) :
    Has (Function.update F c v) t T v (s.setTask c τ) := by
  have htask : ∀ u, ((s.setTask c τ).task u).fds = if u = c then v else (s.task u).fds := fun u => by
    split_ifs with hu
    · rw [hu, Kern.setTask_self, hτ]
    · rw [Kern.setTask_ne _ hu]
  refine ⟨h.current, ?_, fun u hu => ?_, h.file⟩
  · exact (htask s.current).trans (by rw [show (s.task s.current).fds = v from h.own, ite_self])
  · rw [htask, Function.update_apply, h.rest u hu]

/-- A new task has the descriptors and the flags of its father. -/
theorem copyProcess_has (c : Fin 64) (hv : v.Sound) : Spec (fun _ => True) (fun _ => True) (Has F t T v) (copyProcess c)
    fun _ s => ∃ T', Has (Function.update F c v) t T' v s := by
  let P : Kern → Prop := fun s => ∃ T', Has (Function.update F c v) t T' v s
  have hleaves : ∀ {m : K Unit}, Leaves m → Spec (fun _ => True) (fun _ => True) P m fun _ => P := fun hm s hs => by
    obtain ⟨T', hs⟩ := hs
    exact ((hm.has hv).fault fun _ _ => True.intro).post (fun _ _ h => ⟨T', h⟩) s hs
  refine Spec.get fun s _ => Spec.bind (M := fun _ => P) (Spec.modify fun s hs => ⟨T, hs.child c hs.own⟩) fun _ => ?_
  refine Spec.bind (M := fun _ => P) (Spec.each (fun fd => ?_) _) fun _ => ?_
  · cases s.cur.filp fd with
    | none => exact Spec.pure fun _ hs => hs
    | some f => exact Spec.modify fun s hs => hs.elim fun T' hs => ⟨_, hs.current, hs.own, hs.rest, rfl⟩
  · exact (hleaves (incOpt_leaves _)).bind fun _ => (hleaves (incOpt_leaves _)).bind fun _ => hleaves (incOpt_leaves _)

end Linux011.Fs

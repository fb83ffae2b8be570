/-
  close_on_exec. Its bits are changed by open, close, dup and fcntl and by execve, and sys_pipe
  relies on all of them. `marked` is what F_SETFD has said of a descriptor since it was created.
-/
import Linux011.Fs.Descriptors
import Linux011.Fs.WriteAccess

namespace Linux011.Fs

open Linux011.Lib

/-! ## Calls and marks -/

inductive FdCall
  | open (path : List UInt8) (flag mode : ℕ)
  | creat (path : List UInt8) (mode : ℕ)
  | close (fd : ℕ)
  | dup (fd : ℕ)
  | dup2 (oldfd newfd : ℕ)
  | fcntl (fd cmd arg : ℕ)
  | pipe
  | execve (path : List UInt8) (args : ExecArgs)

namespace FdCall

def run : FdCall → K ℤ
  | .open path flag mode => sysOpen path flag mode
  | .creat path mode => sysCreat path mode
  | .close fd => sysClose fd
  | .dup fd => sysDup fd
  | .dup2 oldfd newfd => sysDup2 oldfd newfd
  | .fcntl fd cmd arg => sysFcntl fd cmd arg
  | .pipe => sysPipe
  | .execve path args => doExecve path args

/-- The result is a descriptor if it is not negative. -/
def gives : FdCall → Bool
  | .open .. | .creat .. | .dup .. | .dup2 .. => true
  | .fcntl _ cmd _ => cmd = 0
  | .close _ | .pipe | .execve .. => false

/-- The descriptors a call from `s` with result `r` has created. -/
def created (c : FdCall) (s : Kern) (r : ℤ) : List (Fin 20) :=
  if c.gives then (List.finRange 20).filter fun fd => (fd : ℤ) = r
  else match c with
    | .pipe => if r = 0 then freeFds s else []
    | _ => []

/-- What an `F_SETFD` says of descriptor `i`. -/
def setfd (r : ℤ) (i : Fin 20) : FdCall → Option Bool
  | .fcntl fd cmd arg => if cmd = 2 ∧ r = 0 ∧ fd = i then some (arg % 2 = 1) else none
  | _ => none

/-- The marks of the task after the call: a new descriptor has none. -/
def marks (c : FdCall) (s : Kern) (r : ℤ) (m : Fin 20 → Bool) (i : Fin 20) : Bool :=
  if i ∈ c.created s r then false else (c.setfd r i).getD (m i)

end FdCall

structure Marking where
  kern : Kern
  marked : Fin 64 → Fin 20 → Bool

inductive FdEvent
  | call (t : Fin 64) (env : Env) (c : FdCall)
  | death (t : Fin 64) (env : Env) (c : FdCall)
  | fork (t : Fin 64) (env : Env) (c : Fin 64)
  | exit (t : Fin 64) (env : Env)
  | release (t : Fin 64)

/-- A call of task `t`; a call in which an access faults, so that the task ends there; a fork into
    the free slot `c`, or one that fails; an exit; the release of a dead task. -/
inductive FdStep : Marking → FdEvent → Marking → Prop
  | call {σ : Marking} {t : Fin 64} {env : Env} {c : FdCall} {r : ℤ} {s' : Kern} : (σ.kern.task t).state = .live →
      c.run (σ.kern.enter t env) = .ok r s' → FdStep σ (.call t env c)
        ⟨s', Function.update σ.marked t (c.marks (σ.kern.enter t env) r (σ.marked t))⟩
  | death {σ : Marking} {t : Fin 64} {env : Env} {c : FdCall} {s₁ s' : Kern} : (σ.kern.task t).state = .live →
      c.run (σ.kern.enter t env) = .fault s₁ → doExit s₁ = .ok () s' → FdStep σ (.death t env c) ⟨s', σ.marked⟩
  | fork {σ : Marking} {t c : Fin 64} {env : Env} {s' : Kern} : (σ.kern.task t).state = .live →
      (σ.kern.task c).state = .free → copyProcess c (σ.kern.enter t env) = .ok () s' →
      FdStep σ (.fork t env c) ⟨s', Function.update σ.marked c (σ.marked t)⟩
  | forkFails {σ : Marking} {t c : Fin 64} {env : Env} : (σ.kern.task t).state = .live →
      FdStep σ (.fork t env c) ⟨σ.kern.enter t env, σ.marked⟩
  | exit {σ : Marking} {t : Fin 64} {env : Env} {s' : Kern} : (σ.kern.task t).state = .live →
      doExit (σ.kern.enter t env) = .ok () s' → FdStep σ (.exit t env) ⟨s', σ.marked⟩
  | release {σ : Marking} {t : Fin 64} : (σ.kern.task t).state = .zombie →
      FdStep σ (.release t) ⟨σ.kern.setTask t Task.none, σ.marked⟩

/-- It begins without descriptors. -/
def fdSystem : Lts Marking FdEvent where
  init σ := ∀ t, (σ.kern.task t).fds = Fds.none
  step := FdStep

/-! ## One call -/

/-- The flags are the marks of the open descriptors. -/
def Fds.Kept (v : Fds) (m : Fin 20 → Bool) : Prop := ∀ i, v.closeOnExec i = true ↔ v.filp i ≠ .none ∧ m i = true

namespace Fds.Kept

variable {v : Fds} {m : Fin 20 → Bool} {fd : Fin 20}

theorem sound (h : v.Kept m) : v.Sound := fun i hi => ((h i).mp hi).1

theorem flag_free (h : v.Kept m) (hfd : v.filp fd = .none) : v.closeOnExec fd = false := by
  by_contra hc
  exact h.sound fd (by simpa using hc) hfd

theorem none (m : Fin 20 → Bool) : Fds.none.Kept m := fun i => by simp [Fds.none]

theorem close (h : v.Kept m) (fd : Fin 20) : (v.close fd).Kept m := fun i => by
  by_cases hi : i = fd
  · subst hi
    simp [Fds.close, Fds.clear, Fds.set]
  · simpa [Fds.close, Fds.clear, Fds.set, Function.update_of_ne hi] using h i

/-- A descriptor that was free. -/
theorem set (h : v.Kept m) (hfd : v.filp fd = .none) (f : Fin 64) {m' : Fin 20 → Bool} (hm : m' fd = false)
    (hm' : ∀ i, i ≠ fd → m' i = m i) : (v.set fd (some f)).Kept m' := fun i => by
  by_cases hi : i = fd
  · subst hi
    simp [Fds.set, hm, h.flag_free hfd]
  · simpa [Fds.set, Function.update_of_ne hi, hm' i hi] using h i

theorem mark (h : v.Kept m) (hfd : v.filp fd ≠ .none) (b : Bool) {m' : Fin 20 → Bool} (hm : m' fd = b)
    (hm' : ∀ i, i ≠ fd → m' i = m i) : (v.mark fd b).Kept m' := fun i => by
  by_cases hi : i = fd
  · subst hi
    simp [Fds.mark, hm, hfd]
  · simpa [Fds.mark, Function.update_of_ne hi, hm' i hi] using h i

theorem exec (h : v.Kept m) : v.exec.Kept m := fun i => by
  by_cases hc : v.closeOnExec i = true
  · simp [Fds.exec, hc]
  · have hi := h i
    simp only [Fds.exec, if_neg hc]
    tauto

end Fds.Kept

namespace FdCall

variable {F : Fin 64 → Fds} {t : Fin 64} {T : Fin 64 → File} {v : Fds} {m : Fin 20 → Bool} {s₀ s : Kern} {r : ℤ} {c : FdCall}

/-- The descriptors after a call: the flags are still the marks, and what it has created is open. -/
structure Leaves (c : FdCall) (s₀ : Kern) (m : Fin 20 → Bool) (v : Fds) (r : ℤ) (v' : Fds) : Prop where
  kept : v'.Kept (c.marks s₀ r m)
  opened : ∀ i ∈ c.created s₀ r, v'.filp i ≠ none
  result : c.gives = true → 0 ≤ r → ∃ i ∈ c.created s₀ r, (i : ℤ) = r
  new : ∀ i, v.filp i = none → v'.filp i ≠ none → i ∈ c.created s₀ r

def Leaving (F : Fin 64 → Fds) (t : Fin 64) (c : FdCall) (s₀ : Kern) (m : Fin 20 → Bool) (v : Fds) (r : ℤ) (s : Kern) : Prop :=
  ∃ T v', Has F t T v' s ∧ c.Leaves s₀ m v r v'

theorem marks_self {i : Fin 20} (hi : i ∈ c.created s₀ r) : c.marks s₀ r m i = false := if_pos hi

theorem marks_other {i : Fin 20} (hi : i ∉ c.created s₀ r) (hs : c.setfd r i = none) : c.marks s₀ r m i = m i := by
  rw [marks, if_neg hi, hs]
  rfl

theorem mem_created (hg : c.gives = true) {i : Fin 20} : i ∈ c.created s₀ r ↔ (i : ℤ) = r := by
  unfold created
  rw [if_pos hg]
  simp

theorem setfd_gives (hg : c.gives = true) (i : Fin 20) : c.setfd r i = none := by
  cases c with
  | fcntl fd cmd arg =>
    have h0 : cmd = 0 := by simpa [gives] using hg
    simp [setfd, h0]
  | _ => rfl

/-- A call that creates nothing and marks nothing. -/
theorem leaves_same {v' : Fds} (hk : v'.Kept m) (hc : c.created s₀ r = []) (hset : ∀ i, c.setfd r i = none)
    (hg : c.gives = true → r < 0) (hless : ∀ i, v.filp i = none → v'.filp i = none) : c.Leaves s₀ m v r v' where
  kept := by rwa [show c.marks s₀ r m = m from funext fun i => marks_other (by simp [hc]) (hset i)]
  opened := by simp [hc]
  result h hr := absurd (hg h) (by omega)
  new i hi hi' := absurd (hless i hi) hi'

theorem leaves_gives (hg : c.gives = true) (hk : v.Kept m) {v₀ : Fds} (hless : ∀ i, v₀.filp i = none → v.filp i = none)
    (h : Gives F t T v r s) : c.Leaving F t s₀ m v₀ r s := by
  obtain ⟨hr, hs⟩ | ⟨fd, f, T', rfl, hfree, hs⟩ := h
  · refine ⟨T, v, hs, leaves_same hk ?_ (setfd_gives hg) (fun _ => hr) hless⟩
    refine List.eq_nil_iff_forall_not_mem.mpr fun i hi => ?_
    have := (mem_created hg).mp hi
    omega
  · have hmem : ∀ i, i ∈ c.created s₀ (fd : ℤ) ↔ i = fd := fun i => by
      rw [mem_created hg]
      omega
    refine ⟨T', _, hs, hk.set hfree f (marks_self ((hmem fd).mpr rfl)) fun i hi => ?_, fun i hi => ?_, fun _ _ => ?_,
      fun i hi hi' => (hmem i).mpr ?_⟩
    · exact marks_other (by rwa [hmem]) (setfd_gives hg i)
    · rw [(hmem i).mp hi]
      simp [Fds.set]
    · exact ⟨fd, (hmem fd).mpr rfl, rfl⟩
    · by_contra hne
      exact hi' (by simpa [Fds.set, Function.update_of_ne hne] using hless i hi)

theorem leaves_close (v : Fds) (fd : Fin 20) : ∀ i, v.filp i = none → (v.close fd).filp i = none := fun i hi => by
  simp [Fds.close, Fds.clear, Fds.set, Function.update_apply, hi]

theorem leaves_exec (v : Fds) : ∀ i, v.filp i = none → v.exec.filp i = none := fun i hi => by simp [Fds.exec, hi]

theorem pipe_leaves (hk : v.Kept m) (hs₀ : Has F t T v s₀) (h : Pipes F t T v r s) : FdCall.pipe.Leaving F t s₀ m v r s := by
  obtain ⟨hr, hs⟩ | ⟨fd0, fd1, f0, f1, T', htwo, rfl, hs⟩ := h
  · exact ⟨T, v, hs, leaves_same hk (by simp [created, gives, hr.ne]) (fun _ => rfl)
      (fun h => absurd h Bool.false_ne_true) fun _ hi => hi⟩
  obtain ⟨hne, h0, h1⟩ := firstTwo htwo
  have hcreated : FdCall.pipe.created s₀ 0 = [fd0, fd1] := by
    rw [← htwo, Fds.two, ← hs₀.filp]
    rfl
  have hk0 : (v.set fd0 (some f0)).Kept (Function.update m fd0 false) := hk.set (by simpa using h0) f0 (Function.update_self ..)
    fun i hi => Function.update_of_ne hi ..
  have hfree1 : (v.set fd0 (some f0)).filp fd1 = none := by
    simpa [Fds.set, Function.update_of_ne hne.symm] using h1
  refine ⟨T', _, hs, hk0.set hfree1 f1 (marks_self (by simp [hcreated])) fun i hi => ?_, fun i hi => ?_,
    fun h => absurd h Bool.false_ne_true, fun i hi hi' => ?_⟩
  · by_cases hi0 : i = fd0
    · subst hi0
      rw [Function.update_self, marks_self (by simp [hcreated])]
    · rw [Function.update_of_ne hi0, marks_other (by simp [hcreated, hi, hi0]) rfl]
  · have hi' : i = fd0 ∨ i = fd1 := by simpa [hcreated] using hi
    by_cases hi1 : i = fd1
    · simp [Fds.set, hi1]
    · simp [Fds.set, hi'.resolve_right hi1, hne]
  · by_contra hn
    obtain ⟨hi0, hi1⟩ : ¬ i = fd0 ∧ ¬ i = fd1 := by simpa [hcreated] using hn
    exact hi' (by simpa [Fds.set, Function.update_of_ne hi1, Function.update_of_ne hi0] using hi)

theorem fcntl_leaves {fd cmd arg : ℕ} (hk : v.Kept m)
    (h : if cmd = 0 then Gives F t T v r s else Fcntls F t T v fd cmd arg r s) :
    (FdCall.fcntl fd cmd arg).Leaving F t s₀ m v r s := by
  by_cases h0 : cmd = 0
  · rw [if_pos h0] at h
    exact leaves_gives (by simpa [gives] using h0) hk (fun _ hi => hi) h
  rw [if_neg h0] at h
  have hcreated : (FdCall.fcntl fd cmd arg).created s₀ r = [] := by simp [created, gives, h0]
  have hgives : (FdCall.fcntl fd cmd arg).gives = true → r < 0 := fun hg => absurd (by simpa [gives] using hg) h0
  obtain ⟨hnone, hr, hs⟩ | ⟨fd', T', rfl, hopen, hr, hs⟩ := h
  · exact ⟨T, v, hs, leaves_same hk hcreated (fun i => if_neg (by omega)) hgives fun _ hi => hi⟩
  by_cases h2 : cmd = 2
  · rw [fcntlFds, if_pos h2] at hs
    refine ⟨T', _, hs, hk.mark hopen _ ?_ fun i hi => ?_, by simp [hcreated], fun hg hr => absurd (hgives hg) (by omega),
      fun i hi hi' => absurd hi hi'⟩
    · rw [marks, hcreated, if_neg List.not_mem_nil]
      simp [setfd, h2, hr h2]
    · exact marks_other (by simp [hcreated]) (if_neg fun h => hi (Fin.ext h.2.2.symm))
  · rw [fcntlFds, if_neg h2] at hs
    exact ⟨T', v, hs, leaves_same hk hcreated (fun i => if_neg fun h => h2 h.1) hgives fun _ hi => hi⟩

theorem run_leaving (hk : v.Kept m) (hs₀ : Has F t T v s₀) :
    Fdwise F t (Has F t T v) c.run (c.Leaving F t s₀ m v) := by
  have hv := hk.sound
  cases c with
  | «open» path flag mode => exact (sysOpen_has path flag mode hv).post fun _ _ => leaves_gives rfl hk fun _ hi => hi
  | creat path mode => exact (sysOpen_has path _ mode hv).post fun _ _ => leaves_gives rfl hk fun _ hi => hi
  | dup fd => exact (dupfd_has fd 0 hv).post fun _ _ h => leaves_gives rfl hk (fun _ hi => hi) h.gives
  | dup2 oldfd newfd =>
    refine (sysDup2_has oldfd newfd hv).post fun r s h => ?_
    obtain ⟨-, h⟩ | ⟨fd, T', -, -, h⟩ := h
    · exact leaves_gives rfl hk (fun _ hi => hi) h.gives
    · exact leaves_gives rfl (hk.close fd) (leaves_close v fd) h.gives
  | close fd =>
    refine (sysClose_has fd hv).post fun r s h => ?_
    obtain ⟨-, -, hs⟩ | ⟨fd', T', -, -, -, hs⟩ := h
    · exact ⟨T, v, hs, leaves_same hk rfl (fun _ => rfl) nofun fun _ hi => hi⟩
    · exact ⟨T', _, hs, leaves_same (hk.close fd') rfl (fun _ => rfl) nofun (leaves_close v fd')⟩
  | execve path args =>
    refine (doExecve_has path args hv).post fun r s h => ?_
    obtain ⟨-, hs⟩ | ⟨-, T', hs⟩ := h
    · exact ⟨T, v, hs, leaves_same hk rfl (fun _ => rfl) nofun fun _ hi => hi⟩
    · exact ⟨T', _, hs, leaves_same hk.exec rfl (fun _ => rfl) nofun (leaves_exec v)⟩
  | pipe => exact (sysPipe_has hv).post fun _ _ => pipe_leaves hk hs₀
  | fcntl fd cmd arg => exact (sysFcntl_has fd cmd arg hv).post fun _ _ => fcntl_leaves hk

end FdCall

/-! ## Every run -/

def Marking.Kept (σ : Marking) : Prop := ∀ u, (σ.kern.task u).fds.Kept (σ.marked u)

variable {F : Fin 64 → Fds} {t : Fin 64} {T : Fin 64 → File} {v : Fds} {σ σ' : Marking} {s' : Kern}

theorem Has.own_task (h : Has F t T v s') : (s'.task t).fds = v := by
  rw [← h.current]
  exact h.own

/-- One task has changed. -/
theorem Marking.Kept.update (hk : σ.Kept) {m : Fin 64 → Fin 20 → Bool} (hs : Has (fun u => (σ.kern.task u).fds) t T v s')
    (hv : v.Kept (m t)) (hm : ∀ u, u ≠ t → m u = σ.marked u) : Marking.Kept ⟨s', m⟩ := fun u => by
  by_cases hu : u = t
  · subst hu
    rw [hs.own_task]
    exact hv
  · dsimp only
    rw [hs.rest u hu, hm u hu]
    exact hk u

theorem Marking.Kept.step {e : FdEvent} (hk : σ.Kept) (h : FdStep σ e σ') : σ'.Kept := by
  cases h with
  | @call t env c r s' hl hrun =>
    obtain ⟨T, v, hs, hleft⟩ := (FdCall.run_leaving (hk t) (Has.enter ..)).at_ok (Has.enter σ.kern t env) hrun
    exact hk.update hs (by rw [Function.update_self]; exact hleft.kept) fun u hu => Function.update_of_ne hu ..
  | @death t env c s₁ s' hl hrun hexit =>
    have hcut := (FdCall.run_leaving (c := c) (hk t) (Has.enter σ.kern t env)).at_fault (Has.enter σ.kern t env) hrun
    obtain ⟨T, hs⟩ := doExit_has.at_ok hcut hexit
    exact hk.update hs (Fds.Kept.none _) fun _ _ => rfl
  | @fork t c env s' hl hfree hrun =>
    obtain ⟨T, hs⟩ := (copyProcess_has c (hk t).sound).at_ok (Has.enter σ.kern t env) hrun
    have hne : t ≠ c := fun he => by rw [he, hfree] at hl; cases hl
    intro u
    by_cases hu : u = t
    · subst hu
      dsimp only
      rw [hs.own_task, Function.update_of_ne hne]
      exact hk u
    dsimp only
    rw [hs.rest u hu]
    by_cases huc : u = c
    · subst huc
      rw [Function.update_self, Function.update_self]
      exact hk t
    · rw [Function.update_of_ne huc, Function.update_of_ne huc]
      exact hk u
  | @forkFails t c env hl => exact hk
  | @exit t env s' hl hexit =>
    obtain ⟨T, hs⟩ := doExit_has.at_ok ((Has.enter σ.kern t env).cut (hk t).sound) hexit
    exact hk.update hs (Fds.Kept.none _) fun _ _ => rfl
  | @release t hz =>
    intro u
    by_cases hu : u = t
    · subst hu
      dsimp only
      rw [Kern.setTask_self]
      exact Fds.Kept.none _
    · dsimp only
      rw [Kern.setTask_ne _ hu]
      exact hk u

theorem reachable_kept (hr : fdSystem.Reachable σ) : σ.Kept := by
  refine hr.invariant (fun σ h u => ?_) fun _ _ _ _ hk hstep => hk.step hstep
  rw [h u]
  exact Fds.Kept.none _

/-- A flag is set only on an open descriptor; the descriptors a call creates have it clear, and
    execve closes those that `F_SETFD` has marked since they were created. -/
theorem close_on_exec (hr : fdSystem.Reachable σ) :
    (∀ u i, (σ.kern.task u).closeOnExec i = true → (σ.kern.task u).filp i ≠ none) ∧
      (∀ t env (c : FdCall) r s', (σ.kern.task t).state = .live → c.run (σ.kern.enter t env) = .ok r s' →
        (c.gives = true → 0 ≤ r → ∃ i ∈ c.created (σ.kern.enter t env) r, (i : ℤ) = r) ∧
        (∀ i, (σ.kern.task t).filp i = none → (s'.task t).filp i ≠ none → i ∈ c.created (σ.kern.enter t env) r) ∧
        ∀ i ∈ c.created (σ.kern.enter t env) r, (s'.task t).filp i ≠ none ∧ (s'.task t).closeOnExec i = false) ∧
      ∀ t env path args r s', (σ.kern.task t).state = .live → doExecve path args (σ.kern.enter t env) = .ok r s' →
        ∀ i, (s'.task t).filp i = if r = 0 ∧ σ.marked t i = true then none else (σ.kern.task t).filp i := by
  have hk := reachable_kept hr
  refine ⟨fun u i hi => (hk u).sound i hi, fun t env c r s' _ hrun => ?_, fun t env path args r s' _ hrun i => ?_⟩
  · obtain ⟨T, v, hs, hleft⟩ := (FdCall.run_leaving (hk t) (Has.enter ..)).at_ok (Has.enter σ.kern t env) hrun
    have hfilp : (s'.task t).filp = v.filp := by rw [← hs.own_task]; rfl
    have hflag : (s'.task t).closeOnExec = v.closeOnExec := by rw [← hs.own_task]; rfl
    rw [hfilp, hflag]
    refine ⟨hleft.result, hleft.new, fun i hi => ⟨hleft.opened i hi, ?_⟩⟩
    by_contra hc
    have h1 := ((hleft.kept i).mp (by simpa using hc)).2
    rw [FdCall.marks_self hi] at h1
    cases h1
  · obtain ⟨hneg, hs⟩ | ⟨rfl, T, hs⟩ := (doExecve_has path args (hk t).sound).at_ok (Has.enter σ.kern t env) hrun
    · rw [if_neg (by omega)]
      exact congrFun (congrArg Fds.filp hs.own_task) i
    · have hfilp : (s'.task t).filp i = if (σ.kern.task t).closeOnExec i then none else (σ.kern.task t).filp i :=
        congrFun (congrArg Fds.filp hs.own_task) i
      have hflag : (σ.kern.task t).closeOnExec i = true ↔ (σ.kern.task t).filp i ≠ none ∧ σ.marked t i = true := hk t i
      rw [hfilp]
      by_cases hc : (σ.kern.task t).closeOnExec i = true
      · rw [if_pos hc, if_pos ⟨rfl, (hflag.mp hc).2⟩]
      · rw [if_neg hc]
        split_ifs with hm
        · by_contra hne
          exact hc (hflag.mpr ⟨hne, hm.2⟩)
        · rfl

/-- A call of task 0 in which no access faults. -/
def callFd (σ : Marking) (c : FdCall) : Option Marking :=
  match c.run (σ.kern.enter 0 ⟨none, false, true⟩) with
  | .ok r s' => some ⟨s', Function.update σ.marked 0 (c.marks (σ.kern.enter 0 ⟨none, false, true⟩) r (σ.marked 0))⟩
  | _ => none

theorem Marking.reachable_call {c : FdCall} (hr : fdSystem.Reachable σ) (hl : (σ.kern.task 0).state = .live)
    (h : callFd σ c = some σ') : fdSystem.Reachable σ' := by
  unfold callFd at h
  cases he : c.run (σ.kern.enter 0 ⟨none, false, true⟩) with
  | ok r s' =>
    rw [he] at h
    cases h
    exact hr.step (.call hl he)
  | fault s' => rw [he] at h; cases h
  | stop e => rw [he] at h; cases h

/-- The file `f` is opened, and its descriptor marked. -/
theorem close_on_exec_marked : ∃ σ, fdSystem.Reachable σ ∧ (σ.kern.task 0).closeOnExec 0 = true ∧
    (σ.kern.task 0).filp 0 ≠ none := by
  let σ₀ : Marking := ⟨fileKern 0o100600 1, fun _ _ => true⟩
  have hinit : fdSystem.init σ₀ := fun t => by
    by_cases ht : t = 0
    · simp [σ₀, fileKern, ht, Task.fds, Task.none, Fds.none]
    · simp [σ₀, fileKern, ht, Task.fds, Task.none, Fds.none]
  have hrun : ((callFd σ₀ (.open [102] 0 0)).bind fun σ => (callFd σ (.fcntl 0 2 1)).map fun σ' =>
      ((σ.kern.task 0).state, (σ.kern.task 0).closeOnExec 0, (σ'.kern.task 0).closeOnExec 0)) =
        some (.live, false, true) := by decide +kernel
  obtain ⟨σ, hσ, h⟩ := Option.bind_eq_some_iff.mp hrun
  obtain ⟨σ', hσ', h⟩ := Option.map_eq_some_iff.mp h
  obtain ⟨hl, -, hflag⟩ : _ ∧ _ ∧ _ := by simpa only [Prod.mk.injEq] using h
  have hr := Marking.reachable_call (Marking.reachable_call (.init hinit) rfl hσ) hl hσ'
  exact ⟨σ', hr, hflag, (close_on_exec hr).1 0 0 hflag⟩

end Linux011.Fs

/-
  Signals: the calls of kernel/signal.c, the delivery in `ret_from_sys_call` and `do_signal`, and
  all that other code does to `signal`, `blocked` and `sigaction` of a task.

  `sys_ssetmask` never blocks SIGKILL, but the mask of a handler goes into `blocked` as it is:
  `sigkill_stays_unblocked` is for runs in which no delivered handler has SIGKILL in its mask.
  `schedule` wakes a task for SIGKILL and SIGSTOP whether blocked or not, `ret_from_sys_call`
  goes by `blocked` alone: `wakeup_agrees_with_delivery` is for runs in which neither is blocked.

  Signals are 32-bit longs. What `do_signal` pushes on the user stack is a list of longs; whether
  the stack can be written is left to the memory model.
-/
import Linux011.Kernel.Sched

namespace Linux011.Kernel
open Linux011.Lib

/-! ## The calls -/

def sigkill : Nat := 9
def sigalrm : Nat := 14
def sigchld : Nat := 17
def sigstop : Nat := 19

/-- `1<<(sig-1)` -/
def sigBit (sig : Nat) : BitVec 32 := 1 <<< (sig - 1)

structure Sigaction where
  handler : BitVec 32
  mask : BitVec 32
  flags : BitVec 32
  restorer : BitVec 32
  deriving DecidableEq

def saNomask : BitVec 32 := 0x40000000
def saOneshot : BitVec 32 := 0x80000000

/-- A task with its handlers. -/
structure SigTask extends TaskStruct where
  sigaction : Fin 32 → Sigaction
  deriving DecidableEq

/-- The place of `signum` in `sigaction`, when the calls accept it. -/
def sigIndex (signum : ℤ) : Option (Fin 32) :=
  if h : 1 ≤ signum ∧ signum ≤ 32 then
    if signum = sigkill then none else some ⟨(signum - 1).toNat, by omega⟩
  else none

namespace SigTask

def sysSgetmask (t : SigTask) : BitVec 32 := t.blocked

def sysSsetmask (t : SigTask) (newmask : BitVec 32) : SigTask × BitVec 32 :=
  ({ t with blocked := newmask &&& ~~~sigBit sigkill }, t.blocked)

def setAction (t : SigTask) (i : Fin 32) (a : Sigaction) : SigTask :=
  { t with sigaction := Function.update t.sigaction i a }

/-- `sys_signal`; the value is the old handler, or -1. -/
def sysSignal (t : SigTask) (signum : ℤ) (handler restorer : BitVec 32) : SigTask × BitVec 32 :=
  match sigIndex signum with
  | none => (t, -1)
  | some i => (t.setAction i ⟨handler, 0, saOneshot ||| saNomask, restorer⟩, (t.sigaction i).handler)

/-- `sys_sigaction` with the new action as `get_new` reads it; the old one is what `save_old`
    writes. -/
def sysSigaction (t : SigTask) (signum : ℤ) (action : Sigaction) : Option (SigTask × Sigaction) :=
  match sigIndex signum with
  | none => none
  | some i =>
    let mask := if action.flags &&& saNomask ≠ 0 then 0 else action.mask ||| (1 : BitVec 32) <<< i.val
    some (t.setAction i { action with mask := mask }, t.sigaction i)

/-! ## Delivery -/

/-- The registers of the user that `do_signal` reads or changes. -/
structure Regs where
  eax : BitVec 32
  ecx : BitVec 32
  edx : BitVec 32
  eflags : BitVec 32
  eip : BitVec 32
  esp : BitVec 32
  deriving DecidableEq

inductive Delivery where
  | ignored
  | exits (code : BitVec 32)
  | handled (t : SigTask) (regs : Regs) (pushed : List (BitVec 32))

/-- `do_signal` for signal number `i + 1`; `pushed` starts at the new `esp`. -/
def doSignal (t : SigTask) (i : Fin 32) (regs : Regs) : Delivery :=
  let sa := t.sigaction i
  if sa.handler = 1 then .ignored
  else if sa.handler = 0 then
    if i.val + 1 = sigchld then .ignored else .exits (1 <<< i.val)
  else
    let t := if sa.flags &&& saOneshot ≠ 0 then t.setAction i { sa with handler := 0 } else t
    let nomask := sa.flags &&& saNomask ≠ 0
    let longs := if nomask then 7 else 8
    let pushed := [sa.restorer, BitVec.ofNat 32 (i.val + 1)] ++
      (if nomask then [] else [t.blocked]) ++ [regs.eax, regs.ecx, regs.edx, regs.eflags, regs.eip]
    .handled { t with blocked := t.blocked ||| sa.mask }
      { regs with eip := sa.handler, esp := regs.esp - 4 * longs } pushed

/-- `bsfl`: the lowest bit that is set. -/
def bsf (x : BitVec 32) : Option (Fin 32) := (List.finRange 32).find? fun i => x.getLsbD i

/-- The signal that `ret_from_sys_call` delivers to this task. -/
def nextSignal (t : SigTask) : Option (Fin 32) := bsf (t.signal &&& ~~~t.blocked)

/-- `ret_from_sys_call` for a task other than task 0 that goes back to user mode. -/
def retFromSysCall (t : SigTask) (regs : Regs) : Option (Delivery × SigTask) :=
  match t.nextSignal with
  | none => none
  | some i =>
    let t := { t with signal := t.signal &&& ~~~((1 : BitVec 32) <<< i.val) }
    some (t.doSignal i regs, t)

end SigTask

/-! ## Runs -/

/-- `task[NR_TASKS]` and `current`. -/
structure Signals where
  task : Fin 64 → Option SigTask
  current : Fin 64

inductive SigEvent where
  | ssetmask (newmask : BitVec 32)
  | signal (signum : ℤ) (handler restorer : BitVec 32)
  | sigaction (signum : ℤ) (action : Sigaction)
  /-- the running task goes back to user mode -/
  | deliver (regs : SigTask.Regs)
  /-- `send_sig`, `kill_session`, `tell_father`, the terminal and the traps: `signal |= mask` -/
  | arrive (i : Fin 64) (mask : BitVec 32)
  /-- `sys_waitpid` and `tty_read`: `signal &= ~mask` -/
  | consume (mask : BitVec 32)
  /-- `sys_alarm` -/
  | alarm (at_ : ℤ)
  /-- `copy_process` into the free entry `nr` -/
  | fork (nr : Fin 64)
  /-- `do_execve` past the point of no return -/
  | exec
  /-- the signal pass of `schedule`; task `next` runs on -/
  | schedule (jiffies : ℤ) (next : Fin 64)
  /-- code that puts a task to sleep, wakes it, or ends it -/
  | state (i : Fin 64) (s : TaskState)
  | release (i : Fin 64)

namespace Signals

/-- `INIT_TASK` alone. -/
def start : Signals where
  task := Function.update (fun _ => none) 0 (some ⟨initTask, fun _ => ⟨0, 0, 0, 0⟩⟩)
  current := 0

/-- A change of task `i`. -/
def change (σ : Signals) (i : Fin 64) (f : SigTask → SigTask) : Option Signals :=
  match σ.task i with
  | none => none
  | some t => some { σ with task := Function.update σ.task i (some (f t)) }

/-- `do_signal` on the task that goes back to user mode. -/
def delivered (regs : SigTask.Regs) (t : SigTask) : SigTask :=
  match t.retFromSysCall regs with
  | none => t
  | some (.ignored, t) => t
  | some (.exits _, t) => { t with state := .zombie }
  | some (.handled t _ _, _) => t

def step (σ : Signals) : SigEvent → Option Signals
  | .ssetmask newmask => σ.change σ.current fun t => (t.sysSsetmask newmask).1
  | .signal signum handler restorer =>
    σ.change σ.current fun t => (t.sysSignal signum handler restorer).1
  | .sigaction signum action =>
    σ.change σ.current fun t => ((t.sysSigaction signum action).map Prod.fst).getD t
  | .deliver regs => if σ.current = 0 then none else σ.change σ.current (delivered regs)
  | .arrive i mask => σ.change i fun t => { t with signal := t.signal ||| mask }
  | .consume mask => σ.change σ.current fun t => { t with signal := t.signal &&& ~~~mask }
  | .alarm a => σ.change σ.current fun t => { t with alarm := a }
  | .fork nr =>
    match σ.task σ.current, σ.task nr with
    | some t, none =>
      let p := { t with state := .uninterruptible, counter := t.priority, signal := 0, alarm := 0 }
      some { σ with task := Function.update σ.task nr (some p) }
    | _, _ => none
  | .exec => σ.change σ.current fun t =>
      { t with sigaction := fun i => { t.sigaction i with handler := 0 } }
  | .schedule jiffies next =>
    if (σ.task next).isSome then
      some ⟨fun i => if i = 0 then σ.task i else (σ.task i).map fun t =>
        { t with toTaskStruct := t.toTaskStruct.checkSignals jiffies }, next⟩
    else none
  | .state i s => σ.change i fun t => { t with state := s }
  | .release i =>
    if i = 0 ∨ i = σ.current then none
    else some { σ with task := Function.update σ.task i none }

/-- All tasks have a property. -/
def All (P : SigTask → Prop) (σ : Signals) : Prop := ∀ i t, σ.task i = some t → P t

end Signals

/-- The tasks from the start of the system on. -/
def signalSystem : Lts Signals SigEvent where
  init σ := σ = Signals.start
  step σ e σ' := σ.step e = some σ'

/-! ## What a step does to `blocked` -/

/-- Signal number `i + 1` is the next to be delivered, and to a handler. -/
def SigTask.Handles (t : SigTask) (i : Fin 32) : Prop :=
  t.nextSignal = some i ∧ (t.sigaction i).handler ≠ 0 ∧ (t.sigaction i).handler ≠ 1

theorem delivered_handles {t : SigTask} {i : Fin 32} (h : t.Handles i) (regs : SigTask.Regs) :
    (Signals.delivered regs t).blocked = t.blocked ||| (t.sigaction i).mask := by
  obtain ⟨hn, h0, h1⟩ := h
  simp only [Signals.delivered, SigTask.retFromSysCall, hn, SigTask.doSignal, if_neg h0, if_neg h1]
  split_ifs <;> rfl

theorem delivered_other {t : SigTask} (h : ∀ i, ¬ t.Handles i) (regs : SigTask.Regs) :
    (Signals.delivered regs t).blocked = t.blocked := by
  cases hn : t.nextSignal with
  | none => simp only [Signals.delivered, SigTask.retFromSysCall, hn]
  | some i =>
    have hi : (t.sigaction i).handler = 0 ∨ (t.sigaction i).handler = 1 := by
      by_contra hc
      exact h i ⟨hn, fun h0 => hc (Or.inl h0), fun h1 => hc (Or.inr h1)⟩
    simp only [Signals.delivered, SigTask.retFromSysCall, hn, SigTask.doSignal]
    rcases hi with hi | hi
    · rw [hi, if_neg (by decide), if_pos rfl]
      split_ifs <;> rfl
    · rw [hi, if_pos rfl]

namespace Signals

variable {σ σ' : Signals} {e : SigEvent} {P : SigTask → Prop}

theorem change_some {i : Fin 64} {f : SigTask → SigTask} (h : σ.change i f = some σ') :
    ∃ t, σ.task i = some t ∧ σ' = { σ with task := Function.update σ.task i (some (f t)) } := by
  unfold change at h
  split at h
  · cases h
  · exact ⟨_, ‹_›, (Option.some.inj h).symm⟩

/-- One task changes. -/
theorem All.change {i : Fin 64} {f : SigTask → SigTask} (hP : All P σ)
    (h : σ.change i f = some σ') (hf : ∀ t, σ.task i = some t → P t → P (f t)) : All P σ' := by
  obtain ⟨t, ht, rfl⟩ := change_some h
  intro j u hu
  dsimp only at hu
  by_cases hj : j = i
  · subst hj
    rw [Function.update_self] at hu
    cases hu
    exact hf t ht (hP j t ht)
  · rw [Function.update_of_ne hj] at hu
    exact hP j u hu

theorem checkSignals_blocked (t : TaskStruct) (jiffies : ℤ) :
    (t.checkSignals jiffies).blocked = t.blocked := by
  unfold TaskStruct.checkSignals
  dsimp only
  split_ifs <;> rfl

/-- `blocked` of a task changes in `sys_ssetmask`, and when a signal is delivered to a handler. -/
theorem All.blocked {P : BitVec 32 → Prop} (h : σ.step e = some σ') (hP : All (fun t => P t.blocked) σ)
    (hset : ∀ m, e = .ssetmask m → P (m &&& ~~~sigBit sigkill))
    (hdeliver : ∀ regs t i, e = .deliver regs → σ.task σ.current = some t → t.Handles i →
      P (t.blocked ||| (t.sigaction i).mask)) : All (fun t => P t.blocked) σ' := by
  cases e with
  | ssetmask m => exact hP.change h fun t _ _ => hset m rfl
  | signal signum handler restorer =>
    refine hP.change h fun t _ ht => ?_
    unfold SigTask.sysSignal
    split <;> exact ht
  | sigaction signum action =>
    refine hP.change h fun t _ ht => ?_
    unfold SigTask.sysSigaction
    split <;> exact ht
  | deliver regs =>
    simp only [step] at h
    split_ifs at h
    refine hP.change h fun t htask ht => ?_
    by_cases hh : ∃ i, t.Handles i
    · obtain ⟨i, hi⟩ := hh
      rw [delivered_handles hi]
      exact hdeliver regs t i rfl htask hi
    · rw [delivered_other (not_exists.mp hh)]
      exact ht
  | arrive | consume | alarm | exec | state => exact hP.change h fun t _ ht => ht
  | fork nr =>
    simp only [step] at h
    split at h
    · rename_i t ht _
      cases h
      intro j u hu
      dsimp only at hu
      by_cases hj : j = nr
      · subst hj
        rw [Function.update_self] at hu
        cases hu
        exact hP _ t ht
      · rw [Function.update_of_ne hj] at hu
        exact hP j u hu
    · cases h
  | schedule jiffies next =>
    simp only [step] at h
    split_ifs at h
    cases h
    intro j u hu
    dsimp only at hu
    split_ifs at hu
    · exact hP j u hu
    · obtain ⟨t, ht, rfl⟩ := Option.map_eq_some_iff.mp hu
      dsimp only
      rw [checkSignals_blocked]
      exact hP j t ht
  | release i =>
    simp only [step] at h
    split_ifs at h
    cases h
    intro j u hu
    dsimp only at hu
    by_cases hj : j = i
    · subst hj
      rw [Function.update_self] at hu
      cases hu
    · rw [Function.update_of_ne hj] at hu
      exact hP j u hu

/-! ## SIGKILL -/

/-- A mask without SIGKILL. -/
def LetsKill (b : BitVec 32) : Prop := b.getLsbD 8 = false

instance (b : BitVec 32) : Decidable (LetsKill b) := inferInstanceAs (Decidable (_ = _))

/-- A signal is delivered to no handler whose mask has SIGKILL. -/
def KillFree (σ : Signals) : SigEvent → Prop
  | .deliver _ => ∀ t i, σ.task σ.current = some t → t.Handles i → LetsKill (t.sigaction i).mask
  | _ => True

theorem letsKill_ssetmask (m : BitVec 32) : LetsKill (m &&& ~~~sigBit sigkill) := by
  simp [LetsKill, sigBit, sigkill]

theorem letsKill_or {b m : BitVec 32} : LetsKill (b ||| m) ↔ LetsKill b ∧ LetsKill m := by
  simp [LetsKill]

theorem letsKill_step (h : σ.step e = some σ') (hP : All (fun t => LetsKill t.blocked) σ)
    (he : KillFree σ e) : All (fun t => LetsKill t.blocked) σ' := by
  refine hP.blocked h (fun m _ => letsKill_ssetmask m) ?_
  rintro regs t i rfl ht hi
  exact letsKill_or.mpr ⟨hP _ t ht, he t i ht hi⟩

/-- Delivery to a handler puts its mask into `blocked`. -/
theorem deliver_step {regs : SigTask.Regs} (h : σ.step (.deliver regs) = some σ') {t : SigTask}
    {i : Fin 32} (ht : σ.task σ.current = some t) (hi : t.Handles i) :
    ∃ t', σ'.task σ.current = some t' ∧ t'.blocked = t.blocked ||| (t.sigaction i).mask := by
  simp only [step] at h
  split_ifs at h
  obtain ⟨u, hu, rfl⟩ := change_some h
  rw [ht] at hu
  cases hu
  exact ⟨delivered regs t, by simp, delivered_handles hi regs⟩

theorem start_all {Q : BitVec 32 → Prop} (h0 : Q 0) : All (fun t => Q t.blocked) start := by
  intro i t ht
  unfold start at ht
  dsimp only at ht
  by_cases hi : i = 0
  · subst hi
    rw [Function.update_self] at ht
    cases ht
    exact h0
  · rw [Function.update_of_ne hi] at ht
    cases ht

theorem letsKill_inv (h : (signalSystem.restrict KillFree).Reachable σ) :
    All (fun t => LetsKill t.blocked) σ := by
  refine h.invariant (I := All fun t => LetsKill t.blocked) ?_ fun s e s' _ hi hs =>
    letsKill_step hs.2 hi hs.1
  rintro _ rfl
  exact start_all (by decide)

/-- In every run in which no delivered handler has SIGKILL in its mask, SIGKILL is not blocked, and
    when pending it is among the signals that may be delivered; a step against that condition
    blocks it. -/
theorem sigkill_stays_unblocked (h : (signalSystem.restrict KillFree).Reachable σ) :
    (∀ i t, σ.task i = some t → LetsKill t.blocked ∧
      (t.signal.getLsbD 8 = true → (t.signal &&& ~~~t.blocked).getLsbD 8 = true)) ∧
    ∀ e σ', σ.step e = some σ' → (KillFree σ e ↔ All (fun t => LetsKill t.blocked) σ') := by
  have hI := letsKill_inv h
  refine ⟨fun i t ht => ⟨hI i t ht, fun hs => ?_⟩, fun e σ' he => ⟨letsKill_step he hI, fun hI' => ?_⟩⟩
  · have hb : t.blocked.getLsbD 8 = false := hI i t ht
    rw [BitVec.getLsbD_and, BitVec.getLsbD_not, hs, hb]
    rfl
  · cases e with
    | deliver regs =>
      intro t i ht hi
      obtain ⟨t', ht', hb⟩ := deliver_step he ht hi
      have hk : LetsKill t'.blocked := hI' _ t' ht'
      rw [hb] at hk
      exact (letsKill_or.mp hk).2
    | _ => trivial

/-- Task 1 is forked, runs, and blocks all it can; a SIGKILL comes. -/
def blockAll : List {e : SigEvent // ∀ σ, KillFree σ e} :=
  [⟨.fork 1, fun _ => trivial⟩, ⟨.state 1 .running, fun _ => trivial⟩,
    ⟨.schedule 0 1, fun _ => trivial⟩, ⟨.ssetmask (-1), fun _ => trivial⟩,
    ⟨.arrive 1 (sigBit sigkill), fun _ => trivial⟩]

theorem sigkill_stays_unblocked_all_masked : ∃ (σ : Signals) (t : SigTask), σ.task 1 = some t ∧
    t.blocked = ~~~sigBit sigkill ∧ (t.signal &&& ~~~t.blocked).getLsbD 8 = true := by
  have hsome : (blockAll.foldlM (fun σ e => step σ e.1) start).isSome := by decide
  obtain ⟨σ, hσ⟩ := Option.isSome_iff_exists.mp hsome
  have hval : ((blockAll.foldlM (fun σ e => step σ e.1) start).bind fun σ =>
      (σ.task 1).map fun t => (t.blocked, t.signal)) =
      some (~~~sigBit sigkill, sigBit sigkill) := by decide
  rw [hσ, Option.bind_some] at hval
  obtain ⟨t, ht, hx⟩ := Option.map_eq_some_iff.mp hval
  have hr : (signalSystem.restrict KillFree).Reachable σ :=
    Lts.Reachable.foldlM (.init rfl)
      (fun _ (e : {e : SigEvent // ∀ σ, KillFree σ e}) _ h => ⟨e.1, e.2 _, h⟩) _ hσ
  have hk := (sigkill_stays_unblocked hr).1 1 t ht
  simp only [Prod.mk.injEq] at hx
  exact ⟨σ, t, ht, hx.1, hk.2 (by rw [hx.2]; decide)⟩

/-- Task 1 has SIGKILL in the mask of its SIGUSR1 handler; SIGUSR1 and then SIGKILL come. -/
def maskKill : List SigEvent :=
  [.fork 1, .state 1 .running, .schedule 0 1, .sigaction 10 ⟨0x1000, sigBit sigkill, 0, 0⟩,
    .arrive 1 (sigBit 10), .deliver ⟨0, 0, 0, 0, 0, 0⟩, .arrive 1 (sigBit sigkill)]

/-- SIGKILL is pending and blocked, and no signal is delivered. -/
theorem handler_mask_blocks_sigkill : ∃ σ t, signalSystem.Reachable σ ∧ σ.task 1 = some t ∧
    t.blocked.getLsbD 8 = true ∧ t.signal.getLsbD 8 = true ∧ t.nextSignal = none := by
  have hsome : (maskKill.foldlM step start).isSome := by decide
  obtain ⟨σ, hσ⟩ := Option.isSome_iff_exists.mp hsome
  have hval : ((maskKill.foldlM step start).bind fun σ => (σ.task 1).map fun t =>
      (t.blocked.getLsbD 8, t.signal.getLsbD 8, t.nextSignal)) = some (true, true, none) := by
    decide
  rw [hσ, Option.bind_some] at hval
  obtain ⟨t, ht, hx⟩ := Option.map_eq_some_iff.mp hval
  simp only [Prod.mk.injEq] at hx
  exact ⟨σ, t, Lts.Reachable.foldlM (.init rfl) (fun _ e _ h => ⟨e, h⟩) _ hσ, ht, hx⟩

/-! ## SIGKILL and SIGSTOP -/

/-- A mask without SIGKILL and SIGSTOP. -/
def LetsBoth (b : BitVec 32) : Prop := b.getLsbD 8 = false ∧ b.getLsbD 18 = false

instance (b : BitVec 32) : Decidable (LetsBoth b) := inferInstanceAs (Decidable (_ ∧ _))

/-- `schedule` finds a signal to wake an interruptible task for if and only if
    `ret_from_sys_call` finds one to deliver. -/
def Agree (signal blocked : BitVec 32) : Prop :=
  signal &&& ~~~(blockable &&& blocked) ≠ 0 ↔ signal &&& ~~~blocked ≠ 0

/-- No call blocks SIGSTOP, and a signal is delivered to no handler whose mask has SIGKILL or
    SIGSTOP. -/
def StopFree (σ : Signals) : SigEvent → Prop
  | .ssetmask newmask => newmask.getLsbD 18 = false
  | .deliver _ => ∀ t i, σ.task σ.current = some t → t.Handles i → LetsBoth (t.sigaction i).mask
  | _ => True

theorem letsBoth_or {b m : BitVec 32} : LetsBoth (b ||| m) ↔ LetsBoth b ∧ LetsBoth m := by
  simp only [LetsBoth, BitVec.getLsbD_or, Bool.or_eq_false_iff]
  tauto

theorem letsBoth_ssetmask {m : BitVec 32} :
    LetsBoth (m &&& ~~~sigBit sigkill) ↔ m.getLsbD 18 = false := by
  have h8 : (~~~sigBit sigkill).getLsbD 8 = false := by decide
  have h18 : (~~~sigBit sigkill).getLsbD 18 = true := by decide
  simp only [LetsBoth, BitVec.getLsbD_and, h8, h18, Bool.and_false, Bool.and_true, true_and]

theorem blockable_bits : ∀ i : Fin 32, blockable.getLsbD i = (i ≠ 8 && i ≠ 18 : Bool) := by decide

/-- Without SIGKILL and SIGSTOP in the mask `_BLOCKABLE` makes no difference. -/
theorem LetsBoth.blockable {b : BitVec 32} (h : LetsBoth b) : Kernel.blockable &&& b = b := by
  refine BitVec.eq_of_getLsbD_eq fun i hi => ?_
  rw [BitVec.getLsbD_and, blockable_bits ⟨i, hi⟩]
  by_cases h8 : i = 8
  · subst h8; rw [h.1, Bool.and_false]
  · by_cases h18 : i = 18
    · subst h18; rw [h.2, Bool.and_false]
    · simp [Fin.ext_iff, h8, h18]

/-- A pending SIGKILL or SIGSTOP that is blocked makes a difference. -/
theorem not_agree {b : BitVec 32} {k : Fin 32} (hk : blockable.getLsbD k = false)
    (hb : b.getLsbD k = true) : ¬ Agree (BitVec.twoPow 32 k) b := by
  intro h
  have hl : BitVec.twoPow 32 k &&& ~~~(blockable &&& b) ≠ 0 := fun h0 => by
    have hbit := congrArg (fun x => BitVec.getLsbD x k) h0
    simp only [BitVec.getLsbD_and, BitVec.getLsbD_not, hk, BitVec.getLsbD_twoPow] at hbit
    simp at hbit
  refine h.mp hl (BitVec.eq_of_getLsbD_eq fun i hi => ?_)
  rw [BitVec.getLsbD_and, BitVec.getLsbD_not, BitVec.getLsbD_twoPow]
  by_cases hik : k.val = i
  · subst hik
    simp only [hb]
    simp
  · simp [hik]

/-- The two tests agree on all pending signals if and only if neither signal is blocked. -/
theorem agree_iff {b : BitVec 32} : (∀ signal, Agree signal b) ↔ LetsBoth b := by
  refine ⟨fun h => ⟨?_, ?_⟩, fun h signal => ?_⟩
  · by_contra hb
    exact not_agree (k := 8) (by decide) (by simpa using hb) (h _)
  · by_contra hb
    exact not_agree (k := 18) (by decide) (by simpa using hb) (h _)
  · unfold Agree
    rw [h.blockable]

theorem ssetmask_step {m : BitVec 32} (h : σ.step (.ssetmask m) = some σ') :
    ∃ t', σ'.task σ.current = some t' ∧ t'.blocked = m &&& ~~~sigBit sigkill := by
  obtain ⟨t, -, rfl⟩ := change_some h
  exact ⟨_, Function.update_self .., rfl⟩

theorem letsBoth_step (h : σ.step e = some σ') (hP : All (fun t => LetsBoth t.blocked) σ)
    (he : StopFree σ e) : All (fun t => LetsBoth t.blocked) σ' := by
  refine hP.blocked h ?_ ?_
  · rintro m rfl
    exact letsBoth_ssetmask.mpr he
  · rintro regs t i rfl ht hi
    exact letsBoth_or.mpr ⟨hP _ t ht, he t i ht hi⟩

theorem letsBoth_inv (h : (signalSystem.restrict StopFree).Reachable σ) :
    All (fun t => LetsBoth t.blocked) σ := by
  refine h.invariant (I := All fun t => LetsBoth t.blocked) ?_ fun s e s' _ hi hs =>
    letsBoth_step hs.2 hi hs.1
  rintro _ rfl
  exact start_all (by decide)

/-- `bsfl` finds a bit unless there is none. -/
theorem bsf_isSome {x : BitVec 32} : (SigTask.bsf x).isSome ↔ x ≠ 0 := by
  unfold SigTask.bsf
  rw [List.find?_isSome]
  constructor
  · rintro ⟨i, -, hi⟩ rfl
    simp at hi
  · intro hx
    by_contra hn
    refine hx (BitVec.eq_of_getLsbD_eq fun i hi => ?_)
    have hi' : ¬ x.getLsbD i = true := fun hb => hn ⟨⟨i, hi⟩, List.mem_finRange _, hb⟩
    simpa using hi'

/-- What the pass of `schedule` does to a task it finds asleep. -/
theorem checkSignals_running {t : TaskStruct} (ht : t.state = .interruptible) (jiffies : ℤ) :
    (t.checkSignals jiffies).state = .running ↔
      (t.checkSignals jiffies).signal &&& ~~~(blockable &&& (t.checkSignals jiffies).blocked) ≠ 0 := by
  unfold TaskStruct.checkSignals
  dsimp only
  split_ifs with h1 h2 h2
  · exact ⟨fun _ => h2.1, fun _ => rfl⟩
  · have hn : ¬ _ := fun hs => h2 ⟨hs, ht⟩
    exact ⟨fun hr => absurd (ht.symm.trans hr) (by decide), fun hs => absurd hs hn⟩
  · exact ⟨fun _ => h2.1, fun _ => rfl⟩
  · have hn : ¬ _ := fun hs => h2 ⟨hs, ht⟩
    exact ⟨fun hr => absurd (ht.symm.trans hr) (by decide), fun hs => absurd hs hn⟩

/-- In every run in which no call blocks SIGSTOP and no delivered handler has SIGKILL or SIGSTOP in
    its mask, the two tests agree for every task, whatever is pending; so `schedule` wakes a task
    exactly when a signal will be delivered. A step against that condition leaves a task for which
    they disagree on some pending signals. A deliverable signal wakes a task in any case. -/
theorem wakeup_agrees_with_delivery (h : (signalSystem.restrict StopFree).Reachable σ) :
    (∀ i t, σ.task i = some t → Agree t.signal t.blocked ∧
      ∀ jiffies, t.state = .interruptible →
        ((t.toTaskStruct.checkSignals jiffies).state = .running ↔
          (SigTask.nextSignal { t with toTaskStruct := t.toTaskStruct.checkSignals jiffies }).isSome)) ∧
    (∀ e σ', σ.step e = some σ' →
      (StopFree σ e ↔ ∀ i t, σ'.task i = some t → ∀ signal, Agree signal t.blocked)) := by
  have hI := letsBoth_inv h
  refine ⟨fun i t ht => ⟨agree_iff.mpr (hI i t ht) _, fun jiffies hs => ?_⟩, fun e σ' he => ⟨?_, ?_⟩⟩
  · have ha : Agree (t.toTaskStruct.checkSignals jiffies).signal
        (t.toTaskStruct.checkSignals jiffies).blocked := by
      rw [checkSignals_blocked]
      exact agree_iff.mpr (hI i t ht) _
    rw [checkSignals_running hs, SigTask.nextSignal, bsf_isSome]
    exact ha
  · intro hc i t ht
    exact agree_iff.mpr (letsBoth_step he hI hc i t ht)
  · intro hA
    cases e with
    | ssetmask m =>
      obtain ⟨t', ht', hb⟩ := ssetmask_step he
      have hk : LetsBoth t'.blocked := agree_iff.mp (hA _ t' ht')
      rw [hb] at hk
      exact letsBoth_ssetmask.mp hk
    | deliver regs =>
      intro t i ht hi
      obtain ⟨t', ht', hb⟩ := deliver_step he ht hi
      have hk : LetsBoth t'.blocked := agree_iff.mp (hA _ t' ht')
      rw [hb] at hk
      exact (letsBoth_or.mp hk).2
    | _ => trivial

/-- Task 1 blocks SIGTERM and sleeps; SIGHUP comes. -/
def blockTerm : List {e : SigEvent // ∀ σ, StopFree σ e} :=
  [⟨.fork 1, fun _ => trivial⟩, ⟨.state 1 .running, fun _ => trivial⟩,
    ⟨.schedule 0 1, fun _ => trivial⟩, ⟨.ssetmask (sigBit 15), fun _ => (by decide : (sigBit 15).getLsbD 18 = false)⟩,
    ⟨.state 1 .interruptible, fun _ => trivial⟩, ⟨.arrive 1 (sigBit 1), fun _ => trivial⟩]

theorem wakeup_agrees_with_delivery_sleeping : ∃ (σ : Signals) (t : SigTask),
    σ.task 1 = some t ∧ t.state = .interruptible ∧ Agree t.signal t.blocked ∧ t.signal ≠ 0 := by
  have hsome : (blockTerm.foldlM (fun σ e => step σ e.1) start).isSome := by decide
  obtain ⟨σ, hσ⟩ := Option.isSome_iff_exists.mp hsome
  have hval : ((blockTerm.foldlM (fun σ e => step σ e.1) start).bind fun σ =>
      (σ.task 1).map fun t => (t.state, t.signal)) = some (.interruptible, sigBit 1) := by
    decide
  rw [hσ, Option.bind_some] at hval
  obtain ⟨t, ht, hx⟩ := Option.map_eq_some_iff.mp hval
  have hr : (signalSystem.restrict StopFree).Reachable σ :=
    Lts.Reachable.foldlM (.init rfl)
      (fun _ (e : {e : SigEvent // ∀ σ, StopFree σ e}) _ h => ⟨e.1, e.2 _, h⟩) _ hσ
  simp only [Prod.mk.injEq] at hx
  exact ⟨σ, t, ht, hx.1, ((wakeup_agrees_with_delivery hr).1 1 t ht).1, by rw [hx.2]; decide⟩

/-- Task 1 blocks SIGSTOP, sleeps, and SIGSTOP comes. -/
def blockStop : List SigEvent :=
  [.fork 1, .state 1 .running, .schedule 0 1, .ssetmask (sigBit sigstop), .state 1 .interruptible,
    .arrive 1 (sigBit sigstop), .schedule 0 1]

/-- `schedule` has woken the task, and there is no signal to deliver. -/
theorem blocked_stop_wakes : ∃ σ t, signalSystem.Reachable σ ∧ σ.task 1 = some t ∧
    t.state = .running ∧ ¬ Agree t.signal t.blocked ∧ t.nextSignal = none := by
  have hsome : (blockStop.foldlM step start).isSome := by decide
  obtain ⟨σ, hσ⟩ := Option.isSome_iff_exists.mp hsome
  have hval : ((blockStop.foldlM step start).bind fun σ => (σ.task 1).map fun t =>
      (t.state, t.signal, t.blocked, t.nextSignal)) =
      some (.running, sigBit sigstop, sigBit sigstop, none) := by decide
  rw [hσ, Option.bind_some] at hval
  obtain ⟨t, ht, hx⟩ := Option.map_eq_some_iff.mp hval
  simp only [Prod.mk.injEq] at hx
  obtain ⟨hs, hsig, hb, hn⟩ := hx
  refine ⟨σ, t, Lts.Reachable.foldlM (.init rfl) (fun _ e _ h => ⟨e, h⟩) _ hσ, ht, hs, ?_, hn⟩
  rw [hsig, hb]
  exact not_agree (k := 18) (by decide) (by decide)

end Signals

end Linux011.Kernel

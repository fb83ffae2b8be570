/-
  The process table: `find_empty_process` and `copy_process` (kernel/fork.c) as far as the table goes,
  `do_exit`, `release` and `sys_waitpid` (kernel/exit.c), with the status words of sys/wait.h.

  Task 0 runs main(), which forks once and then only pauses; task 1 does not exit. `do_exit` sleeps
  between its loop over the children and the end, `sys_waitpid` in `schedule` and in `release`. Whether
  a fork finds memory is left open. The times are left out, and so are the exits of the same call.
-/
import Linux011.Kernel.Signal

namespace Linux011.Kernel.ProcTable

open Linux011.Lib

/-! ## sys/wait.h -/

def WIFEXITED (s : BitVec 32) : Prop := s &&& 0xFF = 0
def WIFSTOPPED (s : BitVec 32) : Prop := s &&& 0xFF = 0x7F
def WEXITSTATUS (s : BitVec 32) : BitVec 32 := s.sshiftRight 8 &&& 0xFF
def WTERMSIG (s : BitVec 32) : BitVec 32 := s &&& 0x7F
def WIFSIGNALED (s : BitVec 32) : Prop := (s - 1) &&& 0xFFFF < 0xFF

instance (s : BitVec 32) : Decidable (WIFEXITED s) := inferInstanceAs (Decidable (_ = _))
instance (s : BitVec 32) : Decidable (WIFSTOPPED s) := inferInstanceAs (Decidable (_ = _))
instance (s : BitVec 32) : Decidable (WIFSIGNALED s) := inferInstanceAs (Decidable (_ < _))

def WNOHANG : BitVec 32 := 1
def WUNTRACED : BitVec 32 := 2

/-! ## The table -/

structure Proc where
  state : TaskState
  pid : ℤ
  father : ℤ
  pgrp : ℤ
  session : ℤ
  leader : Bool
  signal : BitVec 32
  exitCode : BitVec 32

abbrev Table := Fin 64 → Option Proc

/-- `INIT_TASK` -/
def initProc : Proc := ⟨.running, 0, -1, 0, 0, false, 0, 0⟩

/-- `if ((++last_pid)<0) last_pid=1` -/
def nextPid (last : ℤ) : ℤ := if long (last + 1) < 0 then 1 else long (last + 1)

def pidUsed (task : Table) (pid : ℤ) : Bool :=
  (List.finRange 64).any fun i => (task i).any fun p => p.pid = pid

/-- The search of `find_empty_process` for a pid, in `n` turns at most. -/
def searchPid (task : Table) : ℕ → ℤ → Option ℤ
  | 0, _ => none
  | n + 1, last => if pidUsed task (nextPid last) then searchPid task n (nextPid last) else some (nextPid last)

def emptySlot (task : Table) : Option (Fin 64) := (List.finRange 64).find? fun i => i ≠ 0 ∧ (task i).isNone

/-- What `copy_process` puts into the table. -/
def childOf (p : Proc) (pid : ℤ) : Proc :=
  { p with state := .running, pid := pid, father := p.pid, signal := 0, leader := false }

def orSignal (mask : BitVec 32) (p : Proc) : Proc := { p with signal := p.signal ||| mask }

/-- The loop of `do_exit`: the children go to task 1, which is told of those that are zombies. -/
def reparent (task : Table) (pid : ℤ) : Table := fun i =>
  (task i).map fun p =>
    let p := if i = 1 ∧ ((List.finRange 64).any fun j => (task j).any fun q => q.father = pid && q.state = .zombie)
      then orSignal (sigBit sigchld) p else p
    if p.father = pid then { p with father := 1 } else p

/-- `kill_session` -/
def killSession (task : Table) (session : ℤ) : Table := fun i =>
  (task i).map fun p => if i ≠ 0 ∧ p.session = session then orSignal (sigBit 1) p else p

/-- The entry `tell_father` finds. -/
def findFather (task : Table) (pid : ℤ) : Option (Fin 64) :=
  if pid = 0 then none else (List.finRange 64).find? fun i => (task i).any fun p => p.pid = pid

/-- `tell_father`, called by entry `me`: without a father the task releases itself. -/
def tellFather (task : Table) (me : Fin 64) (pid : ℤ) : Table :=
  match findFather task pid with
  | some i => Function.update task i ((task i).map (orSignal (sigBit sigchld)))
  | none => Function.update task me none

/-- The end of `do_exit`, up to `tell_father`. -/
def becomeZombie (task : Table) (me : Fin 64) (p : Proc) (code : BitVec 32) : Table :=
  let task := if p.leader then killSession task p.session else task
  Function.update task me ((task me).map fun p => { p with state := .zombie, exitCode := code })

def exitEnd (task : Table) (me : Fin 64) (p : Proc) (code : BitVec 32) : Table :=
  tellFather (becomeZombie task me p code) me p.father

/-! ## sys_waitpid -/

/-- The child is one that `sys_waitpid` is asked for. -/
def selects (cur : Proc) (pid : ℤ) (p : Proc) : Bool :=
  if 0 < pid then p.pid = pid else if pid = 0 then p.pgrp = cur.pgrp else if pid ≠ -1 then p.pgrp = -pid else true

inductive Found
  | stopped (p : Proc)
  | zombie (i : Fin 64) (p : Proc)
  | nothing (flag : Bool)

/-- The loop of `sys_waitpid`, with its flag. -/
def scan (task : Table) (me : Fin 64) (cur : Proc) (pid : ℤ) (options : BitVec 32) : List (Fin 64) → Bool → Found
  | [], flag => .nothing flag
  | i :: is, flag =>
    match task i with
    | none => scan task me cur pid options is flag
    | some p =>
      if i = me ∨ p.father ≠ cur.pid ∨ selects cur pid p = false then scan task me cur pid options is flag
      else match p.state with
        | .stopped =>
          if options &&& WUNTRACED = 0 then scan task me cur pid options is flag else .stopped p
        | .zombie => .zombie i p
        | _ => scan task me cur pid options is true

/-- From `&LAST_TASK` down to the entry after `&FIRST_TASK`. -/
def children : List (Fin 64) := (List.finRange 64).reverse.filter (· ≠ 0)

/-! ## Runs -/

/-- Why a task has called `do_exit`: `sys_exit`, the default action of signal number `i + 1`, or a
    fault in the kernel. -/
inductive Cause
  | exit (errorCode : BitVec 32)
  | signal (i : Fin 32)
  | fault

inductive Place
  | user
  /-- `do_exit` after its loop over the children -/
  | exiting (code : BitVec 32) (c : Cause)
  /-- `sys_waitpid` in `schedule`, and in `release` -/
  | waiting (pid : ℤ) (options : BitVec 32)
  | releasing (pid : ℤ) (code : BitVec 32) (c : Cause)

/-- What `sys_waitpid` returns with: the pid, the status word, and why the child had ended. -/
structure Report where
  pid : ℤ
  status : BitVec 32
  cause : Cause

/-- `cause` is that of the last task in the entry to become a zombie, `reports` what `sys_waitpid` has
    reported of zombies; `forked`: main() has called fork. -/
structure Sys where
  task : Table
  place : Fin 64 → Place
  lastPid : ℤ
  forked : Bool
  cause : Fin 64 → Cause
  reports : List Report

inductive Event
  | fork (me : Fin 64) (memory : Bool)
  | exit (me : Fin 64) (errorCode : BitVec 32)
  | signal (me : Fin 64) (i : Fin 32)
  | fault (me : Fin 64) (code : BitVec 32)
  | exitEnd (me : Fin 64)
  | waitpid (me : Fin 64) (pid : ℤ) (options : BitVec 32)
  | wake (me : Fin 64)
  | released (me : Fin 64)
  /-- `signal |= mask` from elsewhere -/
  | arrive (i : Fin 64) (mask : BitVec 32)
  /-- `sys_setpgid` and `sys_setsid` -/
  | group (i : Fin 64) (pgrp session : ℤ) (leader : Bool)
  /-- a task other than a zombie is put to sleep or woken -/
  | state (i : Fin 64) (s : TaskState)

namespace Sys

variable (σ : Sys)

/-- Entry `me` runs as `p`. -/
def Runs (me : Fin 64) (p : Proc) : Prop := σ.task me = some p ∧ p.state = .running

/-- `find_empty_process`: the new `last_pid` and the entry. Among 65 pids one is free. -/
def findEmptyProcess : Option (ℤ × Option (Fin 64)) :=
  (searchPid σ.task 65 σ.lastPid).map fun l => (l, emptySlot σ.task)

def setPlace (me : Fin 64) (q : Place) : Sys := { σ with place := Function.update σ.place me q }

def setProc (me : Fin 64) (p : Proc) : Sys := { σ with task := Function.update σ.task me (some p) }

/-- `do_exit` up to its first sleep. -/
def doExit (me : Fin 64) (p : Proc) (code : BitVec 32) (c : Cause) : Sys :=
  { σ.setPlace me (.exiting code c) with task := reparent σ.task p.pid }

/-- `sys_waitpid` from `repeat` on. -/
def waitRepeat (me : Fin 64) (p : Proc) (pid : ℤ) (options : BitVec 32) : Sys :=
  match scan σ.task me p pid options children false with
  | .stopped _ => σ.setPlace me .user
  | .zombie i q =>
    { σ.setPlace me (.releasing q.pid q.exitCode (σ.cause i)) with task := Function.update σ.task i none }
  | .nothing flag =>
    if flag ∧ options &&& WNOHANG = 0 then (σ.setProc me { p with state := .interruptible }).setPlace me (.waiting pid options)
    else σ.setPlace me .user

/-- `sys_waitpid` back from `schedule`. -/
def waitWoken (me : Fin 64) (p : Proc) (pid : ℤ) (options : BitVec 32) : Sys :=
  let p := { p with signal := p.signal &&& ~~~sigBit sigchld }
  if p.signal = 0 then (σ.setProc me p).waitRepeat me p pid options else (σ.setProc me p).setPlace me .user

inductive Step : Sys → Event → Sys → Prop
  | forkFull {σ : Sys} {me : Fin 64} {p : Proc} {l : ℤ} {memory : Bool} : σ.Runs me p → σ.place me = .user →
      (me = 0 → σ.forked = false) → σ.findEmptyProcess = some (l, none) →
      Step σ (.fork me memory) { σ with lastPid := l, forked := σ.forked || me = 0 }
  | forkFailed {σ : Sys} {me nr : Fin 64} {p : Proc} {l : ℤ} : σ.Runs me p → σ.place me = .user →
      (me = 0 → σ.forked = false) → σ.findEmptyProcess = some (l, some nr) →
      Step σ (.fork me false) { σ with lastPid := l, forked := σ.forked || me = 0 }
  | fork {σ : Sys} {me nr : Fin 64} {p : Proc} {l : ℤ} : σ.Runs me p → σ.place me = .user →
      (me = 0 → σ.forked = false) → σ.findEmptyProcess = some (l, some nr) →
      Step σ (.fork me true)
        { (σ.setProc nr (childOf p l)).setPlace nr .user with lastPid := l, forked := σ.forked || me = 0 }
  | exit {σ : Sys} {me : Fin 64} {p : Proc} {errorCode : BitVec 32} : σ.Runs me p → σ.place me = .user →
      me ≠ 0 → me ≠ 1 →
      Step σ (.exit me errorCode) (σ.doExit me p ((errorCode &&& 0xFF) <<< 8) (.exit errorCode))
  | signal {σ : Sys} {me : Fin 64} {p : Proc} {i : Fin 32} {t : SigTask} {regs : SigTask.Regs} {code : BitVec 32} :
      σ.Runs me p → σ.place me = .user → me ≠ 0 → me ≠ 1 → t.doSignal i regs = .exits code →
      Step σ (.signal me i) (σ.doExit me p code (.signal i))
  | fault {σ : Sys} {me : Fin 64} {p : Proc} {code : BitVec 32} : σ.Runs me p →
      (∀ code c, σ.place me ≠ .exiting code c) → me ≠ 0 → me ≠ 1 →
      Step σ (.fault me code) (σ.doExit me p code .fault)
  | exitEnd {σ : Sys} {me : Fin 64} {p : Proc} {code : BitVec 32} {c : Cause} : σ.Runs me p →
      σ.place me = .exiting code c →
      Step σ (.exitEnd me) { σ with task := Kernel.ProcTable.exitEnd σ.task me p code, cause := Function.update σ.cause me c }
  | waitpid {σ : Sys} {me : Fin 64} {p : Proc} {pid : ℤ} {options : BitVec 32} : σ.Runs me p → σ.place me = .user →
      me ≠ 0 → Step σ (.waitpid me pid options) (σ.waitRepeat me p pid options)
  | wake {σ : Sys} {me : Fin 64} {p : Proc} {pid : ℤ} {options : BitVec 32} : σ.Runs me p →
      σ.place me = .waiting pid options → Step σ (.wake me) (σ.waitWoken me p pid options)
  | released {σ : Sys} {me : Fin 64} {p : Proc} {pid : ℤ} {code : BitVec 32} {c : Cause} : σ.Runs me p →
      σ.place me = .releasing pid code c →
      Step σ (.released me) { σ.setPlace me .user with reports := ⟨pid, code, c⟩ :: σ.reports }
  | arrive {σ : Sys} {i : Fin 64} {p : Proc} {mask : BitVec 32} : σ.task i = some p →
      Step σ (.arrive i mask) (σ.setProc i (orSignal mask p))
  | group {σ : Sys} {i : Fin 64} {p : Proc} {pgrp session : ℤ} {leader : Bool} : σ.task i = some p →
      Step σ (.group i pgrp session leader) (σ.setProc i { p with pgrp := pgrp, session := session, leader := leader })
  | state {σ : Sys} {i : Fin 64} {p : Proc} {s : TaskState} : σ.task i = some p → p.state ≠ .zombie → s ≠ .zombie →
      Step σ (.state i s) (σ.setProc i { p with state := s })

/-- Task 0 alone. -/
def start : Sys where
  task := Function.update (fun _ => none) 0 (some initProc)
  place _ := .user
  lastPid := 0
  forked := false
  cause _ := .fault
  reports := []

end Sys

def procSystem : Lts Sys Event where
  init σ := σ = Sys.start
  step := Sys.Step

end Linux011.Kernel.ProcTable

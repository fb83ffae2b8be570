/-
  The tasks over memory.c: fork (kernel/fork.c), the memory side of exec (fs/exec.c) and exit
  (kernel/exit.c), page faults, user loads and stores, `verify_area` and the supervisor stores
  of `put_fs_byte`. The state is the memory, the kernel-held frames, the task table and the
  `i_count` of the executables' inodes.

  A step is what runs without a sleep in between; `do_no_page` sleeps in `bread_page` and
  `do_execve` may sleep in `sys_close` between the new `current->executable` and the release of
  the old tables, so these are two steps each, and any other task may run in the middle. A user
  access is a step of its own: an absent page traps to `do_no_page` (`fault`), a store through
  a read-only entry traps to `do_wp_page`; `wp` is the trap alone, when another task runs
  before the instruction is restarted. A load of a present page changes nothing and is no step.
  Task 0 runs in the identity tables and takes part only as the parent of task 1.
-/
import Linux011.Mm.Ops

namespace Linux011.Mm

open Linux011.Lib

/-! ## State -/

/-- What the memory manager uses of an a.out file: the sizes of the header and the bytes that
    `bmap` and `bread_page` read. -/
structure Exe where
  text : Nat
  data : Nat
  bss : Nat
  byte : Nat → Nat

/-- The size check of `do_execve`. -/
def Exe.SizeOk (x : Exe) : Prop := x.text + x.data + x.bss ≤ 0x3000000

instance (x : Exe) : Decidable x.SizeOk := inferInstanceAs (Decidable (_ ≤ _))

/-- The page `do_no_page` reads at offset `tmp`: one block of header is skipped, and the bytes
    from `end_data` on are cleared. -/
def Exe.page (x : Exe) (endData tmp : Nat) : Page where
  entry _ := Entry.zero
  byte j := if tmp + j < endData then x.byte (1024 + tmp + j) else 0

/-- Where a task is: in user mode or a system call, in `do_execve` before or after the old
    tables are released, or dead. -/
inductive Phase where
  | user
  | execing
  | tail
  | zombie
  deriving DecidableEq, Repr

structure Task where
  executable : Option Nat
  endData : Nat
  codeLimit : Nat
  limit : Nat
  phase : Phase
  /-- the page being read for a fault of the task, and its offset -/
  fault : Option (Nat × Nat)
  deriving DecidableEq, Repr

structure Sys where
  mm : Mem
  own : Finset Nat
  task : Nat → Option Task
  iCount : Nat → Nat

/-- The event cannot happen in this state, or the kernel stops in `panic(msg)`. -/
inductive Halt where
  | disabled
  | panic (msg : String)
  deriving DecidableEq

namespace Sys

def setTask (σ : Sys) (t : Nat) (τ : Option Task) : Sys :=
  { σ with task := Function.update σ.task t τ }

def setMm (σ : Sys) (s : Mem) : Sys := { σ with mm := s }

/-- The slot of offset `off` in the segment of task `t`. -/
def slot (t off : Nat) : Nat × Nat := slotAt (base t + off)

/-- The byte task `u` loads at offset `off`, if the page is present. -/
def load (σ : Sys) (u off : Nat) : Option Nat :=
  let e := σ.mm.pte (slot u off)
  if e.present then some ((σ.mm.mem e.frame).byte (off % 4096)) else none

/-- Some fault is being read into frame `f`. -/
def Reading (σ : Sys) (f : Nat) : Prop :=
  ∃ t < 64, ∃ τ ∈ σ.task t, ∃ p ∈ τ.fault, p.1 = f

instance (σ : Sys) (f : Nat) : Decidable (σ.Reading f) := by
  unfold Reading
  infer_instance

/-! ## fork, exec, exit -/

/-- `do_exit` of task `t`, as far as memory goes. -/
def doExit (σ : Sys) (t : Nat) : Except Halt Sys :=
  match σ.task t with
  | none => .error .disabled
  | some τ =>
    match (freePageTables σ.mm (base t) τ.codeLimit).bind
        fun s => freePageTables s (base t) τ.limit with
    | .ok s => .ok ((σ.setMm s).setTask t
        (some { τ with executable := none, phase := .zombie, fault := none }))
    | .error (.panic msg) => .error (.panic msg)
    | .error (.oom _) => .error .disabled

/-- The end of a call made by task `t`: `oom()` is `do_exit(SIGSEGV)`. -/
def finish (σ : Sys) (t : Nat) : Except Stop Mem → Except Halt Sys
  | .ok s => .ok (σ.setMm s)
  | .error (.panic msg) => .error (.panic msg)
  | .error (.oom s) => doExit (σ.setMm s) t

/-- `copy_mem`: 0 or -ENOMEM, and the memory. -/
def copyMem (s : Mem) (p c : Nat) (τ : Task) : Except Stop (Bool × Mem) :=
  if τ.limit < τ.codeLimit then .error (.panic "Bad data_limit")
  else do
    let (r, s) ← copyPageTables s (base p) (base c) τ.limit
    if r = 0 then return (true, s)
    else
      let s ← freePageTables s (base c) τ.limit
      return (false, s)

/-- `current->executable->i_count++`, if there is an executable. -/
def incCount (n : Nat → Nat) : Option Nat → Nat → Nat
  | none => n
  | some x => Function.update n x ((n x + 1) % 65536)

/-- `copy_process` for parent `p` and the free task slot `c`. -/
def fork (σ : Sys) (p c : Nat) : Except Halt Sys :=
  match σ.task p with
  | none => .error .disabled
  | some τ =>
    if ¬ (p < 64 ∧ 1 ≤ c ∧ c < 64 ∧ σ.task c = none ∧ τ.phase = .user ∧ τ.fault = none) then
      .error .disabled
    else match getFreePage σ.mm with
      | none => .ok σ
      | some (f, s) =>
        match copyMem s p c τ with
        | .ok (true, s) => .ok
          { mm := s, own := insert f σ.own, task := Function.update σ.task c (some τ)
            iCount := incCount σ.iCount τ.executable }
        | .ok (false, s) => match freePage s (f * 4096) with
          | .ok s => .ok (σ.setMm s)
          | .error (.panic msg) => .error (.panic msg)
          | .error (.oom _) => .error .disabled
        | .error (.panic msg) => .error (.panic msg)
        | .error (.oom _) => .error .disabled

/-- `do_execve` up to `current->executable = inode`. -/
def execBegin (F : Nat → Exe) (σ : Sys) (t x : Nat) : Except Halt Sys :=
  match σ.task t with
  | none => .error .disabled
  | some τ =>
    if 1 ≤ t ∧ τ.phase = .user ∧ τ.fault = none ∧ (F x).SizeOk then
      .ok (σ.setTask t (some { τ with executable := some x, phase := .execing }))
    else .error .disabled

/-- The loop of `change_ldt` over the argument pages, from `page[31]` down, below page `n` of
    the segment; a failed `put_page` is ignored. -/
def putArgs (s : Mem) (own : Finset Nat) (t n : Nat) : List (Option Nat) → Mem × Finset Nat
  | [] => (s, own)
  | none :: ps => putArgs s own t (n - 1) ps
  | some f :: ps =>
    match putPage s f (base t + 4096 * (n - 1)) with
    | none => putArgs s own t (n - 1) ps
    | some s => putArgs s (own.erase f) t (n - 1) ps

/-- `do_execve` from `free_page_tables` to the new `end_data`. -/
def execFinish (F : Nat → Exe) (σ : Sys) (t : Nat) (args : List (Option Nat)) :
    Except Halt Sys :=
  match σ.task t with
  | none => .error .disabled
  | some τ =>
    match τ.executable with
    | none => .error .disabled
    | some x =>
      if ¬ (τ.phase = .execing ∧ args.length ≤ 32 ∧ (args.filterMap id).Nodup ∧
          ∀ f ∈ args.filterMap id, f ∈ σ.own ∧ ¬ σ.Reading f) then
        .error .disabled
      else match (freePageTables σ.mm (base t) τ.codeLimit).bind
          fun s => freePageTables s (base t) τ.limit with
        | .ok s =>
          let r := putArgs s σ.own t 0x4000 args
          .ok { mm := r.1, own := r.2, iCount := σ.iCount
                task := Function.update σ.task t (some { τ with
                  codeLimit := ((F x).text + 4095) / 4096 * 4096, limit := 0x4000000
                  endData := (F x).text + (F x).data, phase := .tail }) }
        | .error (.panic msg) => .error (.panic msg)
        | .error (.oom _) => .error .disabled

/-- A completed store of byte `v` at offset `off`, which sets the dirty bit. -/
def poke (s : Mem) (x : Nat × Nat) (j v : Nat) : Mem :=
  let e := s.pte x
  let p := s.mem e.frame
  (s.setPage e.frame { p with byte := Function.update p.byte j (v % 256) }).setEntry
    (s.dir x.1).frame x.2 { e with dirty := true }

/-- `while (i & 0xfff) put_fs_byte(0, i++)`, the last `n` bytes of a page. -/
def pokeZeros (s : Mem) (x : Nat × Nat) : Nat → Mem
  | 0 => s
  | n + 1 => pokeZeros (poke s x (4095 - n) 0) x n

/-- The end of `do_execve`: the rest of the last page of data is cleared. -/
def execTail (σ : Sys) (t : Nat) : Except Halt Sys :=
  match σ.task t with
  | none => .error .disabled
  | some τ =>
    let done := σ.setTask t (some { τ with phase := .user })
    if ¬ (τ.phase = .tail ∧ τ.fault = none) then .error .disabled
    else if τ.endData % 4096 = 0 then .ok done
    else if (σ.mm.pte (slot t τ.endData)).present then
      .ok (done.setMm (pokeZeros σ.mm (slot t τ.endData) (4096 - τ.endData % 4096)))
    else .error .disabled

/-! ## Page faults and accesses -/

/-- The tasks `share_page` tries, from `LAST_TASK` down; `none` when `do_no_page` does not call
    it. -/
def others (σ : Sys) (t : Nat) (τ : Task) (tmp : Nat) : Option (List Nat) :=
  match τ.executable with
  | none => none
  | some x =>
    if τ.endData ≤ tmp then none
    else if σ.iCount x < 2 then some []
    else some ((List.range 64).reverse.filter fun p =>
      p ≠ 0 ∧ p ≠ t ∧ (σ.task p).any fun τ' => τ'.executable = some x)

/-- A not-present fault of task `t` at offset `off`. -/
def fault (σ : Sys) (t off : Nat) : Except Halt Sys :=
  match σ.task t with
  | none => .error .disabled
  | some τ =>
    let tmp := off / 4096 * 4096
    if ¬ (1 ≤ t ∧ (τ.phase = .user ∨ τ.phase = .tail) ∧ τ.fault = none ∧ off < τ.limit ∧
        (σ.mm.pte (slot t tmp)).present = false) then .error .disabled
    else match doNoPage σ.mm t tmp (others σ t τ tmp) with
      | .ok (none, s) => .ok (σ.setMm s)
      | .ok (some f, s) => .ok
        { σ with
          mm := s
          own := insert f σ.own
          task := Function.update σ.task t (some { τ with fault := some (f, tmp) }) }
      | .error e => finish σ t (.error e)

/-- The blocks of the page are read: the rest of `do_no_page`. -/
def faultRead (F : Nat → Exe) (σ : Sys) (t : Nat) : Except Halt Sys :=
  match σ.task t with
  | none => .error .disabled
  | some τ =>
    match τ.fault, τ.executable with
    | some (f, tmp), some x =>
      finish { σ with
          own := σ.own.erase f
          task := Function.update σ.task t (some { τ with fault := none }) } t
        (doNoPageRead σ.mm f (base t + tmp) ((F x).page τ.endData tmp))
    | _, _ => .error .disabled

/-- The task is in user mode or in the body of a system call. -/
def Running (σ : Sys) (t : Nat) (τ : Task) : Prop :=
  1 ≤ t ∧ σ.task t = some τ ∧ τ.phase = .user ∧ τ.fault = none

instance (σ : Sys) (t : Nat) (τ : Task) : Decidable (σ.Running t τ) :=
  inferInstanceAs (Decidable (_ ∧ _ ∧ _ ∧ _))

/-- A store of task `t` traps on a read-only page. -/
def wp (σ : Sys) (t off : Nat) : Except Halt Sys :=
  match σ.task t with
  | none => .error .disabled
  | some τ =>
    let e := σ.mm.pte (slot t off)
    if σ.Running t τ ∧ off < τ.limit ∧ e.present = true ∧ e.rw = false then
      finish σ t (doWpPage σ.mm (base t + off))
    else .error .disabled

/-- A user store to a present page: `do_wp_page` if the entry is read-only, then the store. -/
def store (σ : Sys) (t off v : Nat) : Except Halt Sys :=
  match σ.task t with
  | none => .error .disabled
  | some τ =>
    let e := σ.mm.pte (slot t off)
    if σ.Running t τ ∧ off < τ.limit ∧ e.present = true then
      if e.rw then .ok (σ.setMm (poke σ.mm (slot t off) (off % 4096) v))
      else finish σ t ((doWpPage σ.mm (base t + off)).map fun s =>
        poke s (slot t off) (off % 4096) v)
    else .error .disabled

/-- The loop of `verify_area`. -/
def verifyPages (s : Mem) (start : Nat) : Nat → Except Stop Mem
  | 0 => .ok s
  | n + 1 => (writeVerify s start).bind fun s => verifyPages s ((start + 4096) % 2 ^ 32) n

/-- `verify_area(addr, size)` in task `t`. `size` is an `int`: `size += start & 0xfff` may wrap
    to a negative number, and the loop then does nothing. -/
def verifyArea (s : Mem) (t addr size : Nat) : Except Stop Mem :=
  if 2 ^ 31 ≤ size + addr % 4096 then .ok s
  else verifyPages s ((addr / 4096 * 4096 + base t) % 2 ^ 32) ((size + addr % 4096 + 4095) / 4096)

/-- A system call of task `t` runs `verify_area`. -/
def verify (σ : Sys) (t addr size : Nat) : Except Halt Sys :=
  match σ.task t with
  | none => .error .disabled
  | some τ =>
    if σ.Running t τ ∧ addr < 2 ^ 32 ∧ size < 2 ^ 31 then finish σ t (verifyArea σ.mm t addr size)
    else .error .disabled

/-- A supervisor store (`put_fs_byte`) to a present page; the R/W bit is not looked at. Before
    user mode is entered again `do_execve` stores only to its argument pages. -/
def putFs (σ : Sys) (t off v : Nat) : Except Halt Sys :=
  match σ.task t with
  | none => .error .disabled
  | some τ =>
    if 1 ≤ t ∧ τ.fault = none ∧ off < τ.limit ∧
        (τ.phase = .user ∨ τ.phase = .tail ∧ 0x3000000 ≤ off) ∧
        (σ.mm.pte (slot t off)).present = true then
      .ok (σ.setMm (poke σ.mm (slot t off) (off % 4096) v))
    else .error .disabled

end Sys

/-! ## Steps -/

inductive Event where
  | getFreePage
  | freePage (f : Nat)
  | fill (f : Nat) (contents : Page)
  | inodeCount (x n : Nat)
  | fork (p c : Nat)
  | execBegin (t x : Nat)
  | execFinish (t : Nat) (args : List (Option Nat))
  | execTail (t : Nat)
  | exit (t : Nat)
  | release (t : Nat)
  | fault (t off : Nat)
  | faultRead (t : Nat)
  | wp (t off : Nat)
  | store (t off v : Nat)
  | verify (t addr size : Nat)
  | putFs (t off v : Nat)

/-- One step. Besides the calls above: the kernel takes a page, frees one it holds, writes into
    one it holds, inodes are opened and closed elsewhere, a dead task is released. -/
def Sys.step (F : Nat → Exe) (σ : Sys) : Event → Except Halt Sys
  | .getFreePage => match Mm.getFreePage σ.mm with
    | none => .ok σ
    | some (f, s) => .ok { σ with mm := s, own := insert f σ.own }
  | .freePage f =>
    if f ∈ σ.own ∧ ¬ σ.Reading f then
      match Mm.freePage σ.mm (f * 4096) with
      | .ok s => .ok { σ with mm := s, own := σ.own.erase f }
      | .error (.panic msg) => .error (.panic msg)
      | .error (.oom _) => .error .disabled
    else .error .disabled
  | .fill f p =>
    if f ∈ σ.own then .ok (σ.setMm (σ.mm.setPage f p)) else .error .disabled
  | .inodeCount x n => .ok { σ with iCount := Function.update σ.iCount x n }
  | .fork p c => σ.fork p c
  | .execBegin t x => σ.execBegin F t x
  | .execFinish t args => σ.execFinish F t args
  | .execTail t => σ.execTail t
  | .exit t => match σ.task t with
    | none => .error .disabled
    | some τ => if τ.phase = .user ∧ τ.fault = none then σ.doExit t else .error .disabled
  | .release t => match σ.task t with
    | none => .error .disabled
    | some τ => if τ.phase = .zombie then .ok (σ.setTask t none) else .error .disabled
  | .fault t off => σ.fault t off
  | .faultRead t => σ.faultRead F t
  | .wp t off => σ.wp t off
  | .store t off v => σ.store t off v
  | .verify t addr size => σ.verify t addr size
  | .putFs t off v => σ.putFs t off v

/-- Task 0 of `INIT_TASK`. -/
def initTask : Task where
  executable := none
  endData := 0
  codeLimit := 0xA0000
  limit := 0xA0000
  phase := .user
  fault := none

/-- The system after `mem_init` and `sched_init`. -/
def taskSystem (F : Nat → Exe) (lo hi : Nat) : Lts Sys Event where
  init σ := ∃ s, Boot s ∧ ∃ n, σ = ⟨memInit s (lo * 4096) (hi * 4096), ∅,
    Function.update (fun _ => none) 0 (some initTask), n⟩
  step σ e σ' := σ.step F e = .ok σ'

end Linux011.Mm

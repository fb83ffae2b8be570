/-
  mount and umount (fs/super.c), execve (fs/exec.c), and what fork and exit do with descriptors
  and inodes (kernel/fork.c, kernel/exit.c). Then the calls as steps of a system: one call runs
  to its end before the next one.
-/
import Linux011.Fs.FileCalls
import Linux011.Lib.Trans

namespace Linux011.Fs

open Linux011.Lib

/-! ## mount, umount -/

/-- The block device a path names. -/
def nameiBlk (path : List UInt8) (notBlk : ℤ) : K (ℤ ⊕ ℕ) := do
  match ← namei path with
  | none => return .inl (-eNOENT)
  | some i =>
    let s ← Prog.get
    let d := (s.inode i).zone 0
    let blk := isBlk (s.inode i).mode
    iput (some i)
    return if blk then .inr d else .inl (-notBlk)

def sysUmount (path : List UInt8) : K ℤ := do
  match ← nameiBlk path eNOTBLK with
  | .inl err => return err
  | .inr d =>
    let s ← Prog.get
    if d = s.rootDev then return -eBUSY
    else match ← getSuper d with
      | none => return -eNOENT
      | some k =>
        match (s.super k).imount with
        | none => return -eNOENT
        | some m =>
          if (List.finRange 32).any fun i => (s.inode i).dev = d ∧ (s.inode i).count ≠ 0 then
            return -eBUSY
          else do
            modInode m fun x => { x with mount := false }
            iput (some m)
            modSuper k fun x => { x with imount := none }
            let s ← Prog.get
            iput (s.super k).isup
            modSuper k fun x => { x with isup := none }
            putSuper d
            return 0

def sysMount (devName dirName : List UInt8) : K ℤ := do
  match ← nameiBlk devName ePERM with
  | .inl err => return err
  | .inr d =>
    match ← namei dirName with
    | none => return -eNOENT
    | some i =>
      let s ← Prog.get
      if (s.inode i).count ≠ 1 ∨ (s.inode i).num = 1 then do
        iput (some i)
        return -eBUSY
      else if ¬ isDir (s.inode i).mode then do
        iput (some i)
        return -ePERM
      else match ← readSuper d with
        | none =>
          iput (some i)
          return -eBUSY
        | some k =>
          let s ← Prog.get
          if (s.super k).imount ≠ none then do
            iput (some i)
            return -eBUSY
          else if (s.inode i).mount then do
            iput (some i)
            return -ePERM
          else do
            modSuper k fun x => { x with imount := some i }
            modInode i fun x => { x with mount := true, dirt := true }
            return 0

/-! ## execve -/

/-- The longs of the a.out header. -/
def headerLong (b : Block) (k : ℕ) : ℕ := b.word (2 * k) + 65536 * b.word (2 * k + 1)

/-- The checks of `do_execve` on the header; `N_TXTOFF` of a ZMAGIC file is BLOCK_SIZE. -/
def goodHeader (b : Block) (size : ℕ) : Bool :=
  let text := headerLong b 1
  let data := headerLong b 2
  headerLong b 0 = 0o413 && headerLong b 6 = 0 && headerLong b 7 = 0 &&
    (text + data + headerLong b 3) % 2 ^ 32 ≤ 0x3000000 && (text + data + headerLong b 4 + 1024) % 2 ^ 32 ≤ size

def blank (c : UInt8) : Bool := c = 32 || c = 9

/-- The interpreter in a line that starts with `#!`. -/
def interpreter (b : Block) : Option (List UInt8) :=
  let buf := ((List.range 1022).map fun k => b (2 + k)).takeWhile (· ≠ 0)
  if 10 ∈ buf then
    let line := (buf.takeWhile (· ≠ 10)).dropWhile blank
    if line = [] then none else some (line.takeWhile fun c => ! blank c)
  else none

/-- The owner's, the group's or the others' bits, and the last of them. -/
def mayRun (τ : Task) (x : MInode) : Bool :=
  let m := if τ.euid = x.uid then x.mode >>> 6 else if τ.egid = x.gid then x.mode >>> 3 else x.mode
  m % 2 = 1 || (x.mode &&& 0o111 ≠ 0 && suser τ)

/-- The loop over `close_on_exec`. -/
def closeMarked : K Unit := do
  Prog.each (fun fd => do
    let s ← Prog.get
    if s.cur.closeOnExec fd then
      let _ ← sysClose fd.val
    else pure ()) (List.finRange 20)
  modTask fun τ => { τ with closeOnExec := fun _ => false }

/-- What an execve brings along: the words read by `count`, the bytes read by `copy_strings`, and
    whether the strings fit. -/
structure ExecArgs where
  words : ℕ
  bytes : ℕ
  fits : Bool

def accesses (n : ℕ) : K Unit := Prog.each (fun _ => access) (List.range n)

/-- `do_execve` with the inode of the program; `script` is `sh_bang`. The memory side is that of
    `Mm`. -/
def execInode (args : ExecArgs) : Bool → ℕ → Fin 32 → K ℤ
  | _, 0, _ => Prog.halt .hang
  | script, n + 1, i => do
    let s ← Prog.get
    let x := s.inode i
    if ¬ isReg x.mode then do
      iput (some i)
      return -eACCES
    else if ¬ mayRun s.cur x then do
      iput (some i)
      return -eNOEXEC
    else if ← bread x.dev (x.zone 0) then
      let s ← Prog.get
      let b := (s.disk x.dev).block (x.zone 0)
      brelse x.dev (x.zone 0)
      if b 0 = 35 ∧ b 1 = 33 ∧ ¬ script then do
        iput (some i)
        match interpreter b with
        | none => return -eNOEXEC
        | some interp =>
          accesses args.bytes
          if args.fits then
            match ← namei interp with
            | none => return -eNOENT
            | some i => execInode args true n i
          else return -eNOMEM
      else if ¬ goodHeader b x.size then do
        iput (some i)
        return -eNOEXEC
      else do
        if script then pure () else accesses args.bytes
        if ¬ script ∧ ¬ args.fits then do
          iput (some i)
          return -eNOMEM
        else do
          let s ← Prog.get
          iput s.cur.executable
          modTask fun τ => { τ with executable := some i }
          closeMarked
          modTask fun τ => { τ with
            euid := if has x.mode 0o4000 then x.uid else τ.euid
            egid := if has x.mode 0o2000 then x.gid else τ.egid }
          return 0
    else do
      iput (some i)
      return -eACCES

def doExecve (path : List UInt8) (args : ExecArgs) : K ℤ := do
  match ← namei path with
  | none => return -eNOENT
  | some i =>
    accesses args.words
    execInode args false 2 i

/-! ## exit, fork -/

/-- `do_exit` as far as descriptors and inodes go. -/
def doExit : K Unit := do
  Prog.each (fun fd => do
    let s ← Prog.get
    match s.cur.filp fd with
    | none => pure ()
    | some _ =>
      let _ ← sysClose fd.val) (List.finRange 20)
  let s ← Prog.get
  iput s.cur.pwd
  modTask fun τ => { τ with pwd := none }
  let s ← Prog.get
  iput s.cur.root
  modTask fun τ => { τ with root := none }
  let s ← Prog.get
  iput s.cur.executable
  modTask fun τ => { τ with executable := none, state := .zombie }

def incOpt : Option (Fin 32) → K Unit
  | none => pure ()
  | some i => incCount i

/-- `copy_process` for slot `c`, when `copy_mem` has succeeded. -/
def copyProcess (c : Fin 64) : K Unit := do
  let s ← Prog.get
  Prog.modify fun s => s.setTask c { s.cur with leader := false }
  Prog.each (fun fd => match s.cur.filp fd with
    | none => pure ()
    | some f => incFCount f) (List.finRange 20)
  incOpt s.cur.pwd
  incOpt s.cur.root
  incOpt s.cur.executable

/-! ## The system -/

inductive Call
  | open (path : List UInt8) (flag mode : ℕ)
  | creat (path : List UInt8) (mode : ℕ)
  | close (fd : ℕ)
  | dup (fd : ℕ)
  | dup2 (oldfd newfd : ℕ)
  | fcntl (fd cmd arg : ℕ)
  | pipe
  | execve (path : List UInt8) (args : ExecArgs)
  | chdir (path : List UInt8)
  | chroot (path : List UInt8)
  | mount (devName dirName : List UInt8)
  | umount (path : List UInt8)
  | stat (path : List UInt8)
  | link (oldname newname : List UInt8)
  | unlink (path : List UInt8)
  | mkdir (path : List UInt8) (mode : ℕ)
  | rmdir (path : List UInt8)
  | mknod (path : List UInt8) (mode dev : ℕ)
  | read (fd count : ℕ)
  | write (fd : ℕ) (buf : List UInt8)
  | fork (c : Fin 64)
  | exit

/-- The code of a call; of its result only the state counts. -/
def Call.run : Call → K Unit
  | .open path flag mode => Prog.void (sysOpen path flag mode)
  | .creat path mode => Prog.void (sysCreat path mode)
  | .close fd => Prog.void (sysClose fd)
  | .dup fd => Prog.void (sysDup fd)
  | .dup2 oldfd newfd => Prog.void (sysDup2 oldfd newfd)
  | .fcntl fd cmd arg => Prog.void (sysFcntl fd cmd arg)
  | .pipe => Prog.void sysPipe
  | .execve path args => Prog.void (doExecve path args)
  | .chdir path => Prog.void (sysChdir path)
  | .chroot path => Prog.void (sysChroot path)
  | .mount devName dirName => Prog.void (sysMount devName dirName)
  | .umount path => Prog.void (sysUmount path)
  | .stat path => Prog.void (sysStat path)
  | .link oldname newname => Prog.void (sysLink oldname newname)
  | .unlink path => Prog.void (sysUnlink path)
  | .mkdir path mode => Prog.void (sysMkdir path mode)
  | .rmdir path => Prog.void (sysRmdir path)
  | .mknod path mode dev => Prog.void (sysMknod path mode dev)
  | .read fd count => Prog.void (sysRead fd count)
  | .write fd buf => Prog.void (sysWrite fd buf)
  | .fork c => copyProcess c
  | .exit => doExit

/-- A call of task `t` (a fork only into a free slot), or the release of a dead task. -/
inductive CallEvent
  | call (t : Fin 64) (env : Env) (c : Call)
  | release (t : Fin 64)

/-- The call may be made in this state. -/
def Call.Pre (s : Kern) : Call → Prop
  | .fork c => (s.task c).state = .free
  | _ => True

/-- The state in which task `t` enters the kernel. -/
def Kern.enter (s : Kern) (t : Fin 64) (env : Env) : Kern := { s with current := t, env := env }

inductive CallStep : Kern → CallEvent → Kern → Prop
  | call {s s' : Kern} {t : Fin 64} {env : Env} {c : Call} : (s.task t).state = .live → c.Pre s →
      c.run (s.enter t env) = .ok () s' → CallStep s (.call t env c) s'
  | release {s : Kern} {t : Fin 64} : (s.task t).state = .zombie →
      CallStep s (.release t) (s.setTask t Task.none)

/-- The tables before `mount_root`: all zero, one task. -/
structure Booted (s : Kern) : Prop where
  inode : ∀ i, s.inode i = MInode.zero
  super : ∀ k, (s.super k).isup = none ∧ (s.super k).imount = none
  file : ∀ f, (s.file f).inode = none
  cur : s.cur.state = .live ∧ s.cur.filp = (fun _ => none) ∧ s.cur.pwd = none ∧ s.cur.root = none ∧
    s.cur.executable = none
  task : ∀ t, t ≠ s.current → (s.task t).filp = (fun _ => none) ∧ (s.task t).pwd = none ∧
    (s.task t).root = none ∧ (s.task t).executable = none
  bcount : ∀ d b, s.bcount d b = 0

/-- The calls from `mount_root` on. -/
def callSystem : Lts Kern CallEvent where
  init s := ∃ s₀, Booted s₀ ∧ mountRoot s₀ = .ok () s
  step := CallStep

end Linux011.Fs

/-
  `do_execve` (fs/exec.c) over the file system of `Fs` and the memory of `Mm`. The strings of the
  caller are in present pages, and reading them changes nothing. The page of a pipe that
  `close_on_exec` closes for good stays out of `Mm`; so do `used_math` and `last_task_used_math`.
-/
import Linux011.Exec.Strings
import Linux011.Mm.Tasks

namespace Linux011.Exec

open Linux011.Lib

/-! ## The file system and user memory -/

def fsys {α : Type} (m : Fs.K α) : X α := fun s => match m s.fsys with
  | .ok a k => .ok a { s with fsys := k }
  | .fault k => .fault { s with fsys := k }
  | .stop e => .stop (.fs e)

/-- A call of `memory.c`; `oom()` ends the task. -/
def memory {α : Type} (f : Mm.Mem → Except Mm.Stop (α × Mm.Mem)) : X α := fun s => match f s.mm with
  | .ok (a, mm) => .ok a { s with mm := mm }
  | .error (.oom mm) => .fault { s with mm := mm }
  | .error (.panic msg) => .stop (.panic msg)

def free (f : Mm.Mem → Except Mm.Stop Mm.Mem) : X Unit := memory fun mm => (f mm).map fun mm => ((), mm)

/-- The tasks `share_page` tries, from `LAST_TASK` down; `none` when `do_no_page` does not call it. -/
def Kern.others (s : Kern) (tmp : ℕ) : Option (List ℕ) :=
  match s.fsys.cur.executable with
  | none => none
  | some i =>
    if s.endData.toNat ≤ tmp then none
    else if (s.fsys.inode i).count < 2 then some []
    else some (((List.finRange 64).reverse.filter fun t => t ≠ 0 ∧ t ≠ s.fsys.current ∧
      (s.fsys.task t).state ≠ .free ∧ (s.fsys.task t).executable = some i).map Fin.val)

/-- What `do_no_page` reads at offset `tmp`: four blocks, one block of header is skipped, and the
    bytes from `end_data` on are cleared. -/
def filePage (i : Fin 32) (tmp : ℕ) : X Mm.Page := do
  let nr0 ← fsys (Fs.bmap i (1 + tmp / 1024))
  let nr1 ← fsys (Fs.bmap i (2 + tmp / 1024))
  let nr2 ← fsys (Fs.bmap i (3 + tmp / 1024))
  let nr3 ← fsys (Fs.bmap i (4 + tmp / 1024))
  let s ← Prog.get
  let byte nr j := if nr = 0 then 0 else (((s.fsys.disk (s.fsys.inode i).dev).block nr) j).toNat
  return {
    entry := fun _ => Mm.Entry.zero
    byte := fun j => if s.endData.toNat ≤ tmp + j then 0
      else if j < 1024 then byte nr0 j
      else if j < 2048 then byte nr1 (j - 1024)
      else if j < 3072 then byte nr2 (j - 2048)
      else byte nr3 (j - 3072) }

/-- `do_no_page` at offset `tmp` of the data segment. -/
def doNoPage (tmp : ℕ) : X Unit := do
  let s ← Prog.get
  match ← memory fun mm => Mm.doNoPage mm s.fsys.current.val tmp (s.others tmp) with
  | none => pure ()
  | some f => match s.fsys.cur.executable with
    | none => pure ()
    | some i =>
      let page ← filePage i tmp
      free fun mm => Mm.doNoPageRead mm f (s.ldt.data.getBase.toNat + tmp) page

/-- The byte at offset `off` of the data segment can be accessed. -/
def touch (off : ℕ) : X Unit := do
  inSeg .user
  let s ← Prog.get
  if s.ldt.data.getLimit.toNat ≤ off then Prog.halt .limit
  else if (s.mm.pte (Mm.slotAt (s.ldt.data.getBase.toNat + off))).present then pure ()
  else doNoPage (off / 4096 * 4096)

def putFsByte (off : ℕ) (v : UInt8) : X Unit := do
  touch off
  Prog.modify fun s =>
    { s with mm := Mm.Sys.poke s.mm (Mm.slotAt (s.ldt.data.getBase.toNat + off)) (off % 4096) v.toNat }

def putFsLong (off v : ℕ) : X Unit := do
  putFsByte off (UInt8.ofNat v)
  putFsByte (off + 1) (UInt8.ofNat (v / 2 ^ 8))
  putFsByte (off + 2) (UInt8.ofNat (v / 2 ^ 16))
  putFsByte (off + 3) (UInt8.ofNat (v / 2 ^ 24))

/-- The byte at offset `off` of the data segment. -/
def Kern.byte (s : Kern) (off : ℕ) : ℕ :=
  (s.mm.mem (s.mm.pte (Mm.slotAt (s.ldt.data.getBase.toNat + off))).frame).byte (off % 4096)

def getFsByte (off : ℕ) : X ℕ := do
  touch off
  let s ← Prog.get
  return s.byte off

/-! ## create_tables -/

/-- `while (get_fs_byte(p++))`, at most `n` bytes below the limit. -/
def skipString : ℕ → ℕ → X ℕ
  | 0, _ => Prog.halt .limit
  | n + 1, p => do
    if (← getFsByte p) = 0 then return p + 1
    else skipString n (p + 1)

/-- One of the two loops: `argc` pointers from `argv` on, and a 0. The result is the new `p`. -/
def putTable : ℕ → ℕ → ℕ → X ℕ
  | 0, argv, p => do
    putFsLong argv 0
    return p
  | argc + 1, argv, p => do
    putFsLong argv p
    let p ← skipString (0x4000000 - p) p
    putTable argc (argv + 4) p

def createTables (p argc envc : ℕ) : X ℕ := do
  let envp := p / 4 * 4 - 4 * (envc + 1)
  let argv := envp - 4 * (argc + 1)
  putFsLong (argv - 4) envp
  putFsLong (argv - 8) argv
  putFsLong (argv - 12) argc
  let p ← putTable argc argv p
  let _ ← putTable envc envp p
  return argv - 12

/-! ## change_ldt -/

/-- `if (page[i]) put_page(page[i], data_base)`; a failure is ignored. -/
def putArg (i dataBase : ℕ) : X Unit := do
  let s ← Prog.get
  if s.page i ≠ 0 then setMm ((Mm.putPage s.mm (s.page i) dataBase).getD s.mm) else pure ()

/-- The loop over the argument pages, from the last one down. -/
def putArgs : ℕ → ℕ → X Unit
  | 0, _ => pure ()
  | i + 1, dataBase => do
    putArg i (dataBase - 4096)
    putArgs i (dataBase - 4096)

def changeLdt (textSize : BitVec 32) : X ℕ := do
  Prog.modify fun s => { s with ldt := s.ldt.change textSize, fs := .user }
  let s ← Prog.get
  putArgs 32 (s.ldt.code.getBase.toNat + 0x4000000)
  return 0x4000000

/-! ## do_execve -/

/-- `while (i & 0xfff) put_fs_byte(0, (char *) (i++))` for the `n` bytes from `i` on. -/
def clearTail : ℕ → ℕ → X Unit
  | 0, _ => pure ()
  | n + 1, i => do
    putFsByte i 0
    clearTail n (i + 1)

/-- After the point of no return. -/
def install (i : Fin 32) (ex : Header) (p argc envc euid egid : ℕ) : X ℤ := do
  let s ← Prog.get
  fsys (Fs.iput s.fsys.cur.executable)
  fsys (Fs.modTask fun τ => { τ with executable := some i })
  Prog.modify fun s => { s with handler := fun _ => 0 }
  fsys Fs.closeMarked
  let s ← Prog.get
  free fun mm => Mm.freePageTables mm s.ldt.code.getBase.toNat s.ldt.code.getLimit.toNat
  free fun mm => Mm.freePageTables mm s.ldt.data.getBase.toNat s.ldt.data.getLimit.toNat
  let limit ← changeLdt ex.aText
  let p ← createTables (p + limit - 4096 * 32) argc envc
  Prog.modify fun s => { s with
    endCode := ex.endCode, endData := ex.endData, brk := ex.brk, startStack := BitVec.ofNat 32 (p / 4096 * 4096) }
  fsys (Fs.modTask fun τ => { τ with euid := euid, egid := egid })
  let tail := (ex.aText + ex.aData).toNat
  clearTail ((4096 - tail % 4096) % 4096) tail
  Prog.modify fun s => { s with ip := ex.aEntry, sp := BitVec.ofNat 32 p }
  return 0

def execError1 (retval : ℤ) : X ℤ := do
  freeArgs
  return retval

def execError2 (i : Fin 32) (retval : ℤ) : X ℤ := do
  fsys (Fs.iput (some i))
  execError1 retval

/-- `interp`, `i_name` and `i_arg`. -/
structure Line where
  interp : List UInt8
  iName : List UInt8
  iArg : Option (List UInt8)

/-- `i_name` after the loop over the word. -/
def nameIn : List UInt8 → List UInt8 → List UInt8
  | iName, [] => iName
  | iName, c :: cs => nameIn (if c = 47 then cs else iName) cs

/-- The interpreter and its argument in a block that starts with `#!`. -/
def scriptLine (b : Fs.Block) : Option Line :=
  let buf := ((List.range 1022).map fun k => b (2 + k)).takeWhile (· ≠ 0)
  if 10 ∈ buf then
    let cp := (buf.takeWhile (· ≠ 10)).dropWhile Fs.blank
    if cp = [] then none
    else
      let interp := cp.takeWhile fun c => ! Fs.blank c
      let iArg := match cp.dropWhile fun c => ! Fs.blank c with
        | [] => none
        | _ :: arg => some arg
      some ⟨interp, nameIn interp interp, iArg⟩
  else none

/-- The strings of a program. -/
def plainCalls (argv envp : List (List UInt8)) : List ArgCall :=
  [⟨envp.length, ⟨envp, .user, .user⟩, 0⟩, ⟨argv.length, ⟨argv, .user, .user⟩, 0⟩]

def argCalls : Option (List UInt8) → List ArgCall
  | none => []
  | some iArg => [⟨1, ⟨[iArg], .kernel, .kernel⟩, 2⟩]

/-- The strings of a script. -/
def scriptCalls (line : Line) (filename : List UInt8) (argv envp : List (List UInt8)) : List ArgCall :=
  [⟨envp.length, ⟨envp, .user, .user⟩, 0⟩, ⟨argv.length - 1, ⟨argv.tail, .user, .user⟩, 0⟩,
    ⟨1, ⟨[filename], .kernel, .user⟩, 1⟩] ++ argCalls line.iArg ++ [⟨1, ⟨[line.iName], .kernel, .kernel⟩, 2⟩]

/-- `--argc`, and `argc++` for each string that is put in front. -/
def scriptArgc (line : Line) (argc : ℤ) : ℤ := argc - 1 + 1 + (argCalls line.iArg).length + 1

def namei (g : Seg) (path : List UInt8) : X (Option (Fin 32)) := do
  inSeg g
  fsys (Fs.namei path)

/-- `do_execve` from `restart_interp` on; `restart` is the `goto` back to it. -/
def execInode (filename : List UInt8) (argv envp : List (List UInt8)) (restart : ℕ → ℤ → Fin 32 → X ℤ) (shBang : Bool)
    (p : ℕ) (argc : ℤ) (i : Fin 32) : X ℤ := do
  let s ← Prog.get
  let x := s.fsys.inode i
  let euid := if Fs.has x.mode 0o4000 then x.uid else s.fsys.cur.euid
  let egid := if Fs.has x.mode 0o2000 then x.gid else s.fsys.cur.egid
  if ¬ Fs.isReg x.mode then execError2 i (-Fs.eACCES)
  else if ¬ Fs.mayRun s.fsys.cur x then execError2 i (-Fs.eNOEXEC)
  else if ← fsys (Fs.bread x.dev (x.zone 0)) then
    let s ← Prog.get
    let b := (s.fsys.disk x.dev).block (x.zone 0)
    fsys (Fs.brelse x.dev (x.zone 0))
    if b 0 = 35 ∧ b 1 = 33 ∧ ¬ shBang then do
      fsys (Fs.iput (some i))
      match scriptLine b with
      | none => execError1 (-Fs.eNOEXEC)
      | some line =>
        let p ← copyAll (scriptCalls line filename argv envp) p
        if p = 0 then execError1 (-Fs.eNOMEM)
        else do
          let s ← Prog.get
          setFs .kernel
          let r ← namei .kernel line.interp
          setFs s.fs
          match r with
          | none => execError1 (-Fs.eNOENT)
          | some i => restart p (scriptArgc line argc) i
    else
      let ex := Header.ofBlock b
      if ¬ ex.accepted (BitVec.ofNat 32 x.size) then execError2 i (-Fs.eNOEXEC)
      else if shBang then install i ex p argc.toNat envp.length euid egid
      else do
        let p ← copyAll (plainCalls argv envp) p
        if p = 0 then execError2 i (-Fs.eNOMEM)
        else install i ex p argc.toNat envp.length euid egid
  else execError2 i (-Fs.eACCES)

/-- `do_execve` with the code segment selector of the caller; a restart happens at most once. -/
def doExecve (cs : ℕ) (filename : List UInt8) (argv envp : List (List UInt8)) : X ℤ :=
  if cs % 65536 ≠ 0x000f then panic "execve called from supervisor mode"
  else do
    Prog.modify fun s => { s with page := fun _ => 0 }
    match ← namei .user filename with
    | none => return -Fs.eNOENT
    | some i =>
      execInode filename argv envp (execInode filename argv envp (fun _ _ _ => Prog.halt (.fs .hang)) true) false argTop
        argv.length i

end Linux011.Exec

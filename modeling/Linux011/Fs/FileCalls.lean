/-
  fs/open.c, fs/fcntl.c, fs/stat.c, `sys_pipe`, and reading and writing of regular files
  (fs/read_write.c, fs/file_dev.c).
-/
import Linux011.Fs.NameCalls

namespace Linux011.Fs

open Linux011.Lib

/-! ## Descriptors -/

def filp (s : Kern) (fd : ℕ) : Option (Fin 64) := if h : fd < 20 then s.cur.filp ⟨fd, h⟩ else none

def setFilp (fd : Fin 20) (f : Option (Fin 64)) : K Unit :=
  modTask fun τ => { τ with filp := Function.update τ.filp fd f }

def clearOnExec (fd : Fin 20) : K Unit :=
  modTask fun τ => { τ with closeOnExec := Function.update τ.closeOnExec fd false }

/-- The lowest free descriptor. -/
def freeFd (s : Kern) : Option (Fin 20) := (List.finRange 20).find? fun fd => s.cur.filp fd = none

/-- The first free entry of `file_table`. -/
def freeFile (s : Kern) : Option (Fin 64) := (List.finRange 64).find? fun f => (s.file f).count = 0

def setFCount (f : Fin 64) (n : ℕ) : K Unit := modFile f fun x => { x with count := n }

def incFCount (f : Fin 64) : K Unit := modFile f fun x => { x with count := (x.count + 1) % 65536 }

/-- The way out of a failed open. -/
def undoOpen (fd : Fin 20) (f : Fin 64) (err : ℤ) : K ℤ := do
  setFilp fd none
  setFCount f 0
  return err

/-- What `sys_open` does with a terminal: true if it is refused. -/
def openTty (i : Fin 32) : K Bool := do
  let s ← Prog.get
  let x := s.inode i
  if isChr x.mode then
    if major (x.zone 0) = 4 then do
      if s.cur.leader ∧ s.cur.tty = none then modTask fun τ => { τ with tty := some (x.zone 0 % 256) }
      else pure ()
      return false
    else return major (x.zone 0) = 5 ∧ s.cur.tty = none
  else return false

def sysOpen (path : List UInt8) (flag mode : ℕ) : K ℤ := do
  let s ← Prog.get
  match freeFd s with
  | none => return -eINVAL
  | some fd =>
    clearOnExec fd
    match freeFile s with
    | none => return -eINVAL
    | some f =>
      setFilp fd (some f)
      incFCount f
      match ← openNamei path flag mode with
      | .inl err => undoOpen fd f err
      | .inr i =>
        if ← openTty i then
          iput (some i)
          undoOpen fd f (-ePERM)
        else
          let s ← Prog.get
          if isBlk (s.inode i).mode then checkDiskChange ((s.inode i).zone 0) else pure ()
          modFile f fun _ => ⟨(s.inode i).mode, flag, 1, some i, 0⟩
          return fd

def sysCreat (path : List UInt8) (mode : ℕ) : K ℤ := sysOpen path (oCREAT ||| oTRUNC) mode

/-- `sys_close` of an open descriptor. -/
def closeFd (fd : Fin 20) (f : Fin 64) : K ℤ := do
  setFilp fd none
  let s ← Prog.get
  if (s.file f).count = 0 then panic "Close: file count is 0"
  else do
    setFCount f ((s.file f).count - 1)
    if (s.file f).count = 1 then iput (s.file f).inode else pure ()
    return 0

def sysClose (fd : ℕ) : K ℤ := do
  if h : fd < 20 then
    clearOnExec ⟨fd, h⟩
    let s ← Prog.get
    match s.cur.filp ⟨fd, h⟩ with
    | none => return -eINVAL
    | some f => closeFd ⟨fd, h⟩ f
  else return -eINVAL

def dupfd (fd arg : ℕ) : K ℤ := do
  let s ← Prog.get
  match filp s fd with
  | none => return -eBADF
  | some f =>
    if 20 ≤ arg then return -eINVAL
    else match (List.finRange 20).find? fun k => arg ≤ k.val ∧ s.cur.filp k = none with
      | none => return -eMFILE
      | some k =>
        clearOnExec k
        setFilp k (some f)
        incFCount f
        return k.val

def sysDup2 (oldfd newfd : ℕ) : K ℤ := do
  let _ ← sysClose newfd
  dupfd oldfd newfd

def sysDup (fd : ℕ) : K ℤ := dupfd fd 0

def sysFcntl (fd cmd arg : ℕ) : K ℤ := do
  let s ← Prog.get
  match filp s fd with
  | none => return -eBADF
  | some f =>
    if cmd = 0 then dupfd fd arg
    else if cmd = 1 then return if h : fd < 20 then (s.cur.closeOnExec ⟨fd, h⟩).toNat else 0
    else if cmd = 2 then do
      if h : fd < 20 then
        modTask fun τ => { τ with closeOnExec := Function.update τ.closeOnExec ⟨fd, h⟩ (arg % 2 = 1) }
      else pure ()
      return 0
    else if cmd = 3 then return (s.file f).flags
    else if cmd = 4 then do
      -- O_APPEND and O_NONBLOCK
      modFile f fun x => { x with
        flags := (x.flags &&& (0xffff ^^^ 0o6000)) ||| (arg &&& 0o6000) }
      return 0
    else return -1

/-! ## sys_pipe -/

/-- The two free file entries of `sys_pipe`. -/
def freeFiles (s : Kern) : List (Fin 64) :=
  ((List.finRange 64).filter fun f => (s.file f).count = 0).take 2

def freeFds (s : Kern) : List (Fin 20) :=
  ((List.finRange 20).filter fun fd => s.cur.filp fd = none).take 2

def sysPipe : K ℤ := do
  let s ← Prog.get
  match freeFiles s with
  | [f0, f1] =>
    setFCount f0 1
    setFCount f1 1
    match freeFds s with
    | [fd0, fd1] =>
      setFilp fd0 (some f0)
      setFilp fd1 (some f1)
      match ← getPipeInode with
      | none =>
        setFilp fd0 none
        setFilp fd1 none
        setFCount f0 0
        setFCount f1 0
        return -1
      | some i =>
        modFile f0 fun x => { x with inode := some i, pos := 0, mode := 1 }
        modFile f1 fun x => { x with inode := some i, pos := 0, mode := 2 }
        access
        access
        return 0
    | _ =>
      setFCount f0 0
      setFCount f1 0
      return -1
  | _ => return -1

/-! ## stat, chdir, chroot -/

/-- `cp_stat`: `verify_area`, then the bytes of the structure; only the accesses matter here. -/
def cpStat : K Unit := Prog.each (fun _ => access) (List.range 32)

def sysStat (path : List UInt8) : K ℤ := do
  match ← namei path with
  | none => return -eNOENT
  | some i =>
    cpStat
    iput (some i)
    return 0

/-- `sys_chdir` and `sys_chroot`: the pointer that is exchanged. -/
def changeDir (path : List UInt8) (ptr : Task → Option (Fin 32)) (set : Task → Fin 32 → Task) : K ℤ := do
  match ← namei path with
  | none => return -eNOENT
  | some i =>
    let s ← Prog.get
    if ¬ isDir (s.inode i).mode then do
      iput (some i)
      return -eNOTDIR
    else do
      iput (ptr s.cur)
      modTask fun τ => set τ i
      return 0

def sysChdir (path : List UInt8) : K ℤ := changeDir path Task.pwd fun τ i => { τ with pwd := some i }

def sysChroot (path : List UInt8) : K ℤ := changeDir path Task.root fun τ i => { τ with root := some i }

/-! ## Regular files -/

/-- The copy loop of `file_read`: the bytes go to the user one by one. -/
def putBytes (bytes : List UInt8) : K Unit := Prog.each (fun _ => access) bytes

/-- The loop of `file_read`: the bytes read. -/
def readLoop (i : Fin 32) (f : Fin 64) : ℕ → ℕ → K (List UInt8)
  | 0, _ => return []
  | n + 1, left => do
    if left = 0 then return []
    else
      let s ← Prog.get
      let d := (s.inode i).dev
      let pos := (s.file f).pos
      let block ← bmap i (pos / 1024)
      let chars := min (1024 - pos % 1024) left
      if block = 0 then
        modFile f fun x => { x with pos := x.pos + chars }
        putBytes (List.replicate chars 0)
        let rest ← readLoop i f n (left - chars)
        return List.replicate chars 0 ++ rest
      else if ← bread d block then
        modFile f fun x => { x with pos := x.pos + chars }
        let s ← Prog.get
        let bytes := (List.range chars).map fun k => (s.disk d).block block (pos % 1024 + k)
        putBytes bytes
        brelse d block
        let rest ← readLoop i f n (left - chars)
        return bytes ++ rest
      else return []

/-- `file_read`: the result and the bytes. -/
def fileRead (i : Fin 32) (f : Fin 64) (count : ℕ) : K (ℤ × List UInt8) := do
  if count = 0 then return (0, [])
  else
    let bytes ← readLoop i f (count + 1) count
    return (if bytes.length = 0 then -eERROR else bytes.length, bytes)

/-- The copy loop of `file_write` into block `b`, from byte `c` on. -/
def getBytes (d b : ℕ) : ℕ → List UInt8 → K Unit
  | _, [] => pure ()
  | c, x :: xs => do
    access
    Prog.modify fun s => s.setBlock d b (Function.update ((s.disk d).block b) c x)
    getBytes d b (c + 1) xs

/-- The loop of `file_write`: the position reached and the bytes left. -/
def writeLoop (i : Fin 32) : ℕ → ℕ → List UInt8 → K (ℕ × List UInt8)
  | 0, pos, buf => return (pos, buf)
  | n + 1, pos, buf => do
    if buf.length = 0 then return (pos, buf)
    else
      let s ← Prog.get
      let d := (s.inode i).dev
      let block ← createBlock i (pos / 1024)
      if block = 0 then return (pos, buf)
      else if ← bread d block then
        let c := min (1024 - pos % 1024) buf.length
        modInode i fun x => if x.size < pos + c then { x with size := pos + c, dirt := true } else x
        getBytes d block (pos % 1024) (buf.take c)
        brelse d block
        writeLoop i n (pos + c) (buf.drop c)
      else return (pos, buf)

def fileWrite (i : Fin 32) (f : Fin 64) (buf : List UInt8) : K ℤ := do
  let s ← Prog.get
  let append := has (s.file f).flags oAPPEND
  let start := if append then (s.inode i).size else (s.file f).pos
  let r ← writeLoop i (buf.length + 1) start buf
  if append then pure () else modFile f fun x => { x with pos := r.1 }
  let n := buf.length - r.2.length
  return if n = 0 then -1 else n

/-- `sys_read` and `sys_write` for regular files (and directories, for reading); other files are
    left to their drivers. -/
def sysRead (fd count : ℕ) : K (ℤ × List UInt8) := do
  let s ← Prog.get
  match filp s fd with
  | none => return (-eINVAL, [])
  | some f =>
    if count = 0 then return (0, [])
    else match (s.file f).inode with
      | none => return (-eINVAL, [])
      | some i =>
        let x := s.inode i
        if ¬ x.pipe ∧ (isDir x.mode ∨ isReg x.mode) then
          let count := if x.size < count + (s.file f).pos then x.size - (s.file f).pos else count
          if count = 0 then return (0, []) else fileRead i f count
        else return (-eINVAL, [])

def sysWrite (fd : ℕ) (buf : List UInt8) : K ℤ := do
  let s ← Prog.get
  match filp s fd with
  | none => return -eINVAL
  | some f =>
    if buf.length = 0 then return 0
    else match (s.file f).inode with
      | none => return -eINVAL
      | some i =>
        let x := s.inode i
        if ¬ x.pipe ∧ isReg x.mode then fileWrite i f buf else return -eINVAL

end Linux011.Fs

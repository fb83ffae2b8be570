/-
  The calls of fs/namei.c: open_namei, mknod, mkdir, rmdir, unlink, link.
-/
import Linux011.Fs.Namei

namespace Linux011.Fs

open Linux011.Lib

def ePERM : ℤ := 1
def eNOENT : ℤ := 2
def eNOEXEC : ℤ := 8
def eBADF : ℤ := 9
def eNOMEM : ℤ := 12
def eACCES : ℤ := 13
def eNOTBLK : ℤ := 15
def eBUSY : ℤ := 16
def eEXIST : ℤ := 17
def eXDEV : ℤ := 18
def eNOTDIR : ℤ := 20
def eISDIR : ℤ := 21
def eINVAL : ℤ := 22
def eMFILE : ℤ := 24
def eNOSPC : ℤ := 28
def eNOTEMPTY : ℤ := 39
def eERROR : ℤ := 99

def oACCMODE : ℕ := 3
def oWRONLY : ℕ := 1
def oCREAT : ℕ := 0o100
def oEXCL : ℕ := 0o200
def oTRUNC : ℕ := 0o1000
def oAPPEND : ℕ := 0o2000

/-- `flag & bits` -/
def has (flag bits : ℕ) : Bool := flag &&& bits ≠ 0

/-- `ACC_MODE`, the bytes 4, 2, 6, 255; the last is the char -1. -/
def accMode (flag : ℕ) : ℕ := [4, 2, 6, 2 ^ 32 - 1].getD (flag &&& oACCMODE) 0

/-- `mode & 0777 & ~current->umask` -/
def masked (mode umask : ℕ) : ℕ := mode &&& 0o777 &&& (0o777 ^^^ (umask &&& 0o777))

/-- A new inode for `name` could not be entered: its link goes. -/
def dropNew (i : Fin 32) (nlinks : ℕ → ℕ) : K Unit := do
  modInode i fun x => { x with nlinks := nlinks x.nlinks }
  iput (some i)

/-- `open_namei`: -errno, or the inode. -/
def openNamei (path : List UInt8) (flag mode : ℕ) : K (ℤ ⊕ Fin 32) := do
  let flag := if has flag oTRUNC ∧ ¬ has flag oACCMODE then flag ||| oWRONLY else flag
  match ← dirNamei path with
  | none => return .inl (-eNOENT)
  | some (dir, name) =>
    if name.length = 0 then
      if ¬ has flag (oACCMODE ||| oCREAT ||| oTRUNC) then return .inr dir
      else do
        iput (some dir)
        return .inl (-eISDIR)
    else match ← findEntry dir name with
      | (dir, none) =>
        let s ← Prog.get
        if ¬ has flag oCREAT then do
          iput (some dir)
          return .inl (-eNOENT)
        else if ¬ permission s.cur (s.inode dir) mayWrite then do
          iput (some dir)
          return .inl (-eACCES)
        else match ← newInode (s.inode dir).dev with
          | none =>
            iput (some dir)
            return .inl (-eNOSPC)
          | some i =>
            modInode i fun x => { x with
              uid := s.cur.euid, mode := masked mode s.cur.umask ||| 0o100000, dirt := true }
            match ← addEntry dir name with
            | none =>
              dropNew i fun n => (n + 255) % 256
              iput (some dir)
              return .inl (-eNOSPC)
            | some e =>
              let s ← Prog.get
              let d := (s.inode dir).dev
              setEntry d e (s.inode i).num
              brelse d e.block
              iput (some dir)
              return .inr i
      | (dir, some e) =>
        let s ← Prog.get
        let d := (s.inode dir).dev
        let nr ← entryInode d e
        brelse d e.block
        iput (some dir)
        if has flag oEXCL then return .inl (-eEXIST)
        else
          let i ← iget d nr
          let s ← Prog.get
          if (isDir (s.inode i).mode ∧ has flag oACCMODE) ∨
              ¬ permission s.cur (s.inode i) (accMode flag) then do
            iput (some i)
            return .inl (-ePERM)
          else do
            if has flag oTRUNC then truncate i else pure ()
            return .inr i

/-- What mknod and mkdir begin with: the directory and the name to be entered there, which is
    not there yet, and a new inode. -/
def startEntry (path : List UInt8) : K (ℤ ⊕ Fin 32 × List UInt8 × Fin 32) := do
  let s ← Prog.get
  if ¬ suser s.cur then return .inl (-ePERM)
  else match ← dirNamei path with
    | none => return .inl (-eNOENT)
    | some (dir, name) =>
      let s ← Prog.get
      if name.length = 0 then do
        iput (some dir)
        return .inl (-eNOENT)
      else if ¬ permission s.cur (s.inode dir) mayWrite then do
        iput (some dir)
        return .inl (-ePERM)
      else match ← findEntry dir name with
        | (dir, some e) =>
          let s ← Prog.get
          brelse (s.inode dir).dev e.block
          iput (some dir)
          return .inl (-eEXIST)
        | (dir, none) =>
          let s ← Prog.get
          match ← newInode (s.inode dir).dev with
          | none =>
            iput (some dir)
            return .inl (-eNOSPC)
          | some i => return .inr (dir, name, i)

def sysMknod (path : List UInt8) (mode dev : ℕ) : K ℤ := do
  match ← startEntry path with
  | .inl err => return err
  | .inr (dir, name, i) =>
    modInode i fun x => { x with
      mode := mode % 65536, dirt := true
      zone := if isBlk mode ∨ isChr mode then Function.update x.zone 0 (dev % 65536) else x.zone }
    match ← addEntry dir name with
    | none =>
      iput (some dir)
      dropNew i fun _ => 0
      return -eNOSPC
    | some e =>
      let s ← Prog.get
      let d := (s.inode dir).dev
      setEntry d e (s.inode i).num
      iput (some dir)
      iput (some i)
      brelse d e.block
      return 0

/-- The entries `.` and `..` of a new directory; `strcpy` leaves the rest of the names. -/
def putDots (d block i dir : ℕ) : K Unit := Prog.modify fun s =>
  let b : Block := ((s.disk d).block block).setWord 0 i
  let b : Block := Function.update (Function.update b 2 dot) 3 0
  let b : Block := b.setWord 8 dir
  s.setBlock d block (Function.update (Function.update (Function.update b 18 dot) 19 dot) 20 0)

def sysMkdir (path : List UInt8) (mode : ℕ) : K ℤ := do
  match ← startEntry path with
  | .inl err => return err
  | .inr (dir, name, i) =>
    modInode i fun x => { x with size := 32, dirt := true }
    let s ← Prog.get
    let d := (s.inode i).dev
    let block ← newBlock d
    modInode i fun x => { x with zone := Function.update x.zone 0 block }
    if block = 0 then do
      iput (some dir)
      dropNew i fun n => (n + 255) % 256
      return -eNOSPC
    else if ← bread d block then
      let s ← Prog.get
      putDots d block (s.inode i).num (s.inode dir).num
      brelse d block
      modInode i fun x => { x with
        nlinks := 2, mode := 0o040000 ||| masked mode s.cur.umask, dirt := true }
      match ← addEntry dir name with
      | none =>
        iput (some dir)
        freeBlock d block
        dropNew i fun _ => 0
        return -eNOSPC
      | some e =>
        let s ← Prog.get
        let d := (s.inode dir).dev
        setEntry d e (s.inode i).num
        modInode dir fun x => { x with nlinks := (x.nlinks + 1) % 256, dirt := true }
        iput (some dir)
        iput (some i)
        brelse d e.block
        return 0
    else do
      iput (some dir)
      freeBlock d block
      dropNew i fun n => (n + 255) % 256
      return -eERROR

/-- The block for entry `nr` in `empty_dir`; nothing if it cannot be read. -/
def emptyBuffer (i : Fin 32) (d nr : ℕ) (bh : Option ℕ) : K (Option (Option ℕ)) := do
  if nr % 64 = 0 ∧ nr ≠ 0 then
    brelseOpt d bh
    let block ← bmap i (nr / 64)
    if block = 0 then return some none
    else if ← bread d block then return some (some block) else return none
  else return some bh

/-- The loop of `empty_dir` from entry `nr` on. At a missing block `bh` stays the buffer that has
    just been released, and is released again with the next block. -/
def emptyFrom (i : Fin 32) (d len : ℕ) : ℕ → ℕ → Option ℕ → K Bool
  | 0, _, _ => Prog.halt .hang
  | n + 1, nr, bh => do
    if len ≤ nr then
      brelseOpt d bh
      return true
    else
      match ← emptyBuffer i d nr bh with
      | none => return false
      | some none => emptyFrom i d len n (nr + 64) bh
      | some (some b) =>
        let s ← Prog.get
        if ((s.disk d).block b).word (8 * (nr % 64)) ≠ 0 then do
          brelse d b
          return false
        else emptyFrom i d len n (nr + 1) (some b)

def emptyDir (i : Fin 32) : K Bool := do
  let s ← Prog.get
  let x := s.inode i
  let len := x.size / 16
  if len < 2 ∨ x.zone 0 = 0 then return false
  else if ← bread x.dev (x.zone 0) then
    let s ← Prog.get
    let b := (s.disk x.dev).block (x.zone 0)
    -- the buffer is not released here
    if b.word 0 ≠ x.num ∨ b.word 8 = 0 ∨ (b.name 0).take 2 ≠ [dot, 0] ∨
        (b.name 1).take 3 ≠ [dot, dot, 0] then return false
    else emptyFrom i x.dev len (len + 1) 2 (some (x.zone 0))
  else return false

/-- What rmdir and unlink begin with: the directory, the entry in it (its buffer is held) and the
    inode of the entry. -/
def startRemove (path : List UInt8) : K (ℤ ⊕ Fin 32 × DirEntry × Fin 32) := do
  match ← dirNamei path with
  | none => return .inl (-eNOENT)
  | some (dir, name) =>
    let s ← Prog.get
    if name.length = 0 then do
      iput (some dir)
      return .inl (-eNOENT)
    else if ¬ permission s.cur (s.inode dir) mayWrite then do
      iput (some dir)
      return .inl (-ePERM)
    else match ← findEntry dir name with
      | (dir, none) =>
        iput (some dir)
        return .inl (-eNOENT)
      | (dir, some e) =>
        let s ← Prog.get
        let nr ← entryInode (s.inode dir).dev e
        let i ← iget (s.inode dir).dev nr
        return .inr (dir, e, i)

def sISVTX : ℕ := 0o1000

/-- The way out of a refused rmdir or unlink; the order of the two releases differs. -/
def refuse (first second : Fin 32) (d block : ℕ) (err : ℤ) : K ℤ := do
  iput (some first)
  iput (some second)
  brelse d block
  return err

def sysRmdir (path : List UInt8) : K ℤ := do
  let s ← Prog.get
  if ¬ suser s.cur then return -ePERM
  else match ← startRemove path with
    | .inl err => return err
    | .inr (dir, e, i) =>
      let s ← Prog.get
      let d := (s.inode dir).dev
      if (has (s.inode dir).mode sISVTX ∧ s.cur.euid ≠ 0) ∧ (s.inode i).uid ≠ s.cur.euid then
        refuse dir i d e.block (-ePERM)
      else if (s.inode i).dev ≠ d ∨ 1 < (s.inode i).count then refuse dir i d e.block (-ePERM)
      else if i = dir then refuse i dir d e.block (-ePERM)
      else if ¬ isDir (s.inode i).mode then refuse i dir d e.block (-eNOTDIR)
      else if ← emptyDir i then
        setEntry d e 0
        brelse d e.block
        modInode i fun x => { x with nlinks := 0, dirt := true }
        modInode dir fun x => { x with nlinks := (x.nlinks + 255) % 256, dirt := true }
        iput (some dir)
        iput (some i)
        return 0
      else refuse i dir d e.block (-eNOTEMPTY)

def sysUnlink (path : List UInt8) : K ℤ := do
  match ← startRemove path with
  | .inl err => return err
  | .inr (dir, e, i) =>
    let s ← Prog.get
    let d := (s.inode dir).dev
    if has (s.inode dir).mode sISVTX ∧ ¬ suser s.cur ∧ s.cur.euid ≠ (s.inode i).uid ∧
        s.cur.euid ≠ (s.inode dir).uid then refuse dir i d e.block (-ePERM)
    else if isDir (s.inode i).mode then refuse i dir d e.block (-ePERM)
    else do
      setEntry d e 0
      brelse d e.block
      -- "Deleting nonexistent file" counts as one link
      modInode i fun x => { x with nlinks := (if x.nlinks = 0 then 1 else x.nlinks) - 1, dirt := true }
      iput (some i)
      iput (some dir)
      return 0

def sysLink (oldname newname : List UInt8) : K ℤ := do
  match ← namei oldname with
  | none => return -eNOENT
  | some old =>
    let s ← Prog.get
    if isDir (s.inode old).mode then do
      iput (some old)
      return -ePERM
    else match ← dirNamei newname with
      | none =>
        iput (some old)
        return -eACCES
      | some (dir, name) =>
        let s ← Prog.get
        if name.length = 0 then do
          iput (some old)
          iput (some dir)
          return -ePERM
        else if (s.inode dir).dev ≠ (s.inode old).dev then do
          iput (some dir)
          iput (some old)
          return -eXDEV
        else if ¬ permission s.cur (s.inode dir) mayWrite then do
          iput (some dir)
          iput (some old)
          return -eACCES
        else match ← findEntry dir name with
          | (dir, some e) =>
            let s ← Prog.get
            brelse (s.inode dir).dev e.block
            iput (some dir)
            iput (some old)
            return -eEXIST
          | (dir, none) =>
            match ← addEntry dir name with
            | none =>
              iput (some dir)
              iput (some old)
              return -eNOSPC
            | some e =>
              let s ← Prog.get
              let d := (s.inode dir).dev
              setEntry d e (s.inode old).num
              brelse d e.block
              iput (some dir)
              modInode old fun x => { x with nlinks := (x.nlinks + 1) % 256, dirt := true }
              iput (some old)
              return 0

end Linux011.Fs

/-
  The tables of the file system (include/linux/fs.h) and the pieces that everything else is made
  of: reading and changing a table entry, user accesses, buffers, bitmaps (fs/bitmap.c).

  Calls run one at a time, so no lock is ever waited for; blocks, bitmaps and inodes of a device
  are what is read through the buffer cache, and `sync_dev` changes nothing. `bcount` counts the
  buffers calls have taken and not released, without those a super block keeps for its maps.
  A read fails only on device 0. The times of an inode are left out.
-/
import Linux011.Lib.Prog
import Mathlib.Data.List.FinRange
import Mathlib.Data.Fintype.Basic

namespace Linux011.Fs

open Linux011.Lib

/-! ## Blocks -/

abbrev Block : Type := ℕ → UInt8

namespace Block

def zero : Block := fun _ => 0

/-- `((unsigned short *) b_data)[k]` -/
def word (b : Block) (k : ℕ) : ℕ := (b (2 * k)).toNat + 256 * (b (2 * k + 1)).toNat

def setWord (b : Block) (k v : ℕ) : Block :=
  Function.update (Function.update b (2 * k) (UInt8.ofNat v)) (2 * k + 1) (UInt8.ofNat (v / 256))

/-- The name of directory entry `k`. -/
def name (b : Block) (k : ℕ) : List UInt8 := (List.range 14).map fun i => b (16 * k + 2 + i)

end Block

/-! ## Tables -/

structure DInode where
  mode : ℕ
  uid : ℕ
  size : ℕ
  gid : ℕ
  nlinks : ℕ
  zone : ℕ → ℕ

/-- `struct m_inode` -/
structure MInode extends DInode where
  dev : ℕ
  num : ℕ
  count : ℕ
  dirt : Bool
  pipe : Bool
  mount : Bool

/-- `memset(inode,0,sizeof(*inode))` -/
def MInode.zero : MInode := ⟨⟨0, 0, 0, 0, 0, fun _ => 0⟩, 0, 0, 0, false, false, false⟩

structure DSuper where
  ninodes : ℕ
  nzones : ℕ
  imapBlocks : ℕ
  zmapBlocks : ℕ
  firstdatazone : ℕ
  magic : ℕ

structure Super extends DSuper where
  dev : ℕ
  isup : Option (Fin 32)
  imount : Option (Fin 32)

structure File where
  mode : ℕ
  flags : ℕ
  count : ℕ
  inode : Option (Fin 32)
  pos : ℕ

inductive TaskState
  /-- the entry of `task[]` is NULL -/
  | free
  | live
  | zombie
  deriving DecidableEq

/-- What the file system uses of `struct task_struct`. -/
structure Task where
  state : TaskState
  filp : Fin 20 → Option (Fin 64)
  closeOnExec : Fin 20 → Bool
  pwd : Option (Fin 32)
  root : Option (Fin 32)
  executable : Option (Fin 32)
  euid : ℕ
  egid : ℕ
  umask : ℕ
  leader : Bool
  tty : Option ℕ

def Task.none : Task :=
  ⟨.free, fun _ => .none, fun _ => false, .none, .none, .none, 0, 0, 0, false, .none⟩

/-- A device as seen through the buffer cache. Bit `j` of the zone map is zone
    `j + s_firstdatazone - 1`, bit `n` of the inode map is inode `n`. -/
structure Disk where
  super : DSuper
  imap : ℕ → Bool
  zmap : ℕ → Bool
  inode : ℕ → DInode
  block : ℕ → Block

/-- What a call finds outside the file system: the number of user accesses before one faults, a
    changed floppy, and whether `get_free_page` finds a page. -/
structure Env where
  access : Option ℕ
  floppyChange : Bool
  freePage : Bool

structure Kern where
  inode : Fin 32 → MInode
  lastInode : Fin 32
  super : Fin 8 → Super
  file : Fin 64 → File
  task : Fin 64 → Task
  disk : ℕ → Disk
  bcount : ℕ → ℕ → UInt8
  rootDev : ℕ
  current : Fin 64
  env : Env

inductive Halted
  | panic (msg : String)
  /-- the call never returns -/
  | hang
  /-- a field of a NULL super block is used -/
  | wild
  deriving DecidableEq

abbrev K (α : Type) : Type := Prog Kern Halted α

def panic {α : Type} (msg : String) : K α := Prog.halt (.panic msg)

/-! ## Reading and changing entries -/

namespace Kern

variable (s : Kern)

def cur : Task := s.task s.current

def setInode (i : Fin 32) (x : MInode) : Kern := { s with inode := Function.update s.inode i x }

def setFile (f : Fin 64) (x : File) : Kern := { s with file := Function.update s.file f x }

def setTask (t : Fin 64) (x : Task) : Kern := { s with task := Function.update s.task t x }

def setSuper (k : Fin 8) (x : Super) : Kern := { s with super := Function.update s.super k x }

def setDisk (d : ℕ) (x : Disk) : Kern := { s with disk := Function.update s.disk d x }

def setBlock (d b : ℕ) (x : Block) : Kern :=
  s.setDisk d { s.disk d with block := Function.update (s.disk d).block b x }

@[simp] theorem setInode_self (i x) : (s.setInode i x).inode i = x := Function.update_self ..

theorem setInode_ne {i j : Fin 32} (h : j ≠ i) (x) : (s.setInode i x).inode j = s.inode j :=
  Function.update_of_ne h ..

@[simp] theorem setFile_self (f x) : (s.setFile f x).file f = x := Function.update_self ..

theorem setFile_ne {f f' : Fin 64} (h : f' ≠ f) (x) : (s.setFile f x).file f' = s.file f' :=
  Function.update_of_ne h ..

@[simp] theorem setTask_self (t x) : (s.setTask t x).task t = x := Function.update_self ..

theorem setTask_ne {t t' : Fin 64} (h : t' ≠ t) (x) : (s.setTask t x).task t' = s.task t' :=
  Function.update_of_ne h ..

@[simp] theorem setSuper_self (k x) : (s.setSuper k x).super k = x := Function.update_self ..

theorem setSuper_ne {k k' : Fin 8} (h : k' ≠ k) (x) : (s.setSuper k x).super k' = s.super k' :=
  Function.update_of_ne h ..

end Kern

def modInode (i : Fin 32) (f : MInode → MInode) : K Unit :=
  Prog.modify fun s => s.setInode i (f (s.inode i))

def modFile (f : Fin 64) (g : File → File) : K Unit := Prog.modify fun s => s.setFile f (g (s.file f))

def modTask (f : Task → Task) : K Unit := Prog.modify fun s => s.setTask s.current (f s.cur)

def modSuper (k : Fin 8) (f : Super → Super) : K Unit :=
  Prog.modify fun s => s.setSuper k (f (s.super k))

/-- `inode->i_count++`, an unsigned short -/
def incCount (i : Fin 32) : K Unit := modInode i fun x => { x with count := (x.count + 1) % 65536 }

/-- `inode->i_count--` -/
def decCount (i : Fin 32) : K Unit := modInode i fun x => { x with count := (x.count + 65535) % 65536 }

/-- `get_fs_byte`, `put_fs_byte`, `get_fs_long` or `put_fs_long` -/
def access : K Unit := fun s => match s.env.access with
  | none => .ok () s
  | some 0 => .fault s
  | some (n + 1) => .ok () { s with env := { s.env with access := some n } }

/-! ## Buffers -/

def modCount (d b : ℕ) (f : UInt8 → UInt8) : K Unit := Prog.modify fun s =>
  { s with bcount := Function.update s.bcount d (Function.update (s.bcount d) b (f (s.bcount d b))) }

/-- `bread`; false for NULL. -/
def bread (d b : ℕ) : K Bool :=
  if d = 0 then pure false
  else do
    modCount d b fun n => n + 1
    return true

def brelse (d b : ℕ) : K Unit := do
  let s ← Prog.get
  if s.bcount d b = 0 then panic "Trying to free free buffer"
  else modCount d b fun n => n - 1

def setBlock (d b : ℕ) (x : Block) : K Unit := Prog.modify fun s => s.setBlock d b x

/-! ## Super blocks and bitmaps -/

/-- `get_super` -/
def getSuper (d : ℕ) : K (Option (Fin 8)) := do
  let s ← Prog.get
  return if d = 0 then none else (List.finRange 8).find? fun k => (s.super k).dev = d

/-- `find_first_zero` over the `n` bits from `i` on. -/
def firstZero (m : ℕ → Bool) (i : ℕ) : ℕ → Option ℕ
  | 0 => none
  | n + 1 => if m i then firstZero m (i + 1) n else some i

/-- The bits of the map blocks a super block has loaded. -/
def mapBits (blocks : ℕ) : ℕ := 8192 * min 8 blocks

def setZmap (d j : ℕ) (v : Bool) : K Unit := Prog.modify fun s =>
  s.setDisk d { s.disk d with zmap := Function.update (s.disk d).zmap j v }

def setImap (d j : ℕ) (v : Bool) : K Unit := Prog.modify fun s =>
  s.setDisk d { s.disk d with imap := Function.update (s.disk d).imap j v }

/-- `free_block`. A buffer that is in use keeps the reference `get_hash_table` took. -/
def freeBlock (d block : ℕ) : K Unit := do
  match ← getSuper d with
  | none => panic "trying to free block on nonexistent device"
  | some k =>
    let s ← Prog.get
    if block < (s.super k).firstdatazone ∨ (s.super k).nzones ≤ block then
      panic "trying to free block not in datazone"
    else if s.bcount d block ≠ 0 then modCount d block fun n => n + 1
    else
      let j := block + 1 - (s.super k).firstdatazone
      if (s.disk d).zmap j then setZmap d j false else panic "free_block: bit already cleared"

/-- `new_block`; 0 when there is none. -/
def newBlock (d : ℕ) : K ℕ := do
  match ← getSuper d with
  | none => panic "trying to get new block from nonexistant device"
  | some k =>
    let s ← Prog.get
    match firstZero (s.disk d).zmap 0 (mapBits (s.super k).zmapBlocks) with
    | none => return 0
    | some j =>
      setZmap d j true
      let z := j + (s.super k).firstdatazone - 1
      if (s.super k).nzones ≤ z then return 0
      else if s.bcount d z ≠ 0 then panic "new block: count is != 1"
      else do
        setBlock d z Block.zero
        return z

/-! ## The zones of an inode (_bmap, truncate.c) -/

/-- `inode->i_zone[k]`, with a new block in it if there is none. -/
def zoneSlot (i : Fin 32) (k : ℕ) (create : Bool) : K ℕ := do
  let s ← Prog.get
  let z := (s.inode i).zone k
  if create ∧ z = 0 then
    let z ← newBlock (s.inode i).dev
    if z = 0 then return 0
    else do
      modInode i fun x => { x with zone := Function.update x.zone k z, dirt := true }
      return z
  else return z

/-- Entry `k` of the indirect block `b`, with a new block in it if there is none. -/
def indSlot (d b k : ℕ) (create : Bool) : K ℕ := do
  if ← bread d b then
    let s ← Prog.get
    let z := ((s.disk d).block b).word k
    if create ∧ z = 0 then
      let z ← newBlock d
      if z = 0 then do
        brelse d b
        return 0
      else do
        let s ← Prog.get
        setBlock d b (((s.disk d).block b).setWord k z)
        brelse d b
        return z
    else do
      brelse d b
      return z
  else return 0

/-- `_bmap` -/
def bmapCreate (i : Fin 32) (block : ℕ) (create : Bool) : K ℕ := do
  let s ← Prog.get
  let d := (s.inode i).dev
  if 7 + 512 + 512 * 512 ≤ block then panic "_bmap: block>big"
  else if block < 7 then zoneSlot i block create
  else if block < 7 + 512 then
    let ind ← zoneSlot i 7 create
    if ind = 0 then return 0 else indSlot d ind (block - 7) create
  else
    let dind ← zoneSlot i 8 create
    if dind = 0 then return 0
    else
      let ind ← indSlot d dind ((block - (7 + 512)) / 512) create
      if ind = 0 then return 0 else indSlot d ind ((block - (7 + 512)) % 512) create

def bmap (i : Fin 32) (block : ℕ) : K ℕ := bmapCreate i block false

def createBlock (i : Fin 32) (block : ℕ) : K ℕ := bmapCreate i block true

/-- The loop of `free_ind` and `free_dind` over the entries of block `b`, and the block itself. -/
def freeEntries (d b : ℕ) (free : ℕ → K Unit) : K Unit :=
  if b = 0 then pure ()
  else do
    if ← bread d b then
      Prog.each (fun k => do
        let s ← Prog.get
        let z := ((s.disk d).block b).word k
        if z = 0 then pure () else free z) (List.range 512)
      brelse d b
    freeBlock d b

def freeInd (d b : ℕ) : K Unit := freeEntries d b (freeBlock d)

def freeDind (d b : ℕ) : K Unit := freeEntries d b (freeInd d)

/-- The type bits of `i_mode`. -/
def isMode (fmt mode : ℕ) : Bool := mode &&& 0o170000 = fmt

def isReg (mode : ℕ) : Bool := isMode 0o100000 mode
def isDir (mode : ℕ) : Bool := isMode 0o040000 mode
def isChr (mode : ℕ) : Bool := isMode 0o020000 mode
def isBlk (mode : ℕ) : Bool := isMode 0o060000 mode

def truncate (i : Fin 32) : K Unit := do
  let s ← Prog.get
  let d := (s.inode i).dev
  if ¬ (isReg (s.inode i).mode ∨ isDir (s.inode i).mode) then pure ()
  else do
    Prog.each (fun k => do
      let s ← Prog.get
      let z := (s.inode i).zone k
      if z = 0 then pure ()
      else do
        freeBlock d z
        modInode i fun x => { x with zone := Function.update x.zone k 0 }) (List.range 7)
    let s ← Prog.get
    freeInd d ((s.inode i).zone 7)
    freeDind d ((s.inode i).zone 8)
    modInode i fun x => { x with
      zone := Function.update (Function.update x.zone 7 0) 8 0, size := 0, dirt := true }

end Linux011.Fs

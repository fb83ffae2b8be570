/-
  fs/inode.c, the inode half of fs/bitmap.c, and the super block table of fs/super.c.
-/
import Linux011.Fs.Tables

namespace Linux011.Fs

open Linux011.Lib

/-! ## Inodes -/

def writeInode (i : Fin 32) : K Unit := do
  let s ← Prog.get
  let x := s.inode i
  if ¬ x.dirt ∨ x.dev = 0 then pure ()
  else match ← getSuper x.dev with
    | none => panic "trying to write inode without device"
    | some _ =>
      Prog.modify fun s => s.setDisk x.dev { s.disk x.dev with
        inode := Function.update (s.disk x.dev).inode x.num x.toDInode }
      modInode i fun x => { x with dirt := false }

def readInode (i : Fin 32) : K Unit := do
  let s ← Prog.get
  let x := s.inode i
  match ← getSuper x.dev with
  | none => panic "trying to read inode without dev"
  | some _ => modInode i fun y => { y with toDInode := (s.disk x.dev).inode x.num }

def freeInode (i : Fin 32) : K Unit := do
  let s ← Prog.get
  let x := s.inode i
  if x.dev = 0 then modInode i fun _ => MInode.zero
  else if 1 < x.count then panic "free_inode"
  else if x.nlinks ≠ 0 then panic "trying to free inode with links"
  else match ← getSuper x.dev with
    | none => panic "trying to free inode on nonexistent device"
    | some k =>
      if x.num < 1 ∨ (s.super k).ninodes < x.num then
        panic "trying to free inode 0 or nonexistant inode"
      else if mapBits (s.super k).imapBlocks ≤ x.num then panic "nonexistent imap in superblock"
      else do
        setImap x.dev x.num false
        modInode i fun _ => MInode.zero

/-- `iput`; NULL is let pass. After `write_inode` the inode is clean and nobody else has come. -/
def iput : Option (Fin 32) → K Unit
  | none => pure ()
  | some i => do
    let s ← Prog.get
    let x := s.inode i
    if x.count = 0 then panic "iput: trying to free a freed inode"
    else if x.pipe then
      if x.count = 1 then modInode i fun x => { x with count := 0, dirt := false, pipe := false }
      else decCount i
    else if x.dev = 0 then decCount i
    else if 1 < x.count then decCount i
    else if x.nlinks = 0 then do
      truncate i
      freeInode i
    else if x.dirt then do
      writeInode i
      decCount i
    else decCount i

/-- The search of `get_empty_inode`: the first free entry that is clean, or the last free one. -/
def scanEmpty (s : Kern) : ℕ → Fin 32 → Option (Fin 32) → Option (Fin 32) × Fin 32
  | 0, last, found => (found, last)
  | n + 1, last, found =>
    if (s.inode (last + 1)).count = 0 then
      if (s.inode (last + 1)).dirt then scanEmpty s n (last + 1) (some (last + 1))
      else (some (last + 1), last + 1)
    else scanEmpty s n (last + 1) found

def getEmptyInode : K (Fin 32) := do
  let s ← Prog.get
  let r := scanEmpty s 32 s.lastInode none
  Prog.modify fun s => { s with lastInode := r.2 }
  match r.1 with
  | none => panic "No free inodes in mem"
  | some i =>
    -- an inode without a device stays dirty for ever
    writeInode i
    let s ← Prog.get
    if (s.inode i).dirt then Prog.halt .hang
    else do
      modInode i fun _ => { MInode.zero with count := 1 }
      return i

def getPipeInode : K (Option (Fin 32)) := do
  let i ← getEmptyInode
  let s ← Prog.get
  if s.env.freePage then
    modInode i fun x => { x with count := 2, pipe := true }
    return some i
  else do
    modInode i fun x => { x with count := 0 }
    return none

def incoreInode (s : Kern) (d nr : ℕ) : Option (Fin 32) :=
  (List.finRange 32).find? fun i => (s.inode i).dev = d ∧ (s.inode i).num = nr

/-- The search of `iget`, which starts again with the root of what is mounted on an inode. After
    more turns than there are super blocks it never ends. -/
def igetLoop (empty : Fin 32) : ℕ → ℕ → ℕ → K (Fin 32)
  | 0, _, _ => Prog.halt .hang
  | n + 1, d, nr => do
    let s ← Prog.get
    match incoreInode s d nr with
    | none =>
      modInode empty fun x => { x with dev := d, num := nr }
      readInode empty
      return empty
    | some i =>
      incCount i
      if (s.inode i).mount then
        match (List.finRange 8).find? fun k => (s.super k).imount = some i with
        | none =>
          iput (some empty)
          return i
        | some k =>
          iput (some i)
          igetLoop empty n (s.super k).dev 1
      else do
        iput (some empty)
        return i

def iget (d nr : ℕ) : K (Fin 32) := do
  if d = 0 then panic "iget with dev==0"
  else
    let empty ← getEmptyInode
    igetLoop empty 9 d nr

def newInode (d : ℕ) : K (Option (Fin 32)) := do
  let i ← getEmptyInode
  match ← getSuper d with
  | none => panic "new_inode with unknown device"
  | some k =>
    let s ← Prog.get
    match firstZero (s.disk d).imap 0 (mapBits (s.super k).imapBlocks) with
    | none =>
      iput (some i)
      return none
    | some j =>
      if (s.super k).ninodes < j then
        iput (some i)
        return none
      else do
        setImap d j true
        modInode i fun x => { x with
          count := 1, nlinks := 1, dev := d, uid := s.cur.euid, gid := s.cur.egid, dirt := true, num := j }
        return some i

/-! ## Super blocks -/

def putSuper (d : ℕ) : K Unit := do
  let s ← Prog.get
  if d = s.rootDev then pure ()
  else match ← getSuper d with
    | none => pure ()
    | some k =>
      if (s.super k).imount ≠ none then pure () else modSuper k fun x => { x with dev := 0 }

def invalidateInodes (d : ℕ) : K Unit := Prog.modify fun s => { s with
  inode := fun i => if (s.inode i).dev = d then { s.inode i with dev := 0, dirt := false } else s.inode i }

def major (d : ℕ) : ℕ := d / 256

def checkDiskChange (d : ℕ) : K Unit := do
  let s ← Prog.get
  if major d ≠ 2 ∨ ¬ s.env.floppyChange then pure ()
  else do
    Prog.each (fun k => do
      let s ← Prog.get
      if (s.super k).dev = d then putSuper d else pure ()) (List.finRange 8)
    invalidateInodes d

def readSuper (d : ℕ) : K (Option (Fin 8)) := do
  if d = 0 then return none
  else
    checkDiskChange d
    match ← getSuper d with
    | some k => return some k
    | none =>
      let s ← Prog.get
      match (List.finRange 8).find? fun k => (s.super k).dev = 0 with
      | none => return none
      | some k =>
        modSuper k fun _ => ⟨(s.disk d).super, d, none, none⟩
        if (s.disk d).super.magic ≠ 0x137F then do
          modSuper k fun x => { x with dev := 0 }
          return none
        else do
          setImap d 0 true
          setZmap d 0 true
          return some k

def mountRoot : K Unit := do
  Prog.modify fun s => { s with
    file := fun f => { s.file f with count := 0 }, super := fun k => { s.super k with dev := 0 } }
  let s ← Prog.get
  match ← readSuper s.rootDev with
  | none => panic "Unable to mount root"
  | some k =>
    let mi ← iget s.rootDev 1
    modInode mi fun x => { x with count := (x.count + 3) % 65536 }
    modSuper k fun x => { x with isup := some mi, imount := some mi }
    modTask fun τ => { τ with pwd := some mi, root := some mi }

end Linux011.Fs

/-
  fs/bitmap.c: the allocators over the map blocks themselves, which a super block keeps loaded. A map
  block is 256 words of 32 bits; zone `z` is bit `z - s_firstdatazone + 1` of the eight zone map blocks,
  inode `n` is bit `n` of the inode map blocks.

  A buffer is found by its device and block; a buffer without a block is one of device 0. When the block
  wanted has no buffer, `getblk` takes over one that nobody uses: `victim` is the block it had. Calls run
  one at a time, so no lock is waited for.
-/
import Linux011.Lib.Words
import Linux011.Fs.Inode

namespace Linux011.Fs.Bitmap

open Linux011.Lib

/-! ## State -/

/-- A buffer head and its block. -/
structure Head where
  count : UInt8
  uptodate : Bool
  dirt : Bool
  data : Block

/-- The buffer of a map block. -/
structure MapBuf where
  word : Words 32
  dirt : Bool

/-- `s_imap` and `s_zmap`, of eight entries each; `none` is NULL. -/
structure Maps where
  imap : ℕ → Option MapBuf
  zmap : ℕ → Option MapBuf

structure Bits where
  kern : Kern
  /-- the maps of the super block table -/
  maps : Fin 8 → Maps
  head : ℕ → ℕ → Option Head

abbrev B (α : Type) : Type := Prog Bits Halted α

/-- A piece of code that does not look at the maps. -/
def core {α : Type} (m : K α) : B α := fun s => match m s.kern with
  | .ok a t => .ok a { s with kern := t }
  | .fault t => .fault { s with kern := t }
  | .stop e => .stop e

def panic {α : Type} (msg : String) : B α := Prog.halt (.panic msg)

def setZmap (k : Fin 8) (i : ℕ) (b : MapBuf) : B Unit := Prog.modify fun s =>
  { s with maps := Function.update s.maps k { s.maps k with zmap := Function.update (s.maps k).zmap i (some b) } }

def setImap (k : Fin 8) (i : ℕ) (b : MapBuf) : B Unit := Prog.modify fun s =>
  { s with maps := Function.update s.maps k { s.maps k with imap := Function.update (s.maps k).imap i (some b) } }

def setHead (d b : ℕ) (h : Option Head) : B Unit := Prog.modify fun s =>
  { s with head := Function.update s.head d (Function.update (s.head d) b h) }

/-! ## Bits -/

/-- `find_first_zero`; 8192 if there is none. -/
def findFirstZero (b : MapBuf) : ℕ := b.word.firstClear 256 0

/-- `set_bit` or `clear_bit`, and `b_dirt = 1`. -/
def MapBuf.put (b : MapBuf) (nr : ℕ) (v : Bool) : MapBuf := ⟨b.word.put nr v, true⟩

/-- The loop of `new_block` and `new_inode` over the `n` map blocks from `i` on: the block and the bit. -/
def searchMaps (m : ℕ → Option MapBuf) : ℕ → ℕ → Option (ℕ × ℕ)
  | 0, _ => none
  | n + 1, i => match m i with
    | none => searchMaps m n (i + 1)
    | some bh => if findFirstZero bh < 8192 then some (i, findFirstZero bh) else searchMaps m n (i + 1)

/-! ## Buffers -/

/-- `getblk`: the buffer of the block, with one more reference. -/
def getblk (victim : ℕ × ℕ) (d b : ℕ) : B Head := do
  let s ← Prog.get
  match s.head d b with
  | some h =>
    setHead d b (some { h with count := h.count + 1 })
    return { h with count := h.count + 1 }
  | none => match s.head victim.1 victim.2 with
    | none => Prog.halt .hang
    | some h =>
      if h.count = 0 then do
        setHead victim.1 victim.2 none
        setHead d b (some { h with count := 1, uptodate := false, dirt := false })
        return { h with count := 1, uptodate := false, dirt := false }
      else Prog.halt .hang

/-- `brelse` of a buffer that the call has changed to `h`. -/
def brelse (d b : ℕ) (h : Head) : B Unit :=
  if h.count = 0 then panic "Trying to free free buffer" else setHead d b (some { h with count := h.count - 1 })

/-! ## Zones -/

def freeBlock (d block : ℕ) : B Unit := do
  match ← core (getSuper d) with
  | none => panic "trying to free block on nonexistent device"
  | some k =>
    let s ← Prog.get
    let sb := s.kern.super k
    let clear : B Unit := do
      let nr := block + 1 - sb.firstdatazone
      match if nr / 8192 < 8 then (s.maps k).zmap (nr / 8192) else none with
      | none => Prog.halt .wild
      | some bh =>
        if bh.word.bit (nr % 8192) then setZmap k (nr / 8192) (bh.put (nr % 8192) false)
        else panic "free_block: bit already cleared"
    if block < sb.firstdatazone ∨ sb.nzones ≤ block then panic "trying to free block not in datazone"
    else match s.head d block with
      | none => clear
      | some h =>
        -- the reference of `get_hash_table` stays if the buffer is in use
        if h.count + 1 ≠ 1 then setHead d block (some { h with count := h.count + 1 })
        else do
          brelse d block { h with count := h.count + 1, dirt := false, uptodate := false }
          clear

def newBlock (victim : ℕ × ℕ) (d : ℕ) : B ℕ := do
  match ← core (getSuper d) with
  | none => panic "trying to get new block from nonexistant device"
  | some k =>
    let s ← Prog.get
    match searchMaps (s.maps k).zmap 8 0 with
    | none => return 0
    | some (i, j) => match (s.maps k).zmap i with
      | none => Prog.halt .wild
      | some bh =>
        if bh.word.bit j then panic "new_block: bit already set"
        else do
          setZmap k i (bh.put j true)
          let z := j + i * 8192 + (s.kern.super k).firstdatazone - 1
          -- the bit stays set
          if (s.kern.super k).nzones ≤ z then return 0
          else do
            let h ← getblk victim d z
            if h.count ≠ 1 then panic "new block: count is != 1"
            else do
              brelse d z { h with data := Block.zero, uptodate := true, dirt := true }
              return z

/-! ## Inodes -/

def freeInode (i : Fin 32) : B Unit := do
  let s ← Prog.get
  let x := s.kern.inode i
  if x.dev = 0 then core (modInode i fun _ => MInode.zero)
  else if 1 < x.count then panic "free_inode"
  else if x.nlinks ≠ 0 then panic "trying to free inode with links"
  else match ← core (getSuper x.dev) with
    | none => panic "trying to free inode on nonexistent device"
    | some k =>
      if x.num < 1 ∨ (s.kern.super k).ninodes < x.num then panic "trying to free inode 0 or nonexistant inode"
      else match if x.num / 8192 < 8 then (s.maps k).imap (x.num / 8192) else none with
        | none => panic "nonexistent imap in superblock"
        | some bh =>
          -- a bit that is clear already is only reported
          setImap k (x.num / 8192) (bh.put (x.num % 8192) false)
          core (modInode i fun _ => MInode.zero)

def newInode (d : ℕ) : B (Option (Fin 32)) := do
  let i ← core getEmptyInode
  match ← core (getSuper d) with
  | none => panic "new_inode with unknown device"
  | some k =>
    let s ← Prog.get
    match searchMaps (s.maps k).imap 8 0 with
    | none =>
      core (iput (some i))
      return none
    | some (n, j) =>
      if (s.kern.super k).ninodes < j + n * 8192 then
        core (iput (some i))
        return none
      else match (s.maps k).imap n with
        | none => Prog.halt .wild
        | some bh =>
          if bh.word.bit j then panic "new_inode: bit already set"
          else do
            setImap k n (bh.put j true)
            core (modInode i fun x => { x with
              count := 1, nlinks := 1, dev := d, uid := s.kern.cur.euid, gid := s.kern.cur.egid, dirt := true
              num := j + n * 8192 })
            return some i

end Linux011.Fs.Bitmap

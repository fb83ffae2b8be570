/-
  Writers of one inode: `file_write` with `create_block` (fs/file_dev.c, `_bmap` in fs/inode.c,
  `new_block` in fs/bitmap.c). A writer is at a place where it may be asleep: in `get_super` or
  `getblk` of `new_block`, in `bread`, at a user byte, in the last `brelse`. One step runs it to the
  next such place.

  The blocks and the zone map are those seen through the buffer cache; `bcount` counts the
  references of the writers to buffers. Times are left out.
-/
import Linux011.Lib.Trans
import Linux011.Fs.Tables

namespace Linux011.Fs.Extend

open Linux011.Lib

/-! ## Slots -/

/-- The slots of an inode for zones: `i_zone[k]`, an entry of the indirect block, an entry of the
    double indirect block, an entry of an indirect block below that. -/
inductive Path
  | top (k : Fin 9)
  | ind (k : Fin 512)
  | mid (k : Fin 512)
  | leaf (k l : Fin 512)
  deriving DecidableEq

/-- The slot of a logical block. -/
def target (block : ℕ) : Path :=
  if h : block < 7 then .top ⟨block, by omega⟩
  else if h : block - 7 < 512 then .ind ⟨block - 7, h⟩
  else .leaf ⟨(block - 7 - 512) / 512 % 512, Nat.mod_lt _ (by decide)⟩
    ⟨(block - 7 - 512) % 512, Nat.mod_lt _ (by decide)⟩

/-- The slots `_bmap` goes through. -/
def Path.route : Path → List Path
  | .top k => [.top k]
  | .ind k => [.top 7, .ind k]
  | .mid k => [.top 8, .mid k]
  | .leaf k l => [.top 8, .mid k, .leaf k l]

/-- A volume; zone numbers are unsigned shorts and begin at 1. -/
structure Vol extends DSuper where
  first_pos : 1 ≤ firstdatazone
  short : nzones < 65536

structure Mem where
  zone : Fin 9 → ℕ
  size : ℕ
  dirt : Bool
  zmap : ℕ → Bool
  block : ℕ → Block
  bcount : ℕ → UInt8

namespace Mem

variable (m : Mem)

/-- What is in a slot; `b` is the block of an entry. -/
def slot (b : ℕ) : Path → ℕ
  | .top k => m.zone k
  | .ind k | .mid k | .leaf _ k => (m.block b).word k

/-- The result of `new_block` is stored: in `i_zone` also a 0. -/
def store (b z : ℕ) : Path → Mem
  | .top k => { m with zone := Function.update m.zone k z, dirt := m.dirt || decide (z ≠ 0) }
  | .ind k | .mid k | .leaf _ k =>
    if z = 0 then m else { m with block := Function.update m.block b ((m.block b).setWord k z) }

def take (b : ℕ) : Mem := { m with bcount := Function.update m.bcount b (m.bcount b + 1) }

def release (b : ℕ) : Mem := { m with bcount := Function.update m.bcount b (m.bcount b - 1) }

/-- `brelse(bh)` for the block of an entry. -/
def leave (b : ℕ) : Path → Mem
  | .top _ => m
  | .ind _ | .mid _ | .leaf _ _ => m.release b

def setBit (j : ℕ) : Mem := { m with zmap := Function.update m.zmap j true }

/-- `clear_block` -/
def clearBlock (z : ℕ) : Mem := { m with block := Function.update m.block z Block.zero }

def setByte (z off : ℕ) (x : UInt8) : Mem :=
  { m with block := Function.update m.block z (Function.update (m.block z) off x) }

/-- `if (pos > inode->i_size)` -/
def grow (pos : ℕ) : Mem := if m.size < pos then { m with size := pos, dirt := true } else m

end Mem

/-! ## Places -/

/-- `_bmap` at slot `path`, in block `b` if it is an entry, with the slots that follow, and what
    `file_write` has left to write. -/
structure Walk where
  b : ℕ
  path : Path
  rest : List Path
  pos : ℕ
  buf : List UInt8

inductive Place
  | idle
  /-- `file_write` at its loop test -/
  | loop (pos : ℕ) (buf : List UInt8)
  /-- `new_block` in `get_super`, and in `getblk` for zone `z` -/
  | newSuper (w : Walk)
  | newGetblk (w : Walk) (z : ℕ)
  /-- `_bmap` in the `bread` of the block of an entry -/
  | bread (w : Walk)
  /-- `file_write` in `bread`, and in its copy loop -/
  | dataBread (z pos : ℕ) (buf : List UInt8)
  | copy (z block off : ℕ) (chunk : List UInt8) (pos : ℕ) (buf : List UInt8)

/-- `_bmap` has the zone of a slot: it goes on with the next one, or returns the zone. Without a
    zone `file_write` ends. -/
def found (m : Mem) (w : Walk) (z : ℕ) : Mem × Place :=
  let m := m.leave w.b w.path
  if z = 0 then (m, .idle)
  else match w.rest with
    | [] => (m, .dataBread z w.pos w.buf)
    | p :: rest => (m, .bread ⟨z, p, rest, w.pos, w.buf⟩)

/-- The test of a slot. -/
def testSlot (m : Mem) (w : Walk) : Mem × Place :=
  if m.slot w.b w.path = 0 then (m, .newSuper w) else found m w (m.slot w.b w.path)

/-- `new_block` has returned `z`. -/
def newDone (m : Mem) (w : Walk) (z : ℕ) : Mem × Place := found (m.store w.b z w.path) w z

/-- The free bit `new_block` finds. -/
def freeBit (v : Vol) (m : Mem) : Option ℕ := firstZero m.zmap 0 (mapBits v.zmapBlocks)

def zoneOf (v : Vol) (j : ℕ) : ℕ := j + v.firstdatazone - 1

/-- A writer goes on; `none` when there is nothing to do or the kernel panics. -/
def go (v : Vol) (m : Mem) : Place → Option (Mem × Place)
  | .idle => none
  | .loop pos buf =>
    if buf = [] then some (m, .idle)
    else if 7 + 512 + 512 * 512 ≤ pos / 1024 then none
    else match (target (pos / 1024)).route with
      | [] => none
      | p :: rest => some (testSlot m ⟨0, p, rest, pos, buf⟩)
  | .newSuper w =>
    match freeBit v m with
    | none => some (newDone m w 0)
    | some j =>
      if v.nzones ≤ zoneOf v j then some (newDone (m.setBit j) w 0)
      else some (m.setBit j, .newGetblk w (zoneOf v j))
  | .newGetblk w z => if m.bcount z ≠ 0 then none else some (newDone (m.clearBlock z) w z)
  | .bread w => some (testSlot (m.take w.b) w)
  | .dataBread z pos buf =>
    let n := min (1024 - pos % 1024) buf.length
    some ((m.take z).grow (pos + n), .copy z (pos / 1024) (pos % 1024) (buf.take n) (pos + n) (buf.drop n))
  | .copy z _ _ [] pos buf => some (m.release z, .loop pos buf)
  | .copy z block off (x :: xs) pos buf => some (m.setByte z off x, .copy z block (off + 1) xs pos buf)

/-! ## The system -/

/-- `got` are the zones `new_block` has returned so far, `wrote` the logical blocks written with
    the zones they were written to. -/
structure Sys (ι : Type) where
  m : Mem
  place : ι → Place
  got : List ℕ
  wrote : List (ℕ × ℕ)

inductive Event (ι : Type)
  /-- a call of `file_write` -/
  | write (p : ι) (append : Bool) (pos : ℕ) (buf : List UInt8)
  | go (p : ι)
  /-- `bread` returns NULL -/
  | ioError (p : ι)

/-- The zone `new_block` returns in the next step. -/
def Place.gets : Place → List ℕ
  | .newGetblk _ z => [z]
  | _ => []

/-- What the next step writes. -/
def Place.writes : Place → List (ℕ × ℕ)
  | .copy z block _ (_ :: _) _ _ => [(block, z)]
  | _ => []

def Place.reads : Place → Bool
  | .bread _ | .dataBread _ _ _ => true
  | _ => false

variable {ι : Type} [DecidableEq ι]

inductive Sys.Step (v : Vol) : Sys ι → Event ι → Sys ι → Prop
  | write {σ : Sys ι} {p : ι} {append : Bool} {pos : ℕ} {buf : List UInt8} : σ.place p = .idle →
      Step v σ (.write p append pos buf)
        { σ with place := Function.update σ.place p (.loop (if append then σ.m.size else pos) buf) }
  | go {σ : Sys ι} {p : ι} {m' : Mem} {q : Place} : go v σ.m (σ.place p) = some (m', q) →
      Step v σ (.go p) ⟨m', Function.update σ.place p q, (σ.place p).gets ++ σ.got, (σ.place p).writes ++ σ.wrote⟩
  | ioError {σ : Sys ι} {p : ι} : (σ.place p).reads = true →
      Step v σ (.ioError p) { σ with place := Function.update σ.place p .idle }

namespace Mem

variable (m : Mem)

def entry (b : ℕ) (k : Fin 512) : ℕ := if b = 0 then 0 else (m.block b).word k

/-- The zone in a slot of the inode's tree, 0 if there is none. -/
def zoneAt : Path → ℕ
  | .top k => m.zone k
  | .ind k => m.entry (m.zone 7) k
  | .mid k => m.entry (m.zone 8) k
  | .leaf k l => m.entry (m.entry (m.zone 8) k) l

/-- The zones of the tree are data zones of the volume, marked in the zone map, each used once. -/
structure Sound (v : Vol) : Prop where
  bit : m.zmap 0 = true
  range : ∀ p, m.zoneAt p ≠ 0 → v.firstdatazone ≤ m.zoneAt p ∧ m.zoneAt p < v.nzones
  marked : ∀ p, m.zoneAt p ≠ 0 → m.zmap (m.zoneAt p + 1 - v.firstdatazone) = true
  inj : ∀ p q, m.zoneAt p ≠ 0 → m.zoneAt p = m.zoneAt q → p = q

end Mem

/-- Writers on an inode of a sound volume. -/
def extendSystem (v : Vol) (ι : Type) [DecidableEq ι] : Lts (Sys ι) (Event ι) where
  init σ := σ.m.Sound v ∧ (∀ p, σ.place p = .idle) ∧ σ.got = [] ∧ σ.wrote = []
  step := Sys.Step v

end Linux011.Fs.Extend

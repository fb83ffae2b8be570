/-
  Calls of `open` with O_CREAT and O_EXCL for one name in one directory: `open_namei` from
  `find_entry` on, `add_entry` (fs/namei.c), `new_inode` (fs/bitmap.c). The directory is the one that
  `find_entry` comes to; `create_block` is that of `Fs.Extend`, on the inode of the directory. A
  process goes on from one place to the next, and may be asleep at each of them.

  An inode is its bit in the inode map. The references of `add_entry` and `find_entry` to buffers are
  left out.
-/
import Linux011.Fs.Namei
import Linux011.Fs.Extend

namespace Linux011.Fs.Exclusive

open Linux011.Lib
open Linux011.Fs.Extend (Path target Vol Mem)

/-! ## Entries -/

/-- The name of entry `j` of a block, up to the NUL. -/
def nameOf (b : Block) (j : ℕ) : List UInt8 := (b.name j).takeWhile (· ≠ 0)

/-- The zone of entry `k` of the directory. -/
def zoneFor (m : Mem) (k : ℕ) : ℕ := m.zoneAt (target (k / 64))

/-- Entry `k` of the directory is live and has this name. -/
structure Entry (m : Mem) (name : List UInt8) (k : ℕ) : Prop where
  inside : 16 * k < m.size
  zone : zoneFor m k ≠ 0
  live : (m.block (zoneFor m k)).word (8 * (k % 64)) ≠ 0
  name : nameOf (m.block (zoneFor m k)) (k % 64) = name

/-- The inode of the directory is sound, its size that of its entries, its first entries are `.` and
    `..`, and no two live entries have the same name. -/
structure Dir (v : Vol) (m : Mem) : Prop where
  sound : m.Sound v
  size : 16 ∣ m.size ∧ m.size ≤ 1024 * (7 + 512 + 512 * 512)
  dot : Entry m [46] 0
  dotdot : Entry m [46, 46] 1
  unique : ∀ name k l, Entry m name k → Entry m name l → k = l

/-! ## Places -/

inductive Place
  | idle
  /-- `find_entry` before its `bread` of the first block, and in it; `seek` is the name it looks for -/
  | start (seek : List UInt8) (entries : ℕ)
  | findFirst (seek : List UInt8) (entries z : ℕ)
  /-- at its loop test, with the block `z` in hand; in `bmap` in the `bread` of block `b`; in `bread` -/
  | find (seek : List UInt8) (entries i z : ℕ)
  | findMap (seek : List UInt8) (entries i b : ℕ) (p : Path) (rest : List Path)
  | findBread (seek : List UInt8) (entries i z : ℕ)
  | newInode
  /-- `add_entry` for inode `nr` in the `bread` of the first block; in its loop; in `create_block`;
      in `bread`; at byte `k` of the name -/
  | addFirst (nr z : ℕ)
  | add (nr i z : ℕ)
  | create (nr i : ℕ) (q : Extend.Place)
  | addBread (nr i z : ℕ)
  | putName (nr i z k : ℕ)
  /-- `open_namei` in `iput(inode)` after a failure, and in the last calls of `brelse` and `iput` -/
  | drop (nr : ℕ)
  | leave (ok : Bool)

/-- `find_entry` has the zone of a slot for entry `i`, with the slots that follow. -/
def mapped (seek : List UInt8) (entries i z : ℕ) (rest : List Path) : Place :=
  if z = 0 then .find seek entries (i + 64) 0
  else match rest with
    | [] => .findBread seek entries i z
    | p :: rest => .findMap seek entries i z p rest

/-- `find_entry` at entry `i`, in block `z`. -/
def matchAt (m : Mem) (seek : List UInt8) (entries i z : ℕ) : Place :=
  if matchEntry (m.block z) (i % 64) seek then .leave false else .find seek entries (i + 1) z

def setBlock (m : Mem) (z : ℕ) (b : Block) : Mem := { m with block := Function.update m.block z b }

/-- `add_entry` at entry `i` behind the end of the directory. -/
def growDir (m : Mem) (i z : ℕ) : Mem :=
  if m.size ≤ 16 * i then
    { setBlock m z ((m.block z).setWord (8 * (i % 64)) 0) with size := 16 * (i + 1), dirt := true }
  else m

/-- `add_entry` at entry `i`, in block `z`. -/
def addAt (m : Mem) (nr i z : ℕ) : Mem × Place :=
  let m := growDir m i z
  (m, if (m.block z).word (8 * (i % 64)) = 0 then .putName nr i z 0 else .add nr (i + 1) z)

/-- `create_block` has gone on. -/
def created (nr i : ℕ) : Extend.Place → Place
  | .dataBread z _ _ => .addBread nr i z
  | .idle => .drop nr
  | q => .create nr i q

structure St where
  m : Mem
  imap : ℕ → Bool

/-- `new_inode`: the number of the inode. -/
def newInode (v : Vol) (s : St) : Option (St × ℕ) :=
  match firstZero s.imap 0 (mapBits v.imapBlocks) with
  | none => none
  | some j => if v.ninodes < j then none else some ({ s with imap := Function.update s.imap j true }, j)

/-- A process goes on with the call; `none` when there is nothing to do or the kernel panics. -/
def Place.go (v : Vol) (name : List UInt8) (s : St) : Place → Option (St × Place)
  | .idle => none
  | .start seek entries =>
    some (s, if s.m.zone 0 = 0 then .newInode else .findFirst seek entries (s.m.zone 0))
  | .findFirst seek entries z => some (s, .find seek entries 0 z)
  | .find seek entries i z =>
    if entries ≤ i then some (s, .newInode)
    else if i % 64 = 0 ∧ i ≠ 0 then
      if 7 + 512 + 512 * 512 ≤ i / 64 then none
      else match (target (i / 64)).route with
        | [] => none
        | p :: rest => some (s, mapped seek entries i (s.m.slot 0 p) rest)
    else some (s, matchAt s.m seek entries i z)
  | .findMap seek entries i b p rest => some (s, mapped seek entries i (s.m.slot b p) rest)
  | .findBread seek entries i z => some (s, matchAt s.m seek entries i z)
  | .newInode =>
    match Exclusive.newInode v s with
    | none => some (s, .leave false)
    | some (s, nr) => some (s, if s.m.zone 0 = 0 then .drop nr else .addFirst nr (s.m.zone 0))
  | .addFirst nr z => some ({ s with m := (addAt s.m nr 0 z).1 }, (addAt s.m nr 0 z).2)
  | .add nr i z =>
    if i % 64 = 0 ∧ i ≠ 0 then some (s, .create nr i (.loop (16 * i) [0]))
    else some ({ s with m := (addAt s.m nr i z).1 }, (addAt s.m nr i z).2)
  | .create nr i q => (Extend.go v s.m q).map fun r => ({ s with m := r.1 }, created nr i r.2)
  | .addBread nr i z => some ({ s with m := (addAt s.m nr i z).1 }, (addAt s.m nr i z).2)
  | .putName nr i z k =>
    if k < 14 then
      some ({ s with m := s.m.setByte z (16 * (i % 64) + 2 + k) ((name.take 14).getD k 0) }, .putName nr i z (k + 1))
    -- `de->inode = inode->i_num`
    else some ({ s with m := setBlock s.m z ((s.m.block z).setWord (8 * (i % 64)) nr) }, .leave true)
  | .drop nr => some ({ s with imap := Function.update s.imap nr false }, .leave false)
  | .leave _ => some (s, .idle)

/-- A `bread` returns NULL, or there is no permission to write the directory. -/
def Place.failed : Place → Option Place
  | .findFirst _ _ _ => some .newInode
  | .findMap seek entries i _ _ _ | .findBread seek entries i _ => some (.find seek entries (i + 64) 0)
  | .newInode => some (.leave false)
  | .addFirst nr _ => some (.drop nr)
  | .create nr _ q => if q.reads then some (.drop nr) else none
  | .addBread nr i _ => some (.add nr (i + 64) 0)
  | _ => none

/-! ## The system -/

/-- `opened` are the processes whose calls have succeeded. -/
structure Sys (ι : Type) where
  s : St
  place : ι → Place
  opened : List ι

inductive Event (ι : Type)
  | call (p : ι) (seek : List UInt8) (entries : ℕ)
  | go (p : ι)
  | fail (p : ι)

/-- What `find_entry` looks for, and in how many entries. For `..` it looks for `.` in the root of the
    process, and comes from the root of a file system to the directory it is mounted on, with the
    number of entries of that root. -/
def Seeks (name : List UInt8) (size : ℕ) (seek : List UInt8) (entries : ℕ) : Prop :=
  (seek = name.take 14 ∧ entries = size / 16) ∨
    name = [46, 46] ∧ ((seek = [46] ∧ entries = size / 16) ∨ (seek = name ∧ 2 ≤ entries))

/-- The calls that succeed in the next step. -/
def Place.opens (p : ι) : Place → List ι
  | .leave true => [p]
  | _ => []

variable {ι : Type} [DecidableEq ι]

inductive Sys.Step (v : Vol) (name : List UInt8) : Sys ι → Event ι → Sys ι → Prop
  | call {σ : Sys ι} {p : ι} {seek : List UInt8} {entries : ℕ} : σ.place p = .idle →
      Seeks name σ.s.m.size seek entries →
      Step v name σ (.call p seek entries) { σ with place := Function.update σ.place p (.start seek entries) }
  | go {σ : Sys ι} {p : ι} {s' : St} {q : Place} : (σ.place p).go v name σ.s = some (s', q) →
      Step v name σ (.go p) ⟨s', Function.update σ.place p q, (σ.place p).opens p ++ σ.opened⟩
  | fail {σ : Sys ι} {p : ι} {q : Place} : (σ.place p).failed = some q →
      Step v name σ (.fail p) { σ with place := Function.update σ.place p q }

/-- Bit 0 of the inode map is never free; `s_ninodes` is an unsigned short. A component of a path is
    not empty and has no NUL. -/
def openSystem (v : Vol) (name : List UInt8) (ι : Type) [DecidableEq ι] : Lts (Sys ι) (Event ι) where
  init σ := (v.ninodes < 65536 ∧ name ≠ [] ∧ 0 ∉ name) ∧ Dir v σ.s.m ∧ σ.s.imap 0 = true ∧
    (∀ p, σ.place p = .idle) ∧ σ.opened = []
  step := Sys.Step v name

end Linux011.Fs.Exclusive

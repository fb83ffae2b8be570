/-
  `truncate` with `free_ind` and `free_dind` (fs/truncate.c) and `free_block` (fs/bitmap.c), while
  other processes read the file with `file_read` (fs/file_dev.c) or its device with `block_read`
  (fs/block_dev.c). A process goes on from one place to the next. It may be asleep wherever the C
  code can sleep, and also at a few places between, where a run of the code has no switch.

  Buffers are named by their blocks. `b_count` is a natural number: a task holds two buffers at most,
  and there are 64 tasks. `b_uptodate` is left out; a read may fail whenever the buffer is unlocked.
-/
import Linux011.Fs.Extend

namespace Linux011.Fs.Truncate

open Linux011.Lib
open Linux011.Fs.Extend (Path target Vol Mem)

/-! ## The inode, the zone map and the buffers -/

/-- `block` are the blocks seen through the cache, `disk` those on the disk. -/
structure St where
  mode : ℕ
  zone : Fin 9 → ℕ
  size : ℕ
  dirt : Bool
  zmap : ℕ → Bool
  block : ℕ → Block
  disk : ℕ → Block
  cached : ℕ → Bool
  lock : ℕ → Bool
  count : ℕ → ℕ

namespace St

variable (s : St)

def mem : Mem := ⟨s.zone, s.size, s.dirt, s.zmap, s.block, fun b => UInt8.ofNat (s.count b)⟩

/-- Zone `z` is marked in the zone map. -/
def marked (v : Vol) (z : ℕ) : Bool := s.zmap (z + 1 - v.firstdatazone)

/-- `z` is a zone of the file or directory. -/
def InTree (z : ℕ) : Prop := (isReg s.mode ∨ isDir s.mode) ∧ z ≠ 0 ∧ ∃ p, s.mem.zoneAt p = z

/-- `getblk`, awake: the buffer of the block, or a new one. -/
def getblk (b : ℕ) : St :=
  if s.cached b then { s with count := Function.update s.count b (s.count b + 1) }
  else { s with cached := Function.update s.cached b true, count := Function.update s.count b 1 }

/-- `bh->b_count--` -/
def put (b : ℕ) : St := { s with count := Function.update s.count b (s.count b - 1) }

/-- `bh->b_dirt=0; bh->b_uptodate=0` -/
def invalidate (b : ℕ) : St := { s with block := Function.update s.block b (s.disk b) }

/-- `clear_bit`, and the panic if it was clear. -/
def clearBit (v : Vol) (z : ℕ) : Option St :=
  if s.marked v z then some { s with zmap := Function.update s.zmap (z + 1 - v.firstdatazone) false } else none

end St

/-! ## `truncate` -/

/-- `free_block` in `get_super` and in `get_hash_table`; `free_ind`, or `free_dind` for `true`, in
    `getblk` and in the rest of `bread`, and in the loop. -/
inductive Frame
  | freeBlock (z : ℕ)
  | freeWait (z : ℕ)
  | getblk (dind : Bool) (block : ℕ)
  | bread (dind : Bool) (block : ℕ)
  | loop (dind : Bool) (block i : ℕ)

/-- `free_ind` and `free_dind` are called. -/
def callFree (dind : Bool) (block : ℕ) : List Frame := if block = 0 then [] else [.getblk dind block]

/-- The top frame goes on; the frames are those in its place. `none`: asleep, or a panic. -/
def Frame.go (v : Vol) (s : St) : Frame → Option (St × List Frame)
  | .freeBlock z =>
    if z < v.firstdatazone ∨ v.nzones ≤ z then none
    else if s.cached z then some (s.getblk z, [.freeWait z])
    else (s.clearBit v z).map fun s => (s, [])
  | .freeWait z =>
    if s.lock z then none
    -- "trying to free block": the return leaves the reference and the bit as they are
    else if s.count z ≠ 1 then some (s, [])
    else (((s.invalidate z).put z).clearBit v z).map fun s => (s, [])
  | .getblk d b => some (s.getblk b, [.bread d b])
  | .bread d b => if s.lock b then none else some (s, [.loop d b 0])
  | .loop d b i =>
    if i < 512 then
      let e := (s.block b).word i
      some (s, (if e = 0 then [] else if d then callFree false e else [.freeBlock e]) ++ [.loop d b (i + 1)])
    else if s.lock b ∨ s.count b = 0 then none
    else some (s.put b, [.freeBlock b])

/-- `bread` returns NULL. -/
def Frame.failed (s : St) : Frame → Option (St × List Frame)
  | .bread _ b => if s.lock b ∨ s.count b = 0 then none else some (s.put b, [.freeBlock b])
  | _ => none

/-- `truncate` in its loop, after the `free_block` there, after `free_ind`, after `free_dind`. -/
inductive Level
  | direct (i : ℕ)
  | zero (i : Fin 7)
  | dind
  | finish

/-- The first seven zones are those of data blocks. -/
def top (i : Fin 7) : Fin 9 := ⟨i, by omega⟩

def Level.go (s : St) : Level → St × List Frame × Option Level
  | .direct i =>
    if h : i < 7 then
      if s.zone (top ⟨i, h⟩) = 0 then (s, [], some (.direct (i + 1)))
      else (s, [.freeBlock (s.zone (top ⟨i, h⟩))], some (.zero ⟨i, h⟩))
    else (s, callFree false (s.zone 7), some .dind)
  | .zero i => ({ s with zone := Function.update s.zone (top i) 0 }, [], some (.direct (i + 1)))
  | .dind => (s, callFree true (s.zone 8), some .finish)
  | .finish =>
    ({ s with zone := Function.update (Function.update s.zone 8 0) 7 0, size := 0, dirt := true }, [], none)

inductive Trunc
  | before
  | run (frames : List Frame) (l : Level)
  | done

def Trunc.call (s : St) : Trunc := if isReg s.mode ∨ isDir s.mode then .run [] (.direct 0) else .done

def Trunc.go (v : Vol) (s : St) : Trunc → Option (St × Trunc)
  | .before | .done => none
  | .run [] l =>
    match l.go s with
    | (s', fs, some l') => some (s', .run fs l')
    | (s', _, none) => some (s', .done)
  | .run (f :: fs) l => (f.go v s).map fun r => (r.1, .run (r.2 ++ fs) l)

def Trunc.failed (s : St) : Trunc → Option (St × Trunc)
  | .run (f :: fs) l => (f.failed s).map fun r => (r.1, .run (r.2 ++ fs) l)
  | _ => none

/-! ## Readers -/

/-- `file_read` and `block_read` at their loop tests. -/
inductive Loop
  | file (pos left : ℕ)
  | block (block off left : ℕ)

/-- Who has called `bread` or `breada`: `_bmap` for a slot in the block, `file_read`, `block_read`. -/
inductive Caller
  | bmap (p : Path) (rest : List Path) (pos left : ℕ)
  | file (pos left : ℕ)
  | block (off left : ℕ)

inductive Place
  | idle
  | loop (l : Loop)
  /-- in `getblk`; in `breada` between the blocks to read ahead, and at one of them; in the last
      `wait_on_buffer` -/
  | getblk (b : ℕ) (c : Caller)
  | ahead (b : ℕ) (bs : List ℕ) (c : Caller)
  | aheadWait (b x : ℕ) (bs : List ℕ) (c : Caller)
  | wait (b : ℕ) (c : Caller)
  /-- in `brelse`, and then at `q` -/
  | brelse (b : ℕ) (q : Place)
  /-- in `put_fs_byte` with `n` bytes to go -/
  | copy (bh : Option ℕ) (off n : ℕ) (l : Loop)

/-- `file_read` has its block, or NULL. -/
def fileCopy (bh : Option ℕ) (pos left : ℕ) : Place :=
  let n := min (1024 - pos % 1024) left
  .copy bh (pos % 1024) n (.file (pos + n) (left - n))

def blockCopy (b off left : ℕ) : Place :=
  let n := min (1024 - off) left
  .copy (some b) off n (.block (b + 1) 0 (left - n))

/-- `_bmap` has the zone of a slot, with the slots that follow. -/
def found (z : ℕ) (rest : List Path) (pos left : ℕ) : Place :=
  if z = 0 then fileCopy none pos left
  else match rest with
    | [] => .getblk z (.file pos left)
    | p :: rest => .getblk z (.bmap p rest pos left)

/-- The blocks `breada` reads ahead. -/
def Caller.aheads (b : ℕ) : Caller → List ℕ
  | .block _ _ => [b + 1, b + 2]
  | _ => []

def Caller.got (s : St) (b : ℕ) : Caller → Place
  | .bmap p rest pos left => .brelse b (found (s.mem.slot b p) rest pos left)
  | .file pos left => fileCopy (some b) pos left
  | .block off left => blockCopy b off left

/-- `bread` has returned NULL: for `_bmap` there is no block. -/
def Caller.failed : Caller → Place
  | .bmap _ _ pos left => fileCopy none pos left
  | _ => .idle

/-- A reader goes on, with the bytes for the user's buffer. -/
def Place.go (s : St) : Place → Option (St × Place × List UInt8)
  | .idle => none
  | .loop (.file pos left) =>
    if left = 0 then some (s, .idle, [])
    else if 7 + 512 + 512 * 512 ≤ pos / 1024 then none
    else match (target (pos / 1024)).route with
      | [] => none
      | p :: rest => some (s, found (s.mem.slot 0 p) rest pos left, [])
  | .loop (.block b off left) => some (s, if left = 0 then .idle else .getblk b (.block off left), [])
  | .getblk b c => some (s.getblk b, .ahead b (c.aheads b) c, [])
  | .ahead b [] c => some (s, .wait b c, [])
  | .ahead b (x :: bs) c => some (s.getblk x, .aheadWait b x bs c, [])
  | .aheadWait b x bs c => if s.lock x then none else some (s.put x, .ahead b bs c, [])
  | .wait b c => if s.lock b then none else some (s, c.got s b, [])
  | .brelse b q => if s.lock b ∨ s.count b = 0 then none else some (s.put b, q, [])
  | .copy bh off (n + 1) l => some (s, .copy bh (off + 1) n l, [match bh with | none => 0 | some b => s.block b off])
  | .copy none _ 0 l => some (s, .loop l, [])
  | .copy (some b) _ 0 l => some (s, .brelse b (.loop l), [])

def Place.failed (s : St) : Place → Option (St × Place)
  | .wait b c => if s.lock b ∨ s.count b = 0 then none else some (s.put b, c.failed)
  | _ => none

/-! ## The system -/

structure Sys (ι : Type) where
  s : St
  reader : ι → Place
  buf : ι → List UInt8
  trunc : Trunc

inductive Event (ι : Type)
  /-- a call of `file_read` or `block_read` -/
  | read (p : ι) (l : Loop)
  | go (p : ι)
  | readError (p : ι)
  | truncate
  | trunc
  | truncError
  /-- the driver locks or unlocks a buffer -/
  | lock (b : ℕ) (on : Bool)
  /-- a block is written to the disk -/
  | flush (b : ℕ)
  /-- an unused buffer gets another block -/
  | evict (b : ℕ)

variable {ι : Type} [DecidableEq ι]

inductive Sys.Step (v : Vol) : Sys ι → Event ι → Sys ι → Prop
  | read {σ : Sys ι} {p : ι} {l : Loop} : σ.reader p = .idle →
      Step v σ (.read p l)
        { σ with reader := Function.update σ.reader p (.loop l), buf := Function.update σ.buf p [] }
  | go {σ : Sys ι} {p : ι} {s' : St} {q : Place} {xs : List UInt8} : (σ.reader p).go σ.s = some (s', q, xs) →
      Step v σ (.go p) { σ with s := s', reader := Function.update σ.reader p q,
                                buf := Function.update σ.buf p (σ.buf p ++ xs) }
  | readError {σ : Sys ι} {p : ι} {s' : St} {q : Place} : (σ.reader p).failed σ.s = some (s', q) →
      Step v σ (.readError p) { σ with s := s', reader := Function.update σ.reader p q }
  | truncate {σ : Sys ι} : σ.trunc = .before → Step v σ .truncate { σ with trunc := Trunc.call σ.s }
  | trunc {σ : Sys ι} {s' : St} {t : Trunc} : σ.trunc.go v σ.s = some (s', t) →
      Step v σ .trunc { σ with s := s', trunc := t }
  | truncError {σ : Sys ι} {s' : St} {t : Trunc} : σ.trunc.failed σ.s = some (s', t) →
      Step v σ .truncError { σ with s := s', trunc := t }
  | lock {σ : Sys ι} (b : ℕ) (on : Bool) : σ.s.cached b = true →
      Step v σ (.lock b on) { σ with s := { σ.s with lock := Function.update σ.s.lock b on } }
  | flush {σ : Sys ι} (b : ℕ) :
      Step v σ (.flush b) { σ with s := { σ.s with disk := Function.update σ.s.disk b (σ.s.block b) } }
  | evict {σ : Sys ι} {b : ℕ} : σ.s.count b = 0 → σ.s.lock b = false → σ.s.disk b = σ.s.block b →
      Step v σ (.evict b) { σ with s := { σ.s with cached := Function.update σ.s.cached b false } }

/-- A block without a buffer is as on the disk, and nobody holds it. -/
def St.Cached (s : St) : Prop := ∀ b, s.cached b = false → s.count b = 0 ∧ s.block b = s.disk b

/-- One truncation and the readers `ι`, from `s₀` on. -/
def truncSystem (v : Vol) (ι : Type) [DecidableEq ι] (s₀ : St) : Lts (Sys ι) (Event ι) where
  init σ := σ.s = s₀ ∧ s₀.Cached ∧ (∀ p, σ.reader p = .idle) ∧ σ.trunc = .before
  step := Sys.Step v

/-- All calls have ended. -/
def Sys.Finished (σ : Sys ι) : Prop := σ.trunc = .done ∧ ∀ p, σ.reader p = .idle

end Linux011.Fs.Truncate

/-
  fs/buffer.c with its pointers: `b_prev`, `b_next`, `b_prev_free` and `b_next_free` of every buffer
  head, `hash_table` and `free_list`, as `buffer_init` sets them and as `remove_from_queues` and
  `insert_into_queues` change them. The rest of the cache is as before, and the processes are those
  of the lists: what they do is decided by the lists that the loops of the code come through.

  A pointer to a buffer head is its number from `start_buffer` on, or `none` for NULL. A store
  through NULL changes nothing here, but it is counted.
-/
import Linux011.Lib.Doubly
import Linux011.Fs.Procs

namespace Linux011.Fs

open Linux011.Lib

/-! ## The pointers -/

structure Queues where
  prev : ℕ → Option ℕ
  next : ℕ → Option ℕ
  prevFree : ℕ → Option ℕ
  nextFree : ℕ → Option ℕ
  hash : ℕ → Option ℕ
  freeList : Option ℕ
  /-- how often a field of NULL has been read or stored -/
  null : ℕ

namespace Queues

/-- `p` is followed to a field. -/
def follow (q : Queues) (p : Option ℕ) : Queues := if p = none then { q with null := q.null + 1 } else q

/-- `p->b_prev = v` -/
def setPrev (q : Queues) (p v : Option ℕ) : Queues := { q.follow p with prev := setAt q.prev p v }

/-- `p->b_next = v` -/
def setNext (q : Queues) (p v : Option ℕ) : Queues := { q.follow p with next := setAt q.next p v }

/-- `p->b_prev_free = v` -/
def setPrevFree (q : Queues) (p v : Option ℕ) : Queues := { q.follow p with prevFree := setAt q.prevFree p v }

/-- `p->b_next_free = v` -/
def setNextFree (q : Queues) (p v : Option ℕ) : Queues := { q.follow p with nextFree := setAt q.nextFree p v }

/-- `remove_from_queues` for a buffer of this device and block. `none` is the panic. -/
def removeFromQueues (q : Queues) (bh dev blocknr : ℕ) : Option Queues :=
  -- remove from hash-queue
  let q := if q.next bh ≠ none then q.setPrev (q.next bh) (q.prev bh) else q
  let q := if q.prev bh ≠ none then q.setNext (q.prev bh) (q.next bh) else q
  let q := if q.hash (hashfn dev blocknr) = some bh then
      { q with hash := Function.update q.hash (hashfn dev blocknr) (q.next bh) } else q
  -- remove from free list
  if q.prevFree bh = none ∨ q.nextFree bh = none then none
  else
    let q := q.setNextFree (q.prevFree bh) (q.nextFree bh)
    let q := q.setPrevFree (q.nextFree bh) (q.prevFree bh)
    some (if q.freeList = some bh then { q with freeList := q.nextFree bh } else q)

/-- `insert_into_queues` -/
def insertIntoQueues (q : Queues) (bh dev blocknr : ℕ) : Queues :=
  -- put at end of free list
  let q := q.setNextFree (some bh) q.freeList
  let q := (q.follow q.freeList).setPrevFree (some bh) (q.freeList.bind q.prevFree)
  let q := (q.follow q.freeList).setNextFree (q.freeList.bind q.prevFree) (some bh)
  let q := q.setPrevFree q.freeList (some bh)
  -- put the buffer in new hash-queue if it has a device
  let q := q.setPrev (some bh) none
  let q := q.setNext (some bh) none
  if dev = 0 then q
  else
    let q := q.setNext (some bh) (q.hash (hashfn dev blocknr))
    let q := { q with hash := Function.update q.hash (hashfn dev blocknr) (some bh) }
    -- `b_next` is NULL if the chain was empty
    q.setPrev (q.next bh) (some bh)

/-- The buffers that `for (tmp = p; tmp != NULL; tmp = tmp->b_next)` comes to, `n` at most. -/
def chain (q : Queues) : ℕ → Option ℕ → List ℕ
  | n + 1, some tmp => tmp :: chain q n (q.next tmp)
  | _, _ => []

/-- The buffers that `do { .. } while ((tmp = tmp->b_next_free) != free_list)` comes to, `n` at most. -/
def round (q : Queues) : ℕ → Option ℕ → List ℕ
  | n + 1, some tmp => tmp :: if q.nextFree tmp = q.freeList then [] else round q n (q.nextFree tmp)
  | _, _ => []

/-- The loop of `find_buffer` at `tmp`, when it ends within `n` tests. -/
def findBuffer (q : Queues) (buf : ℕ → Buf) (dev block : ℕ) : ℕ → Option ℕ → Option (Option ℕ)
  | 0, _ => none
  | _ + 1, none => some none
  | n + 1, some tmp =>
    if (buf tmp).dev = dev ∧ (buf tmp).blocknr = block then some (some tmp)
    else findBuffer q buf dev block n (q.next tmp)

/-- What the loop of `buffer_init` stores into the pointers of one head. -/
def initHead (q : Queues) (h : ℕ) : Queues :=
  { q with
    next := Function.update q.next h none
    prev := Function.update q.prev h none
    prevFree := Function.update q.prevFree h (some (h - 1))
    nextFree := Function.update q.nextFree h (some (h + 1)) }

/-- `sizeof (struct buffer_head)` -/
def headSize : ℕ := 36

/-- The loop of `buffer_init`: head `h` takes the block below `b`, while there is room for both. Blocks
    skip the memory from 640K to 1M. -/
def initLoop (startBuffer : ℕ) : ℕ → ℕ → ℕ → Queues → ℕ × Queues
  | 0, _, h, q => (h, q)
  | n + 1, b, h, q =>
    let b := b - 1024
    if startBuffer + headSize * (h + 1) ≤ b then
      initLoop startBuffer n (if b = 0x100000 then 0xA0000 else b) (h + 1) (q.initHead h)
    else (h, q)

end Queues

/-! ## The buffer heads -/

/-- The cache with its pointers. -/
structure Heads where
  n : ℕ
  buf : ℕ → Buf
  q : Queues
  req : List Req
  disk : ℕ → ℕ → ℕ → ℕ
  driver : ℕ → Bool
  /-- the buffers that `getblk` has assigned, the last one first; the code has no such list -/
  assigned : List ℕ

namespace Heads

/-- The cache as the loops of the code come through it. -/
def lists (m : Heads) : Cache where
  n := m.n
  buf := m.buf
  hash k := m.q.chain m.n (m.q.hash k)
  free := m.q.round m.n m.q.freeList
  req := m.req
  disk := m.disk
  driver := m.driver

def setBuf (m : Heads) (i : ℕ) (f : Buf → Buf) : Heads :=
  { m with buf := Function.update m.buf i (f (m.buf i)) }

/-- The end of `getblk`: the buffer becomes that of `(dev, block)`. -/
def reassign (m : Heads) (i dev block : ℕ) : Option Heads :=
  let m := m.setBuf i fun b => { b with count := 1, dirt := false, uptodate := false }
  (m.q.removeFromQueues i (m.buf i).dev (m.buf i).blocknr).map fun q =>
    let m := m.setBuf i fun b => { b with dev := dev, blocknr := block }
    { m with q := q.insertIntoQueues i (m.buf i).dev (m.buf i).blocknr, assigned := i :: m.assigned }

/-- What is not a pointer is as in `c`. -/
def withCache (m : Heads) (c : Cache) : Heads := { m with buf := c.buf, req := c.req, disk := c.disk }

def act (m : Heads) : Action → Option Heads
  | .reassign i dev block => m.reassign i dev block
  | x => some (m.withCache (m.lists.act x))

/-- Where the blocks end: below the screen, when there is 1M for the buffers. -/
def blocksEnd (bufferEnd : ℕ) : ℕ := if bufferEnd = 1 <<< 20 then 640 * 1024 else bufferEnd

/-- `buffer_init`, in memory with these contents. -/
def bufferInit (startBuffer bufferEnd : ℕ) (memory : ℕ → Buf) (q : Queues) (disk : ℕ → ℕ → ℕ → ℕ)
    (driver : ℕ → Bool) : Heads :=
  let (n, q) := q.initLoop startBuffer bufferEnd (blocksEnd bufferEnd) 0
  { n := n
    buf := fun i => { memory i with dev := 0, dirt := false, count := 0, lock := false, uptodate := false }
    q := { q with
      freeList := some 0
      prevFree := Function.update q.prevFree 0 (some (n - 1))
      nextFree := Function.update q.nextFree (n - 1) (some 0)
      hash := fun _ => none
      null := 0 }
    req := []
    disk := disk
    driver := driver
    assigned := [] }

end Heads

/-! ## The system -/

structure HeadSys (ι : Type) where
  m : Heads
  stack : ι → List Frame
  cur : ι

variable {ι : Type} [DecidableEq ι]

/-- The events of the processes and the driver, on the cache with its pointers. -/
inductive HeadSys.Step : HeadSys ι → Event ι → HeadSys ι → Prop
  | run {σ : HeadSys ι} {a : Act} {x : Action} {st : List Frame} {m' : Heads} :
      exec σ.m.lists (σ.stack σ.cur) a = some (x, st) → σ.m.act x = some m' →
      Step σ (.run a) { σ with m := m', stack := Function.update σ.stack σ.cur st }
  | switch {σ : HeadSys ι} {p : ι} {f : Frame} {st : List Frame} :
      σ.stack σ.cur = f :: st → f.Sleeps σ.m.lists → Step σ (.switch p) { σ with cur := p }
  | sector {σ : HeadSys ι} {k : ℕ} {c' : Cache} :
      σ.m.lists.sector k = some c' → Step σ (.sector k) { σ with m := σ.m.withCache c' }
  | endRequest {σ : HeadSys ι} {k : ℕ} {uptodate : Bool} {c' : Cache} :
      σ.m.lists.endRequest k uptodate = some c' → Step σ (.endRequest k uptodate) { σ with m := σ.m.withCache c' }

/-- The processes `ι` after `buffer_init`. -/
def headSystem (ι : Type) [DecidableEq ι] (startBuffer bufferEnd : ℕ) : Lts (HeadSys ι) (Event ι) where
  init σ := (∃ memory q disk driver, σ.m = Heads.bufferInit startBuffer bufferEnd memory q disk driver) ∧
    ∀ p, σ.stack p = [.work []]
  step := HeadSys.Step

end Linux011.Fs

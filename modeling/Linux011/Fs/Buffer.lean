/-
  fs/buffer.c and kernel/blk_drv/ll_rw_blk.c: the buffer heads, the hash chains, the free list,
  the request list and the disk, with the elementary changes the code makes to them.

  Buffers are numbered from `start_buffer`. The pointer chains `b_next`/`b_prev` and
  `b_next_free`/`b_prev_free` are lists of buffer numbers; the free list starts at `free_list`.
  `b_count` is an `unsigned char`, hence the `% 256`. A block has 1024 bytes, moved by the
  driver in two sectors. A request is kept with the number of sectors already moved; the
  elevator order of a device's requests is left open (any of them may be the next), and so are
  `b_wait`, `buffer_wait` and `wait_for_request`, which only say who is woken.
-/
import Linux011.Lib.Sizes
import Mathlib.Logic.Function.Basic
import Mathlib.Tactic.Common

namespace Linux011.Fs

/-! ## Buffers -/

structure Buf where
  dev : Nat
  blocknr : Nat
  uptodate : Bool
  dirt : Bool
  count : Nat
  lock : Bool
  data : Nat → Nat

/-- A reference to buffer `i`, obtained as block `block` of device `dev`. -/
structure Ref where
  i : Nat
  dev : Nat
  block : Nat
  deriving DecidableEq, Repr

/-- A request for the driver: two sectors between buffer `i` and block `block` of `dev`. -/
structure Req where
  slot : Nat
  dev : Nat
  block : Nat
  write : Bool
  i : Nat
  done : Nat

structure Cache where
  n : Nat
  buf : Nat → Buf
  hash : Nat → List Nat
  free : List Nat
  req : List Req
  disk : Nat → Nat → Nat → Nat
  /-- `blk_dev[major].request_fn` is set -/
  driver : Nat → Bool

def nrHash : Nat := 307
def nrRequest : Nat := 32
def nrBlkDev : Nat := 7

/-- `_hashfn`. -/
def hashfn (dev block : Nat) : Nat := (dev ^^^ block) % nrHash

namespace Cache

def setBuf (c : Cache) (i : Nat) (f : Buf → Buf) : Cache :=
  { c with buf := Function.update c.buf i (f (c.buf i)) }

/-- `find_buffer`. -/
def findBuffer (c : Cache) (dev block : Nat) : Option Nat :=
  (c.hash (hashfn dev block)).find? fun i => (c.buf i).dev = dev ∧ (c.buf i).blocknr = block

/-- `BADNESS(bh)`. -/
def badness (c : Cache) (i : Nat) : Nat := 2 * (c.buf i).dirt.toNat + (c.buf i).lock.toNat

/-- The loop of `getblk` over the free list: the first unused buffer of least badness. -/
def pick (c : Cache) (bh : Option Nat) : List Nat → Option Nat
  | [] => bh
  | tmp :: l =>
    if (c.buf tmp).count ≠ 0 then pick c bh l
    else if (bh.all fun b => c.badness tmp < c.badness b) then
      if c.badness tmp = 0 then some tmp else pick c (some tmp) l
    else pick c bh l

/-- `remove_from_queues`. -/
def removeFromQueues (c : Cache) (i : Nat) : Cache :=
  let h := hashfn (c.buf i).dev (c.buf i).blocknr
  { c with hash := Function.update c.hash h ((c.hash h).erase i), free := c.free.erase i }

/-- `insert_into_queues`: at the end of the free list, and in front of the hash chain if the
    buffer has a device. -/
def insertIntoQueues (c : Cache) (i : Nat) : Cache :=
  let c := { c with free := c.free ++ [i] }
  if (c.buf i).dev = 0 then c
  else
    let h := hashfn (c.buf i).dev (c.buf i).blocknr
    { c with hash := Function.update c.hash h (i :: c.hash h) }

/-- The end of `getblk`: the buffer becomes that of `(dev, block)`. -/
def reassign (c : Cache) (i dev block : Nat) : Cache :=
  let c := c.setBuf i fun b => { b with count := 1, dirt := false, uptodate := false }
  let c := c.removeFromQueues i
  let c := c.setBuf i fun b => { b with dev := dev, blocknr := block }
  c.insertIntoQueues i

/-! ## Requests -/

/-- The search for an empty request: the last of the first `n` slots that is not in use. -/
def findSlot (c : Cache) : Nat → Option Nat
  | 0 => none
  | k + 1 => if c.req.any fun r => r.slot = k then findSlot c k else some k

/-- The slots `make_request` may use: the last third is only for reads. -/
def slotLimit (write : Bool) : Nat := if write then nrRequest * 2 / 3 else nrRequest

/-- `add_request` for a filled request: the buffer is no longer dirty. -/
def addRequest (c : Cache) (slot : Nat) (write : Bool) (i : Nat) : Cache :=
  let b := c.buf i
  { c with
    buf := Function.update c.buf i { b with dirt := false }
    req := ⟨slot, b.dev, b.blocknr, write, i, 0⟩ :: c.req }

/-- The driver moves the next sector of a request. -/
def moveSector (c : Cache) (r : Req) : Cache :=
  let inSector := fun j => 512 * r.done ≤ j ∧ j < 512 * (r.done + 1)
  if r.write then
    let blk := fun j => if inSector j then (c.buf r.i).data j else c.disk r.dev r.block j
    { c with disk := Function.update c.disk r.dev (Function.update (c.disk r.dev) r.block blk) }
  else
    c.setBuf r.i fun b =>
      { b with data := fun j => if inSector j then c.disk r.dev r.block j else b.data j }

/-- Sector number `done` of request number `m` is moved. -/
def sector (c : Cache) (m : Nat) : Option Cache :=
  match c.req[m]? with
  | none => none
  | some r =>
    if r.done < 2 then
      some { c.moveSector r with req := c.req.set m { r with done := r.done + 1 } }
    else none

/-- `end_request(uptodate)` for request number `m`, after both sectors or after an error. -/
def endRequest (c : Cache) (m : Nat) (uptodate : Bool) : Option Cache :=
  match c.req[m]? with
  | none => none
  | some r =>
    if r.done = 2 ∨ uptodate = false then
      some { c.setBuf r.i fun b => { b with uptodate := uptodate, lock := false } with
        req := c.req.eraseIdx m }
    else none

end Cache

/-! ## Elementary changes -/

/-- What one stretch of kernel code between two sleeping points does to the cache. -/
inductive Action where
  | skip
  | inc (i : Nat)
  | dec (i : Nat)
  | reassign (i dev block : Nat)
  | lock (i : Nat)
  | unlock (i : Nat)
  | addRequest (slot : Nat) (write : Bool) (i : Nat)
  | setDirt (i : Nat)
  | poke (i j v : Nat)
  /-- file system code writes into the block and sets `b_dirt`; for a new block also
      `b_uptodate` -/
  | modify (i : Nat) (data : Nat → Nat) (fresh : Bool)

def Cache.act (c : Cache) : Action → Cache
  | .skip => c
  | .inc i => c.setBuf i fun b => { b with count := (b.count + 1) % 256 }
  | .dec i => c.setBuf i fun b => { b with count := (b.count + 255) % 256 }
  | .reassign i dev block => c.reassign i dev block
  | .lock i => c.setBuf i fun b => { b with lock := true }
  | .unlock i => c.setBuf i fun b => { b with lock := false }
  | .addRequest slot write i => c.addRequest slot write i
  | .setDirt i => c.setBuf i fun b => { b with dirt := true }
  | .poke i j v => c.setBuf i fun b => { b with data := Function.update b.data j (v % 256) }
  | .modify i data fresh => c.setBuf i fun b =>
      { b with data := data, dirt := true, uptodate := b.uptodate || fresh }

/-- `buffer_init` with `n` buffers; block numbers and contents are what was in memory. -/
def bufferInit (n : Nat) (memory : Nat → Buf) (disk : Nat → Nat → Nat → Nat)
    (driver : Nat → Bool) : Cache where
  n := n
  buf i := { memory i with dev := 0, dirt := false, count := 0, lock := false, uptodate := false }
  hash _ := []
  free := List.range n
  req := []
  disk := disk
  driver := driver

end Linux011.Fs

/-
  The processes that use the buffer cache. A process is a stack of frames, the top one first;
  a frame is a place in buffer.c, ll_rw_blk.c or file_dev.c with its local variables. One step
  runs the code of the top frame to the next place; it makes at most one elementary change
  (`Action`). Another process runs only when the current one sleeps: in `wait_on_buffer` and
  `lock_buffer` while the buffer is locked, on `buffer_wait`, on `wait_for_request`, at a page
  fault in the copy loop of `file_write`, or outside this code. I/O interrupts come at any time.

  `work` is any other kernel code: it holds references, calls the functions of buffer.c in any
  order, and changes blocks it holds, setting `b_dirt` with the change. It stands for the
  callers at the bottom of the stack, and for `sync_inodes` and `create_block` in the middle.
  It also serves a page fault. A `panic` stops the machine: the step does not exist.
-/
import Linux011.Lib.Trans
import Linux011.Fs.Buffer

namespace Linux011.Fs

open Linux011.Lib

inductive Rw where
  | read
  | write
  | reada
  | writea
  deriving DecidableEq, Repr

inductive Frame where
  /-- kernel code outside, with the references it holds -/
  | work (held : List Ref)
  /-- a function returns a buffer or NULL -/
  | ret (v : Option Ref)
  /-- `get_hash_table` at `find_buffer`, and in `wait_on_buffer` -/
  | getHash (dev block : Nat)
  | getHashWait (r : Ref)
  /-- `getblk` in `get_hash_table`, asleep on `buffer_wait`, in `wait_on_buffer` -/
  | getblk (dev block : Nat)
  | getblkSleep (dev block : Nat)
  | getblkWait (dev block i : Nat)
  /-- `sync_dev` in one of its loops, at buffer `i` and in `wait_on_buffer` -/
  | syncDev (dev : Nat) (second : Bool) (i : Nat)
  | syncDevWait (dev : Nat) (second : Bool) (i : Nat)
  | sysSync (i : Nat)
  | sysSyncWait (i : Nat)
  /-- `ll_rw_block`, and `make_request` in `lock_buffer` and at `repeat` -/
  | llRw (rw : Rw) (i : Nat)
  | lockBuffer (write ahead : Bool) (i : Nat)
  | request (write ahead : Bool) (i : Nat)
  /-- `bread` in `getblk`, and `bread` or `breada` in the last `wait_on_buffer` -/
  | bread
  | breadWait (r : Ref)
  /-- `breada` in its first `getblk`, in its loop, in the `getblk` of the loop, and before
      `tmp->b_count--` -/
  | breada (rest : List Nat)
  | breadaNext (r : Ref) (rest : List Nat)
  | breadaGot (r : Ref) (rest : List Nat)
  | breadaDrop (r tmp : Ref) (rest : List Nat)
  | brelse (r : Ref)
  /-- `file_write` at the loop test, after `create_block`, in `bread`, and in the copy loop -/
  | fileWrite (dev pos : Nat) (buf : List Nat)
  | fileCreate (dev pos : Nat) (buf : List Nat)
  | fileRead (dev pos : Nat) (buf : List Nat)
  | fileCopy (r : Ref) (off : Nat) (chunk : List Nat) (dev pos : Nat) (buf : List Nat)

/-- What the top frame does: it goes on, or `work` chooses a call. -/
inductive Act where
  | go
  | getblk (dev block : Nat)
  | getHashTable (dev block : Nat)
  | bread (dev block : Nat)
  | breada (dev first : Nat) (rest : List Nat)
  | brelse (r : Ref)
  | syncDev (dev : Nat)
  | sysSync
  | modify (r : Ref) (data : Nat → Nat) (fresh : Bool)
  | fileWrite (dev pos : Nat) (buf : List Nat)
  /-- `sync_inodes` or `create_block` ends -/
  | done
  /-- `create_block` has returned this block, or 0 -/
  | found (block : Nat)
  | full
  /-- `get_fs_byte` faults; the fault is served by other code -/
  | pageFault

/-! ## One step of a process -/

/-- A call of `getblk`, from its start or from `repeat`. -/
def callGetblk (dev block : Nat) (st : List Frame) : List Frame :=
  .getHash dev block :: .getblk dev block :: st

/-- The choices of `work`. Devices are `unsigned short`s. -/
def workStep (c : Cache) (held : List Ref) (st : List Frame) : Act → Option (Action × List Frame)
  | .getblk dev block =>
    if dev < 65536 then some (.skip, callGetblk dev block (.work held :: st)) else none
  | .getHashTable dev block => some (.skip, .getHash dev block :: .work held :: st)
  | .bread dev block =>
    if dev < 65536 then some (.skip, callGetblk dev block (.bread :: .work held :: st)) else none
  | .breada dev first rest =>
    if dev < 65536 then some (.skip, callGetblk dev first (.breada rest :: .work held :: st))
    else none
  | .brelse r =>
    if r ∈ held then some (.skip, .brelse r :: .work (held.erase r) :: st) else none
  | .syncDev dev => some (.skip, .syncDev dev false 0 :: .work held :: st)
  | .sysSync => some (.skip, .work [] :: .sysSync 0 :: .work held :: st)
  | .modify r data fresh =>
    if r ∈ held ∧ ((c.buf r.i).uptodate = true ∨ fresh = true) then
      some (.modify r.i data fresh, .work held :: st)
    else none
  | .fileWrite dev pos buf =>
    if dev < 65536 then some (.skip, .fileWrite dev pos buf :: .work held :: st) else none
  | .done => if held = [] ∧ st ≠ [] then some (.skip, st) else none
  | _ => none

/-- A value is returned to the frame that called. `bread` and `breada` panic on NULL. -/
def deliver (c : Cache) (v : Option Ref) (f : Frame) (st : List Frame) :
    Option (Action × List Frame) :=
  match f, v with
  | .work held, v => some (.skip, .work (v.toList ++ held) :: st)
  | .getblk _ _, some r => some (.skip, .ret (some r) :: st)
  | .getblk dev block, none =>
    match c.pick none c.free with
    | none => some (.skip, .getblkSleep dev block :: st)
    | some i => some (.skip, .getblkWait dev block i :: st)
  | .bread, some r =>
    if (c.buf r.i).uptodate then some (.skip, .ret (some r) :: st)
    else some (.skip, .llRw .read r.i :: .breadWait r :: st)
  | .breada rest, some r =>
    if (c.buf r.i).uptodate then some (.skip, .breadaNext r rest :: st)
    else some (.skip, .llRw .read r.i :: .breadaNext r rest :: st)
  | .breadaGot r rest, none => some (.skip, .breadaNext r rest :: st)
  | .breadaGot r rest, some tmp =>
    -- the read-ahead names `bh`, not `tmp`
    if (c.buf tmp.i).uptodate then some (.skip, .breadaDrop r tmp rest :: st)
    else some (.skip, .llRw .reada r.i :: .breadaDrop r tmp rest :: st)
  | .fileRead _ _ _, none => some (.skip, st)
  | .fileRead dev pos buf, some r =>
    -- `bh->b_dirt = 1` comes before the copy
    let n := min (1024 - pos % 1024) buf.length
    some (.setDirt r.i, .fileCopy r (pos % 1024) (buf.take n) dev (pos + n) (buf.drop n) :: st)
  | _, _ => none

/-- `make_request` from `lock_buffer` on, with the buffer unlocked. -/
def lockStep (c : Cache) (write ahead : Bool) (i : Nat) (st : List Frame) : Action × List Frame :=
  if (write = true ∧ (c.buf i).dirt = false) ∨ (write = false ∧ (c.buf i).uptodate = true) then
    (.skip, st)
  else (.lock i, .request write ahead i :: st)

/-- `getblk` after `wait_on_buffer(bh)`, up to the next place it may sleep. -/
def getblkStep (c : Cache) (dev block i : Nat) (st : List Frame) : Action × List Frame :=
  if (c.buf i).count ≠ 0 then (.skip, callGetblk dev block st)
  else if (c.buf i).dirt then
    (.skip, .syncDev (c.buf i).dev false 0 :: .getblkWait dev block i :: st)
  else if (c.findBuffer dev block).isSome then (.skip, callGetblk dev block st)
  else (.reassign i dev block, .ret (some ⟨i, dev, block⟩) :: .getblk dev block :: st)

/-- `ll_rw_block`. -/
def llRwStep (c : Cache) (rw : Rw) (i : Nat) (st : List Frame) : Action × List Frame :=
  let major := (c.buf i).dev / 256
  let ahead := rw = .reada ∨ rw = .writea
  if nrBlkDev ≤ major ∨ c.driver major = false then (.skip, st)
  else if ahead ∧ (c.buf i).lock = true then (.skip, st)
  else (.skip, .lockBuffer (rw = .write ∨ rw = .writea) ahead i :: st)

/-- The code of the top frame goes on. `none` when the process sleeps or the kernel panics. -/
def goStep (c : Cache) (st : List Frame) : Frame → Option (Action × List Frame)
  | .ret v => match st with
    | [] => none
    | f :: st => deliver c v f st
  | .getHash dev block => match c.findBuffer dev block with
    | none => some (.skip, .ret none :: st)
    | some i => some (.inc i, .getHashWait ⟨i, dev, block⟩ :: st)
  | .getHashWait r =>
    if (c.buf r.i).lock then none
    else if (c.buf r.i).dev = r.dev ∧ (c.buf r.i).blocknr = r.block then
      some (.skip, .ret (some r) :: st)
    else some (.dec r.i, .getHash r.dev r.block :: st)
  | .getblkSleep dev block => some (.skip, callGetblk dev block st)
  | .getblkWait dev block i =>
    if (c.buf i).lock then none else some (getblkStep c dev block i st)
  | .syncDev dev second i =>
    if c.n ≤ i then
      if second then some (.skip, st) else some (.skip, .work [] :: .syncDev dev true 0 :: st)
    else if (c.buf i).dev ≠ dev then some (.skip, .syncDev dev second (i + 1) :: st)
    else some (.skip, .syncDevWait dev second i :: st)
  | .syncDevWait dev second i =>
    if (c.buf i).lock then none
    else if (c.buf i).dev = dev ∧ (c.buf i).dirt = true then
      some (.skip, .llRw .write i :: .syncDev dev second (i + 1) :: st)
    else some (.skip, .syncDev dev second (i + 1) :: st)
  | .sysSync i => if c.n ≤ i then some (.skip, st) else some (.skip, .sysSyncWait i :: st)
  | .sysSyncWait i =>
    if (c.buf i).lock then none
    else if (c.buf i).dirt then some (.skip, .llRw .write i :: .sysSync (i + 1) :: st)
    else some (.skip, .sysSync (i + 1) :: st)
  | .llRw rw i => some (llRwStep c rw i st)
  | .lockBuffer write ahead i =>
    if (c.buf i).lock then none else some (lockStep c write ahead i st)
  | .request write ahead i => match c.findSlot (Cache.slotLimit write) with
    | some k => some (.addRequest k write i, st)
    | none => if ahead then some (.unlock i, st) else none
  | .breadWait r =>
    if (c.buf r.i).lock then none
    else if (c.buf r.i).uptodate then some (.skip, .ret (some r) :: st)
    else some (.skip, .brelse r :: .ret none :: st)
  | .breadaNext r [] => some (.skip, .breadWait r :: st)
  | .breadaNext r (b :: rest) => some (.skip, callGetblk r.dev b (.breadaGot r rest :: st))
  | .breadaDrop r tmp rest => some (.dec tmp.i, .breadaNext r rest :: st)
  | .brelse r =>
    if (c.buf r.i).lock then none
    else if (c.buf r.i).count = 0 then none
    else some (.dec r.i, st)
  | .fileWrite dev pos buf =>
    if buf = [] then some (.skip, st)
    else some (.skip, .work [] :: .fileCreate dev pos buf :: st)
  | .fileCopy r _ [] dev pos buf => some (.skip, .brelse r :: .fileWrite dev pos buf :: st)
  | .fileCopy r off (v :: vs) dev pos buf =>
    some (.poke r.i off v, .fileCopy r (off + 1) vs dev pos buf :: st)
  | _ => none

/-- One step of the process with the given stack; `none` also when the choice does not belong
    to the top frame. -/
def exec (c : Cache) : List Frame → Act → Option (Action × List Frame)
  | .work held :: st, a => workStep c held st a
  | .fileCreate dev pos buf :: st, .found block =>
    some (.skip, callGetblk dev block (.bread :: .fileRead dev pos buf :: st))
  | .fileCreate _ _ _ :: st, .full => some (.skip, st)
  | .fileCopy r off (v :: vs) dev pos buf :: st, .pageFault =>
    some (.skip, .work [] :: .fileCopy r off (v :: vs) dev pos buf :: st)
  | f :: st, .go => goStep c st f
  | _, _ => none

/-- The process with this top frame may be asleep. -/
def Frame.Sleeps (c : Cache) : Frame → Prop
  | .work _ | .getblkSleep _ _ => True
  | .getHashWait r | .breadWait r | .brelse r => (c.buf r.i).lock = true
  | .getblkWait _ _ i | .syncDevWait _ _ i | .sysSyncWait i | .lockBuffer _ _ i =>
    (c.buf i).lock = true
  | .request write ahead _ => ahead = false ∧ c.findSlot (Cache.slotLimit write) = none
  | .fileCopy _ _ chunk _ _ _ => chunk ≠ []
  | _ => False

/-! ## The system -/

structure Sys (ι : Type) where
  c : Cache
  stack : ι → List Frame
  cur : ι

inductive Event (ι : Type) where
  | run (a : Act)
  | switch (p : ι)
  | sector (m : Nat)
  | endRequest (m : Nat) (uptodate : Bool)

variable {ι : Type} [DecidableEq ι]

/-- One event: the current process goes on, another one is scheduled, or the driver moves a
    sector or ends a request. -/
inductive Sys.Step : Sys ι → Event ι → Sys ι → Prop
  | run {σ : Sys ι} {a : Act} {x : Action} {st : List Frame} :
      exec σ.c (σ.stack σ.cur) a = some (x, st) →
      Step σ (.run a) { σ with c := σ.c.act x, stack := Function.update σ.stack σ.cur st }
  | switch {σ : Sys ι} {p : ι} {f : Frame} {st : List Frame} :
      σ.stack σ.cur = f :: st → f.Sleeps σ.c → Step σ (.switch p) { σ with cur := p }
  | sector {σ : Sys ι} {m : Nat} {c' : Cache} :
      σ.c.sector m = some c' → Step σ (.sector m) { σ with c := c' }
  | endRequest {σ : Sys ι} {m : Nat} {uptodate : Bool} {c' : Cache} :
      σ.c.endRequest m uptodate = some c' → Step σ (.endRequest m uptodate) { σ with c := c' }

/-- The processes `ι` on a cache of `n` buffers after `buffer_init`. -/
def procSystem (ι : Type) [DecidableEq ι] (n : Nat) : Lts (Sys ι) (Event ι) where
  init σ := (∃ memory disk driver, σ.c = bufferInit n memory disk driver) ∧
    ∀ p, σ.stack p = [.work []]
  step := Sys.Step

end Linux011.Fs

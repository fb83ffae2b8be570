/-
  kernel/blk_drv: the request table, the queues of the devices, `add_request` and the ends of a
  request in blk.h and hd.c.

  The queues are linked through `next` in the table, as in the source; `Queued` says what lists
  they are. `waiting` is always NULL and left out, and so is `buffer`, which follows `bh`, and
  `errors`, which decides when a driver gives up: a driver may end its request at any time.
  `locks` and `unlocks` count, for the proofs only, how often a buffer has been locked and
  `unlock_buffer` called on it.
-/
import Linux011.Lib.Linked
import Linux011.Lib.Elevator
import Linux011.Fs.Buffer
import Mathlib.Data.Fintype.Card
import Mathlib.Data.Fintype.EquivFin

namespace Linux011.Blk
open Linux011.Lib Linux011.Fs

/-- A place in `request[NR_REQUEST]`. -/
abbrev Slot := Fin 32

structure Request where
  /-- -1 if no request -/
  dev : ℤ
  /-- `cmd`: READ is below WRITE -/
  write : Bool
  sector : ℕ
  nrSectors : ℕ
  bh : ℕ
  next : Option Slot

/-- `IN_ORDER(s1,s2)` -/
def InOrder (s1 s2 : Request) : Prop :=
  s1.write < s2.write ∨ s1.write = s2.write ∧
    (s1.dev < s2.dev ∨ s1.dev = s2.dev ∧ s1.sector < s2.sector)

instance : DecidableRel InOrder := fun _ _ =>
  inferInstanceAs (Decidable (_ ∨ _ ∧ (_ ∨ _ ∧ _)))

structure Queues where
  request : Slot → Request
  /-- `blk_dev[].current_request` -/
  current : ℕ → Option Slot
  /-- whether `blk_dev[].request_fn` is set -/
  driver : ℕ → Bool
  buf : ℕ → Buf
  locks : ℕ → ℕ
  unlocks : ℕ → ℕ

namespace Queues

def setBuf (b : Queues) (i : ℕ) (f : Buf → Buf) : Queues :=
  { b with buf := Function.update b.buf i (f (b.buf i)) }

def setRequest (b : Queues) (k : Slot) (f : Request → Request) : Queues :=
  { b with request := Function.update b.request k (f (b.request k)) }

def setCurrent (b : Queues) (major : ℕ) (p : Option Slot) : Queues :=
  { b with current := Function.update b.current major p }

def next (b : Queues) (k : Slot) : Option Slot := (b.request k).next

/-- `bh->b_lock = 1` in `lock_buffer`. -/
def lockBuffer (b : Queues) (i : ℕ) : Queues :=
  { b.setBuf i fun bh => { bh with lock := true } with
    locks := Function.update b.locks i (b.locks i + 1) }

/-- `unlock_buffer`. -/
def unlockBuffer (b : Queues) (i : ℕ) : Queues :=
  { b.setBuf i fun bh => { bh with lock := false } with
    unlocks := Function.update b.unlocks i (b.unlocks i + 1) }

/-! ## Making a request -/

/-- The search for an empty request among the first `n` slots, from the last one down. -/
def findSlot (b : Queues) : ℕ → Option Slot
  | 0 => none
  | n + 1 =>
    if h : n < 32 then
      if (b.request ⟨n, h⟩).dev < 0 then some ⟨n, h⟩ else findSlot b n
    else findSlot b n

/-- `make_request` fills up the request-info. -/
def fill (b : Queues) (k : Slot) (write : Bool) (i : ℕ) : Queues :=
  b.setRequest k fun _ =>
    { dev := (b.buf i).dev, write := write, sector := (b.buf i).blocknr * 2 % 4294967296,
      nrSectors := 2, bh := i, next := none }

/-- Where the loop of `add_request` stops, in at most `n` rounds. -/
def scan (b : Queues) (k : Slot) : ℕ → Slot → Slot
  | 0, tmp => tmp
  | n + 1, tmp =>
    match b.next tmp with
    | none => tmp
    | some a =>
      if (InOrder (b.request tmp) (b.request k) ∨ ¬ InOrder (b.request tmp) (b.request a)) ∧
          InOrder (b.request k) (b.request a) then tmp
      else scan b k n a

/-- `add_request` up to `request_fn`. -/
def addRequest (b : Queues) (major : ℕ) (k : Slot) : Queues :=
  let b := b.setRequest k fun r => { r with next := none }
  let b := b.setBuf (b.request k).bh fun bh => { bh with dirt := false }
  match b.current major with
  | none => b.setCurrent major (some k)
  | some head =>
    let tmp := b.scan k 32 head
    let b := b.setRequest k fun r => { r with next := b.next tmp }
    b.setRequest tmp fun r => { r with next := some k }

/-! ## The drivers -/

/-- `end_request`, when there is a current request. -/
def endRequest (b : Queues) (major : ℕ) (uptodate : Bool) : Option Queues :=
  match b.current major with
  | none => none
  | some k =>
    let i := (b.request k).bh
    let b := (b.setBuf i fun bh => { bh with uptodate := uptodate }).unlockBuffer i
    let b := b.setRequest k fun r => { r with dev := -1 }
    some (b.setCurrent major (b.next k))

/-- `read_intr` after a good sector. -/
def readIntr (b : Queues) (major : ℕ) : Option Queues :=
  match b.current major with
  | none => none
  | some k =>
    let b := b.setRequest k fun r => { r with
      sector := (r.sector + 1) % 4294967296, nrSectors := (r.nrSectors + 4294967295) % 4294967296 }
    if (b.request k).nrSectors ≠ 0 then some b else b.endRequest major true

/-- `write_intr` after a good sector. -/
def writeIntr (b : Queues) (major : ℕ) : Option Queues :=
  match b.current major with
  | none => none
  | some k =>
    let b := b.setRequest k fun r => { r with nrSectors := (r.nrSectors + 4294967295) % 4294967296 }
    if (b.request k).nrSectors ≠ 0 then
      some (b.setRequest k fun r => { r with sector := (r.sector + 1) % 4294967296 })
    else b.endRequest major true

/-- `blk_dev_init`, with the drivers and buffers there are. -/
def init (driver : ℕ → Bool) (buf : ℕ → Buf) : Queues where
  request _ := ⟨-1, false, 0, 0, 0, none⟩
  current _ := none
  driver := driver
  buf := buf
  locks _ := 0
  unlocks _ := 0

end Queues

end Linux011.Blk

/-
  The processes in `ll_rw_block`. Another process runs only when the current one sleeps: in
  `lock_buffer` while the buffer is locked, on `wait_for_request`, or outside this code. The
  drivers' interrupts come at any time.

  `other` is all other kernel code: it changes buffers, but locks and unlocks none, and gives no
  buffer to another block while it is locked or a process has a reference to it in
  `lock_buffer` (`getblk` does so only with `b_count` and `b_lock` 0). A caller without a reference
  is `sync_dev` or `sys_sync`, which has just waited for the buffer to be unlocked.
-/
import Linux011.Lib.Trans
import Linux011.Fs.Procs
import Linux011.Blk.Request

namespace Linux011.Blk
open Linux011.Lib Linux011.Fs

/-- Where a process is in `ll_rw_block`. -/
inductive Place where
  | other
  /-- `make_request` in `lock_buffer`; `held` if the caller has a reference -/
  | lock (major : ℕ) (write ahead held : Bool) (i : ℕ)
  | locked (major : ℕ) (write ahead : Bool) (i : ℕ)
  /-- at `repeat` -/
  | again (major : ℕ) (write ahead : Bool) (i : ℕ)
  /-- the request is filled up, before `add_request` -/
  | filled (major : ℕ) (k : Slot)

inductive Act where
  | llRwBlock (rw : Rw) (i : ℕ) (held : Bool)
  | go
  | change (buf : ℕ → Buf)

def nrBlkDev : ℕ := 7

/-- The requests a read or write may use. -/
def slotLimit (write : Bool) : ℕ := if write then 32 * 2 / 3 else 32

/-- `ll_rw_block`, and `make_request` up to `lock_buffer`. -/
def llRwBlock (b : Queues) (rw : Rw) (i : ℕ) (held : Bool) : Place :=
  let major := (b.buf i).dev / 256
  let ahead := rw = .reada ∨ rw = .writea
  if nrBlkDev ≤ major ∨ b.driver major = false then .other
  else if ahead ∧ (b.buf i).lock = true then .other
  else .lock major (rw = .write ∨ rw = .writea) ahead held i

/-- The code goes on from a place; `none` when the process sleeps. -/
def goOn (b : Queues) : Place → Option (Queues × Place)
  | .other => none
  | .lock major write ahead _ i =>
    if (b.buf i).lock then none else some (b.lockBuffer i, .locked major write ahead i)
  | .locked major write ahead i =>
    if (write = true ∧ (b.buf i).dirt = false) ∨ (write = false ∧ (b.buf i).uptodate = true) then
      some (b.unlockBuffer i, .other)
    else some (b, .again major write ahead i)
  | .again major write ahead i =>
    match b.findSlot (slotLimit write) with
    | some k => some (b.fill k write i, .filled major k)
    | none => if ahead then some (b.unlockBuffer i, .other) else none
  | .filled major k => some (b.addRequest major k, .other)

/-- The process may be asleep here. -/
def Place.Sleeps (b : Queues) : Place → Prop
  | .other => True
  | .lock _ _ _ _ i => (b.buf i).lock = true
  | .again _ write ahead _ => ahead = false ∧ b.findSlot (slotLimit write) = none
  | _ => False

structure Sys (ι : Type) where
  b : Queues
  place : ι → Place
  cur : ι

inductive Event (ι : Type) where
  | run (a : Act)
  | switch (p : ι)
  | endRequest (major : ℕ) (uptodate : Bool)
  | readIntr (major : ℕ)
  | writeIntr (major : ℕ)

/-- What other code does to the buffers. -/
structure Minds {ι : Type} (σ : Sys ι) (buf : ℕ → Buf) : Prop where
  lock : ∀ i, (buf i).lock = (σ.b.buf i).lock
  dev : ∀ i, (σ.b.buf i).lock = true ∨ (∃ p m w a, σ.place p = .lock m w a true i) →
    (buf i).dev = (σ.b.buf i).dev

variable {ι : Type} [DecidableEq ι]

/-- The current process is now at another place. -/
def Sys.after (σ : Sys ι) (b : Queues) (pl : Place) : Sys ι :=
  { σ with b := b, place := Function.update σ.place σ.cur pl }

inductive Sys.Step : Sys ι → Event ι → Sys ι → Prop
  | call {σ : Sys ι} {rw : Rw} {i : ℕ} {held : Bool} :
      σ.place σ.cur = .other → (held = true ∨ (σ.b.buf i).lock = false) →
      Step σ (.run (.llRwBlock rw i held)) (σ.after σ.b (llRwBlock σ.b rw i held))
  | go {σ : Sys ι} {b : Queues} {pl : Place} :
      goOn σ.b (σ.place σ.cur) = some (b, pl) →
      Step σ (.run .go) (σ.after b pl)
  | change {σ : Sys ι} {buf : ℕ → Buf} :
      σ.place σ.cur = .other → Minds σ buf →
      Step σ (.run (.change buf)) { σ with b := { σ.b with buf := buf } }
  | switch {σ : Sys ι} {p : ι} :
      (σ.place σ.cur).Sleeps σ.b → Step σ (.switch p) { σ with cur := p }
  | endRequest {σ : Sys ι} {major : ℕ} {uptodate : Bool} {b : Queues} :
      σ.b.endRequest major uptodate = some b →
      Step σ (.endRequest major uptodate) { σ with b := b }
  | readIntr {σ : Sys ι} {major : ℕ} {b : Queues} :
      σ.b.readIntr major = some b → Step σ (.readIntr major) { σ with b := b }
  | writeIntr {σ : Sys ι} {major : ℕ} {b : Queues} :
      σ.b.writeIntr major = some b → Step σ (.writeIntr major) { σ with b := b }

/-- The processes after `blk_dev_init`, with all buffers unlocked. -/
def requestSystem (ι : Type) [DecidableEq ι] : Lts (Sys ι) (Event ι) where
  init σ := (∃ driver buf, σ.b = Queues.init driver buf) ∧ (∀ i, (σ.b.buf i).lock = false) ∧
    ∀ p, σ.place p = .other
  step := Sys.Step

end Linux011.Blk

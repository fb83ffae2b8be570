/-
  `i_lock` in fs/inode.c, over the processes of the buffer cache. A process is a stack of segments,
  the top one first. A segment is a place in inode.c and over it the frames of the buffer code
  called from there; the place goes on when no frame is left, or when the value of `bread` is.

  `other` is any other kernel code, the callers of inode.c at the bottom of the stack and in the
  middle `truncate` with the bit map half of `free_inode`. It runs on a frame `work`, calls the
  functions of buffer.c and of inode.c, and changes inodes and super blocks but not `i_lock`.
  `sync_dev` calls `sync_inodes`. Who is woken, and the times of an inode, are left out.
-/
import Linux011.Fs.Procs

namespace Linux011.Fs.Locks

open Linux011.Lib

/-! ## Tables -/

/-- `struct m_inode`; `d` are the 32 bytes of `struct d_inode`. -/
structure Inode where
  d : Nat → Nat
  dev : Nat
  num : Nat
  count : Nat
  dirt : Bool
  pipe : Bool
  mount : Bool

namespace Inode

/-- `memset(inode,0,sizeof(*inode))` -/
def zero : Inode := ⟨fun _ => 0, 0, 0, 0, false, false, false⟩

def nlinks (x : Inode) : Nat := x.d 13

def zone0 (x : Inode) : Nat := x.d 14 + 256 * x.d 15

/-- `S_ISBLK(inode->i_mode)` -/
def isBlk (x : Inode) : Bool := (x.d 0 + 256 * x.d 1) &&& 0o170000 = 0o060000

end Inode

structure Super where
  dev : Nat
  ninodes : Nat
  imapBlocks : Nat
  zmapBlocks : Nat
  imount : Option (Fin 32)
  lock : Bool

/-- `inode_table`, `super_block` and `last_inode`. `lock` is `i_lock` with the process that has
    set it. -/
structure Tables (ι : Type) where
  inode : Fin 32 → Inode
  lock : Fin 32 → Option ι
  super : Fin 8 → Super
  last : Fin 32

variable {ι : Type}

namespace Tables

def setInode (t : Tables ι) (i : Fin 32) (x : Inode) : Tables ι := { t with inode := Function.update t.inode i x }

def setLock (t : Tables ι) (i : Fin 32) (p : Option ι) : Tables ι := { t with lock := Function.update t.lock i p }

/-- `inode->i_count--` -/
def decCount (t : Tables ι) (i : Fin 32) : Tables ι :=
  t.setInode i { t.inode i with count := ((t.inode i).count + 65535) % 65536 }

/-- `memset` of an inode, the lock included. -/
def clear (t : Tables ι) (i : Fin 32) (count : Nat) : Tables ι :=
  (t.setInode i { Inode.zero with count := count }).setLock i none

/-- `get_super`, without the wait. -/
def getSuper (t : Tables ι) (dev : Nat) : Option Super :=
  if dev = 0 then none else ((List.finRange 8).find? fun k => (t.super k).dev = dev).map t.super

end Tables

/-- The block of inode `num`, and the place of its bytes there; numbers begin at 1. -/
def inodeBlock (s : Super) (num : Nat) : Nat := 2 + s.imapBlocks + s.zmapBlocks + (num - 1) / 32

def loadInode (data : Nat → Nat) (num : Nat) : Nat → Nat := fun k => data (32 * ((num - 1) % 32) + k)

def storeInode (data : Nat → Nat) (num : Nat) (d : Nat → Nat) : Nat → Nat := fun j =>
  if j / 32 = (num - 1) % 32 then d (j % 32) else data j

/-! ## Places -/

inductive Place
  | other
  /-- `sync_inodes` at inode `k` -/
  | syncInodes (k : Nat)
  /-- `read_inode` and `write_inode` in `lock_inode`, in `get_super`, in `bread`, in `brelse` -/
  | lockInode (write : Bool) (i : Fin 32)
  | getSuper (write : Bool) (i : Fin 32)
  | bread (write : Bool) (i : Fin 32)
  | brelse (i : Fin 32)
  /-- `get_empty_inode` before its search, and in `wait_on_inode` -/
  | emptyScan
  | emptyWait (i : Fin 32)
  /-- `iget` in `get_empty_inode`, in its loop at inode `k`, in `wait_on_inode`, in the `iput` of a
      mount point, and in its last call -/
  | iget (dev nr : Nat)
  | igetLoop (empty : Fin 32) (dev nr k : Nat)
  | igetWait (empty : Fin 32) (dev nr : Nat) (i : Fin 32)
  | igetMounted (empty : Fin 32) (k : Fin 8)
  | igetEnd (i : Fin 32)
  /-- `iput` in its first `wait_on_inode`, in the later ones, and in `free_inode` -/
  | iput (i : Fin 32)
  | iputAgain (i : Fin 32)
  | freeInode (i : Fin 32)
  /-- an inode is returned -/
  | ret (i : Fin 32)

/-- The inode the place waits for, in `wait_on_inode` or `lock_inode`. -/
def Place.waits : Place → Option (Fin 32)
  | .syncInodes k => if h : k < 32 then some ⟨k, h⟩ else none
  | .lockInode _ i | .emptyWait i | .igetWait _ _ _ i | .iput i | .iputAgain i => some i
  | _ => none

structure Seg where
  bufs : List Frame
  place : Place

/-- Place `q` alone. -/
def Place.seg (q : Place) : Seg := ⟨[], q⟩

/-! ## One step of a place -/

/-- `iput` from `repeat` on. -/
def iputRepeat (t : Tables ι) (st : List Seg) (i : Fin 32) : Tables ι × List Seg :=
  if 1 < (t.inode i).count then (t.decCount i, st)
  else if (t.inode i).nlinks = 0 then (t, ⟨[.work []], .other⟩ :: (Place.freeInode i).seg :: st)
  else if (t.inode i).dirt then (t, (Place.lockInode true i).seg :: (Place.iputAgain i).seg :: st)
  else (t.decCount i, st)

/-- The search of `get_empty_inode`: the first free inode that is clean and unlocked, or the last
    free one. -/
def scanEmpty (t : Tables ι) : Nat → Fin 32 → Option (Fin 32) → Option (Fin 32) × Fin 32
  | 0, last, found => (found, last)
  | n + 1, last, found =>
    if (t.inode (last + 1)).count = 0 then
      if (t.inode (last + 1)).dirt || (t.lock (last + 1)).isSome then scanEmpty t n (last + 1) (some (last + 1))
      else (some (last + 1), last + 1)
    else scanEmpty t n (last + 1) found

/-- `iget` has found inode `i`, unlocked. -/
def igetFound (t : Tables ι) (st : List Seg) (empty : Fin 32) (i : Fin 32) : Tables ι × List Seg :=
  let x := t.inode i
  let t := t.setInode i { x with count := (x.count + 1) % 65536 }
  let mounted := if x.mount then (List.finRange 8).find? fun k => (t.super k).imount = some i else none
  match mounted with
  | none => (t, (Place.iput empty).seg :: (Place.igetEnd i).seg :: st)
  | some k => (t, (Place.iput i).seg :: (Place.igetMounted empty k).seg :: st)

/-- Process `p` goes on at the place, with `st` below. `none` when it sleeps or the kernel panics. -/
def goOn (p : ι) (t : Tables ι) (st : List Seg) : Place → Option (Tables ι × List Seg)
  | .syncInodes k =>
    if h : k < 32 then
      if (t.lock ⟨k, h⟩).isSome then none
      else if (t.inode ⟨k, h⟩).dirt && !(t.inode ⟨k, h⟩).pipe then
        some (t, (Place.lockInode true ⟨k, h⟩).seg :: (Place.syncInodes (k + 1)).seg :: st)
      else some (t, (Place.syncInodes (k + 1)).seg :: st)
    else some (t, st)
  | .lockInode write i =>
    if (t.lock i).isSome then none
    else if write ∧ ((t.inode i).dirt = false ∨ (t.inode i).dev = 0) then some (t, st)
    else some (t.setLock i (some p), (Place.getSuper write i).seg :: st)
  | .getSuper write i =>
    match t.getSuper (t.inode i).dev with
    | none => none
    | some s =>
      if s.lock then none
      else some (t, ⟨callGetblk (t.inode i).dev (inodeBlock s (t.inode i).num) [.bread], .bread write i⟩ :: st)
  | .brelse i => some (t.setLock i none, st)
  | .emptyScan =>
    match scanEmpty t 32 t.last none with
    | (none, _) => none
    | (some i, last) => some ({ t with last := last }, (Place.emptyWait i).seg :: st)
  | .emptyWait i =>
    if (t.lock i).isSome then none
    else if (t.inode i).dirt then some (t, (Place.lockInode true i).seg :: (Place.emptyWait i).seg :: st)
    else if (t.inode i).count ≠ 0 then some (t, Place.emptyScan.seg :: st)
    else some (t.clear i 1, (Place.ret i).seg :: st)
  | .igetLoop empty dev nr k =>
    if h : k < 32 then
      if (t.inode ⟨k, h⟩).dev ≠ dev ∨ (t.inode ⟨k, h⟩).num ≠ nr then
        some (t, (Place.igetLoop empty dev nr (k + 1)).seg :: st)
      else some (t, (Place.igetWait empty dev nr ⟨k, h⟩).seg :: st)
    else some (t.setInode empty { t.inode empty with dev := dev, num := nr },
      (Place.lockInode false empty).seg :: (Place.igetEnd empty).seg :: st)
  | .igetWait empty dev nr i =>
    if (t.lock i).isSome then none
    else if (t.inode i).dev ≠ dev ∨ (t.inode i).num ≠ nr then some (t, (Place.igetLoop empty dev nr 0).seg :: st)
    else some (igetFound t st empty i)
  | .igetMounted empty k => some (t, (Place.igetLoop empty (t.super k).dev 1 0).seg :: st)
  | .igetEnd i => some (t, (Place.ret i).seg :: st)
  | .ret i =>
    match st with
    | ⟨[], .iget dev nr⟩ :: st => some (t, (Place.igetLoop i dev nr 0).seg :: st)
    | ⟨bufs, .other⟩ :: st => some (t, ⟨bufs, .other⟩ :: st)
    | _ => none
  | .iput i =>
    if (t.lock i).isSome then none
    else if (t.inode i).count = 0 then none
    else if (t.inode i).pipe then
      if (t.inode i).count = 1 then
        some (t.setInode i { t.inode i with count := 0, dirt := false, pipe := false }, st)
      else some (t.decCount i, st)
    else if (t.inode i).dev = 0 then some (t.decCount i, st)
    else if (t.inode i).isBlk then some (t, ⟨[.syncDev (t.inode i).zone0 false 0], .iputAgain i⟩ :: st)
    else some (iputRepeat t st i)
  | .iputAgain i => if (t.lock i).isSome then none else some (iputRepeat t st i)
  | .freeInode i =>
    if (t.inode i).dev = 0 then some (t.clear i 0, st)
    else if 1 < (t.inode i).count ∨ (t.inode i).nlinks ≠ 0 then none
    else match t.getSuper (t.inode i).dev with
      | none => none
      | some s =>
        if s.lock then none
        else if (t.inode i).num < 1 ∨ s.ninodes < (t.inode i).num then none
        else some (t.clear i 0, st)
  | .other | .bread _ _ | .iget _ _ => none

/-- What `iput` does with an inode that is in use and not locked. -/
theorem goOn_iput {p : ι} {t t' : Tables ι} {st st' : List Seg} {i : Fin 32} (h : goOn p t st (.iput i) = some (t', st')) :
    ((t.inode i).pipe = true ∧ t' = t.setInode i { t.inode i with count := 0, dirt := false, pipe := false } ∧ st' = st) ∨
    (((t.inode i).pipe = true ∨ (t.inode i).dev = 0) ∧ t' = t.decCount i ∧ st' = st) ∨
    ((t.inode i).dev ≠ 0 ∧ t' = t ∧ st' = ⟨[.syncDev (t.inode i).zone0 false 0], .iputAgain i⟩ :: st) ∨
    ((t.inode i).dev ≠ 0 ∧ iputRepeat t st i = (t', st')) := by
  dsimp only [goOn] at h
  obtain ⟨-, h⟩ := Option.ite_none_left_eq_some.mp h
  obtain ⟨-, h⟩ := Option.ite_none_left_eq_some.mp h
  by_cases hp : (t.inode i).pipe = true
  · rw [if_pos hp] at h
    by_cases h1 : (t.inode i).count = 1
    · rw [if_pos h1] at h
      cases h
      exact .inl ⟨hp, rfl, rfl⟩
    · rw [if_neg h1] at h
      cases h
      exact .inr (.inl ⟨.inl hp, rfl, rfl⟩)
  rw [if_neg hp] at h
  by_cases hd : (t.inode i).dev = 0
  · rw [if_pos hd] at h
    cases h
    exact .inr (.inl ⟨.inr hd, rfl, rfl⟩)
  rw [if_neg hd] at h
  by_cases hblk : (t.inode i).isBlk = true
  · rw [if_pos hblk] at h
    cases h
    exact .inr (.inr (.inl ⟨hd, rfl, rfl⟩))
  · rw [if_neg hblk] at h
    exact .inr (.inr (.inr ⟨hd, Option.some.inj h⟩))

/-- `read_inode` and `write_inode` with the buffer from `bread`. -/
def gotBuffer (c : Cache) (t : Tables ι) (st : List Seg) (r : Ref) : Place → Option (Action × Tables ι × List Seg)
  | .bread true i =>
    some (.modify r.i (storeInode (c.buf r.i).data (t.inode i).num (t.inode i).d) false,
      t.setInode i { t.inode i with dirt := false }, ⟨[.brelse r], .brelse i⟩ :: st)
  | .bread false i =>
    some (.skip, t.setInode i { t.inode i with d := loadInode (c.buf r.i).data (t.inode i).num },
      ⟨[.brelse r], .brelse i⟩ :: st)
  | _ => none

/-! ## The system -/

structure Sys (ι : Type) where
  c : Cache
  t : Tables ι
  stack : ι → List Seg
  cur : ι

/-- `sync_dev` or `sys_sync` calls `sync_inodes`; what is left of the frames. -/
def callsSync : List Frame → Option (List Frame)
  | .work [] :: .syncDev dev true 0 :: st => some (.syncDev dev true 0 :: st)
  | .work [] :: .sysSync 0 :: st => some (.sysSync 0 :: st)
  | _ => none

/-- The functions of inode.c that other code calls. -/
inductive Call
  | syncInodes
  | emptyInode
  | iget (dev nr : Nat)
  | iput (i : Fin 32)

def Call.segs : Call → List Seg
  | .syncInodes => [(Place.syncInodes 0).seg]
  | .emptyInode => [Place.emptyScan.seg]
  | .iget dev nr => [Place.emptyScan.seg, (Place.iget dev nr).seg]
  | .iput i => [(Place.iput i).seg]

/-- The super block of device `dev` is locked. -/
def Tables.superLocked (t : Tables ι) (dev : Nat) : Prop := ∃ s, t.getSuper dev = some s ∧ s.lock = true

/-- The process with this segment on top may be asleep. -/
def Seg.Sleeps (c : Cache) (t : Tables ι) : Seg → Prop
  | ⟨[], q⟩ => (∃ i, q.waits = some i ∧ (t.lock i).isSome) ∨
      ∃ i, ((∃ write, q = .getSuper write i) ∨ q = .freeInode i) ∧ t.superLocked (t.inode i).dev
  | ⟨f :: st, _⟩ => callsSync (f :: st) = none ∧ f.Sleeps c

inductive Event (ι : Type) where
  | frames (a : Act)
  | sync
  | place
  | value
  | call (k : Call)
  | edit (i : Fin 32) (x : Inode)
  | editSuper (k : Fin 8) (x : Super)
  | map (b : Nat) (data : Nat → Nat)
  | back
  | switch (p : ι)
  | sector (m : Nat)
  | endRequest (m : Nat) (uptodate : Bool)

variable [DecidableEq ι]

/-- The state with another stack for the running process. -/
def Sys.setTop (σ : Sys ι) (st : List Seg) : Sys ι := { σ with stack := Function.update σ.stack σ.cur st }

/-- Other code runs. -/
def Sys.Outside (σ : Sys ι) : Prop := ∃ held bufs st, σ.stack σ.cur = ⟨.work held :: bufs, .other⟩ :: st ∧
  callsSync (.work held :: bufs) = none

inductive Sys.Step : Sys ι → Event ι → Sys ι → Prop
  /-- the buffer code goes on -/
  | frames {σ : Sys ι} {bufs bufs' : List Frame} {q : Place} {st : List Seg} {a : Act} {x : Action} :
      σ.stack σ.cur = ⟨bufs, q⟩ :: st → callsSync bufs = none → exec σ.c bufs a = some (x, bufs') →
      Step σ (.frames a) { σ.setTop (⟨bufs', q⟩ :: st) with c := σ.c.act x }
  | sync {σ : Sys ι} {bufs bufs' : List Frame} {q : Place} {st : List Seg} :
      σ.stack σ.cur = ⟨bufs, q⟩ :: st → callsSync bufs = some bufs' →
      Step σ .sync (σ.setTop ((Place.syncInodes 0).seg :: ⟨bufs', q⟩ :: st))
  | place {σ : Sys ι} {q : Place} {st st' : List Seg} {t' : Tables ι} :
      σ.stack σ.cur = ⟨[], q⟩ :: st → goOn σ.cur σ.t st q = some (t', st') →
      Step σ .place { σ.setTop st' with t := t' }
  | value {σ : Sys ι} {q : Place} {st st' : List Seg} {r : Ref} {x : Action} {t' : Tables ι} :
      σ.stack σ.cur = ⟨[.ret (some r)], q⟩ :: st → gotBuffer σ.c σ.t st r q = some (x, t', st') →
      Step σ .value { σ.setTop st' with c := σ.c.act x, t := t' }
  /-- `iget` panics without a device -/
  | call {σ : Sys ι} (k : Call) : σ.Outside → (∀ nr, k ≠ .iget 0 nr) →
      Step σ (.call k) (σ.setTop (k.segs ++ σ.stack σ.cur))
  | edit {σ : Sys ι} (i : Fin 32) (x : Inode) : σ.Outside → Step σ (.edit i x) { σ with t := σ.t.setInode i x }
  | editSuper {σ : Sys ι} (k : Fin 8) (x : Super) : σ.Outside →
      Step σ (.editSuper k x) { σ with t := { σ.t with super := Function.update σ.t.super k x } }
  /-- a bit map, whose buffer its super block holds -/
  | map {σ : Sys ι} (b : Nat) (data : Nat → Nat) : σ.Outside → (σ.c.buf b).count ≠ 0 →
      Step σ (.map b data) { σ with c := σ.c.act (.modify b data false) }
  /-- `truncate` is done -/
  | back {σ : Sys ι} {s : Seg} {st : List Seg} : σ.stack σ.cur = ⟨[.work []], .other⟩ :: s :: st →
      Step σ .back (σ.setTop (s :: st))
  | switch {σ : Sys ι} {p : ι} {s : Seg} {st : List Seg} : σ.stack σ.cur = s :: st → s.Sleeps σ.c σ.t →
      Step σ (.switch p) { σ with cur := p }
  | sector {σ : Sys ι} {m : Nat} {c' : Cache} : σ.c.sector m = some c' → Step σ (.sector m) { σ with c := c' }
  | endRequest {σ : Sys ι} {m : Nat} {uptodate : Bool} {c' : Cache} :
      σ.c.endRequest m uptodate = some c' → Step σ (.endRequest m uptodate) { σ with c := c' }

/-- The processes `ι` on a cache of `n` buffers, with the tables as they are at the start. -/
def lockSystem (ι : Type) [DecidableEq ι] (n : Nat) : Lts (Sys ι) (Event ι) where
  init σ := (∃ memory disk driver, σ.c = bufferInit n memory disk driver) ∧
    σ.t.inode = (fun _ => Inode.zero) ∧ σ.t.lock = (fun _ => none) ∧ ∀ p, σ.stack p = [⟨[.work []], .other⟩]
  step := Sys.Step

end Linux011.Fs.Locks

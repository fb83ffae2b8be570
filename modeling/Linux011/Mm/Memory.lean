/-
  mm/memory.c: the page-frame map, the page directory and the page tables.

  Physical memory is a function from frame numbers (physical address / 4096) to pages. A page
  is read in two ways: as 1024 page-directory or page-table words (`Page.entry`) and as 4096
  bytes (`Page.byte`). The page directory is frame 0 (`_pg_dir = 0`), the four kernel identity
  tables `pg0 .. pg3` are frames 1 .. 4 (head.s). `Entry` is a 32-bit entry word split into the
  fields the code tests; the accessed bit is left out, nothing reads it.

  `memMap` is indexed by `MAP_NR`, so entry `n` is frame `n + 256`; it is an `unsigned char`
  array, hence the explicit `% 256`. Functions that return an address return its frame number.
  `Stop.oom` is a call of `oom()` (the current task ends in `do_exit`), with the memory at that
  moment; `Stop.panic` carries the message. `invalidate` (TLB flush) and the `printk`s of
  `put_page` have no effect on this state and are left out.
-/
import Linux011.Lib.Sizes
import Mathlib.Logic.Function.Basic
import Mathlib.Tactic.Common

namespace Linux011.Mm

/-! ## Constants -/

def lowMem : Nat := 0x100000
def pagingPages : Nat := (15 * 1024 * 1024) >>> 12
def used : Nat := 100
def mapNr (addr : Nat) : Nat := (addr - lowMem) >>> 12

/-- The start of the 64 MB segment of task `t` (`start_code`, the base of its LDT). -/
def base (t : Nat) : Nat := 0x4000000 * t

/-! ## Entries, pages, memory -/

/-- A page-directory or page-table word: address bits 12..31, bits 0 (present), 1 (R/W),
    2 (user) and 6 (dirty). -/
structure Entry where
  frame : Nat
  present : Bool
  rw : Bool
  user : Bool
  dirty : Bool
  deriving DecidableEq, Repr

namespace Entry

/-- The word 0. -/
def zero : Entry := ⟨0, false, false, false, false⟩

/-- `addr | 7` for the page-aligned address of frame `f`. -/
def seven (f : Nat) : Entry := ⟨f, true, true, true, false⟩

/-- `0xfffff000 & e`. -/
def addr (e : Entry) : Nat := e.frame * 4096

/-- The 32-bit word. -/
def word (e : Entry) : Nat :=
  e.addr + e.present.toNat + 2 * e.rw.toNat + 4 * e.user.toNat + 64 * e.dirty.toNat

/-- `e & ~2`. -/
def clearRw (e : Entry) : Entry := { e with rw := false }

/-- `e | 2`. -/
def setRw (e : Entry) : Entry := { e with rw := true }

@[simp] theorem zero_present : zero.present = false := rfl
@[simp] theorem seven_present (f : Nat) : (seven f).present = true := rfl
@[simp] theorem seven_frame (f : Nat) : (seven f).frame = f := rfl
@[simp] theorem seven_rw (f : Nat) : (seven f).rw = true := rfl
@[simp] theorem seven_dirty (f : Nat) : (seven f).dirty = false := rfl
@[simp] theorem clearRw_present (e : Entry) : e.clearRw.present = e.present := rfl
@[simp] theorem clearRw_frame (e : Entry) : e.clearRw.frame = e.frame := rfl
@[simp] theorem clearRw_rw (e : Entry) : e.clearRw.rw = false := rfl
@[simp] theorem clearRw_dirty (e : Entry) : e.clearRw.dirty = e.dirty := rfl
@[simp] theorem setRw_present (e : Entry) : e.setRw.present = e.present := rfl
@[simp] theorem setRw_frame (e : Entry) : e.setRw.frame = e.frame := rfl
@[simp] theorem setRw_dirty (e : Entry) : e.setRw.dirty = e.dirty := rfl

end Entry

/-- A physical page, read as table words and as bytes. -/
structure Page where
  entry : Nat → Entry
  byte : Nat → Nat

/-- A page of zero bytes. -/
def Page.zero : Page := ⟨fun _ => Entry.zero, fun _ => 0⟩

structure Mem where
  memMap : Nat → Nat
  highMemory : Nat
  mem : Nat → Page

/-- `oom()` with the memory at that moment, or `panic(msg)`. -/
inductive Stop where
  | oom (s : Mem)
  | panic (msg : String)

namespace Mem

/-- `pg_dir[d]`. -/
def dir (s : Mem) (d : Nat) : Entry := (s.mem 0).entry d

def setEntry (s : Mem) (tab i : Nat) (e : Entry) : Mem :=
  let p := s.mem tab
  { s with mem := Function.update s.mem tab { p with entry := Function.update p.entry i e } }

def setDir (s : Mem) (d : Nat) (e : Entry) : Mem := s.setEntry 0 d e

def setPage (s : Mem) (f : Nat) (p : Page) : Mem :=
  { s with mem := Function.update s.mem f p }

def setMap (s : Mem) (n v : Nat) : Mem :=
  { s with memMap := Function.update s.memMap n v }

/-- `mem_map[n]++`. -/
def incMap (s : Mem) (n : Nat) : Mem := s.setMap n ((s.memMap n + 1) % 256)

/-- `mem_map[n]--`. -/
def decMap (s : Mem) (n : Nat) : Mem := s.setMap n ((s.memMap n + 255) % 256)

end Mem

/-! ## Allocation -/

/-- The backward `repne scasb`: the last of the first `n` map bytes that is 0. -/
def findFree (m : Nat → Nat) : Nat → Option Nat
  | 0 => none
  | n + 1 => if m n = 0 then some n else findFree m n

/-- `get_free_page`: the frame, marked used and cleared, or `none` for the result 0. -/
def getFreePage (s : Mem) : Option (Nat × Mem) :=
  (findFree s.memMap pagingPages).map fun n =>
    (n + 256, (s.setMap n 1).setPage (n + 256) Page.zero)

/-- `free_page`. -/
def freePage (s : Mem) (addr : Nat) : Except Stop Mem :=
  if addr < lowMem then .ok s
  else if s.highMemory ≤ addr then .error (.panic "trying to free nonexistent page")
  else if s.memMap (mapNr addr) ≠ 0 then .ok (s.decMap (mapNr addr))
  else .error (.panic "trying to free free page")

/-! ## free_page_tables -/

/-- One iteration of the inner loop of `free_page_tables`. -/
def freeEntry (s : Mem) (tab i : Nat) : Except Stop Mem :=
  let e := (s.mem tab).entry i
  if e.present then (freePage s e.addr).map fun s => s.setEntry tab i Entry.zero
  else .ok (s.setEntry tab i Entry.zero)

/-- The inner loop of `free_page_tables`, after its first `n` entries. -/
def freeEntries (s : Mem) (tab : Nat) : Nat → Except Stop Mem
  | 0 => .ok s
  | n + 1 => do
    let s ← freeEntries s tab n
    freeEntry s tab n

/-- One page-directory slot of `free_page_tables`. -/
def freeDir (s : Mem) (d : Nat) : Except Stop Mem :=
  if !(s.dir d).present then .ok s
  else do
    let s ← freeEntries s (s.dir d).frame 1024
    let s ← freePage s (s.dir d).addr
    return s.setDir d Entry.zero

/-- The outer loop of `free_page_tables`, after `n` slots from `d` on. -/
def freeDirs (s : Mem) (d : Nat) : Nat → Except Stop Mem
  | 0 => .ok s
  | n + 1 => do
    let s ← freeDirs s d n
    freeDir s (d + n)

/-- The number of 4 MB slots of `size` bytes, in 32-bit arithmetic. -/
def slots (size : Nat) : Nat := ((size + 0x3fffff) % 2 ^ 32) >>> 22

/-- `free_page_tables`. -/
def freePageTables (s : Mem) (src size : Nat) : Except Stop Mem :=
  if src % 0x400000 ≠ 0 then .error (.panic "free_page_tables called with wrong alignment")
  else if src = 0 then .error (.panic "Trying to free up swapper memory space")
  else freeDirs s (src >>> 22) (slots size)

/-! ## copy_page_tables -/

/-- One iteration of the inner loop of `copy_page_tables`. The comparison is of the whole
    word, flag bits included, with `LOW_MEM`. -/
def copyEntry (s : Mem) (ft tt i : Nat) : Mem :=
  let e := (s.mem ft).entry i
  if !e.present then s
  else
    let this := e.clearRw
    let s := s.setEntry tt i this
    if lowMem < this.word then
      (s.setEntry ft i this).incMap (mapNr this.addr)
    else s

/-- The inner loop of `copy_page_tables`, after its first `n` entries. -/
def copyEntries (s : Mem) (ft tt : Nat) : Nat → Mem
  | 0 => s
  | n + 1 => copyEntry (copyEntries s ft tt n) ft tt n

/-- One page-directory slot of `copy_page_tables`; `false` is the early `return -1`. -/
def copyDir (s : Mem) (fd td nr : Nat) : Except Stop (Bool × Mem) :=
  if (s.dir td).present then .error (.panic "copy_page_tables: already exist")
  else if !(s.dir fd).present then .ok (true, s)
  else match getFreePage s with
    | none => .ok (false, s)
    | some (tt, s) =>
      let s := s.setDir td (Entry.seven tt)
      .ok (true, copyEntries s (s.dir fd).frame tt nr)

/-- The outer loop of `copy_page_tables`, after `n` slots. -/
def copyDirs (s : Mem) (fd td nr : Nat) : Nat → Except Stop (Bool × Mem)
  | 0 => .ok (true, s)
  | n + 1 => do
    let (ok, s) ← copyDirs s fd td nr n
    if ok then copyDir s (fd + n) (td + n) nr else return (false, s)

/-- `copy_page_tables`: 0 or -1, and the memory. -/
def copyPageTables (s : Mem) (src dst size : Nat) : Except Stop (Int × Mem) :=
  if src % 0x400000 ≠ 0 ∨ dst % 0x400000 ≠ 0 then
    .error (.panic "copy_page_tables called with wrong alignment")
  else do
    let (ok, s) ← copyDirs s (src >>> 22) (dst >>> 22) (if src = 0 then 0xA0 else 1024)
      (slots size)
    return (if ok then 0 else -1, s)

/-! ## Mapping and copying single pages -/

/-- The slot of a linear address: directory slot `(address>>20) & 0xffc` (in words) and table
    index `(address>>12) & 0x3ff`. -/
def slotAt (address : Nat) : Nat × Nat := (address >>> 22, (address >>> 12) % 1024)

/-- `put_page`: `none` is the result 0 (no page for the table; nothing has changed). -/
def putPage (s : Mem) (page address : Nat) : Option Mem :=
  let x := slotAt address
  if (s.dir x.1).present then
    some (s.setEntry (s.dir x.1).frame x.2 (Entry.seven page))
  else match getFreePage s with
    | none => none
    | some (tmp, s) =>
      some ((s.setDir x.1 (Entry.seven tmp)).setEntry tmp x.2 (Entry.seven page))

/-- `un_wp_page` on entry `i` of the table in frame `tab`. -/
def unWpPage (s : Mem) (tab i : Nat) : Except Stop Mem :=
  let e := (s.mem tab).entry i
  if lowMem ≤ e.addr ∧ s.memMap (mapNr e.addr) = 1 then .ok (s.setEntry tab i e.setRw)
  else match getFreePage s with
    | none => .error (.oom s)
    | some (new, s) =>
      let s := if lowMem ≤ e.addr then s.decMap (mapNr e.addr) else s
      let s := s.setEntry tab i (Entry.seven new)
      .ok (s.setPage new (s.mem e.frame))

/-- `do_wp_page`: the write-protection fault at linear address `address`. -/
def doWpPage (s : Mem) (address : Nat) : Except Stop Mem :=
  unWpPage s (s.dir (slotAt address).1).frame (slotAt address).2

/-- `write_verify`. -/
def writeVerify (s : Mem) (address : Nat) : Except Stop Mem :=
  let x := slotAt address
  if !(s.dir x.1).present then .ok s
  else
    let e := (s.mem (s.dir x.1).frame).entry x.2
    if e.present && !e.rw then unWpPage s (s.dir x.1).frame x.2 else .ok s

/-- `get_empty_page`. -/
def getEmptyPage (s : Mem) (address : Nat) : Except Stop Mem :=
  match getFreePage s with
  | none => .error (.oom s)
  | some (tmp, s) =>
    match putPage s tmp address with
    | some s => .ok s
    | none => do
      let s ← freePage s (tmp * 4096)
      .error (.oom s)

/-- The page table of `try_to_share`'s target, made if it is missing. -/
def toTable (s : Mem) (td : Nat) : Except Stop Mem :=
  if (s.dir td).present then .ok s
  else match getFreePage s with
    | some (t, s) => .ok (s.setDir td (Entry.seven t))
    | none => .error (.oom s)

/-- `try_to_share`: `address` is relative to the start of the two segments. -/
def tryToShare (s : Mem) (address pStart curStart : Nat) : Except Stop (Bool × Mem) :=
  let fd := (slotAt address).1 + (pStart >>> 22)
  let td := (slotAt address).1 + (curStart >>> 22)
  let i := (slotAt address).2
  if !(s.dir fd).present then .ok (false, s)
  else
    let ft := (s.dir fd).frame
    let e := (s.mem ft).entry i
    -- is the page clean and present?
    if !(e.present && !e.dirty) then .ok (false, s)
    else if s.highMemory ≤ e.addr ∨ e.addr < lowMem then .ok (false, s)
    else do
      let s ← toTable s td
      let tt := (s.dir td).frame
      if ((s.mem tt).entry i).present then
        .error (.panic "try_to_share: to_page already exists")
      else
        -- share them: write-protect
        let s := s.setEntry ft i ((s.mem ft).entry i).clearRw
        let s := s.setEntry tt i ((s.mem ft).entry i)
        return (true, s.incMap (mapNr e.addr))

/-! ## do_no_page -/

/-- The loop of `share_page` over the other tasks that run the current executable. -/
def sharePage (s : Mem) (address cur : Nat) : List Nat → Except Stop (Bool × Mem)
  | [] => .ok (false, s)
  | p :: ps => do
    let (done, s) ← tryToShare s address (base p) (base cur)
    if done then return (true, s) else sharePage s address cur ps

/-- `do_no_page` up to `bread_page`, at offset `tmp` of task `cur`. `others` is `none` when the
    task has no executable or `tmp` is past its `end_data`, else the tasks `share_page` tries.
    The result is the page that still has to be read, or `none` when the fault is served. -/
def doNoPage (s : Mem) (cur tmp : Nat) (others : Option (List Nat)) :
    Except Stop (Option Nat × Mem) :=
  match others with
  | none => do
    let s ← getEmptyPage s (base cur + tmp)
    return (none, s)
  | some ps => do
    let (shared, s) ← sharePage s tmp cur ps
    if shared then return (none, s)
    else match getFreePage s with
      | none => .error (.oom s)
      | some (page, s) => return (some page, s)

/-- `do_no_page` from `bread_page` on: the page gets its contents and is mapped. -/
def doNoPageRead (s : Mem) (page address : Nat) (contents : Page) : Except Stop Mem :=
  let s := s.setPage page contents
  match putPage s page address with
  | some s => .ok s
  | none => do
    let s ← freePage s (page * 4096)
    .error (.oom s)

/-! ## mem_init -/

/-- The loop of `mem_init` that frees `n` pages from index `i` on. -/
def clearMap (m : Nat → Nat) (i : Nat) : Nat → Nat → Nat
  | 0 => m
  | n + 1 => Function.update (clearMap m i n) (i + n) 0

/-- `mem_init`. -/
def memInit (s : Mem) (startMem endMem : Nat) : Mem :=
  { s with
    highMemory := endMem
    memMap := clearMap (fun _ => used) (mapNr startMem) ((endMem - startMem) >>> 12) }

/-- What head.s leaves: the identity tables in slots 0..3, the rest of the directory empty. -/
structure Boot (s : Mem) : Prop where
  ident : ∀ d < 4, s.dir d = Entry.seven (d + 1)
  empty : ∀ d, 4 ≤ d → d < 1024 → s.dir d = Entry.zero
  entry : ∀ d < 4, ∀ i < 1024, (s.mem (d + 1)).entry i = Entry.seven (1024 * d + i)

end Linux011.Mm

/-
  The kernel's malloc and free_s: bucket descriptors, the nine bucket chains, the pool of free
  descriptors, and the lists of free objects that run through the memory they describe.
-/
import Mathlib.Data.List.FinRange
import Mathlib.Data.Fin.VecNotation
import Linux011.Lib.Bytes
import Linux011.Lib.Linked
import Linux011.Lib.Trans

namespace Linux011.Malloc

open Lib

/-- A pointer; zero is the null pointer. -/
def ptr (a : ℕ) : Option ℕ := if a = 0 then none else some a

/-- As many bytes as there are addresses: no list without a cycle is longer. -/
def addresses : ℕ := 4294967296

/-- How a call can fail to return. -/
inductive Fault
  | panic (msg : String)
  | loops

/-! ## bucket_desc, bucket_dir -/

/-- The `size` fields of bucket_dir, without the end marker. -/
def size : Fin 9 → ℕ := ![16, 32, 64, 128, 256, 512, 1024, 2048, 4096]

section Fields

variable (m : Bytes) (d v : ℕ)

def page : ℕ := m.load 4 d
def next : ℕ := m.load 4 (d + 4)
def freeptr : ℕ := m.load 4 (d + 8)
def refcnt : ℕ := m.load 2 (d + 12)
def bucketSize : ℕ := m.load 2 (d + 14)

def setPage : Bytes := m.store 4 d v
def setNext : Bytes := m.store 4 (d + 4) v
def setFreeptr : Bytes := m.store 4 (d + 8) v
def setRefcnt : Bytes := m.store 2 (d + 12) v
def setBucketSize : Bytes := m.store 2 (d + 14) v

end Fields

/-- The allocator's variables, the memory, and the page frames: those it has from get_free_page, and
    those it has handed to free_page, the last one first. -/
structure Heap where
  mem : Bytes
  chain : Fin 9 → ℕ
  freeBucketDesc : ℕ
  held : List ℕ
  freed : List ℕ

variable (h : Heap)

/-- get_free_page returns frame `p`, cleared, or zero when there is none. -/
def Heap.getFreePage (p : ℕ) : Heap :=
  if p = 0 then h
  else { h with mem := fun a => if p ≤ a ∧ a < p + 4096 then 0 else h.mem a, held := p :: h.held }

def Heap.freePage (p : ℕ) : Heap := { h with held := h.held.erase p, freed := p :: h.freed }

/-- `n` times: a pointer to the next place is written `off` bytes into this one. -/
def linkUp (off step : ℕ) : ℕ → Bytes × ℕ → Bytes × ℕ
  | 0, r => r
  | n + 1, (m, a) => linkUp off step n (m.store 4 (a + off) (a + step), a + step)

/-- Frame `p` becomes a page of descriptors. -/
def Heap.initBucketDesc (p : ℕ) : Except Fault Heap :=
  let h := h.getFreePage p
  if p = 0 then .error (.panic "Out of memory in init_bucket_desc()")
  else
    let (m, bdesc) := linkUp 4 16 255 (h.mem, p)
    .ok { h with mem := setNext m bdesc h.freeBucketDesc, freeBucketDesc := p }

/-! ## malloc -/

/-- The first bucket that is large enough. -/
def findBucket (len : ℕ) : Option (Fin 9) := (List.finRange 9).find? fun b => len ≤ size b

/-- A descriptor from the pool, with frame `q` cut into free objects, is put in front of chain `b`. -/
def Heap.newBucket (b : Fin 9) (q : ℕ) : Except Fault (ℕ × Heap) :=
  let bdesc := h.freeBucketDesc
  let h := { h with freeBucketDesc := next h.mem bdesc }
  let h := { h with mem := setRefcnt h.mem bdesc 0 }
  let h := { h with mem := setBucketSize h.mem bdesc (size b) }
  let h := h.getFreePage q
  let h := { h with mem := setPage (setFreeptr h.mem bdesc q) bdesc q }
  if q = 0 then .error (.panic "Out of memory in kernel malloc()")
  else
    let (m, cp) := linkUp 0 (size b) (4096 / size b - 1) (h.mem, q)
    let m := m.store 4 cp 0
    .ok (bdesc, { h with mem := setNext m bdesc (h.chain b), chain := Function.update h.chain b bdesc })

/-- The first free object of the bucket. -/
def Heap.takeObject (bdesc : ℕ) : ℕ × Heap :=
  let retval := freeptr h.mem bdesc
  let m := setFreeptr h.mem bdesc (h.mem.load 4 retval)
  (retval, { h with mem := setRefcnt m bdesc (refcnt m bdesc + 1) })

/-- `p` and `q` are what get_free_page returns in init_bucket_desc and in malloc, where they call it. -/
def Heap.malloc (len p q : ℕ) : Except Fault (ℕ × Heap) :=
  match findBucket len with
  | none => .error (.panic "malloc: bad arg")
  | some b =>
    match walk (fun d => ptr (next h.mem d)) (fun d => freeptr h.mem d ≠ 0) addresses none (ptr (h.chain b)) with
    | none => .error .loops
    | some (_, some bdesc) => .ok (h.takeObject bdesc)
    | some (_, none) => do
      let h ← if h.freeBucketDesc = 0 then h.initBucketDesc p else .ok h
      let (bdesc, h) ← h.newBucket b q
      .ok (h.takeObject bdesc)

/-! ## free_s -/

/-- The search through the chains for the descriptor of page `pg`: its chain, the descriptor before it,
    and the descriptor. -/
def Heap.search (pg sz : ℕ) : List (Fin 9) → Except Fault (Fin 9 × Option ℕ × ℕ)
  | [] => .error (.panic "Bad address passed to kernel free_s()")
  | b :: bs =>
    if size b < sz then search pg sz bs
    else match walk (fun d => ptr (next h.mem d)) (fun d => page h.mem d = pg) addresses none (ptr (h.chain b)) with
      | none => .error .loops
      | some (prev, some bdesc) => .ok (b, prev, bdesc)
      | some (_, none) => search pg sz bs

/-- The descriptor before `bdesc`, searched for again where `prev` is not accurate. -/
def Heap.findPrev (b : Fin 9) (prev : Option ℕ) (bdesc : ℕ) : Except Fault (Option ℕ) :=
  let accurate : Bool := match prev with
    | some d => next h.mem d = bdesc
    | none => h.chain b = bdesc
  if accurate then .ok prev
  else match walk (fun d => ptr (next h.mem d)) (fun d => next h.mem d = bdesc) addresses none (ptr (h.chain b)) with
    | none => .error .loops
    | some (_, prev) => .ok prev

def Heap.unlink (b : Fin 9) (prev : Option ℕ) (bdesc : ℕ) : Except Fault Heap :=
  match prev with
  | some d => .ok { h with mem := setNext h.mem d (next h.mem bdesc) }
  | none =>
    if h.chain b = bdesc then .ok { h with chain := Function.update h.chain b (next h.mem bdesc) }
    else .error (.panic "malloc bucket chains corrupted")

/-- The bucket without live objects gives its page back, and its descriptor to the pool. -/
def Heap.dropBucket (b : Fin 9) (prev : Option ℕ) (bdesc : ℕ) : Except Fault Heap := do
  let prev ← h.findPrev b prev bdesc
  let h ← h.unlink b prev bdesc
  let h := h.freePage (page h.mem bdesc)
  .ok { h with mem := setNext h.mem bdesc h.freeBucketDesc, freeBucketDesc := bdesc }

def Heap.putObject (obj bdesc : ℕ) : Heap :=
  let m := h.mem.store 4 obj (freeptr h.mem bdesc)
  let m := setFreeptr m bdesc obj
  { h with mem := setRefcnt m bdesc (refcnt m bdesc + 65535) }

/-- The page that an object lives in. -/
def pageOf (obj : ℕ) : ℕ := obj &&& 0xfffff000

def Heap.freeS (obj sz : ℕ) : Except Fault Heap := do
  let (b, prev, bdesc) ← h.search (pageOf obj) sz (List.finRange 9)
  let h := h.putObject obj bdesc
  if refcnt h.mem bdesc = 0 then h.dropBucket b prev bdesc else .ok h

/-! ## The callers -/

/-- The allocator with the blocks its callers have, each with the length asked for. -/
structure Sys where
  heap : Heap
  live : List (ℕ × ℕ)

inductive Call
  | malloc (len p q : ℕ)
  | freeS (obj len sz : ℕ)
  | write (m : Bytes)

/-- A frame that get_free_page may return. -/
def Heap.Fresh (p : ℕ) : Prop := 0 < p ∧ p % 4096 = 0 ∧ p + 4096 ≤ addresses ∧ p ∉ h.held

variable (s : Sys)

/-- Byte `a` lies in a live block. -/
def Sys.InBlock (a : ℕ) : Prop := ∃ u ∈ s.live, u.1 ≤ a ∧ a < u.1 + u.2

/-- Lengths of up to a page, fresh frames, live blocks with their own length or none, and writes that
    leave the allocator's pages alone outside the live blocks. -/
def Sys.Allows : Call → Prop
  | .malloc len p q => len ≤ 4096 ∧ s.heap.Fresh p ∧ s.heap.Fresh q ∧ p ≠ q
  | .freeS obj len sz => (obj, len) ∈ s.live ∧ (sz = 0 ∨ sz = len)
  | .write m => ∀ p ∈ s.heap.held, ∀ a, p ≤ a → a < p + 4096 → ¬s.InBlock a → m a = s.heap.mem a

def Sys.run : Call → Except Fault Sys
  | .malloc len p q => do
    let (a, h) ← s.heap.malloc len p q
    .ok ⟨h, (a, len) :: s.live⟩
  | .freeS obj len sz => do
    let h ← s.heap.freeS obj sz
    .ok ⟨h, s.live.erase (obj, len)⟩
  | .write m => .ok { s with heap := { s.heap with mem := m } }

/-- Before the first call. -/
def Sys.Init : Prop := s.heap.chain = (fun _ => 0) ∧ s.heap.freeBucketDesc = 0 ∧ s.heap.held = [] ∧ s.live = []

def system : Lts Sys Call where
  init := Sys.Init
  step s c s' := s.Allows c ∧ s.run c = .ok s'

end Linux011.Malloc

/-
  Pipes (fs/pipe.c): `read_pipe` and `write_pipe` on one pipe, step by step, for any number of
  processes. Both move `PIPE_TAIL` or `PIPE_HEAD` over a run of bytes first and copy the bytes
  afterwards, one `put_fs_byte` or `get_fs_byte` at a time; in either a page fault may let other
  processes run. The page has PAGE_SIZE = 4096 bytes. `Pipe.Inv` holds as long as a call claims only bytes that are there
  (`Pipe.Clear`).
-/
import Linux011.Lib.Trans
import Mathlib.Data.Int.Notation
import Mathlib.Logic.Function.Basic
import Mathlib.Data.List.Nodup
import Mathlib.Tactic.Common

namespace Linux011.Fs
open Linux011.Lib

/-- Where a call stands. -/
inductive PipePhase
  /-- at the tests of the two loops -/
  | test
  /-- in `sleep_on` -/
  | wait
  /-- in the copy loop, before the next byte: `size` and `chars`, and the number of that byte
      among all that went through the pipe -/
  | copy (size chars idx : ℕ)
  /-- in `put_fs_byte` with byte number `idx` in a register -/
  | byte (size chars idx : ℕ) (b : UInt8)
  deriving DecidableEq

/-- The bytes still to be moved in the copy loop: their place in the page, how many, and the
    number of the first. -/
def PipePhase.unmoved : PipePhase → Option (ℕ × ℕ × ℕ)
  | .copy size n idx => some (size, n, idx)
  | .byte size n idx _ => some (size, n, idx + 1)
  | _ => none

/-- A call of `read_pipe` (`src` is none) or `write_pipe`: its `count`, its `read` or `written`,
    and the number of bytes it has really copied. -/
structure PipeCall where
  src : Option (ℕ → UInt8)
  count : ℕ
  total : ℕ
  copied : ℕ

/-- The result of a call, with the bytes it copied, and whether `i_count` was not 2 then. -/
structure PipeReturn where
  writer : Bool
  value : ℤ
  copied : ℕ
  alone : Bool

/-- One pipe: the head and the tail (`i_zone[0]` and `i_zone[1]`), `i_count`, the page behind
    `i_size`, and the calls under way. `given` and `taken` count the bytes that the head and the
    tail have been moved over; the logs hold each copied byte with its number. -/
structure Pipe (ι : Type*) where
  head : ℕ
  tail : ℕ
  iCount : ℕ
  page : ℕ → UInt8
  call : ι → Option (PipeCall × PipePhase)
  given : ℕ
  taken : ℕ
  accepted : List (ℕ × UInt8)
  delivered : List (ℕ × UInt8)
  returned : List PipeReturn

inductive PipeEvent (ι : Type*)
  | call (t : ι) (src : Option (ℕ → UInt8)) (count : ℤ)
  | go (t : ι)
  /-- an end of the pipe is opened or closed -/
  | ends (n : ℕ)

variable {ι : Type*}

namespace Pipe

/-- `PIPE_SIZE` -/
def size (s : Pipe ι) : ℕ := (((s.head : ℤ) - s.tail) % 4096).toNat

/-- The bytes between `PIPE_TAIL` and `PIPE_HEAD`. -/
def contents (s : Pipe ι) : List UInt8 :=
  (List.range s.size).map fun i => s.page ((s.tail + i) % 4096)

/-- `get_pipe_inode` -/
def start (page : ℕ → UInt8) : Pipe ι := ⟨0, 0, 2, page, fun _ => none, 0, 0, [], [], []⟩

/-- `chars` of either loop. -/
def chars (at' count size : ℕ) : ℕ := min (min (4096 - at') count) size

/-- The new `PIPE_HEAD` or `PIPE_TAIL`, an unsigned short. -/
def advance (at' chars : ℕ) : ℕ := (at' + chars) % 65536 % 4096

section Step

variable [DecidableEq ι]

def setCall (s : Pipe ι) (t : ι) (c : PipeCall) (p : PipePhase) : Pipe ι :=
  { s with call := Function.update s.call t (some (c, p)) }

def ret (s : Pipe ι) (t : ι) (c : PipeCall) (value : ℤ) : Pipe ι :=
  { s with
    call := Function.update s.call t none
    returned := ⟨c.src.isSome, value, c.copied, s.iCount ≠ 2⟩ :: s.returned }

/-- `read_pipe` from the test of its loop to the copy loop. -/
def readTest (s : Pipe ι) (t : ι) (c : PipeCall) : Pipe ι :=
  if c.count = 0 then s.ret t c c.total
  else if s.size = 0 then
    if s.iCount ≠ 2 then s.ret t c c.total else s.setCall t c .wait
  else
    let n := chars s.tail c.count s.size
    { s.setCall t { c with count := c.count - n, total := c.total + n } (.copy s.tail n s.taken) with
      tail := advance s.tail n, taken := s.taken + n }

/-- `write_pipe` from the test of its loop to the copy loop. -/
def writeTest (s : Pipe ι) (t : ι) (c : PipeCall) : Pipe ι :=
  if c.count = 0 then s.ret t c c.total
  else if 4095 - s.size = 0 then
    if s.iCount ≠ 2 then s.ret t c (if c.total = 0 then -1 else c.total) else s.setCall t c .wait
  else
    let n := chars s.head c.count (4095 - s.size)
    { s.setCall t { c with count := c.count - n, total := c.total + n } (.copy s.head n s.given) with
      head := advance s.head n, given := s.given + n }

/-- The next piece of a call. -/
def go (s : Pipe ι) (t : ι) : PipeCall → PipePhase → Pipe ι
  | c, .test => if c.src.isSome then s.writeTest t c else s.readTest t c
  | c, .wait => s.setCall t c .test
  | c, .copy _ 0 _ => s.setCall t c .test
  | c, .copy size (n + 1) idx =>
    match c.src with
    | none => s.setCall t c (.byte (size + 1) n idx (s.page size))
    | some src =>
      { s.setCall t { c with copied := c.copied + 1 } (.copy (size + 1) n (idx + 1)) with
        page := Function.update s.page size (src c.copied)
        accepted := s.accepted ++ [(idx, src c.copied)] }
  | c, .byte size n idx b =>
    { s.setCall t { c with copied := c.copied + 1 } (.copy size n (idx + 1)) with
      delivered := s.delivered ++ [(idx, b)] }

def step (s : Pipe ι) : PipeEvent ι → Option (Pipe ι)
  | .call t src count =>
    if s.call t ≠ none then none else some (s.setCall t ⟨src, count.toNat, 0, 0⟩ .test)
  | .go t => (s.call t).map fun c => s.go t c.1 c.2
  | .ends n => some { s with iCount := n }

end Step

/-- The call of `u`, of a writer or of a reader, has `n` bytes from number `idx` on still to
    store or to load, at `size` of the page. -/
def Copies (s : Pipe ι) (writer : Bool) (u : ι) (size n idx : ℕ) : Prop :=
  ∃ c p, s.call u = some (c, p) ∧ c.src.isSome = writer ∧ p.unmoved = some (size, n, idx)

/-- Byte number `j` is among them. -/
def Pend (s : Pipe ι) (writer : Bool) (u : ι) (j : ℕ) : Prop :=
  ∃ size n idx, s.Copies writer u size n idx ∧ idx ≤ j ∧ j < idx + n

/-- `u` has loaded byte number `j`, and not yet delivered it. -/
def Loaded (s : Pipe ι) (u : ι) (j : ℕ) (b : UInt8) : Prop :=
  ∃ c size n, s.call u = some (c, .byte size n j b)

/-- The call of `u` is in the copy loop. -/
def Busy (s : Pipe ι) (u : ι) : Prop := ∃ c p, s.call u = some (c, p) ∧ p.unmoved ≠ none

/-- A call that moves the tail (the head) takes no place that another call has still to store
    (to load): what it claims is there. -/
def Clear (s : Pipe ι) : PipeEvent ι → Prop
  | .go t => ∀ c, s.call t = some (c, .test) → ∀ u size n idx, s.Copies (! c.src.isSome) u size n idx →
      ∀ i k, i < n →
        k < (if c.src.isSome then chars s.head c.count (4095 - s.size)
          else chars s.tail c.count s.size) →
        size + i ≠ (if c.src.isSome then s.head else s.tail) + k
  | _ => True

end Pipe

/-- A pipe from its creation on. -/
def pipeSystem (ι : Type*) [DecidableEq ι] : Lts (Pipe ι) (PipeEvent ι) where
  init s := ∃ page, s = .start page
  step s e s' := s.step e = some s'

end Linux011.Fs

/-
  The three queues of a terminal (include/linux/tty.h) and everything that puts into them or takes
  from them: the input interrupts, `copy_to_cooked`, `respond`, `con_write`, the transmit interrupt
  of a serial line, `tty_write`, `tty_read` and the flushes of `tty_ioctl` (kernel/chr_drv).

  An activity is a stack of calls. Any activity may go on at any time, from one macro of tty.h to the
  next: an interrupt is an activity that runs to its end before the one below it goes on. What
  `put_queue` and `read_char` leave behind the head when the queue is full is not in the queue, and
  is left out. Other channels change `cr_flag` as they like.
-/
import Linux011.Chr.Tty
import Linux011.Chr.Write

namespace Linux011.Chr.Overrun

open Linux011.Lib
open Linux011.Chr.Write (wantsCr upper)

inductive Queue
  | read
  | write
  | secondary
  deriving DecidableEq

/-- `held` are the bytes put and not taken, in order; `overran`: a `PUTCH` has found a full queue. -/
structure Chan where
  console : Bool
  tty : Tty
  oflag : BitVec 32
  crFlag : Bool
  /-- `state` and `npar` of the console -/
  esc : ℕ × ℕ
  held : Queue → List (BitVec 8)
  overran : Bool

namespace Chan

variable (x : Chan)

def ring : Queue → Ring 1024 (BitVec 8)
  | .read => x.tty.readQ.ring
  | .write => x.tty.writeQ.ring
  | .secondary => x.tty.secondary.ring

/-- The queue with this ring, and these bytes in it. -/
def setRing (q : Queue) (r : Ring 1024 (BitVec 8)) (l : List (BitVec 8)) : Chan := { x with
  tty := match q with
    | .read => { x.tty with readQ := { x.tty.readQ with ring := r } }
    | .write => { x.tty with writeQ := { x.tty.writeQ with ring := r } }
    | .secondary => { x.tty with secondary := { x.tty.secondary with ring := r } }
  held := Function.update x.held q l }

def empty (q : Queue) : Prop := (x.ring q).head = (x.ring q).tail

instance (q : Queue) : Decidable (x.empty q) := inferInstanceAs (Decidable (_ = _))

/-- `PUTCH` -/
def putch (q : Queue) (c : BitVec 8) : Chan :=
  { x.setRing q ((x.ring q).put c) (x.held q ++ [c]) with overran := x.overran || (x.ring q).left = 0 }

/-- `GETCH`; the byte is the front of the ring. -/
def getch (q : Queue) : Chan := x.setRing q (x.ring q).pop (x.held q).tail

/-- `DEC(tty->secondary.head)` -/
def dec : Chan := x.setRing .secondary (x.ring .secondary).drop (x.held .secondary).dropLast

/-- `flush` -/
def flush (q : Queue) : Chan := x.setRing q (x.ring q).flush []

def putAll (q : Queue) : List (BitVec 8) → Chan → Chan
  | [], x => x
  | c :: cs, x => putAll q cs (x.putch q c)

/-- `read_char`, and `put_queue` for up to eight bytes. -/
def input (bs : List (BitVec 8)) : Chan := if bs.length ≤ (x.ring .read).left then putAll .read bs x else x

/-- `secondary.data` goes on or back by one at a line end. -/
def count (c : BitVec 8) (d : BitVec 32) : Chan :=
  if x.tty.isLineEnd c then { x with tty := { x.tty with secondary := { x.tty.secondary with data := x.tty.secondary.data + d } } }
  else x

/-- The line is empty up to the last line end. -/
def atLine : Prop := x.empty .secondary ∨ x.tty.isLineEnd (x.ring .secondary).last

instance : Decidable x.atLine := inferInstanceAs (Decidable (_ ∨ _))

end Chan

/-! ## The calls -/

inductive WritePlace
  | top
  | asleep
  | test
  /-- between the test of the inner loop and `PUTCH` -/
  | put

inductive Frame
  | cookTest
  | cookGet
  | cookChar (c : BitVec 8)
  | killTest
  | rubbed (kill : Bool)
  | store (c : BitVec 8)
  /-- the `PUTCH`s of the echo -/
  | puts (bs : List (BitVec 8))
  | callWrite
  | con (nr : ℕ)
  | respond
  | writer (rest : List (BitVec 8)) (place : WritePlace)
  | reader (r : Reader)

def response : List (BitVec 8) := [27, 91, 63, 49, 59, 50, 99]

/-- `state` and `npar` after a byte, and whether the terminal answers. -/
def escape (e : ℕ × ℕ) (c : BitVec 8) : (ℕ × ℕ) × Bool :=
  let parameter (npar : ℕ) : ℕ × ℕ :=
    if c = 59 ∧ npar < 15 then (3, npar + 1) else if 48 ≤ c.toInt ∧ c.toInt ≤ 57 then (3, npar) else (0, npar)
  match e.1 with
  | 0 => (if c = 27 then (1, e.2) else e, false)
  | 1 => (if c = 91 then (2, e.2) else (0, e.2), c = 90)
  | 2 => (if c = 63 then (3, 0) else parameter 0, false)
  | _ => (parameter e.2, false)

namespace Chan

variable (x : Chan)

/-- The last byte of the line is taken back. -/
def rub (kill : Bool) : List Frame :=
  let c := (x.ring .secondary).last
  (if x.tty.termios.L ECHO then [.puts (if c.toInt < 32 then [127, 127] else [127]), .callWrite] else [] : List Frame) ++
    [Frame.rubbed kill]

def echo (c : BitVec 8) : List Frame :=
  if x.tty.termios.L ECHO then
    [.puts (if c = 10 then [10, 13]
      else if c.toInt < 32 then if x.tty.termios.L ECHOCTL then [94, c + 64] else []
      else [c]), .callWrite]
  else []

variable (before : BitVec 8 → Bool)

/-- `copy_to_cooked` with a byte. -/
def cook (c : BitVec 8) : Chan × List Frame :=
  let t := x.tty.termios
  match x.tty.translate before c with
  | none => (x, [.cookTest])
  | some c =>
    if t.L ICANON ∧ Is c t.KILL_CHAR then (x, [.killTest])
    else if t.L ICANON ∧ Is c t.ERASE_CHAR then (x, if x.atLine then [.cookTest] else x.rub false)
    else if t.L ICANON ∧ Is c t.STOP_CHAR then ({ x with tty := { x.tty with stopped := true } }, [.cookTest])
    else if t.L ICANON ∧ Is c t.START_CHAR then ({ x with tty := { x.tty with stopped := false } }, [.cookTest])
    -- `tty_intr`
    else if t.L ISIG ∧ (Is c t.INTR_CHAR ∨ Is c t.QUIT_CHAR) then (x, [.cookTest])
    else (x.count c 1, x.echo c ++ [Frame.store c])

/-- `tty_write`, which finds a signal or not; `none`: asleep. -/
def goWriter (signal : Bool) (rest : List (BitVec 8)) : WritePlace → Option (Chan × List Frame)
  | .top =>
    if rest = [] ∨ signal then some (x, [])
    else some (x, [.writer rest (if (x.ring .write).left = 0 then .asleep else .test)])
  | .asleep =>
    if signal then some (x, [])
    else if (x.ring .write).left < 128 then none
    else some (x, [.writer rest .test])
  | .test =>
    if rest = [] ∨ (x.ring .write).left = 0 then some (x, [.callWrite, .writer rest .top])
    else some (x, [.writer rest .put])
  | .put =>
    match rest with
    | [] => none
    | c :: cs =>
      if wantsCr x.oflag c ∧ x.crFlag = false then some ({ x.putch .write 13 with crFlag := true }, [.writer rest .test])
      else some ({ x.putch .write (upper before x.oflag c) with crFlag := false }, [.writer cs .test])

/-- `tty_read`, as far as the queues go. -/
def goReader (signal : Bool) (r : Reader) : Chan × List Frame :=
  match r.place with
  | .top =>
    if r.nr = 0 ∨ signal then (x, [])
    else (x, [.reader { r with place := if x.tty.mustWait then .asleep else .getting }])
  | .asleep => (x, [.reader { r with place := .top }])
  | .getting =>
    let c := (x.ring .secondary).front
    ((x.getch .secondary).count c (-1), if Is c x.tty.termios.EOF_CHAR ∧ x.tty.termios.L ICANON then []
      else [.reader { r with nr := r.nr - 1, got := r.got + 1, place := .putting }])
  | .putting =>
    if r.nr = 0 ∨ x.empty .secondary then (x, ((r.behind x.tty).map Frame.reader).toList)
    else (x, [.reader { r with place := .getting }])

/-- The top frame goes on; the frames are those in its place. -/
def go (signal : Bool) : Frame → Option (Chan × List Frame)
  | .cookTest => some (x, if x.empty .read ∨ (x.ring .secondary).left = 0 then [] else [.cookGet])
  | .cookGet => some (x.getch .read, [.cookChar (x.ring .read).front])
  | .cookChar c => some (x.cook before c)
  | .killTest => some (x, if x.atLine then [.cookTest] else x.rub true)
  | .rubbed kill => some (x.dec, [if kill then .killTest else .cookTest])
  | .store c => some (x.putch .secondary c, [.cookTest])
  | .puts [] => some (x, [])
  | .puts (c :: cs) => some (x.putch .write c, [.puts cs])
  | .callWrite => some (x, if x.console then [.con (x.ring .write).chars] else [])
  | .con 0 => some (x, [])
  | .con (nr + 1) =>
    let e := escape x.esc (x.ring .write).front
    some ({ x.getch .write with esc := e.1 }, (if e.2 then [Frame.respond] else []) ++ [Frame.con nr])
  | .respond => some (putAll .read response x, [.cookTest])
  | .writer rest p => x.goWriter before signal rest p
  | .reader r => some (x.goReader signal r)

end Chan

/-! ## Runs -/

structure Sys (ι : Type*) where
  chan : Chan
  stack : ι → List Frame

inductive Event (ι : Type*)
  | write (i : ι) (buf : List (BitVec 8))
  | read (i : ι) (nr : ℕ)
  | input (i : ι) (bs : List (BitVec 8))
  | go (i : ι) (signal : Bool)
  /-- a byte is sent -/
  | drain
  | flush (q : Queue)
  | settings (termios : Termios) (oflag : BitVec 32)
  | crFlag (b : Bool)

namespace Sys

variable {ι : Type*} [DecidableEq ι] (before : BitVec 8 → Bool) (σ : Sys ι)

/-- Activity `i` goes on with these frames. -/
def set (i : ι) (x : Chan) (fs : List Frame) : Sys ι := ⟨x, Function.update σ.stack i fs⟩

/-- The state after an event, if it can happen. -/
def next : Event ι → Option (Sys ι)
  | .write i buf => if σ.stack i = [] then some (σ.set i σ.chan [.writer buf .top]) else none
  | .read i nr => if σ.stack i = [] then some (σ.set i σ.chan [.reader (σ.chan.tty.startRead nr)]) else none
  | .input i bs => if σ.stack i = [] then some (σ.set i (σ.chan.input bs) [.cookTest]) else none
  | .go i signal => match σ.stack i with
    | [] => none
    | f :: fs => (σ.chan.go before signal f).map fun r => σ.set i r.1 (r.2 ++ fs)
  | .drain => if σ.chan.console ∨ σ.chan.empty .write then none else some { σ with chan := σ.chan.getch .write }
  | .flush q => if q = .secondary then none else some { σ with chan := σ.chan.flush q }
  | .settings termios oflag => some { σ with chan := { σ.chan with tty := { σ.chan.tty with termios := termios }, oflag := oflag } }
  | .crFlag b => some { σ with chan := { σ.chan with crFlag := b } }

end Sys

/-- At first nothing is going on; there may be bytes in the queues. -/
def queueSystem (ι : Type*) [DecidableEq ι] (before : BitVec 8 → Bool) : Lts (Sys ι) (Event ι) where
  init σ := σ.chan.overran = false ∧ (∀ q, (σ.chan.ring q).contents = σ.chan.held q) ∧ ∀ i, σ.stack i = []
  step σ e σ' := σ.next before e = some σ'

end Linux011.Chr.Overrun

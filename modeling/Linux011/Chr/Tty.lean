/-
  The cooked queue of a terminal (kernel/chr_drv/tty_io.c, tty_ioctl.c): `copy_to_cooked` for one byte
  after the other, `tty_read` for any number of readers, and the calls of `tty_ioctl` that change the
  settings or flush a queue.

  `copy_to_cooked` runs in interrupts, which come between any two steps of a reader, also between its
  test of the queue and its `GETCH`; the steps of processes come only when no reader is there. A byte
  is handled before the next one, and what the console answers (`respond`) is later input. What the
  drivers do to the read and the write queue is left open; so are signals and alarms: a reader may
  find one at every turn.

  `secondary.data` counts the line ends in the queue as long as no call changes the number of them
  (`tty_line_count`).
-/
import Linux011.Lib.Trans
import Linux011.Lib.Ring

namespace Linux011.Chr

open Linux011.Lib

structure TtyQueue where
  ring : Ring 1024 (BitVec 8)
  data : BitVec 32

structure Termios where
  iflag : BitVec 32
  lflag : BitVec 32
  cc : Fin 17 → BitVec 8

/-- The old `struct termio`. -/
structure Termio where
  iflag : BitVec 16
  lflag : BitVec 16
  cc : Fin 8 → BitVec 8

structure Tty where
  termios : Termios
  stopped : Bool
  readQ : TtyQueue
  writeQ : TtyQueue
  secondary : TtyQueue

def INLCR : BitVec 32 := 0o100
def IGNCR : BitVec 32 := 0o200
def ICRNL : BitVec 32 := 0o400
def IUCLC : BitVec 32 := 0o1000
def ISIG : BitVec 32 := 0o1
def ICANON : BitVec 32 := 0o2
def ECHO : BitVec 32 := 0o10
def ECHOCTL : BitVec 32 := 0o1000

namespace Termios

variable (t : Termios)

def I (f : BitVec 32) : Bool := t.iflag &&& f ≠ 0
def L (f : BitVec 32) : Bool := t.lflag &&& f ≠ 0

def INTR_CHAR : BitVec 8 := t.cc 0
def QUIT_CHAR : BitVec 8 := t.cc 1
def ERASE_CHAR : BitVec 8 := t.cc 2
def KILL_CHAR : BitVec 8 := t.cc 3
def EOF_CHAR : BitVec 8 := t.cc 4
def START_CHAR : BitVec 8 := t.cc 8
def STOP_CHAR : BitVec 8 := t.cc 9

/-- `set_termio` -/
def setTermio (n : Termio) : Termios where
  iflag := t.iflag &&& 0xFFFF0000 ||| n.iflag.setWidth 32
  lflag := t.lflag &&& 0xFFFF0000 ||| n.lflag.setWidth 32
  cc i := if h : i.val < 8 then n.cc ⟨i.val, h⟩ else t.cc i

end Termios

/-- `c==X_CHAR(tty)`: `c` is a signed char and `c_cc` unsigned. -/
def Is (c x : BitVec 8) : Prop := c.toInt = (x.toNat : ℤ)

instance (c x : BitVec 8) : Decidable (Is c x) := inferInstanceAs (Decidable (_ = _))

namespace Tty

/-- `c==10 || c==EOF_CHAR(tty)` -/
def isLineEnd (t : Tty) (c : BitVec 8) : Prop := c = 10 ∨ Is c t.termios.EOF_CHAR

instance (t : Tty) (c : BitVec 8) : Decidable (t.isLineEnd c) := inferInstanceAs (Decidable (_ ∨ _))

/-! ## copy_to_cooked -/

-- `before`: what `isupper` makes of a negative char, in front of its table; `write`: what the driver
-- leaves of the write queue
variable (before : BitVec 8 → Bool) (write : Ring 1024 (BitVec 8) → Ring 1024 (BitVec 8)) (t : Tty)

def tolower (c : BitVec 8) : BitVec 8 :=
  if (if c.toNat < 128 then 65 ≤ c.toNat ∧ c.toNat ≤ 90 else before c = true) then c + 32 else c

/-- The mappings of the input. -/
def translate (c : BitVec 8) : Option (BitVec 8) :=
  let c := if c = 13 then
      if t.termios.I ICRNL then some 10 else if t.termios.I IGNCR then none else some c
    else if c = 10 ∧ t.termios.I INLCR then some 13 else some c
  c.map fun c => if t.termios.I IUCLC then tolower before c else c

def putWrite (c : BitVec 8) : Tty := { t with writeQ := { t.writeQ with ring := t.writeQ.ring.put c } }

/-- `tty->write(tty)` -/
def callWrite : Tty := { t with writeQ := { t.writeQ with ring := write t.writeQ.ring } }

/-- The last byte of the queue is taken back. -/
def takeBack : Tty :=
  let c := t.secondary.ring.last
  let t := if t.termios.L ECHO then ((if c.toInt < 32 then t.putWrite 127 else t).putWrite 127).callWrite write else t
  { t with secondary := { t.secondary with ring := t.secondary.ring.drop } }

def killLine : ℕ → Tty → Tty
  | 0, t => t
  | n + 1, t =>
    if t.secondary.ring.head = t.secondary.ring.tail ∨ t.isLineEnd t.secondary.ring.last then t
    else killLine n (t.takeBack write)

def eraseChar : Tty :=
  if t.secondary.ring.head = t.secondary.ring.tail ∨ t.isLineEnd t.secondary.ring.last then t else t.takeBack write

def echo (c : BitVec 8) : Tty :=
  let t := if c = 10 then (t.putWrite 10).putWrite 13
    else if c.toInt < 32 then if t.termios.L ECHOCTL then (t.putWrite 94).putWrite (c + 64) else t
    else t.putWrite c
  t.callWrite write

def store (c : BitVec 8) : Tty :=
  let t := if t.isLineEnd c then { t with secondary := { t.secondary with data := t.secondary.data + 1 } } else t
  let t := if t.termios.L ECHO then t.echo write c else t
  { t with secondary := { t.secondary with ring := t.secondary.ring.put c } }

def cookChar (c : BitVec 8) : Tty :=
  match t.translate before c with
  | none => t
  | some c =>
    if t.termios.L ICANON ∧ Is c t.termios.KILL_CHAR then killLine write t.secondary.ring.chars t
    else if t.termios.L ICANON ∧ Is c t.termios.ERASE_CHAR then t.eraseChar write
    else if t.termios.L ICANON ∧ Is c t.termios.STOP_CHAR then { t with stopped := true }
    else if t.termios.L ICANON ∧ Is c t.termios.START_CHAR then { t with stopped := false }
    -- `tty_intr`
    else if t.termios.L ISIG ∧ (Is c t.termios.INTR_CHAR ∨ Is c t.termios.QUIT_CHAR) then t
    else t.store write c

/-- One turn of the loop of `copy_to_cooked`. -/
def cook : Tty :=
  let c := t.readQ.ring.front
  { t with readQ := { t.readQ with ring := t.readQ.ring.pop } }.cookChar before write c

/-! ## tty_read -/

/-- The test before `sleep_if_empty`. -/
def mustWait : Prop :=
  t.secondary.ring.head = t.secondary.ring.tail ∨
    t.termios.L ICANON ∧ t.secondary.data = 0 ∧ 20 < t.secondary.ring.left

instance : Decidable t.mustWait := inferInstanceAs (Decidable (_ ∨ _))

/-- `GETCH(tty->secondary,c)`, and the counter. -/
def getch : Tty :=
  let c := t.secondary.ring.front
  { t with secondary := ⟨t.secondary.ring.pop, if t.isLineEnd c then t.secondary.data - 1 else t.secondary.data⟩ }

/-! ## tty_ioctl -/

/-- `flush` -/
def flushed (q : TtyQueue) : TtyQueue := { q with ring := q.ring.flush }

def tcflsh (arg : ℤ) : Tty :=
  if arg = 0 then { t with readQ := flushed t.readQ }
  else if arg = 1 then { t with writeQ := flushed t.writeQ }
  else if arg = 2 then { t with readQ := flushed t.readQ, writeQ := flushed t.writeQ }
  else t

/-- TCSETS, TCSETSW and, with `flush`, TCSETSF -/
def tcsets (flush : Bool) (n : Termios) : Tty :=
  { t with readQ := if flush then flushed t.readQ else t.readQ, termios := n }

/-- TCSETA, TCSETAW and, with `flush`, TCSETAF -/
def tcseta (flush : Bool) (n : Termio) : Tty :=
  { t with readQ := if flush then flushed t.readQ else t.readQ, termios := t.termios.setTermio n }

end Tty

/-! ## Runs -/

/-- `putting`: in `put_fs_byte`. -/
inductive ReadPlace
  | top
  | asleep
  | getting
  | putting

/-- `got` is `b-buf`. -/
structure Reader where
  nr : ℕ
  got : ℕ
  minimum : ℕ
  place : ReadPlace

/-- The start of `tty_read`. -/
def Tty.startRead (t : Tty) (nr : ℕ) : Reader :=
  let minimum := if t.termios.cc 5 ≠ 0 ∧ t.termios.cc 6 = 0 then 1 else (t.termios.cc 6).toNat
  ⟨nr, 0, min minimum nr, .top⟩

/-- Behind the inner loop: on, or out of `tty_read`. -/
def Reader.behind (t : Tty) (r : Reader) : Option Reader :=
  if (if t.termios.L ICANON then r.got ≠ 0 else r.minimum ≤ r.got) then none else some { r with place := .top }

structure TtySys (ι : Type*) where
  tty : Tty
  reader : ι → Option Reader

inductive TtyEvent (ι : Type*)
  | driver (ring : Ring 1024 (BitVec 8))
  | cook
  | read (i : ι) (nr : ℕ)
  /-- a signal, or `nr` is 0 -/
  | leave (i : ι)
  | wait (i : ι)
  | wake (i : ι)
  | test (i : ι)
  | get (i : ι)
  | next (i : ι)
  /-- `put_fs_byte` ends the process -/
  | fault (i : ι)
  | tcflsh (arg : ℤ)
  | tcsets (flush : Bool) (n : Termios)
  | tcseta (flush : Bool) (n : Termio)
  /-- the bytes that `set_termios` has copied when `get_fs_byte` faults -/
  | copied (n : Termios)

namespace TtySys

variable {ι : Type*} [DecidableEq ι] (before : BitVec 8 → Bool) (write : Ring 1024 (BitVec 8) → Ring 1024 (BitVec 8))
  (σ : TtySys ι)

/-- No reader is between its test and `GETCH`. -/
def Free : Prop := ∀ i r, σ.reader i = some r → r.place ≠ .getting

def setReader (i : ι) (r : Option Reader) : TtySys ι := { σ with reader := Function.update σ.reader i r }

inductive Step : TtySys ι → TtyEvent ι → TtySys ι → Prop
  | driver {σ : TtySys ι} {ring : Ring 1024 (BitVec 8)} :
      Step σ (.driver ring) { σ with tty := { σ.tty with readQ := { σ.tty.readQ with ring := ring } } }
  | cook {σ : TtySys ι} : σ.tty.readQ.ring.head ≠ σ.tty.readQ.ring.tail → σ.tty.secondary.ring.left ≠ 0 →
      Step σ .cook { σ with tty := σ.tty.cook before write }
  | read {σ : TtySys ι} {i : ι} {nr : ℕ} : σ.Free → σ.reader i = none →
      Step σ (.read i nr) (σ.setReader i (some (σ.tty.startRead nr)))
  | leave {σ : TtySys ι} {i : ι} {r : Reader} : σ.Free → σ.reader i = some r → r.place = .top →
      Step σ (.leave i) (σ.setReader i none)
  | wait {σ : TtySys ι} {i : ι} {r : Reader} : σ.Free → σ.reader i = some r → r.place = .top → r.nr ≠ 0 →
      σ.tty.mustWait → Step σ (.wait i) (σ.setReader i (some { r with place := .asleep }))
  | wake {σ : TtySys ι} {i : ι} {r : Reader} : σ.Free → σ.reader i = some r → r.place = .asleep →
      Step σ (.wake i) (σ.setReader i (some { r with place := .top }))
  | test {σ : TtySys ι} {i : ι} {r : Reader} : σ.Free → σ.reader i = some r → r.place = .top → r.nr ≠ 0 →
      ¬σ.tty.mustWait → Step σ (.test i) (σ.setReader i (some { r with place := .getting }))
  | getEof {σ : TtySys ι} {i : ι} {r : Reader} : σ.reader i = some r → r.place = .getting →
      Is σ.tty.secondary.ring.front σ.tty.termios.EOF_CHAR → σ.tty.termios.L ICANON →
      Step σ (.get i) { σ.setReader i none with tty := σ.tty.getch }
  | get {σ : TtySys ι} {i : ι} {r : Reader} : σ.reader i = some r → r.place = .getting →
      ¬(Is σ.tty.secondary.ring.front σ.tty.termios.EOF_CHAR ∧ σ.tty.termios.L ICANON) →
      Step σ (.get i)
        { σ.setReader i (some { r with nr := r.nr - 1, got := r.got + 1, place := .putting }) with tty := σ.tty.getch }
  | next {σ : TtySys ι} {i : ι} {r : Reader} : σ.Free → σ.reader i = some r → r.place = .putting →
      Step σ (.next i) (σ.setReader i
        (if r.nr = 0 ∨ σ.tty.secondary.ring.head = σ.tty.secondary.ring.tail then r.behind σ.tty
          else some { r with place := .getting }))
  | fault {σ : TtySys ι} {i : ι} {r : Reader} : σ.Free → σ.reader i = some r → r.place = .putting →
      Step σ (.fault i) (σ.setReader i none)
  | tcflsh {σ : TtySys ι} {arg : ℤ} : σ.Free → Step σ (.tcflsh arg) { σ with tty := σ.tty.tcflsh arg }
  | tcsets {σ : TtySys ι} {flush : Bool} {n : Termios} : σ.Free →
      Step σ (.tcsets flush n) { σ with tty := σ.tty.tcsets flush n }
  | tcseta {σ : TtySys ι} {flush : Bool} {n : Termio} : σ.Free →
      Step σ (.tcseta flush n) { σ with tty := σ.tty.tcseta flush n }
  | copied {σ : TtySys ι} {n : Termios} : σ.Free → Step σ (.copied n) { σ with tty := { σ.tty with termios := n } }

end TtySys

/-- A queue is empty at first; the settings are those of any terminal. -/
def TtyQueue.IsEmpty (q : TtyQueue) : Prop := q.ring.head = q.ring.tail ∧ q.data = 0

def ttySystem (ι : Type*) [DecidableEq ι] (before : BitVec 8 → Bool)
    (write : Ring 1024 (BitVec 8) → Ring 1024 (BitVec 8)) : Lts (TtySys ι) (TtyEvent ι) where
  init σ := σ.tty.secondary.IsEmpty ∧ ∀ i, σ.reader i = none
  step := TtySys.Step before write

end Linux011.Chr

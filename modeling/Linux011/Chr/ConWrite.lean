/-
  One call of `con_write`, with everything that it calls: for ESC Z the console answers with
  `respond`, and `copy_to_cooked` echoes the answer into the queue that `con_write` is working on and
  calls it again. `con_write_consumes` says for which queues, settings and parser states every byte
  is taken once and in order.

  The calls are the frames of Overrun; nothing interrupts them.
-/
import Linux011.Chr.OverrunRuns
import Linux011.Chr.TtyRuns

namespace Linux011.Chr.Overrun

open Linux011.Lib

variable {before : BitVec 8 → Bool} {x x' y z : Chan} {f : Frame} {fs gs : List Frame} {c : BitVec 8}

namespace Chan

/-- Between head and tail of the write queue are the bytes put and not taken. -/
def Tells (x : Chan) : Prop := (x.ring .write).contents = x.held .write

/-- The byte that `con_write` takes is the first one of them. -/
def Ready (x : Chan) : Prop := x.Tells ∧ x.held .write ≠ []

end Chan

/-- The calls run to their end, and every byte is taken when one is there. -/
inductive Consumes (before : BitVec 8 → Bool) : Chan → List Frame → Chan → Prop
  | done {x : Chan} : Consumes before x [] x
  | go {x y z : Chan} {f : Frame} {fs gs : List Frame} : (f.takes .write ≠ 0 → x.Ready) →
      x.go before false f = some (y, gs) → Consumes before y (gs ++ fs) z → Consumes before x (f :: fs) z

/-- The answers that the console gives before the last byte. -/
def answers : ℕ × ℕ → List (BitVec 8) → ℕ
  | _, [] => 0
  | e, c :: l => (if (escape e c).2 = true ∧ l ≠ [] then 1 else 0) + answers (escape e c).1 l

namespace Chan

variable (before) (x)

/-- `copy_to_cooked` takes this byte and echoes nothing, whatever the setting of ECHO. -/
def Silent (c : BitVec 8) : Prop :=
  match x.tty.translate before c with
  | none => True
  | some c =>
    let t := x.tty.termios
    if t.L ICANON ∧ (Is c t.KILL_CHAR ∨ Is c t.ERASE_CHAR) then x.atLine
    else t.L ICANON ∧ (Is c t.STOP_CHAR ∨ Is c t.START_CHAR) ∨ t.L ISIG ∧ (Is c t.INTR_CHAR ∨ Is c t.QUIT_CHAR)

/-- The read queue behind `respond`. -/
def answered : Ring 1024 (BitVec 8) := response.foldl Ring.put (x.ring .read)

/-- Nothing is echoed before the last byte: ECHO is off, or `copy_to_cooked` has no room, or the
    console answers at the end only. The answer can also run around the read queue and leave only
    bytes there that are not echoed, but this once. -/
def Quiet : Prop :=
  x.tty.termios.L ECHO = false ∨ (x.ring .secondary).left = 0 ∨ answers x.esc (x.held .write) = 0 ∨
    answers x.esc (x.held .write) = 1 ∧ ∀ c ∈ x.answered.contents, x.Silent before c

end Chan

/-! ## Runs of the calls -/

namespace Consumes

theorem append (h : Consumes before x fs y) (h' : Consumes before y gs z) : Consumes before x (fs ++ gs) z := by
  induction h with
  | done => exact h'
  | go hf hgo _ ih =>
    rw [List.cons_append]
    refine .go hf hgo ?_
    rw [← List.append_assoc]
    exact ih h'

/-- One call, and what it goes on with. -/
theorem one (hf : f.takes .write ≠ 0 → x.Ready) (hgo : x.go before false f = some (y, gs))
    (h : Consumes before y gs z) : Consumes before x [f] z := .go hf hgo (by rwa [List.append_nil])

end Consumes

variable {Q : Frame → Chan → Chan → Prop}

/-- The write queue, the parser and the settings are as they were. -/
structure Kept (x z : Chan) : Prop where
  console : z.console = x.console
  esc : z.esc = x.esc
  ring : z.ring .write = x.ring .write
  held : z.held .write = x.held .write
  termios : z.tty.termios = x.tty.termios

namespace Kept

theorem refl (x : Chan) : Kept x x := ⟨rfl, rfl, rfl, rfl, rfl⟩

theorem trans (h : Kept x y) (h' : Kept y z) : Kept x z :=
  ⟨h'.console.trans h.console, h'.esc.trans h.esc, h'.ring.trans h.ring, h'.held.trans h.held, h'.termios.trans h.termios⟩

theorem tells (h : Kept x z) : z.Tells ↔ x.Tells := by
  unfold Chan.Tells
  rw [h.ring, h.held]

theorem ready (h : Kept x z) : z.Ready ↔ x.Ready := by
  unfold Chan.Ready
  rw [h.tells, h.held]

theorem setRing {q : Queue} (hq : q ≠ .write) (x : Chan) (r : Ring 1024 (BitVec 8)) (l : List (BitVec 8)) :
    Kept x (x.setRing q r l) := by
  refine ⟨rfl, rfl, ?_, Function.update_of_ne (Ne.symm hq) .., by cases q <;> rfl⟩
  rw [Chan.ring_setRing, if_neg (Ne.symm hq)]

theorem putch {q : Queue} (hq : q ≠ .write) (x : Chan) (c : BitVec 8) : Kept x (x.putch q c) :=
  (setRing hq x ((x.ring q).put c) (x.held q ++ [c])).trans ⟨rfl, rfl, rfl, rfl, rfl⟩

theorem putAll {q : Queue} (hq : q ≠ .write) (bs : List (BitVec 8)) (x : Chan) : Kept x (Chan.putAll q bs x) := by
  induction bs generalizing x with
  | nil => exact refl x
  | cons c cs ih => exact (putch hq x c).trans (ih _)

theorem count (x : Chan) (c : BitVec 8) (d : BitVec 32) : Kept x (x.count c d) := by
  unfold Chan.count
  split_ifs
  · exact ⟨rfl, rfl, rfl, rfl, rfl⟩
  · exact refl x

end Kept

end Linux011.Chr.Overrun

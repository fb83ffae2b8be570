/-
  The other direction: where nothing is echoed before the last byte, a call of `con_write` runs to its
  end. The answer to the last byte is echoed into an empty queue, which each nested call empties
  again; a nested call answers only for a Z that came out of the read queue, of which there are fewer
  each time.
-/
import Linux011.Chr.ConWrite

namespace Linux011.Chr.Overrun

open Linux011.Lib

variable {before : BitVec 8 → Bool} {x x' y z : Chan} {f : Frame} {fs gs : List Frame} {c : BitVec 8} {bs : List (BitVec 8)}

namespace Chan

/-- Nothing is left in the write queue. -/
def Drained (x : Chan) : Prop := x.Tells ∧ x.held .write = []

/-- A byte that comes out of `copy_to_cooked` as Z, or as ^Z, which is echoed with a Z. -/
def Trigger (c : BitVec 8) : Prop := c = 90 ∨ c = 26 ∨ c = 250

instance : DecidablePred Trigger := fun _ => inferInstanceAs (Decidable (_ ∨ _ ∨ _))

def triggers (x : Chan) : ℕ := (x.ring .read).contents.countP fun c => Trigger c

end Chan

open Chan (Trigger)

/-- Console, settings, and no more triggers. -/
structure Served (x z : Chan) : Prop where
  console : z.console = x.console
  termios : z.tty.termios = x.tty.termios
  triggers : z.triggers ≤ x.triggers

/-- What a run of `copy_to_cooked` leaves. -/
structure Ran (x z : Chan) : Prop where
  served : Served x z
  off : x.tty.termios.L ECHO = false → Kept x z
  drained : x.Drained → z.Drained

/-- It may run: nothing is echoed, or the write queue is empty. -/
def May (x : Chan) : Prop := x.tty.termios.L ECHO = false ∨ x.Drained

theorem Served.trans (h : Served x y) (h' : Served y z) : Served x z :=
  ⟨h'.console.trans h.console, h'.termios.trans h.termios, h'.triggers.trans h.triggers⟩

theorem Kept.drained (h : Kept x z) : z.Drained ↔ x.Drained := by
  unfold Chan.Drained
  rw [h.tells, h.held]

theorem Kept.ran (h : Kept x z) (ht : z.triggers ≤ x.triggers) : Ran x z :=
  ⟨⟨h.console, h.termios, ht⟩, fun _ => h, h.drained.mpr⟩

theorem Ran.refl (x : Chan) : Ran x x := (Kept.refl x).ran le_rfl

theorem Ran.trans (h : Ran x y) (h' : Ran y z) : Ran x z :=
  ⟨h.served.trans h'.served, fun he => (h.off he).trans (h'.off (h.served.termios ▸ he)), fun hx => h'.drained (h.drained hx)⟩

/-- A call that takes nothing from the write queue. -/
theorem Consumes.step (hf : f.takes .write = 0) (hgo : x.go before false f = some (y, gs)) (h : Consumes before y gs z) :
    Consumes before x [f] z := .one (fun h0 => absurd hf h0) hgo h

/-! ## Triggers -/

theorem triggers_congr (h : z.ring .read = x.ring .read) : z.triggers = x.triggers := by
  unfold Chan.triggers
  rw [h]

/-- Only the write queue and the parser have changed. -/
structure Wrote (x z : Chan) : Prop where
  console : z.console = x.console
  termios : z.tty.termios = x.tty.termios
  read : z.ring .read = x.ring .read
  secondary : z.ring .secondary = x.ring .secondary

theorem Wrote.refl (x : Chan) : Wrote x x := ⟨rfl, rfl, rfl, rfl⟩

theorem Wrote.trans (h : Wrote x y) (h' : Wrote y z) : Wrote x z :=
  ⟨h'.console.trans h.console, h'.termios.trans h.termios, h'.read.trans h.read, h'.secondary.trans h.secondary⟩

theorem Wrote.served (h : Wrote x z) : Served x z := ⟨h.console, h.termios, (triggers_congr h.read).le⟩

end Linux011.Chr.Overrun

/-
  `tty_write` (kernel/chr_drv/tty_io.c) for any number of processes and the three channels. A process
  goes on until it sleeps in `sleep_if_full` or calls `schedule`; signals come whenever the code tests
  for them. What the drivers and the echo do to a write queue is left open, and they may do it at any
  time. The static `cr_flag` is one for all calls.
-/
import Linux011.Lib.Trans
import Linux011.Lib.Ring

namespace Linux011.Chr.Write

open Linux011.Lib

def OPOST : BitVec 32 := 0o1
def OLCUC : BitVec 32 := 0o2
def ONLCR : BitVec 32 := 0o4
def OCRNL : BitVec 32 := 0o10
def ONLRET : BitVec 32 := 0o40

-- `before`: what `islower` makes of a negative char, in front of its table
variable (before : BitVec 8 → Bool) (oflag : BitVec 32)

/-- `_O_FLAG` -/
def O (f : BitVec 32) : Bool := oflag &&& f ≠ 0

def toupper (c : BitVec 8) : BitVec 8 :=
  if (if c.toNat < 128 then 97 ≤ c.toNat ∧ c.toNat ≤ 122 else before c = true) then c - 32 else c

/-- The mappings of CR and NL. -/
def mapped (c : BitVec 8) : BitVec 8 :=
  if c = 13 ∧ O oflag OCRNL then 10 else if c = 10 ∧ O oflag ONLRET then 13 else c

/-- The byte is a newline that gets a CR in front. -/
def wantsCr (c : BitVec 8) : Prop := O oflag OPOST ∧ mapped oflag c = 10 ∧ O oflag ONLCR

instance (c : BitVec 8) : Decidable (wantsCr oflag c) := inferInstanceAs (Decidable (_ ∧ _))

/-- The byte as it is put in the end. -/
def upper (c : BitVec 8) : BitVec 8 :=
  if O oflag OPOST then if O oflag OLCUC then toupper before (mapped oflag c) else mapped oflag c else c

/-- `top`: at the test of the outer loop, or behind `schedule`; `inner`: in the inner loop. -/
inductive Place
  | top
  | asleep
  | inner
  | returned
  deriving DecidableEq

/-- A call: its channel and its buffer, the number of bytes it has taken (`b-buf`) and the bytes it has
    put. `cr` is what a `cr_flag` of its own would be. -/
structure Call where
  channel : Fin 3
  buf : List (BitVec 8)
  b : ℕ
  put : List (BitVec 8)
  cr : Bool
  place : Place

def Call.start (channel : Fin 3) (buf : List (BitVec 8)) : Call :=
  ⟨channel, buf, 0, [], false, if buf.length = 0 then .returned else .top⟩

structure Sys (ι : Type*) where
  ring : Fin 3 → Ring 1024 (BitVec 8)
  crFlag : Bool
  call : ι → Option Call

inductive Event (ι : Type*)
  | driver (channel : Fin 3) (ring : Ring 1024 (BitVec 8))
  | write (i : ι) (channel : Fin 3) (buf : List (BitVec 8))
  | sleep (i : ι)
  | go (i : ι)
  | signal (i : ι)
  | byte (i : ι)
  /-- `tty->write(tty)`, and `schedule` or the end -/
  | leave (i : ι)

namespace Sys

variable {ι : Type*} [DecidableEq ι] (oflag : Fin 3 → BitVec 32) (σ : Sys ι)

/-- No process but `i` is running in `tty_write`. -/
def Runs (i : ι) : Prop := ∀ j x, σ.call j = some x → x.place = .inner → j = i

def setCall (i : ι) (x : Call) : Sys ι := { σ with call := Function.update σ.call i (some x) }

def putch (channel : Fin 3) (c : BitVec 8) : Sys ι :=
  { σ with ring := Function.update σ.ring channel ((σ.ring channel).put c) }

/-- One turn of the inner loop. -/
def turn (i : ι) (x : Call) (c : BitVec 8) : Sys ι :=
  if wantsCr (oflag x.channel) c ∧ σ.crFlag = false then
    { (σ.putch x.channel 13).setCall i { x with put := x.put ++ [13], cr := true } with crFlag := true }
  else
    let c := upper before (oflag x.channel) c
    { (σ.putch x.channel c).setCall i { x with b := x.b + 1, put := x.put ++ [c], cr := false } with crFlag := false }

inductive Step : Sys ι → Event ι → Sys ι → Prop
  | driver {σ : Sys ι} {ch : Fin 3} {ring : Ring 1024 (BitVec 8)} :
      Step σ (.driver ch ring) { σ with ring := Function.update σ.ring ch ring }
  | write {σ : Sys ι} {i : ι} {ch : Fin 3} {buf : List (BitVec 8)} : σ.Runs i →
      (∀ x, σ.call i = some x → x.place = .returned) → Step σ (.write i ch buf) (σ.setCall i (.start ch buf))
  | sleep {σ : Sys ι} {i : ι} {x : Call} : σ.Runs i → σ.call i = some x → x.place = .top →
      (σ.ring x.channel).left = 0 → Step σ (.sleep i) (σ.setCall i { x with place := .asleep })
  | go {σ : Sys ι} {i : ι} {x : Call} : σ.Runs i → σ.call i = some x →
      x.place = .top ∧ (σ.ring x.channel).left ≠ 0 ∨ x.place = .asleep ∧ 128 ≤ (σ.ring x.channel).left →
      Step σ (.go i) (σ.setCall i { x with place := .inner })
  | signal {σ : Sys ι} {i : ι} {x : Call} : σ.Runs i → σ.call i = some x → x.place = .top ∨ x.place = .asleep →
      Step σ (.signal i) (σ.setCall i { x with place := .returned })
  | byte {σ : Sys ι} {i : ι} {x : Call} {c : BitVec 8} : σ.call i = some x → x.place = .inner → x.buf[x.b]? = some c →
      (σ.ring x.channel).left ≠ 0 → Step σ (.byte i) (σ.turn before oflag i x c)
  | leave {σ : Sys ι} {i : ι} {x : Call} : σ.call i = some x → x.place = .inner →
      x.buf.length ≤ x.b ∨ (σ.ring x.channel).left = 0 →
      Step σ (.leave i) (σ.setCall i { x with place := if x.buf.length ≤ x.b then .returned else .top })

end Sys

/-- At first nobody writes, and `cr_flag` is 0. -/
def writeSystem (ι : Type*) [DecidableEq ι] (before : BitVec 8 → Bool) (oflag : Fin 3 → BitVec 32) : Lts (Sys ι) (Event ι) where
  init σ := σ.crFlag = false ∧ ∀ i, σ.call i = none
  step := Sys.Step before oflag

/-! ## The translation -/

/-- What a byte becomes. -/
def translated (before : BitVec 8 → Bool) (oflag : BitVec 32) (c : BitVec 8) : List (BitVec 8) :=
  (if wantsCr oflag c then [13] else []) ++ [upper before oflag c]

/-- The output of a call is the translation of the bytes it has taken, with at most the CR of a
    newline it has not taken yet. -/
def Call.Exact (before : BitVec 8 → Bool) (oflag : Fin 3 → BitVec 32) (x : Call) : Prop :=
  x.put = (x.buf.take x.b).flatMap (translated before (oflag x.channel)) ∨
    ∃ c, x.buf[x.b]? = some c ∧ wantsCr (oflag x.channel) c ∧
      x.put = (x.buf.take x.b).flatMap (translated before (oflag x.channel)) ++ [13]

variable {ι : Type*} [DecidableEq ι] {before : BitVec 8 → Bool} {oflag : Fin 3 → BitVec 32} {σ σ' : Sys ι} {x : Call}

/-- `cr` tells which. -/
structure Call.Ok (before : BitVec 8 → Bool) (oflag : Fin 3 → BitVec 32) (x : Call) : Prop where
  done : x.cr = false → x.put = (x.buf.take x.b).flatMap (translated before (oflag x.channel))
  owes : x.cr = true → ∃ c, x.buf[x.b]? = some c ∧ wantsCr (oflag x.channel) c ∧
    x.put = (x.buf.take x.b).flatMap (translated before (oflag x.channel)) ++ [13]

theorem Call.Ok.exact (h : x.Ok before oflag) : x.Exact before oflag := by
  cases hcr : x.cr with
  | false => exact Or.inl (h.done hcr)
  | true => exact Or.inr (h.owes hcr)

/-- Where it is does not matter. -/
theorem Call.Ok.move (h : x.Ok before oflag) (p : Place) : ({ x with place := p } : Call).Ok before oflag := ⟨h.done, h.owes⟩

/-- A newline that is to get a CR is taken with the flag as the call has left it. -/
def Agrees (oflag : Fin 3 → BitVec 32) (σ : Sys ι) : Event ι → Prop
  | .byte i => ∀ x c, σ.call i = some x → x.buf[x.b]? = some c → wantsCr (oflag x.channel) c → σ.crFlag = x.cr
  | _ => True

theorem take_succ_of_get {l : List (BitVec 8)} {n : ℕ} {c : BitVec 8} (h : l[n]? = some c) : l.take (n + 1) = l.take n ++ [c] := by
  rw [List.take_add_one, h]
  rfl

theorem setCall_ok {i : ι} {y : Call} (h : ∀ j x, σ.call j = some x → x.Ok before oflag) (hy : y.Ok before oflag) :
    ∀ j x, (σ.setCall i y).call j = some x → x.Ok before oflag := by
  intro j x hj
  change Function.update σ.call i (some y) j = some x at hj
  by_cases he : j = i
  · rw [he, Function.update_self] at hj
    cases hj
    exact hy
  · rw [Function.update_of_ne he] at hj
    exact h j x hj

/-- A turn of the loop with the flag the call has left. -/
theorem turn_ok {i : ι} {c : BitVec 8} (h : ∀ j x, σ.call j = some x → x.Ok before oflag) (hx : σ.call i = some x)
    (hc : x.buf[x.b]? = some c) (ha : wantsCr (oflag x.channel) c → σ.crFlag = x.cr) :
    ∀ j y, (σ.turn before oflag i x c).call j = some y → y.Ok before oflag := by
  have hok := h i x hx
  unfold Sys.turn
  split_ifs with hcr
  · have hno : x.cr = false := (ha hcr.1).symm.trans hcr.2
    refine setCall_ok (σ := σ.putch x.channel 13) h ⟨nofun, fun _ => ⟨c, hc, hcr.1, ?_⟩⟩
    dsimp only
    rw [hok.done hno]
  · refine setCall_ok (σ := σ.putch x.channel _) h ⟨fun _ => ?_, nofun⟩
    dsimp only
    rw [take_succ_of_get hc, List.flatMap_append, List.flatMap_singleton]
    unfold translated
    by_cases hw : wantsCr (oflag x.channel) c
    · have hyes : x.cr = true := by
        rw [← ha hw]
        exact Bool.eq_true_of_not_eq_false fun h0 => hcr ⟨hw, h0⟩
      obtain ⟨-, -, -, hput⟩ := hok.owes hyes
      rw [if_pos hw, hput, ← List.append_assoc]
      rfl
    · have hno : x.cr = false := by
        by_contra hyes
        obtain ⟨c', hc', hw', -⟩ := hok.owes (Bool.eq_true_of_not_eq_false hyes)
        rw [hc] at hc'
        cases hc'
        exact hw hw'
      rw [if_neg hw, hok.done hno]
      rfl

theorem Sys.Step.ok {e : Event ι} (hs : Sys.Step before oflag σ e σ') (ha : Agrees oflag σ e)
    (h : ∀ j x, σ.call j = some x → x.Ok before oflag) : ∀ j x, σ'.call j = some x → x.Ok before oflag := by
  cases hs with
  | driver => exact h
  | write => exact setCall_ok h ⟨fun _ => rfl, nofun⟩
  | sleep _ hx => exact setCall_ok h ((h _ _ hx).move _)
  | go _ hx => exact setCall_ok h ((h _ _ hx).move _)
  | signal _ hx => exact setCall_ok h ((h _ _ hx).move _)
  | byte hx _ hc _ => exact turn_ok h hx hc (ha _ _ hx hc)
  | leave hx => exact setCall_ok h ((h _ _ hx).move _)

/-- In runs where no newline finds the flag of another call, each call puts the translation of the
    bytes it takes. -/
theorem output_per_call (h : ((writeSystem ι before oflag).restrict (Agrees oflag)).Reachable σ) {i : ι}
    (hx : σ.call i = some x) : x.Exact before oflag := by
  have hok : ∀ j x, σ.call j = some x → x.Ok before oflag := by
    refine h.invariant (fun σ hσ j x hj => ?_) fun σ e σ' _ hi hs => hs.2.ok hs.1 hi
    rw [hσ.2 j] at hj
    cases hj
  exact (hok i x hx).exact

/-! ## A newline -/

/-- No call, and write queues that take `n` more bytes. -/
def quietSys (n : Fin 1024) : Sys Bool := ⟨fun _ => ⟨0, n + 1, fun _ => 0⟩, false, fun _ => none⟩

/-- The settings of the console, for all channels. -/
def consoleFlags : Fin 3 → BitVec 32 := fun _ => 0o5

theorem Sys.runs_of_idle {σ : Sys Bool} {i : Bool} (h : ∀ x, σ.call (!i) = some x → x.place ≠ .inner) : σ.Runs i := by
  intro j x hj hin
  by_contra hne
  obtain rfl : j = !i := by cases i <;> cases j <;> first | rfl | exact absurd rfl hne
  exact h x hj hin

/-- A process writes a newline, and has room for it. -/
theorem one_newline : ∃ (σ : Sys Bool) (x : Call),
    ((writeSystem Bool (fun _ => false) consoleFlags).restrict (Agrees consoleFlags)).Reachable σ ∧ σ.call false = some x ∧
      x.put = [13, 10] ∧ x.b = 1 := by
  have h0 : ((writeSystem Bool (fun _ => false) consoleFlags).restrict (Agrees consoleFlags)).Reachable (quietSys 2) :=
    .init ⟨rfl, fun _ => rfl⟩
  have h1 := h0.step_restrict (show Sys.Step _ _ _ (.write false 0 [10]) _ from .write (Sys.runs_of_idle (by rintro x ⟨⟩)) nofun) trivial
  have h2 := h1.step_restrict (Sys.Step.go (i := false) (Sys.runs_of_idle (by rintro x ⟨⟩)) rfl (Or.inl ⟨rfl, by decide⟩)) trivial
  have h3 := h2.step_restrict (Sys.Step.byte (i := false) rfl rfl rfl (by decide)) fun x c hx _ _ => by cases hx; rfl
  have h4 := h3.step_restrict (Sys.Step.byte (i := false) rfl rfl rfl (by decide)) fun x c hx _ _ => by cases hx; rfl
  exact ⟨_, _, h4, rfl, rfl, rfl⟩

theorem output_per_call_newline : ∃ (σ : Sys Bool) (x : Call), σ.call false = some x ∧ x.put = [13, 10] ∧
    x.Exact (fun _ => false) consoleFlags := by
  obtain ⟨σ, x, h, hx, hput, -⟩ := one_newline
  exact ⟨σ, x, hx, hput, output_per_call h hx⟩

/-- A call has put the CR of its newline when the queue is full, and a signal ends it. The next call
    finds the flag set, and its newline gets no CR. -/
theorem output_not_per_call : ∃ (σ : Sys Bool) (x : Call), (writeSystem Bool (fun _ => false) consoleFlags).Reachable σ ∧
    σ.call true = some x ∧ x.place = .returned ∧ x.buf = [10] ∧ x.b = 1 ∧ x.put = [10] ∧
      ¬ x.Exact (fun _ => false) consoleFlags := by
  have h0 : (writeSystem Bool (fun _ => false) consoleFlags).Reachable (quietSys 1) := .init ⟨rfl, fun _ => rfl⟩
  have h1 := h0.step (show Sys.Step _ _ _ (.write false 0 [10]) _ from .write (Sys.runs_of_idle (by rintro x ⟨⟩)) nofun)
  have h2 := h1.step (Sys.Step.go (i := false) (Sys.runs_of_idle (by rintro x ⟨⟩)) rfl (Or.inl ⟨rfl, by decide⟩))
  have h3 := h2.step (Sys.Step.byte (i := false) rfl rfl rfl (by decide))
  have h4 := h3.step (Sys.Step.leave (i := false) rfl rfl (Or.inr (by decide)))
  have h5 := h4.step (Sys.Step.signal (i := false) (Sys.runs_of_idle (by rintro x ⟨⟩)) rfl (Or.inl rfl))
  have h6 := h5.step (show Sys.Step _ _ _ (.write true 1 [10]) _ from .write (Sys.runs_of_idle (by rintro x ⟨⟩; decide)) nofun)
  have h7 := h6.step (Sys.Step.go (i := true) (Sys.runs_of_idle (by rintro x ⟨⟩; decide)) rfl (Or.inl ⟨rfl, by decide⟩))
  have h8 := h7.step (Sys.Step.byte (i := true) rfl rfl rfl (by decide))
  have h9 := h8.step (Sys.Step.leave (i := true) rfl rfl (Or.inl (by decide)))
  refine ⟨_, _, h9, rfl, rfl, rfl, rfl, rfl, ?_⟩
  rintro (h | ⟨c, hc, -⟩)
  · exact absurd h (by decide)
  · cases hc

end Linux011.Chr.Write

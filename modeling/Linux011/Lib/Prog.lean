/-
  Programs over a state that end normally, at a fault in the middle (with the state reached so
  far), or in a stop. `Spec` says what holds at the three ends; its rules follow the program.
-/
import Linux011.Lib.Sizes
import Mathlib.Data.Nat.Notation
import Mathlib.Tactic.Common

namespace Linux011.Lib

variable {σ ε α β : Type}

inductive Out (σ ε α : Type)
  | ok (a : α) (s : σ)
  | fault (s : σ)
  | stop (e : ε)

def Prog (σ ε α : Type) : Type := σ → Out σ ε α

namespace Prog

instance : Monad (Prog σ ε) where
  pure a := fun s => .ok a s
  bind m f := fun s => match m s with
    | .ok a s => f a s
    | .fault s => .fault s
    | .stop e => .stop e

def get : Prog σ ε σ := fun s => .ok s s

def modify (f : σ → σ) : Prog σ ε Unit := fun s => .ok () (f s)

def halt (e : ε) : Prog σ ε α := fun _ => .stop e

/-- The program without its result. -/
def void (m : Prog σ ε α) : Prog σ ε Unit := do
  let _ ← m
  pure ()

/-- `f` for each element of the list, in order. -/
def each (f : α → Prog σ ε Unit) : List α → Prog σ ε Unit
  | [] => pure ()
  | a :: l => do
    f a
    each f l

end Prog

theorem Prog.get_run (s : σ) : (Prog.get : Prog σ ε σ) s = .ok s s := rfl

theorem Prog.bind_run {m : Prog σ ε α} {f : α → Prog σ ε β} {s s1 : σ} {a : α} (h : m s = .ok a s1) :
    (m >>= f) s = f a s1 := by
  change (match m s with
    | .ok a s => f a s
    | .fault s => .fault s
    | .stop e => .stop e : Out σ ε β) = _
  rw [h]

theorem Prog.bind_stop {m : Prog σ ε α} {f : α → Prog σ ε β} {s : σ} {e : ε} (h : m s = .stop e) :
    (m >>= f) s = .stop e := by
  change (match m s with
    | .ok a s => f a s
    | .fault s => .fault s
    | .stop e => .stop e : Out σ ε β) = _
  rw [h]

theorem Prog.bind_fault {m : Prog σ ε α} {f : α → Prog σ ε β} {s s1 : σ} (h : m s = .fault s1) :
    (m >>= f) s = .fault s1 := by
  change (match m s with
    | .ok a s => f a s
    | .fault s => .fault s
    | .stop e => .stop e : Out σ ε β) = _
  rw [h]

/-- A normal end of two programs in a row. -/
theorem Prog.bind_ok {m : Prog σ ε α} {f : α → Prog σ ε β} {s s' : σ} {b : β}
    (h : (m >>= f) s = .ok b s') : ∃ a s1, m s = .ok a s1 ∧ f a s1 = .ok b s' := by
  change (match m s with
    | .ok a s => f a s
    | .fault s => .fault s
    | .stop e => .stop e : Out σ ε β) = _ at h
  cases he : m s with
  | ok a s1 => rw [he] at h; exact ⟨a, s1, rfl, h⟩
  | fault s1 => rw [he] at h; cases h
  | stop e => rw [he] at h; cases h

/-- The state of a normal end. -/
def Out.state? : Out σ ε α → Option σ
  | .ok _ s => some s
  | _ => none

/-- The value of a normal end. -/
def Out.value? : Out σ ε α → Option α
  | .ok a _ => some a
  | _ => none

theorem Out.state?_eq_some {o : Out σ ε α} {s : σ} : o.state? = some s ↔ ∃ a, o = .ok a s := by
  cases o with
  | ok a s' => simp [state?]
  | fault s' => simp [state?]
  | stop e => simp [state?]

/-- The state at a fault. -/
def Out.fault? : Out σ ε α → Option σ
  | .fault s => some s
  | _ => none

theorem Out.fault?_eq_some {o : Out σ ε α} {s : σ} : o.fault? = some s ↔ o = .fault s := by
  cases o with
  | ok a s' => simp [fault?]
  | fault s' => simp [fault?]
  | stop e => simp [fault?]

/-- What holds at the end. -/
def Out.Ends (Q : α → σ → Prop) (R : σ → Prop) (E : ε → Prop) : Out σ ε α → Prop
  | .ok a s => Q a s
  | .fault s => R s
  | .stop e => E e

theorem Out.ends_mono {Q Q' : α → σ → Prop} {R : σ → Prop} {E : ε → Prop} {o : Out σ ε α} (h : o.Ends Q R E)
    (hQ : ∀ a s, Q a s → Q' a s) : o.Ends Q' R E := by
  cases o with
  | ok a s => exact hQ a s h
  | fault s => exact h
  | stop e => exact h

/-- From a state with `P` the program ends with `Q`, at a fault with `R`, or in a stop with `E`. -/
def Spec (R : σ → Prop) (E : ε → Prop) (P : σ → Prop) (m : Prog σ ε α) (Q : α → σ → Prop) : Prop :=
  ∀ s, P s → (m s).Ends Q R E

namespace Spec

variable {R : σ → Prop} {E : ε → Prop} {P P' : σ → Prop} {Q Q' : α → σ → Prop} {m : Prog σ ε α}

theorem at_ok {s s' : σ} {a : α} (h : Spec R E P m Q) (hs : P s) (he : m s = .ok a s') : Q a s' := by
  have h1 := h s hs
  rw [he] at h1
  exact h1

theorem at_fault {s s' : σ} (h : Spec R E P m Q) (hs : P s) (he : m s = .fault s') : R s' := by
  have h1 := h s hs
  rw [he] at h1
  exact h1

theorem pure {a : α} (h : ∀ s, P s → Q a s) : Spec R E P (Pure.pure a : Prog σ ε α) Q := h

theorem bind {f : α → Prog σ ε β} {M : α → σ → Prop} {Q : β → σ → Prop} (hm : Spec R E P m M)
    (hf : ∀ a, Spec R E (M a) (f a) Q) : Spec R E P (m >>= f) Q := by
  intro s hs
  have h1 := hm s hs
  change (match m s with
    | .ok a s => f a s
    | .fault s => .fault s
    | .stop e => .stop e : Out σ ε β).Ends Q R E
  cases he : m s with
  | ok a s' => rw [he] at h1; exact hf a s' h1
  | fault s' => rw [he] at h1; exact h1
  | stop e => rw [he] at h1; exact h1

theorem assoc {γ : Type} {k : α → Prog σ ε β} {f : β → Prog σ ε γ} {Q : γ → σ → Prop}
    (h : Spec R E P ((m >>= k) >>= f) Q) : Spec R E P (m >>= fun a => k a >>= f) Q := by
  intro s hs
  have h1 := h s hs
  change (match (match m s with
    | .ok a s => k a s
    | .fault s => .fault s
    | .stop e => .stop e : Out σ ε β) with
    | .ok b s => f b s
    | .fault s => .fault s
    | .stop e => .stop e : Out σ ε γ).Ends Q R E at h1
  change (match m s with
    | .ok a s => (k a >>= f) s
    | .fault s => .fault s
    | .stop e => .stop e : Out σ ε γ).Ends Q R E
  cases he : m s with
  | ok a s' => rw [he] at h1; exact h1
  | fault s' => rw [he] at h1; exact h1
  | stop e => rw [he] at h1; exact h1

theorem conseq (h : Spec R E P m Q) (hP : ∀ s, P' s → P s) (hQ : ∀ a s, Q a s → Q' a s) :
    Spec R E P' m Q' := by
  intro s hs
  have h1 := h s (hP s hs)
  cases he : m s with
  | ok a s' => rw [he] at h1; exact hQ a s' h1
  | fault s' => rw [he] at h1; exact h1
  | stop e => rw [he] at h1; exact h1

theorem pre (h : Spec R E P m Q) (hP : ∀ s, P' s → P s) : Spec R E P' m Q := fun s hs => h s (hP s hs)

theorem post (h : Spec R E P m Q) (hQ : ∀ a s, Q a s → Q' a s) : Spec R E P m Q' :=
  h.conseq (fun _ hs => hs) hQ

theorem fault {R' : σ → Prop} (h : Spec R E P m Q) (hR : ∀ s, R s → R' s) : Spec R' E P m Q := by
  intro s hs
  have h1 := h s hs
  cases he : m s with
  | ok a s' => rw [he] at h1; exact h1
  | fault s' => rw [he] at h1; exact hR s' h1
  | stop e => rw [he] at h1; exact h1

/-- Two specifications, of which the second says nothing of faults and stops. -/
theorem and (h : Spec R E P m Q) (h' : Spec (fun _ => True) (fun _ => True) P' m Q') :
    Spec R E (fun s => P s ∧ P' s) m fun a s => Q a s ∧ Q' a s := by
  intro s hs
  have h1 := h s hs.1
  have h2 := h' s hs.2
  cases he : m s with
  | ok a s' => rw [he] at h1 h2; exact ⟨h1, h2⟩
  | fault s' => rw [he] at h1; exact h1
  | stop e => rw [he] at h1; exact h1

theorem ite {c : Prop} [Decidable c] {n : Prog σ ε α} (ht : c → Spec R E P m Q)
    (hf : ¬ c → Spec R E P n Q) : Spec R E P (if c then m else n) Q := by
  split_ifs with hc
  · exact ht hc
  · exact hf hc

/-- Whatever is known of the state before is known of the state read. -/
theorem get_bind {f : σ → Prog σ ε α} (h : ∀ s, P s → Spec R E (fun s' => s' = s) (f s) Q) :
    Spec R E P (Prog.get >>= f) Q := fun s hs => h s hs s rfl

/-- The state read is one with `P`. -/
theorem get {f : σ → Prog σ ε α} (h : ∀ s, P s → Spec R E P (f s) Q) : Spec R E P (Prog.get >>= f) Q :=
  fun s hs => h s hs s hs

theorem modify {f : σ → σ} {Q : Unit → σ → Prop} (h : ∀ s, P s → Q () (f s)) :
    Spec R E P (Prog.modify f) Q := h

theorem halt {e : ε} (h : E e) : Spec R E P (Prog.halt e : Prog σ ε α) Q := fun _ _ => h

theorem each_mem {f : α → Prog σ ε Unit} :
    ∀ l : List α, (∀ a ∈ l, Spec R E P (f a) fun _ => P) → Spec R E P (Prog.each f l) fun _ => P
  | [], _ => Spec.pure fun _ hs => hs
  | a :: l, hf => (hf a List.mem_cons_self).bind fun _ => each_mem l fun b hb => hf b (List.mem_cons_of_mem a hb)

theorem each {f : α → Prog σ ε Unit} (hf : ∀ a, Spec R E P (f a) fun _ => P) (l : List α) :
    Spec R E P (Prog.each f l) fun _ => P := each_mem l fun a _ => hf a

/-- A loop with an invariant of what is left to do. -/
theorem each_rest {f : α → Prog σ ε Unit} {P : List α → σ → Prop}
    (hf : ∀ a l, Spec R E (P (a :: l)) (f a) fun _ => P l) : ∀ l, Spec R E (P l) (Prog.each f l) fun _ => P []
  | [] => Spec.pure fun _ hs => hs
  | a :: l => (hf a l).bind fun _ => each_rest hf l

theorem void {Q : Unit → σ → Prop} (h : Spec R E P m fun _ => Q ()) : Spec R E P (Prog.void m) Q :=
  h.bind fun _ => Spec.pure fun _ hs => hs

/-- A fact that does not depend on the state can be moved out of the precondition. -/
theorem of_fact {φ : Prop} (h : φ → Spec R E P m Q) : Spec R E (fun s => φ ∧ P s) m Q :=
  fun s hs => h hs.1 s hs.2

theorem of_fact_right {φ : Prop} (h : φ → Spec R E P m Q) : Spec R E (fun s => P s ∧ φ) m Q :=
  fun s hs => h hs.2 s hs.1

end Spec

end Linux011.Lib

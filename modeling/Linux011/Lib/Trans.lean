/-
  Labelled transition systems: reachable states, and the rule that proves an invariant of all
  of them from the initial states and one step.
-/
import Linux011.Lib.Sizes
import Mathlib.Data.Nat.Notation
import Mathlib.Tactic.Common

namespace Linux011.Lib

variable {S E : Type*}

/-- Initial states, and steps labelled with events. -/
structure Lts (S E : Type*) where
  init : S → Prop
  step : S → E → S → Prop

namespace Lts

inductive Reachable (M : Lts S E) : S → Prop
  | init {s : S} : M.init s → Reachable M s
  | step {s s' : S} {e : E} : Reachable M s → M.step s e s' → Reachable M s'

/-- The same system when only the steps that meet `C` are taken. -/
def restrict (M : Lts S E) (C : S → E → Prop) : Lts S E where
  init := M.init
  step s e s' := C s e ∧ M.step s e s'

variable {M : Lts S E}

theorem Reachable.of_restrict {C : S → E → Prop} {s : S} (h : (M.restrict C).Reachable s) :
    M.Reachable s := by
  induction h with
  | init h => exact .init h
  | step _ h ih => exact .step ih h.2

theorem Reachable.step_restrict {C : S → E → Prop} {s s' : S} {e : E} (h : (M.restrict C).Reachable s)
    (hs : M.step s e s') (hC : C s e) : (M.restrict C).Reachable s' := .step h ⟨hC, hs⟩

/-- Fewer restrictions, more runs. -/
theorem Reachable.mono {C C' : S → E → Prop} {s : S} (hC : ∀ s e, C s e → C' s e)
    (h : (M.restrict C).Reachable s) : (M.restrict C').Reachable s := by
  induction h with
  | init h => exact .init h
  | step _ h ih => exact .step ih ⟨hC _ _ h.1, h.2⟩

/-- An invariant of the initial states and of every step holds in every reachable state. -/
theorem Reachable.invariant {I : S → Prop} {s : S} (h : M.Reachable s)
    (hinit : ∀ s, M.init s → I s)
    (hstep : ∀ s e s', M.Reachable s → I s → M.step s e s' → I s') : I s := by
  induction h with
  | init h => exact hinit _ h
  | step hr h ih => exact hstep _ _ _ hr ih h

/-- An infinite run. -/
structure IsRun (M : Lts S E) (σ : ℕ → S) (e : ℕ → E) : Prop where
  init : M.init (σ 0)
  step : ∀ k, M.step (σ k) (e k) (σ (k + 1))

theorem IsRun.reachable {σ : ℕ → S} {e : ℕ → E} (h : M.IsRun σ e) (k : ℕ) : M.Reachable (σ k) := by
  induction k with
  | zero => exact .init h.init
  | succ k ih => exact ih.step (h.step k)

/-- A run computed by a function whose every step is a step of the system. -/
theorem Reachable.foldlM {A : Type*} {f : S → A → Option S} {s s' : S} (h : M.Reachable s)
    (hf : ∀ s a s', f s a = some s' → ∃ e, M.step s e s') (l : List A)
    (hl : l.foldlM f s = some s') : M.Reachable s' := by
  induction l generalizing s with
  | nil =>
    cases hl
    exact h
  | cons a l ih =>
    rw [List.foldlM_cons] at hl
    obtain ⟨s1, h1, hl⟩ := Option.bind_eq_some_iff.mp hl
    obtain ⟨e, he⟩ := hf s a s1 h1
    exact ih (h.step he) hl

/-- The states that can be reached by these events, the last one first. -/
inductive Trace (M : Lts S E) : List E → S → Prop
  | init {s : S} : M.init s → Trace M [] s
  | step {s s' : S} {e : E} {es : List E} : Trace M es s → M.step s e s' → Trace M (e :: es) s'

theorem Trace.reachable {es : List E} {s : S} (h : M.Trace es s) : M.Reachable s := by
  induction h with
  | init h => exact .init h
  | step _ h ih => exact .step ih h

theorem Trace.of_restrict {C : S → E → Prop} {es : List E} {s : S} (h : (M.restrict C).Trace es s) : M.Trace es s := by
  induction h with
  | init h => exact .init h
  | step _ h ih => exact .step ih h.2

theorem Trace.step_restrict {C : S → E → Prop} {es : List E} {e : E} {s s' : S} (h : (M.restrict C).Trace es s)
    (hs : M.step s e s') (hC : C s e) : (M.restrict C).Trace (e :: es) s' := .step h ⟨hC, hs⟩

/-- A quantity that no step raises and some events lower bounds how many of these there are. -/
theorem Trace.countP_le {I : S → Prop} {V : S → ℕ} {p : E → Bool} {n : ℕ} {es : List E} {s : S} (h : M.Trace es s)
    (hinit : ∀ s, M.init s → I s ∧ V s ≤ n)
    (hstep : ∀ s e s', I s → M.step s e s' → I s' ∧ V s' + (if p e then 1 else 0) ≤ V s) : I s ∧ es.countP p + V s ≤ n := by
  induction h with
  | init h =>
    obtain ⟨hi, hn⟩ := hinit _ h
    exact ⟨hi, by rwa [List.countP_nil, Nat.zero_add]⟩
  | step _ h ih =>
    obtain ⟨hi, hn⟩ := hstep _ _ _ ih.1 h
    refine ⟨hi, ?_⟩
    rw [List.countP_cons]
    omega

/-- A system that follows a function on its events: what the two agree on at the start and keep
    agreeing on at every step, they agree on after every run. -/
theorem Trace.simulates {T : Type*} {f : T → E → T} {t : T} {R : S → T → Prop} {es : List E} {s : S}
    (h : M.Trace es s) (hinit : ∀ s, M.init s → R s t) (hstep : ∀ s e s' t, R s t → M.step s e s' → R s' (f t e)) :
    R s (es.foldr (fun e t => f t e) t) := by
  induction h with
  | init h => exact hinit _ h
  | step _ h ih => exact hstep _ _ _ _ ih h

end Lts

end Linux011.Lib

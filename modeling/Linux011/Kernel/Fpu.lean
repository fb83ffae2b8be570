/-
  The floating point unit: `math_state_restore`, `switch_to`, and what `copy_process`, `do_execve` and
  `do_exit` do to it. `switch_to` leaves a task in the middle of `switch_to`, a child starts elsewhere.

  With one unit for each task (`Private`) every task sees the same, in all runs in which no task
  forks while the unit holds its state, and none finds TS clear after it has called `do_execve`:
  `lazy_fpu_transparent`. `copy_process` saves the state for the child with `fnsave`, which clears the
  unit of the parent; `do_execve` forgets the owner and leaves TS clear.

  Errors of the unit (`math_error`) are left out.
-/
import Linux011.Lib.Trans
import Mathlib.Data.Fintype.Defs

namespace Linux011.Kernel.Fpu

open Linux011.Lib

/-- `started`: the task has left the processor in `switch_to`. -/
structure Task (F : Type) where
  usedMath : Bool
  i387 : F
  started : Bool
  zombie : Bool

/-- `live` is the state in the unit, `lastTaskUsedMath` an entry of the table; `seen`: what the
    instructions have found, with their tasks. -/
structure Sys (F : Type) where
  task : Fin 64 → Option (Task F)
  current : Fin 64
  lastTaskUsedMath : Option (Fin 64)
  ts : Bool
  live : F
  seen : List (Fin 64 × F)

/-- `memory`: `copy_mem` finds some. -/
inductive Event (F : Type)
  | fpu (instr : F → F)
  | switch (n : Fin 64)
  | fork (nr : Fin 64) (memory : Bool)
  | exec
  /-- `do_exit` with the switch at its end -/
  | exit (n : Fin 64)
  | release (i : Fin 64)

namespace Sys

variable {F : Type} (fresh : F) (σ : Sys F)

def change (i : Fin 64) (f : Task F → Task F) : Sys F := { σ with task := Function.update σ.task i ((σ.task i).map f) }

/-- `fnsave last_task_used_math->tss.i387` -/
def fnsave : Sys F :=
  match σ.lastTaskUsedMath with
  | none => σ
  | some i => { σ.change i fun p => { p with i387 := σ.live } with live := fresh }

def mathStateRestore (p : Task F) : Sys F :=
  if σ.lastTaskUsedMath = some σ.current then σ
  else
    let σ := { σ.fnsave fresh with lastTaskUsedMath := some σ.current }
    if p.usedMath then { σ with live := p.i387 }
    else { σ.change σ.current fun p => { p with usedMath := true } with live := fresh }

/-- `device_not_available` -/
def deviceNotAvailable (p : Task F) : Sys F := { σ with ts := false }.mathStateRestore fresh p

def fpu (p : Task F) (instr : F → F) : Sys F :=
  let σ := if σ.ts then σ.deviceNotAvailable fresh p else σ
  { σ with seen := (σ.current, σ.live) :: σ.seen, live := instr σ.live }

/-- `switch_to`. Task `n` goes on behind the jump, unless it is a child that has not run. -/
def switchTo (n : Fin 64) (q : Task F) : Sys F :=
  { σ.change σ.current fun p => { p with started := true } with
    current := n, ts := !(q.started && σ.lastTaskUsedMath = some n) }

/-- `copy_process` -/
def fork (nr : Fin 64) (memory : Bool) (p : Task F) : Sys F :=
  let p := { p with started := false }
  let own := σ.lastTaskUsedMath = some σ.current
  let p := if own then { p with i387 := σ.live } else p
  let σ := if own then { σ with ts := false, live := fresh } else σ
  if memory then { σ with task := Function.update σ.task nr (some p) } else σ

def dropOwner : Sys F :=
  if σ.lastTaskUsedMath = some σ.current then { σ with lastTaskUsedMath := none } else σ

/-- `do_execve` -/
def exec : Sys F := σ.dropOwner.change σ.current fun p => { p with usedMath := false }

/-- `do_exit`, with `schedule` -/
def exit (n : Fin 64) (q : Task F) : Sys F :=
  (σ.dropOwner.change σ.current fun p => { p with zombie := true }).switchTo n q

inductive Step : Sys F → Event F → Sys F → Prop
  | fpu {σ : Sys F} {p : Task F} {instr : F → F} : σ.task σ.current = some p →
      Step σ (.fpu instr) (σ.fpu fresh p instr)
  | switch {σ : Sys F} {n : Fin 64} {q : Task F} : n ≠ σ.current → σ.task n = some q → q.zombie = false →
      Step σ (.switch n) (σ.switchTo n q)
  | fork {σ : Sys F} {nr : Fin 64} {memory : Bool} {p : Task F} : σ.task σ.current = some p → σ.task nr = none →
      Step σ (.fork nr memory) (σ.fork fresh nr memory p)
  | exec {σ : Sys F} : Step σ .exec σ.exec
  | exit {σ : Sys F} {n : Fin 64} {q : Task F} : n ≠ σ.current → σ.task n = some q → q.zombie = false →
      Step σ (.exit n) (σ.exit n q)
  | release {σ : Sys F} {i : Fin 64} {p : Task F} : σ.task i = some p → p.zombie = true →
      Step σ (.release i) { σ with task := Function.update σ.task i none }

/-- Task 0. TS is clear as head.s leaves it, and `check_x87` has initialised the unit. -/
def start : Sys F where
  task := Function.update (fun _ => none) 0 (some ⟨false, fresh, false, false⟩)
  current := 0
  lastTaskUsedMath := none
  ts := false
  live := fresh
  seen := []

end Sys

def fpuSystem {F : Type} (fresh : F) : Lts (Sys F) (Event F) where
  init σ := σ = Sys.start fresh
  step := Sys.Step fresh

/-! ## One unit for each task -/

structure Private (F : Type) where
  unit : Fin 64 → F
  current : Fin 64
  seen : List (Fin 64 × F)

namespace Private

variable {F : Type} (fresh : F)

def step (a : Private F) : Event F → Private F
  | .fpu instr =>
    { a with seen := (a.current, a.unit a.current) :: a.seen,
             unit := Function.update a.unit a.current (instr (a.unit a.current)) }
  | .switch n => { a with current := n }
  | .fork nr memory => if memory then { a with unit := Function.update a.unit nr (a.unit a.current) } else a
  | .exec => { a with unit := Function.update a.unit a.current fresh }
  | .exit n => { a with current := n }
  | .release _ => a

def start : Private F := ⟨fun _ => fresh, 0, []⟩

/-- The last event comes first. -/
def run (es : List (Event F)) : Private F := es.foldr (fun e a => a.step fresh e) (start fresh)

end Private

/-! ## The two agree -/

variable {F : Type} {fresh : F} {σ σ' : Sys F} {a : Private F} {i j n : Fin 64} {p q : Task F}

/-- No task forks while the unit holds its state, and none uses the unit when TS is clear and the unit
    is not its own. -/
def Fits (σ : Sys F) : Event F → Prop
  | .fork _ _ => σ.lastTaskUsedMath ≠ some σ.current
  | .fpu _ => σ.ts = false → σ.lastTaskUsedMath = some σ.current
  | _ => True

/-- The state of task `i`, in the unit or in its TSS. -/
def Sys.value (fresh : F) (σ : Sys F) (i : Fin 64) (p : Task F) : F :=
  if σ.lastTaskUsedMath = some i then σ.live else if p.usedMath then p.i387 else fresh

structure Kept (fresh : F) (σ : Sys F) (a : Private F) : Prop where
  seen : a.seen = σ.seen
  owner : ∀ i, σ.lastTaskUsedMath = some i →
    ∃ p, σ.task i = some p ∧ p.zombie = false ∧ p.usedMath = true ∧ (i = σ.current ∨ p.started = true)
  unit : ∀ i p, σ.task i = some p → p.zombie = false → a.unit i = σ.value fresh i p

structure Agrees (fresh : F) (σ : Sys F) (a : Private F) : Prop extends Kept fresh σ a where
  current : a.current = σ.current
  running : ∃ p, σ.task σ.current = some p ∧ p.zombie = false
  ts : ∀ i, σ.lastTaskUsedMath = some i → (σ.ts = false ↔ i = σ.current)

/-- Task `i` after a trap of the running task: what was in the unit is in its TSS. -/
def Sys.saved (σ : Sys F) (i : Fin 64) (p : Task F) : Task F :=
  { p with i387 := if σ.lastTaskUsedMath = some i then σ.live else p.i387,
           usedMath := p.usedMath || i = σ.current }

theorem fnsave_task (fresh : F) (σ : Sys F) (i : Fin 64) : (σ.fnsave fresh).task i =
    (σ.task i).map fun p => { p with i387 := if σ.lastTaskUsedMath = some i then σ.live else p.i387 } := by
  unfold Sys.fnsave
  cases hl : σ.lastTaskUsedMath with
  | none => cases σ.task i <;> rfl
  | some j =>
    change Function.update σ.task j ((σ.task j).map _) i = _
    rw [Function.update_apply]
    by_cases hij : i = j
    · rw [if_pos hij, hij]
      simp
    · rw [if_neg hij]
      simp [Ne.symm hij]

theorem fnsave_rest (fresh : F) (σ : Sys F) : (σ.fnsave fresh).current = σ.current ∧ (σ.fnsave fresh).ts = σ.ts ∧
    (σ.fnsave fresh).seen = σ.seen := by
  unfold Sys.fnsave
  cases σ.lastTaskUsedMath <;> exact ⟨rfl, rfl, rfl⟩

/-- The trap of a task that does not own the unit. -/
theorem deviceNotAvailable_spec (fresh : F) (hp : σ.task σ.current = some p) (hown : σ.lastTaskUsedMath ≠ some σ.current) :
    let τ := σ.deviceNotAvailable fresh p
    τ.current = σ.current ∧ τ.seen = σ.seen ∧ τ.ts = false ∧ τ.lastTaskUsedMath = some σ.current ∧
      τ.live = σ.value fresh σ.current p ∧ ∀ i, τ.task i = (σ.task i).map (σ.saved i) := by
  obtain ⟨hc, ht, hs⟩ := fnsave_rest fresh { σ with ts := false }
  have htask := fnsave_task fresh { σ with ts := false }
  unfold Sys.deviceNotAvailable Sys.mathStateRestore Sys.value
  rw [if_neg hown, if_neg hown]
  dsimp only at hc ht hs htask ⊢
  by_cases hu : p.usedMath = true
  · rw [if_pos hu, if_pos hu]
    refine ⟨hc, hs, ht, rfl, rfl, fun i => ?_⟩
    refine (htask i).trans (Option.map_congr fun q hq => ?_)
    by_cases hi : i = σ.current
    · subst hi
      cases hp.symm.trans hq
      simp [Sys.saved, hu]
    · simp [Sys.saved, hi]
  · rw [if_neg hu, if_neg hu]
    refine ⟨hc, hs, ht, rfl, rfl, fun i => ?_⟩
    refine (Function.update_apply ..).trans ?_
    dsimp only
    by_cases hi : i = (({ σ with ts := false } : Sys F).fnsave fresh).current
    · have hi' : i = σ.current := hi.trans hc
      rw [if_pos hi, htask, Option.map_map, ← hi]
      exact Option.map_congr fun q _ => by simp [Sys.saved, hi']
    · have hi' : i ≠ σ.current := fun he => hi (he.trans hc.symm)
      rw [if_neg hi, htask i]
      exact Option.map_congr fun q _ => by simp [Sys.saved, hi']

/-- The trap makes the unit the running task's, with the task's state in it. -/
theorem deviceNotAvailable_agrees (h : Agrees fresh σ a) (hp : σ.task σ.current = some p)
    (hown : σ.lastTaskUsedMath ≠ some σ.current) : Agrees fresh (σ.deviceNotAvailable fresh p) a := by
  obtain ⟨hc, hs, hts, hl, hlive, htask⟩ := deviceNotAvailable_spec fresh hp hown
  obtain ⟨p', hp', hz⟩ := h.running
  cases hp.symm.trans hp'
  have hval := h.unit _ p hp hz
  have hme : (σ.deviceNotAvailable fresh p).task σ.current = some (σ.saved σ.current p) := by rw [htask, hp]; rfl
  refine ⟨⟨h.seen.trans hs.symm, fun i hi => ?_, fun i q hq hqz => ?_⟩, h.current.trans hc.symm,
    ⟨σ.saved σ.current p, by rw [hc]; exact hme, hz⟩, fun i hi => ?_⟩
  · cases hl.symm.trans hi
    exact ⟨_, hme, hz, by simp [Sys.saved], Or.inl hc.symm⟩
  · rw [htask] at hq
    obtain ⟨r, hr, rfl⟩ := Option.map_eq_some_iff.mp hq
    unfold Sys.value
    rw [hl, hlive]
    by_cases hi : i = σ.current
    · subst hi
      cases hp.symm.trans hr
      rw [if_pos rfl]
      exact hval
    · rw [if_neg fun he => hi (Option.some.inj he).symm, h.unit i r hr hqz]
      -- the old owner has its state in the TSS, the others keep theirs
      unfold Sys.value
      by_cases ho : σ.lastTaskUsedMath = some i
      · obtain ⟨r', hr', -, hu, -⟩ := h.owner i ho
        cases hr.symm.trans hr'
        simp [Sys.saved, ho, hu]
      · simp [Sys.saved, ho, hi]
  · cases hl.symm.trans hi
    exact iff_of_true hts hc.symm

theorem fpu_agrees (h : Agrees fresh σ a) (hp : σ.task σ.current = some p) (instr : F → F)
    (hfit : σ.ts = false → σ.lastTaskUsedMath = some σ.current) :
    Agrees fresh (σ.fpu fresh p instr) (a.step fresh (.fpu instr)) := by
  -- the instruction runs in `τ`, whose unit is the running task's
  obtain ⟨τ, hτ, hag, hown⟩ : ∃ τ, (if σ.ts then σ.deviceNotAvailable fresh p else σ) = τ ∧ Agrees fresh τ a ∧
      τ.lastTaskUsedMath = some τ.current := by
    cases hts : σ.ts with
    | false => exact ⟨σ, rfl, h, hfit hts⟩
    | true =>
      have hown : σ.lastTaskUsedMath ≠ some σ.current := fun ho => by
        have hf := (h.ts _ ho).mpr rfl
        rw [hts] at hf
        cases hf
      obtain ⟨hc, -, -, hl, -⟩ := deviceNotAvailable_spec fresh hp hown
      exact ⟨_, if_pos rfl, deviceNotAvailable_agrees h hp hown, by rw [hl, hc]⟩
  obtain ⟨q, hq, hqz⟩ := hag.running
  have hobs : a.unit a.current = τ.live := by
    rw [hag.current, hag.unit _ q hq hqz, Sys.value, if_pos hown]
  unfold Sys.fpu Private.step
  rw [hτ]
  dsimp only
  rw [hobs, hag.current, hag.seen]
  refine ⟨⟨rfl, hag.owner, fun i r hr hrz => ?_⟩, rfl, ⟨q, hq, hqz⟩, hag.ts⟩
  dsimp only at hr ⊢
  unfold Sys.value
  rw [Function.update_apply, hown]
  by_cases hi : i = τ.current
  · rw [if_pos hi, if_pos (by rw [hi])]
  · rw [if_neg hi, if_neg fun he => hi (Option.some.inj he).symm, hag.unit i r hr hrz, Sys.value, hown,
      if_neg fun he => hi (Option.some.inj he).symm]

theorem switchTo_agrees (h : Kept fresh σ a) (hn : n ≠ σ.current) (hq : σ.task n = some q) (hqz : q.zombie = false) :
    Agrees fresh (σ.switchTo n q) { a with current := n } := by
  have htask : ∀ i, (σ.switchTo n q).task i =
      if i = σ.current then (σ.task σ.current).map fun p => { p with started := true } else σ.task i := fun i =>
    Function.update_apply ..
  refine ⟨⟨h.seen, fun i hi => ?_, fun i r hr hrz => ?_⟩, rfl, ⟨q, (htask n).trans ((if_neg hn).trans hq), hqz⟩, fun i hi => ?_⟩
  · obtain ⟨p, hp, hz, hu, hst⟩ := h.owner i hi
    by_cases hic : i = σ.current
    · refine ⟨{ p with started := true }, ?_, hz, hu, Or.inr rfl⟩
      rw [htask, if_pos hic, ← hic, hp]
      rfl
    · exact ⟨p, by rw [htask, if_neg hic]; exact hp, hz, hu, Or.inr (hst.resolve_left hic)⟩
  · rw [htask] at hr
    split_ifs at hr with hic
    · obtain ⟨p, hp, rfl⟩ := Option.map_eq_some_iff.mp hr
      exact h.unit i p (hic ▸ hp) hrz
    · exact h.unit i r hr hrz
  · -- the owner has left the processor in `switch_to`
    obtain ⟨p, hp, -, -, hst⟩ := h.owner i hi
    change (!(q.started && decide (σ.lastTaskUsedMath = some n))) = false ↔ i = n
    rw [show σ.lastTaskUsedMath = some i from hi]
    constructor
    · intro he
      simp only [Option.some.injEq, Bool.not_eq_eq_eq_not, Bool.not_false, Bool.and_eq_true, decide_eq_true_eq] at he
      exact he.2
    · rintro rfl
      cases hp.symm.trans hq
      simp [hst.resolve_left hn]

theorem fork_agrees (h : Agrees fresh σ a) (hp : σ.task σ.current = some p) (hfree : σ.task n = none) (memory : Bool)
    (hfit : σ.lastTaskUsedMath ≠ some σ.current) :
    Agrees fresh (σ.fork fresh n memory p) (a.step fresh (.fork n memory)) := by
  unfold Sys.fork Private.step
  dsimp only
  rw [if_neg hfit, if_neg hfit]
  cases memory with
  | false => exact h
  | true =>
    rw [if_pos rfl, if_pos rfl]
    have hold : ∀ i, i ≠ n → Function.update σ.task n (some { p with started := false }) i = σ.task i := fun i hi =>
      Function.update_of_ne hi ..
    have hne : ∀ {i r}, σ.task i = some r → i ≠ n := by
      rintro i r hr rfl
      exact absurd (hr.symm.trans hfree) nofun
    obtain ⟨p', hp', hz⟩ := h.running
    cases hp.symm.trans hp'
    refine ⟨⟨h.seen, fun i hi => ?_, fun i r hr hrz => ?_⟩, h.current, ⟨p, (hold _ (hne hp)).trans hp, hz⟩, h.ts⟩
    · obtain ⟨r, hr, hrest⟩ := h.owner i hi
      exact ⟨r, (hold i (hne hr)).trans hr, hrest⟩
    · change Function.update a.unit n (a.unit a.current) i = _
      by_cases hi : i = n
      · -- the child has the parent's state in its TSS
        subst hi
        cases (Function.update_self ..).symm.trans hr
        have hown : σ.lastTaskUsedMath ≠ some i := fun ho => by
          obtain ⟨r, hr', -⟩ := h.owner i ho
          exact hne hr' rfl
        rw [Function.update_self, h.current, h.unit _ p hp hz]
        unfold Sys.value
        dsimp only
        rw [if_neg hfit, if_neg hown]
      · rw [Function.update_of_ne hi]
        exact h.unit i r ((hold i hi).symm.trans hr) hrz

theorem dropOwner_last : σ.dropOwner.lastTaskUsedMath = some i ↔ σ.lastTaskUsedMath = some i ∧ i ≠ σ.current := by
  unfold Sys.dropOwner
  split_ifs with ho
  · refine iff_of_false nofun fun h => h.2 ?_
    exact Option.some.inj (h.1.symm.trans ho)
  · refine (and_iff_left_of_imp ?_).symm
    rintro h rfl
    exact ho h

theorem dropOwner_rest (σ : Sys F) : σ.dropOwner.task = σ.task ∧ σ.dropOwner.current = σ.current ∧
    σ.dropOwner.ts = σ.ts ∧ σ.dropOwner.seen = σ.seen ∧ σ.dropOwner.live = σ.live := by
  unfold Sys.dropOwner
  split_ifs <;> exact ⟨rfl, rfl, rfl, rfl, rfl⟩

theorem dropOwner_change_task (σ : Sys F) (f : Task F → Task F) (i : Fin 64) :
    (σ.dropOwner.change σ.current f).task i = if i = σ.current then (σ.task i).map f else σ.task i := by
  refine (Function.update_apply ..).trans ?_
  rw [(dropOwner_rest σ).1]
  split_ifs with hi
  · rw [hi]
  · rfl

/-- The running task gives the unit up, and is fresh or gone. -/
theorem dropOwner_kept (h : Agrees fresh σ a) {b : Private F} {f : Task F → Task F} (hseen : b.seen = a.seen)
    (hother : ∀ i, i ≠ σ.current → b.unit i = a.unit i)
    (hme : ∀ p, (f p).zombie = false → (f p).usedMath = false ∧ b.unit σ.current = fresh) :
    Kept fresh (σ.dropOwner.change σ.current f) b := by
  obtain ⟨-, hc, -, hs, hlive⟩ := dropOwner_rest σ
  refine ⟨(hseen.trans h.seen).trans hs.symm, fun i hi => ?_, fun i r hr hrz => ?_⟩
  · obtain ⟨hl, hne⟩ := dropOwner_last.mp hi
    obtain ⟨p, hp, hz, hu, hst⟩ := h.owner i hl
    exact ⟨p, (dropOwner_change_task σ f i).trans ((if_neg hne).trans hp), hz, hu, Or.inr (hst.resolve_left hne)⟩
  · rw [dropOwner_change_task] at hr
    change b.unit i = if σ.dropOwner.lastTaskUsedMath = some i then σ.dropOwner.live else if r.usedMath then r.i387 else fresh
    simp only [dropOwner_last, hlive]
    split_ifs at hr with hi
    · obtain ⟨p, -, rfl⟩ := Option.map_eq_some_iff.mp hr
      obtain ⟨hu, hfresh⟩ := hme p hrz
      rw [hi, hfresh, if_neg fun ho => ho.2 rfl, hu]
      rfl
    · rw [hother i hi, h.unit i r hr hrz, Sys.value]
      simp only [and_iff_left (show i ≠ σ.current from hi)]

theorem exec_agrees (h : Agrees fresh σ a) : Agrees fresh σ.exec (a.step fresh .exec) := by
  obtain ⟨-, hc, hts, -, -⟩ := dropOwner_rest σ
  have hkept : Kept fresh σ.exec (a.step fresh .exec) := by
    refine dropOwner_kept h rfl (fun i hi => ?_) fun p _ => ⟨rfl, ?_⟩
    · exact Function.update_of_ne (by rw [h.current]; exact hi) ..
    · change Function.update a.unit a.current fresh σ.current = fresh
      rw [h.current, Function.update_self]
  obtain ⟨p, hp, hz⟩ := h.running
  refine ⟨hkept, h.current.trans hc.symm, ⟨{ p with usedMath := false }, ?_, hz⟩, fun i hi => ?_⟩
  · rw [show σ.exec.current = σ.current from hc]
    refine (dropOwner_change_task σ _ σ.current).trans ?_
    rw [if_pos rfl, hp]
    rfl
  · rw [show σ.exec.ts = σ.ts from hts, show σ.exec.current = σ.current from hc]
    exact h.ts i (dropOwner_last.mp hi).1

theorem exit_agrees (h : Agrees fresh σ a) (hn : n ≠ σ.current) (hq : σ.task n = some q) (hqz : q.zombie = false) :
    Agrees fresh (σ.exit n q) (a.step fresh (.exit n)) := by
  have hkept : Kept fresh (σ.dropOwner.change σ.current fun p => { p with zombie := true }) a :=
    dropOwner_kept h rfl (fun _ _ => rfl) nofun
  refine switchTo_agrees hkept ?_ ?_ hqz
  · rw [show (σ.dropOwner.change σ.current _).current = σ.current from (dropOwner_rest σ).2.1]
    exact hn
  · rw [dropOwner_change_task, if_neg hn]
    exact hq

theorem release_agrees (h : Agrees fresh σ a) (hp : σ.task i = some p) (hz : p.zombie = true) :
    Agrees fresh { σ with task := Function.update σ.task i none } a := by
  have hne : ∀ {j r}, σ.task j = some r → r.zombie = false → Function.update σ.task i none j = some r := by
    intro j r hr hrz
    rw [Function.update_of_ne ?_]
    · exact hr
    rintro rfl
    cases hp.symm.trans hr
    rw [hz] at hrz
    cases hrz
  obtain ⟨r, hr, hrz⟩ := h.running
  refine ⟨⟨h.seen, fun j hj => ?_, fun j s hs hsz => ?_⟩, h.current, ⟨r, hne hr hrz, hrz⟩, h.ts⟩
  · obtain ⟨s, hs, hsz, hrest⟩ := h.owner j hj
    exact ⟨s, hne hs hsz, hsz, hrest⟩
  · dsimp only at hs
    rw [Function.update_apply] at hs
    split_ifs at hs
    exact h.unit j s hs hsz

theorem start_agrees : Agrees fresh (Sys.start fresh) (Private.start fresh) := by
  refine ⟨⟨rfl, nofun, fun i p hp _ => ?_⟩, rfl, ⟨_, rfl, rfl⟩, nofun⟩
  change Function.update (fun _ => none) 0 (some ⟨false, fresh, false, false⟩) i = some p at hp
  rw [Function.update_apply] at hp
  split_ifs at hp
  cases hp
  rfl

theorem Agrees.step {e : Event F} (h : Agrees fresh σ a) (hfit : Fits σ e) (hs : Sys.Step fresh σ e σ') :
    Agrees fresh σ' (a.step fresh e) := by
  cases hs with
  | fpu hp => exact fpu_agrees h hp _ hfit
  | switch hn hq hz => exact switchTo_agrees h.toKept hn hq hz
  | fork hp hfree => exact fork_agrees h hp hfree _ hfit
  | exec => exact exec_agrees h
  | exit hn hq hz => exact exit_agrees h hn hq hz
  | release hp hz => exact release_agrees h hp hz

/-- In every run whose steps fit, the instructions find what they would find if every task had a unit
    of its own, and so would the next ones. -/
theorem lazy_fpu_transparent {es : List (Event F)} (h : ((fpuSystem fresh).restrict Fits).Trace es σ) :
    σ.seen = (Private.run fresh es).seen ∧ σ.current = (Private.run fresh es).current ∧
      ∀ i p, σ.task i = some p → p.zombie = false → σ.value fresh i p = (Private.run fresh es).unit i := by
  have hag : Agrees fresh σ (Private.run fresh es) :=
    h.simulates (fun σ hσ => by rw [show σ = Sys.start fresh from hσ]; exact start_agrees) fun σ e σ' a ha hs => ha.step hs.1 hs.2
  exact ⟨hag.seen.symm, hag.current.symm, fun i p hp hz => (hag.unit i p hp hz).symm⟩

/-- A task with an entry that is no zombie. -/
def ready (started : Bool) : Task ℕ := ⟨false, 0, started, false⟩

/-- Task 1 runs as the only child of task 0. -/
theorem task1_runs : ∃ σ : Sys ℕ, ((fpuSystem 0).restrict Fits).Trace [.switch 1, .fork 1 true] σ ∧
    σ = (((Sys.start 0).fork 0 1 true (ready false)).switchTo 1 (ready false)) := by
  refine ⟨_, .step (.step (.init rfl) ⟨?_, @Sys.Step.fork _ _ _ 1 true (ready false) rfl rfl⟩)
    ⟨trivial, @Sys.Step.switch _ _ _ 1 (ready false) (by decide) rfl rfl⟩, rfl⟩
  exact nofun

/-- Two tasks take turns on the unit. -/
theorem lazy_fpu_of_two_tasks : ∃ σ : Sys ℕ, σ.seen = [(1, 7), (2, 0), (1, 0)] ∧
    σ.seen = (Private.run 0 [.fpu id, .switch 1, .fpu fun _ => 9, .switch 2, .fpu fun _ => 7, .fork 2 true, .switch 1,
      .fork 1 true]).seen := by
  obtain ⟨σ, h, rfl⟩ := task1_runs
  have h1 := h.step_restrict (@Sys.Step.fork _ _ _ 2 true (ready false) rfl rfl) nofun
  have h2 := h1.step_restrict (@Sys.Step.fpu _ _ _ (ready false) (fun _ => 7) rfl) nofun
  have h3 := h2.step_restrict (@Sys.Step.switch _ _ _ 2 (ready false) (by decide) rfl rfl) trivial
  have h4 := h3.step_restrict (@Sys.Step.fpu _ _ _ (ready false) (fun _ => 9) rfl) nofun
  have h5 := h4.step_restrict (@Sys.Step.switch _ _ _ 1 ⟨true, 7, true, false⟩ (by decide) rfl rfl) trivial
  have h6 := h5.step_restrict (@Sys.Step.fpu _ _ _ ⟨true, 7, true, false⟩ id rfl) nofun
  exact ⟨_, rfl, (lazy_fpu_transparent h6).1⟩

/-- A task that forks finds its own state gone, and one that has called exec finds its old one. -/
theorem fork_clears_the_unit :
    (∃ (es : List (Event ℕ)) (σ : Sys ℕ), (fpuSystem 0).Trace es σ ∧ es = [.fpu id, .fork 2 true, .fpu fun _ => 7, .switch 1,
      .fork 1 true] ∧ σ.seen = [(1, 0), (1, 0)] ∧ (Private.run 0 es).seen = [(1, 7), (1, 0)]) ∧
    ∃ (es : List (Event ℕ)) (σ : Sys ℕ), (fpuSystem 0).Trace es σ ∧ es = [.fpu id, .exec, .fpu fun _ => 7, .switch 1,
      .fork 1 true] ∧ σ.seen = [(1, 7), (1, 0)] ∧ (Private.run 0 es).seen = [(1, 0), (1, 0)] := by
  obtain ⟨σ, h, rfl⟩ := task1_runs
  have h1 := h.of_restrict.step (@Sys.Step.fpu _ _ _ (ready false) (fun _ => 7) rfl)
  constructor
  · have h2 := h1.step (@Sys.Step.fork _ _ _ 2 true ⟨true, 0, false, false⟩ rfl rfl)
    have h3 := h2.step (@Sys.Step.fpu _ _ _ ⟨true, 0, false, false⟩ id rfl)
    exact ⟨_, _, h3, rfl, rfl, rfl⟩
  · have h2 := h1.step (@Sys.Step.exec _ _ _)
    have h3 := h2.step (@Sys.Step.fpu _ _ _ ⟨false, 0, false, false⟩ id rfl)
    exact ⟨_, _, h3, rfl, rfl, rfl⟩

end Linux011.Kernel.Fpu

/-
  The scheduler of kernel/sched.c: `schedule` with its signal pass, the counting in `do_timer`,
  `sys_nice`, and what `copy_process` gives a new task. Counters and priorities are 32-bit longs.
  Without overflow the choice is the intended one: `scheduler_choice`, for runs in which no
  priority goes above 2^30, since the recharge then keeps every counter below 2^31.
-/
import Linux011.Lib.Long
import Linux011.Lib.Trans
import Mathlib.Data.List.FinRange
import Mathlib.Data.Fintype.Basic

namespace Linux011.Kernel
open Linux011.Lib

inductive TaskState
  | running
  | interruptible
  | uninterruptible
  | zombie
  | stopped
  deriving DecidableEq, Repr

/-- The fields of `task_struct` that the scheduler reads or writes. -/
structure TaskStruct where
  state : TaskState
  counter : ℤ
  priority : ℤ
  signal : BitVec 32
  blocked : BitVec 32
  alarm : ℤ
  deriving DecidableEq

/-- `task[NR_TASKS]` -/
abbrev TaskTable := Fin 64 → Option TaskStruct

/-- `INIT_TASK` -/
def initTask : TaskStruct := ⟨.running, 15, 15, 0, 0, 0⟩

/-- `_BLOCKABLE`: all signals but SIGKILL and SIGSTOP. -/
def blockable : BitVec 32 := ~~~(1 <<< 8 ||| 1 <<< 18)

/-- The signal pass of `schedule` on one task. -/
def TaskStruct.checkSignals (jiffies : ℤ) (t : TaskStruct) : TaskStruct :=
  let t := if t.alarm ≠ 0 ∧ t.alarm < jiffies then
    { t with signal := t.signal ||| 1 <<< 13, alarm := 0 } else t
  if t.signal &&& ~~~(blockable &&& t.blocked) ≠ 0 ∧ t.state = .interruptible then
    { t with state := .running }
  else t

/-- The new counter that `schedule` gives a task when it recharges all of them. -/
def TaskStruct.recharge (t : TaskStruct) : TaskStruct :=
  { t with counter := long (t.counter / 2 + t.priority) }

namespace TaskTable

/-- A change of every task but task 0. -/
def mapRest (f : TaskStruct → TaskStruct) (tab : TaskTable) : TaskTable :=
  fun i => if i = 0 then tab i else (tab i).map f

/-- The tasks from `LAST_TASK` down to the one after `FIRST_TASK`. -/
def rest : List (Fin 64) := (List.finRange 64).tail.reverse

/-- One round of the search for the largest counter. -/
def better (tab : TaskTable) (best : ℤ × Fin 64) (i : Fin 64) : ℤ × Fin 64 :=
  match tab i with
  | none => best
  | some t => if t.state = .running ∧ best.1 < t.counter then (t.counter, i) else best

/-- `c` and `next` of `schedule` after the search. -/
def search (tab : TaskTable) : ℤ × Fin 64 := rest.foldl tab.better (-1, 0)

/-- The loop of `schedule`, for a number of rounds. -/
def choose : ℕ → TaskTable → Option (TaskTable × Fin 64)
  | 0, _ => none
  | k + 1, tab =>
    if tab.search.1 ≠ 0 then some (tab, tab.search.2)
    else choose k (tab.mapRest TaskStruct.recharge)

/-- `schedule` up to `switch_to`; two rounds of its loop are always enough. -/
def schedule (tab : TaskTable) (jiffies : ℤ) : Option (TaskTable × Fin 64) :=
  choose 2 (tab.mapRest (TaskStruct.checkSignals jiffies))

/-- Whether task `i`, not task 0, is TASK_RUNNING with counter `c`. -/
def Runs (tab : TaskTable) (i : Fin 64) (c : ℤ) : Prop :=
  i ≠ 0 ∧ ∃ t, tab i = some t ∧ t.state = .running ∧ t.counter = c

theorem mem_rest (i : Fin 64) : i ∈ rest ↔ i ≠ 0 := by
  rw [rest, List.mem_reverse, List.finRange_succ, List.tail_cons, List.mem_map]
  simp only [List.mem_finRange, true_and, Fin.exists_succ_eq]

/-- The search over a list of tasks: the largest counter of a running one, if it is larger than
    the one before. -/
theorem foldl_better (tab : TaskTable) (l : List (Fin 64)) (best : ℤ × Fin 64) :
    best.1 ≤ (l.foldl tab.better best).1 ∧
    (l.foldl tab.better best = best ∨
      ∃ i ∈ l, ∃ t, tab i = some t ∧ t.state = .running ∧
        l.foldl tab.better best = (t.counter, i)) ∧
    ∀ i ∈ l, ∀ t, tab i = some t → t.state = .running →
      t.counter ≤ (l.foldl tab.better best).1 := by
  induction l generalizing best with
  | nil => exact ⟨le_rfl, .inl rfl, fun i hi => absurd hi List.not_mem_nil⟩
  | cons i l ih =>
    obtain ⟨hle, hwhich, hmax⟩ := ih (tab.better best i)
    rw [List.foldl_cons]
    have hone : best.1 ≤ (tab.better best i).1 ∧
        (tab.better best i = best ∨ ∃ t, tab i = some t ∧ t.state = .running ∧
          tab.better best i = (t.counter, i)) ∧
        ∀ t, tab i = some t → t.state = .running → t.counter ≤ (tab.better best i).1 := by
      unfold better
      cases hi : tab i with
      | none => simp
      | some t =>
        simp only [Option.some.injEq]
        split_ifs with h
        · exact ⟨h.2.le, .inr ⟨t, rfl, h.1, rfl⟩, fun t' ht' _ => ht' ▸ le_rfl⟩
        · refine ⟨le_rfl, .inl rfl, fun t' ht' hr => ?_⟩
          subst ht'
          by_contra hlt
          exact h ⟨hr, by omega⟩
    refine ⟨hone.1.trans hle, ?_, ?_⟩
    · obtain h | ⟨j, hj, t, ht⟩ := hwhich
      · obtain h' | ⟨t, hi, hr, h'⟩ := hone.2.1
        · exact .inl (h.trans h')
        · exact .inr ⟨i, List.mem_cons_self, t, hi, hr, h.trans h'⟩
      · exact .inr ⟨j, List.mem_cons_of_mem i hj, t, ht⟩
    · intro j hj t ht hr
      obtain rfl | hj := List.mem_cons.mp hj
      · exact (hone.2.2 t ht hr).trans hle
      · exact hmax j hj t ht hr

/-- The search finds the largest counter above -1 of the running tasks, or -1 and task 0. -/
theorem search_spec (tab : TaskTable) :
    (tab.search = (-1, 0) ∨ tab.Runs tab.search.2 tab.search.1) ∧ -1 ≤ tab.search.1 ∧
    ∀ i c, tab.Runs i c → c ≤ tab.search.1 := by
  obtain ⟨hle, hwhich, hmax⟩ := tab.foldl_better rest (-1, 0)
  refine ⟨?_, hle, ?_⟩
  · obtain h | ⟨i, hi, t, ht, hr, h⟩ := hwhich
    · exact .inl h
    · right
      unfold search
      rw [h]
      exact ⟨(mem_rest i).mp hi, t, ht, hr, rfl⟩
  · rintro i c ⟨hi, t, ht, hr, rfl⟩
    exact hmax i ((mem_rest i).mpr hi) t ht hr

theorem mapRest_zero (f : TaskStruct → TaskStruct) (tab : TaskTable) : tab.mapRest f 0 = tab 0 :=
  if_pos rfl

theorem mapRest_of_ne (f : TaskStruct → TaskStruct) (tab : TaskTable) {i : Fin 64} (hi : i ≠ 0) :
    tab.mapRest f i = (tab i).map f :=
  if_neg hi

/-- A property that a change keeps for each task holds of every task afterwards. -/
theorem mapRest_forall {P : TaskStruct → Prop} {f : TaskStruct → TaskStruct} {tab : TaskTable}
    (h : ∀ i t, tab i = some t → P t) (hf : ∀ t, P t → P (f t)) :
    ∀ i t, tab.mapRest f i = some t → P t := by
  intro i t ht
  by_cases hi : i = 0
  · subst hi
    rw [mapRest_zero] at ht
    exact h 0 t ht
  · rw [mapRest_of_ne f tab hi] at ht
    obtain ⟨t', ht', rfl⟩ := Option.map_eq_some_iff.mp ht
    exact hf t' (h i t' ht')

/-- With positive priorities a table with a running counter of zero, recharged, has a positive
    one: the loop ends after two rounds at most. -/
theorem choose_two {tab : TaskTable} (hp : ∀ i t, tab i = some t → 0 < t.priority ∧ IsLong t.priority) :
    (tab.search.1 ≠ 0 ∧ choose 2 tab = some (tab, tab.search.2)) ∨
    (0 < (tab.mapRest TaskStruct.recharge).search.1 ∧
      choose 2 tab = some (tab.mapRest TaskStruct.recharge,
        (tab.mapRest TaskStruct.recharge).search.2)) := by
  by_cases hc : tab.search.1 = 0
  · right
    obtain ⟨hwhich, -, -⟩ := tab.search_spec
    obtain h | ⟨hi, t, ht, hr, hz⟩ := hwhich
    · rw [h] at hc
      exact absurd hc (by decide)
    · have hrun : (tab.mapRest TaskStruct.recharge).Runs tab.search.2 t.priority := by
        refine ⟨hi, t.recharge, by rw [mapRest_of_ne _ _ hi, ht]; rfl, hr, ?_⟩
        have hp' := hp _ t ht
        rw [TaskStruct.recharge, hz, hc]
        simpa using long_of_isLong hp'.2
      have hpos := (search_spec _).2.2 _ _ hrun
      have hp' := hp _ t ht
      refine ⟨by omega, ?_⟩
      rw [choose, if_neg (not_not.mpr hc), choose, if_pos (by omega)]
  · exact .inl ⟨hc, by rw [choose, if_pos hc]⟩

end TaskTable

/-! ## Runs -/

/-- The task table with `current` and `jiffies`. -/
structure Sched where
  task : TaskTable
  current : Fin 64
  jiffies : ℤ

inductive SchedEvent
  /-- `copy_process` into the free entry `nr` -/
  | fork (nr : Fin 64)
  | nice (increment : ℤ)
  /-- `do_timer`; `user` is its argument `cpl` -/
  | timer (user : Bool)
  | schedule
  /-- anything else: states, signals and alarms change, tasks are released, time goes on -/
  | other (task : TaskTable) (jiffies : ℤ)

namespace Sched

def start : Sched := ⟨Function.update (fun _ => none) 0 (some initTask), 0, 0⟩

/-- What is left of a task by code that changes neither counters nor priorities; task 0 and the
    running task are never released. -/
def Kept (pinned : Prop) : Option TaskStruct → Option TaskStruct → Prop
  | some t, some t' => t'.counter = t.counter ∧ t'.priority = t.priority
  | some _, none => ¬ pinned
  | none, some _ => False
  | none, none => True

instance (p : Prop) [Decidable p] : ∀ o o', Decidable (Kept p o o')
  | some _, some _ => inferInstanceAs (Decidable (_ ∧ _))
  | some _, none => inferInstanceAs (Decidable (¬ p))
  | none, some _ => inferInstanceAs (Decidable False)
  | none, none => inferInstanceAs (Decidable True)

/-- The task `copy_process` makes of its caller, once it is TASK_RUNNING. -/
def child (t : TaskStruct) : TaskStruct :=
  { t with state := .running, counter := t.priority, signal := 0, alarm := 0 }

def setTask (σ : Sched) (i : Fin 64) (t : TaskStruct) : Sched :=
  { σ with task := Function.update σ.task i (some t) }

/-- `schedule`, with `switch_to`. -/
def reschedule (σ : Sched) : Option Sched :=
  (σ.task.schedule σ.jiffies).map fun x => { σ with task := x.1, current := x.2 }

def step (σ : Sched) : SchedEvent → Option Sched
  | .fork nr =>
    match σ.task σ.current, σ.task nr with
    | some t, none => some (σ.setTask nr (child t))
    | _, _ => none
  | .nice inc =>
    match σ.task σ.current with
    | some t =>
      if ¬ IsLong inc then none
      else if 0 < long (t.priority - inc) then
        some (σ.setTask σ.current { t with priority := long (t.priority - inc) })
      else some σ
    | none => none
  | .timer user =>
    match σ.task σ.current with
    | some t =>
      if 0 < long (t.counter - 1) then
        some (σ.setTask σ.current { t with counter := long (t.counter - 1) })
      else
        let σ := σ.setTask σ.current { t with counter := 0 }
        if user then σ.reschedule else some σ
    | none => none
  | .schedule => σ.reschedule
  | .other tab j =>
    if ∀ i, Kept (i = 0 ∨ i = σ.current) (σ.task i) (tab i) then
      some { σ with task := tab, jiffies := j }
    else none

/-- The choice of `schedule` in this state is the intended one, and the counters and priorities
    are in order. -/
def ChoosesWell (σ : Sched) : Prop :=
  (∀ i t, σ.task i = some t → 0 ≤ t.counter ∧ 0 < t.priority) ∧
  ∃ tab next, σ.task.schedule σ.jiffies = some (tab, next) ∧
    ((next = 0 ∧ ∀ i c, ¬ tab.Runs i c) ∨
      ∃ c, tab.Runs next c ∧ 0 < c ∧ ∀ i c', tab.Runs i c' → c' ≤ c)

/-- `sys_nice` takes no priority above 2^30. -/
def Moderate (σ : Sched) : SchedEvent → Prop
  | .nice inc => ∀ t, σ.task σ.current = some t → long (t.priority - inc) ≤ 1073741824
  | _ => True

/-- All that a step does to the tasks: each new task is an old one with the same counter and
    priority, a child, or the running task after `sys_nice` or a tick, and may then have been
    recharged. -/
theorem step_forall {σ σ' : Sched} {e : SchedEvent} {P : TaskStruct → Prop}
    (h : σ.step e = some σ') (hP : ∀ i t, σ.task i = some t → P t)
    (hother : ∀ t t', P t → t'.counter = t.counter → t'.priority = t.priority → P t')
    (hchild : ∀ t, P t → P { t with counter := t.priority })
    (hnice : ∀ inc, e = .nice inc → ∀ t, σ.task σ.current = some t →
      0 < long (t.priority - inc) → P { t with priority := long (t.priority - inc) })
    (htick : ∀ t, P t → 0 < long (t.counter - 1) → P { t with counter := long (t.counter - 1) })
    (hzero : ∀ t, P t → P { t with counter := 0 })
    (hrecharge : ∀ t, P t → P t.recharge) : ∀ i t, σ'.task i = some t → P t := by
  have hset : ∀ {τ : Sched} (i : Fin 64) (t : TaskStruct), (∀ j u, τ.task j = some u → P u) → P t →
      ∀ j u, (τ.setTask i t).task j = some u → P u := by
    intro τ i t hτ ht j u hu
    by_cases hj : j = i
    · rw [hj] at hu
      simp only [setTask, Function.update_self, Option.some.injEq] at hu
      exact hu ▸ ht
    · simp only [setTask, Function.update_of_ne hj] at hu
      exact hτ j u hu
  have hchoose : ∀ k tab tab' next, (∀ i t, tab i = some t → P t) →
      TaskTable.choose k tab = some (tab', next) → ∀ i t, tab' i = some t → P t := by
    intro k
    induction k with
    | zero => exact fun tab tab' next _ hc => by cases hc
    | succ k ih =>
      intro tab tab' next htab hc
      rw [TaskTable.choose] at hc
      split_ifs at hc
      · cases hc
        exact htab
      · exact ih _ _ _ (TaskTable.mapRest_forall htab hrecharge) hc
  have hsched : ∀ {τ τ' : Sched}, (∀ i t, τ.task i = some t → P t) → τ.reschedule = some τ' →
      ∀ i t, τ'.task i = some t → P t := by
    intro τ τ' hτ hs
    obtain ⟨⟨tab, next⟩, hx, rfl⟩ := Option.map_eq_some_iff.mp hs
    refine hchoose 2 _ tab next (TaskTable.mapRest_forall hτ fun t ht => ?_) hx
    refine hother t _ ht ?_ ?_ <;>
    · unfold TaskStruct.checkSignals
      dsimp only
      split_ifs <;> rfl
  cases e with
  | fork nr =>
    simp only [step] at h
    split at h
    · cases h
      exact hset nr _ hP (hother _ _ (hchild _ (hP _ _ ‹_›)) rfl rfl)
    · cases h
  | nice inc =>
    simp only [step] at h
    split at h
    · split_ifs at h with hl hpos
      · cases h
        exact hset _ _ hP (hnice inc rfl _ ‹_› hpos)
      · cases h
        exact hP
    · cases h
  | timer user =>
    simp only [step] at h
    split at h
    · split_ifs at h with hpos hu
      · cases h
        exact hset _ _ hP (htick _ (hP _ _ ‹_›) hpos)
      · exact hsched (hset _ _ hP (hzero _ (hP _ _ ‹_›))) h
      · cases h
        exact hset _ _ hP (hzero _ (hP _ _ ‹_›))
    · cases h
  | schedule => exact hsched hP h
  | other tab j =>
    simp only [step] at h
    split_ifs at h with hk
    cases h
    intro i t ht
    have hi := hk i
    simp only at ht
    rw [ht] at hi
    cases ho : σ.task i with
    | none =>
      rw [ho] at hi
      exact hi.elim
    | some t0 =>
      rw [ho] at hi
      exact hother t0 t (hP i t0 ho) hi.1 hi.2

end Sched

/-- The task table from the boot on. -/
def schedSystem : Lts Sched SchedEvent where
  init σ := σ = .start
  step σ e σ' := σ.step e = some σ'

theorem Sched.start_task {i : Fin 64} {t : TaskStruct} (h : Sched.start.task i = some t) :
    t = initTask := by
  by_cases hi : i = 0
  · subst hi
    exact (Option.some.inj h).symm
  · simp [Sched.start, Function.update_of_ne hi] at h

theorem priority_pos {σ : Sched} (h : schedSystem.Reachable σ) :
    ∀ i t, σ.task i = some t → 0 < t.priority ∧ IsLong t.priority := by
  refine Lts.Reachable.invariant
    (I := fun σ => ∀ i t, σ.task i = some t → 0 < t.priority ∧ IsLong t.priority) h ?_ ?_
  · intro σ hσ i t ht
    rw [show σ = .start from hσ] at ht
    rw [Sched.start_task ht]
    decide
  · intro σ e σ' _ hP hs
    refine Sched.step_forall hs hP ?_ (fun t ht => ht) ?_ (fun t ht _ => ht) (fun t ht => ht)
      fun t ht => ht
    · intro t t' ht _ hp
      rwa [hp]
    · exact fun inc _ t _ hpos => ⟨hpos, isLong_long _⟩

/-- What the recharge of `schedule` needs so as not to overflow. -/
def TaskStruct.Bounded (t : TaskStruct) : Prop :=
  0 ≤ t.counter ∧ t.counter < 2147483648 ∧ 0 < t.priority ∧ t.priority ≤ 1073741824

theorem TaskStruct.Bounded.recharge {t : TaskStruct} (h : t.Bounded) : t.recharge.Bounded := by
  obtain ⟨h0, h1, h2, h3⟩ := h
  have hsum : t.recharge.counter = t.counter / 2 + t.priority :=
    long_of_isLong ⟨by omega, by omega⟩
  exact ⟨by rw [hsum]; omega, by rw [hsum]; omega, h2, h3⟩

theorem bounded_inv {σ : Sched} (h : (schedSystem.restrict Sched.Moderate).Reachable σ) :
    ∀ i t, σ.task i = some t → t.Bounded := by
  refine Lts.Reachable.invariant (I := fun σ => ∀ i t, σ.task i = some t → t.Bounded) h ?_ ?_
  · intro σ hσ i t ht
    rw [show σ = .start from hσ] at ht
    rw [Sched.start_task ht]
    unfold TaskStruct.Bounded
    decide
  · intro σ e σ' _ hP hs
    refine Sched.step_forall hs.2 hP ?_ ?_ ?_ ?_ ?_ fun t ht => ht.recharge
    · intro t t' ht hc hp
      unfold TaskStruct.Bounded
      rwa [hc, hp]
    · intro t ⟨_, _, h2, h3⟩
      exact ⟨h2.le, by show t.priority < _; omega, h2, h3⟩
    · rintro inc rfl t ht hpos
      obtain ⟨h0, h1, -, -⟩ := hP _ t ht
      exact ⟨h0, h1, hpos, hs.1 t ht⟩
    · intro t ⟨h0, h1, h2, h3⟩ hpos
      have hsub : long (t.counter - 1) = t.counter - 1 := long_of_isLong ⟨by omega, by omega⟩
      rw [hsub] at hpos ⊢
      exact ⟨hpos.le, by show t.counter - 1 < _; omega, h2, h3⟩
    · intro t ⟨_, _, h2, h3⟩
      exact ⟨le_rfl, by show (0 : ℤ) < _; decide, h2, h3⟩

theorem TaskStruct.checkSignals_priority (j : ℤ) (t : TaskStruct) :
    (t.checkSignals j).priority = t.priority ∧ (t.checkSignals j).counter = t.counter := by
  unfold TaskStruct.checkSignals
  dsimp only
  split_ifs <;> exact ⟨rfl, rfl⟩

/-- A table that the search leaves with a counter other than zero: the choice is right when no
    counter is negative. -/
theorem TaskTable.search_chooses {tab : TaskTable} (hc : tab.search.1 ≠ 0)
    (hpos : ∀ i t, tab i = some t → 0 ≤ t.counter) :
    (tab.search.2 = 0 ∧ ∀ i c, ¬ tab.Runs i c) ∨
      ∃ c, tab.Runs tab.search.2 c ∧ 0 < c ∧ ∀ i c', tab.Runs i c' → c' ≤ c := by
  obtain ⟨hwhich, hge, hmax⟩ := tab.search_spec
  obtain h | h := hwhich
  · refine .inl ⟨by rw [h], fun i c hrun => ?_⟩
    have hle := hmax i c hrun
    obtain ⟨-, t, ht, -, rfl⟩ := hrun
    have := hpos i t ht
    rw [h] at hle
    simp only at hle
    omega
  · have h' := h
    obtain ⟨-, t, ht, -, htc⟩ := h'
    have := hpos _ t ht
    exact .inr ⟨_, h, by omega, hmax⟩

/-- Priorities stay positive and `schedule` ends in every run. As long as `sys_nice` takes no
    priority above 2^30, no counter is negative and `schedule` takes task 0 only when no other
    task runs, and a running task with the largest counter, a positive one, otherwise. -/
theorem scheduler_choice (σ : Sched) :
    (schedSystem.Reachable σ → (∀ i t, σ.task i = some t → 0 < t.priority) ∧
      (σ.task.schedule σ.jiffies).isSome) ∧
    ((schedSystem.restrict Sched.Moderate).Reachable σ → σ.ChoosesWell) := by
  have hkeep : schedSystem.Reachable σ → ∀ i t,
      σ.task.mapRest (TaskStruct.checkSignals σ.jiffies) i = some t →
      0 < t.priority ∧ IsLong t.priority := by
    intro h
    refine TaskTable.mapRest_forall (priority_pos h) fun t ht => ?_
    rwa [(t.checkSignals_priority σ.jiffies).1]
  refine ⟨fun h => ⟨fun i t ht => (priority_pos h i t ht).1, ?_⟩, fun h => ?_⟩
  · obtain ⟨-, he⟩ | ⟨-, he⟩ := TaskTable.choose_two (hkeep h)
    · rw [TaskTable.schedule, he]
      rfl
    · rw [TaskTable.schedule, he]
      rfl
  · have hb := bounded_inv h
    refine ⟨fun i t ht => ⟨(hb i t ht).1, (hb i t ht).2.2.1⟩, ?_⟩
    have hb' : ∀ i t, σ.task.mapRest (TaskStruct.checkSignals σ.jiffies) i = some t →
        t.Bounded := by
      refine TaskTable.mapRest_forall hb fun t ht => ?_
      obtain ⟨hp, hc⟩ := t.checkSignals_priority σ.jiffies
      unfold TaskStruct.Bounded
      rwa [hp, hc]
    obtain ⟨hc, he⟩ | ⟨hc, he⟩ := TaskTable.choose_two (hkeep h.of_restrict)
    · exact ⟨_, _, he, TaskTable.search_chooses hc fun i t ht => (hb' i t ht).1⟩
    · have hb2 := TaskTable.mapRest_forall hb' fun t ht => ht.recharge
      exact ⟨_, _, he, TaskTable.search_chooses (by omega) fun i t ht => (hb2 i t ht).1⟩

theorem scheduler_choice_first_fork :
    ∃ σ, Sched.start.step (.fork 1) = some σ ∧ σ.ChoosesWell := by
  have hsome : (Sched.start.step (.fork 1)).isSome := by decide
  obtain ⟨σ, hσ⟩ := Option.isSome_iff_exists.mp hsome
  have hm : Sched.start.Moderate (.fork 1) := trivial
  have hr : (schedSystem.restrict Sched.Moderate).Reachable Sched.start := .init rfl
  exact ⟨σ, hσ, (scheduler_choice σ).2 (hr.step ⟨hm, hσ⟩)⟩

/-- Code that puts task `i` into a state. -/
def Sched.put (i : Fin 64) (st : TaskState) (σ : Sched) : SchedEvent :=
  .other (Function.update σ.task i ((σ.task i).map fun t => { t with state := st })) σ.jiffies

def Sched.follow (σ : Sched) (e : Sched → SchedEvent) : Option Sched := σ.step (e σ)

/-- Task 1 takes its priority to 2^31 - 1 and forks task 2, which runs and sleeps while the
    counters are recharged; then task 2 is woken and task 1 sleeps. -/
def niceToTheLimit : List (Sched → SchedEvent) :=
  [fun _ => .nice 14, fun _ => .fork 1, fun _ => .schedule, fun _ => .nice (-2147483646),
    fun _ => .fork 2, fun _ => .timer true, Sched.put 2 .interruptible, fun _ => .schedule,
    Sched.put 2 .running, Sched.put 1 .interruptible]

/-- The counter of task 2 has become negative in the recharge, and `schedule` takes task 0
    although task 2 is TASK_RUNNING. -/
theorem negative_counter_passed_over :
    ∃ σ, schedSystem.Reachable σ ∧ (∃ t, σ.task 2 = some t ∧ t.counter < 0) ∧
      (∃ tab c, σ.task.schedule σ.jiffies = some (tab, 0) ∧ tab.Runs 2 c) ∧ ¬ σ.ChoosesWell := by
  have hsome : (niceToTheLimit.foldlM Sched.follow Sched.start).isSome := by
    decide +kernel
  obtain ⟨σ, hσ⟩ := Option.isSome_iff_exists.mp hsome
  have hval : ((niceToTheLimit.foldlM Sched.follow Sched.start).bind fun σ =>
      (σ.task.schedule σ.jiffies).map fun x => (σ.task 2, x.1 2, x.2)) =
      some (some ⟨.running, -1073741826, 2147483647, 0, 0, 0⟩,
        some ⟨.running, -1073741826, 2147483647, 0, 0, 0⟩, 0) := by decide +kernel
  rw [hσ, Option.bind_some] at hval
  obtain ⟨⟨tab, next⟩, hsch, hx⟩ := Option.map_eq_some_iff.mp hval
  simp only [Prod.mk.injEq] at hx
  obtain ⟨htask, htab, rfl⟩ := hx
  have hr : schedSystem.Reachable σ :=
    Lts.Reachable.foldlM (f := Sched.follow) (.init rfl) (fun τ e τ' h => ⟨e τ, h⟩) _ hσ
  refine ⟨σ, hr, ⟨_, htask, by decide⟩,
    ⟨tab, _, hsch, by decide, _, htab, rfl, rfl⟩, fun h => ?_⟩
  exact absurd (h.1 2 _ htask).1 (by decide)

end Linux011.Kernel

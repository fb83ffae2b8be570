/-
  No starvation: a task that stays TASK_RUNNING is chosen by `schedule` after a bounded number of
  ticks in user mode, whatever the other tasks do, as long as none is made and none takes another
  priority. The counters pay for the ticks.
-/
import Linux011.Kernel.Sched
import Mathlib.Algebra.Order.BigOperators.Group.Finset

namespace Linux011.Kernel

open Linux011.Lib

namespace TaskTable

variable (tab : TaskTable)

/-- The counter of an entry, and its priority. -/
def counterAt (j : Fin 64) : ℕ := (tab j).elim 0 fun t => t.counter.toNat

def priorityAt (j : Fin 64) : ℕ := (tab j).elim 0 fun t => t.priority.toNat

/-- All counters, and all priorities. -/
def charge : ℕ := ∑ j, tab.counterAt j

def weight : ℕ := ∑ j, tab.priorityAt j

def Bounded : Prop := ∀ j t, tab j = some t → t.Bounded

end TaskTable

namespace Sched

/-- The current task has nothing left. -/
def spent (σ : Sched) : ℕ := if σ.task.counterAt σ.current = 0 then 1 else 0

/-- The ticks in user mode that task `i` can still have to wait for: as long as its own counter is 0
    a recharge is to come. -/
def waiting (i : Fin 64) (σ : Sched) : ℕ :=
  if σ.task.counterAt i = 0 then 4 * σ.task.charge + 2 * σ.task.weight + 2 + σ.spent else 2 * σ.task.charge + σ.spent

/-- Task `i` is TASK_RUNNING and another one is running. -/
def Waits (i : Fin 64) (σ : Sched) : Prop := σ.current ≠ i ∧ ∃ t, σ.task i = some t ∧ t.state = .running

end Sched

/-- No task is made, and none changes its priority. -/
def SchedEvent.calm : SchedEvent → Bool
  | .fork _ => false
  | .nice _ => false
  | _ => true

def SchedEvent.userTick : SchedEvent → Bool
  | .timer user => user
  | _ => false

/-- From a state on, task `i` waits. -/
def waitSystem (i : Fin 64) (σ : Sched) : Lts Sched SchedEvent where
  init s := s = σ
  step s e s' := e.calm = true ∧ s.Waits i ∧ s'.Waits i ∧ s.step e = some s'

namespace TaskTable

variable {tab tab' : TaskTable} {i j : Fin 64} {t : TaskStruct}

theorem counterAt_some (h : tab j = some t) : tab.counterAt j = t.counter.toNat := by
  unfold counterAt
  rw [h]
  rfl

/-- A change that keeps counters and priorities. -/
theorem counterAt_mapRest {f : TaskStruct → TaskStruct} (hf : ∀ t, (f t).priority = t.priority ∧ (f t).counter = t.counter) :
    (tab.mapRest f).counterAt j = tab.counterAt j ∧ (tab.mapRest f).priorityAt j = tab.priorityAt j := by
  unfold counterAt priorityAt
  by_cases hj : j = 0
  · rw [hj, mapRest_zero]
    exact ⟨rfl, rfl⟩
  · rw [mapRest_of_ne f tab hj]
    cases tab j with
    | none => exact ⟨rfl, rfl⟩
    | some t =>
      change (f t).counter.toNat = t.counter.toNat ∧ (f t).priority.toNat = t.priority.toNat
      rw [(hf t).1, (hf t).2]
      exact ⟨rfl, rfl⟩

/-- A recharge adds the priority at most. -/
theorem recharge_le (hb : tab.Bounded) : (tab.mapRest TaskStruct.recharge).counterAt j ≤ tab.counterAt j + tab.priorityAt j := by
  unfold counterAt priorityAt
  by_cases hj : j = 0
  · rw [hj, mapRest_zero]
    exact Nat.le_add_right ..
  · rw [mapRest_of_ne _ tab hj]
    cases ht : tab j with
    | none => exact Nat.zero_le _
    | some t =>
      obtain ⟨h0, h1, h2, h3⟩ := hb j t ht
      have hsum : t.recharge.counter = t.counter / 2 + t.priority := long_of_isLong ⟨by omega, by omega⟩
      change t.recharge.counter.toNat ≤ t.counter.toNat + t.priority.toNat
      rw [hsum]
      omega

theorem charge_recharge (hb : tab.Bounded) : (tab.mapRest TaskStruct.recharge).charge ≤ tab.charge + tab.weight :=
  (Finset.sum_le_sum fun _ _ => recharge_le hb).trans_eq Finset.sum_add_distrib

/-- What the search finds besides a running task has something left. -/
theorem search_pos (hb : tab.Bounded) {c : ℤ} (hr : tab.Runs i c) (h : tab.search.1 ≠ 0) : 0 < tab.counterAt tab.search.2 := by
  obtain ⟨hwhich, -, hmax⟩ := tab.search_spec
  have hle := hmax i c hr
  obtain ⟨-, t, ht, -, rfl⟩ := hr
  have h0 := (hb i t ht).1
  obtain he | ⟨-, u, hu, -, hc⟩ := hwhich
  · rw [he] at hle
    change t.counter ≤ -1 at hle
    omega
  · rw [counterAt_some hu, hc]
    omega

end TaskTable

namespace Sched

variable {σ σ' : Sched} {i : Fin 64}

/-- `schedule` takes a task that has something left, and recharges only when task `i` has nothing. -/
theorem reschedule_cases (hb : σ.task.Bounded) (hi : i ≠ 0) (hr : ∃ t, σ.task i = some t ∧ t.state = .running)
    (h : σ.reschedule = some σ') : σ'.spent = 0 ∧
      (σ'.task.charge = σ.task.charge ∧ σ'.task.weight = σ.task.weight ∧ σ'.task.counterAt i = σ.task.counterAt i ∨
        σ.task.counterAt i = 0 ∧ 0 < σ'.task.counterAt i ∧ σ'.task.charge ≤ σ.task.charge + σ.task.weight) := by
  obtain ⟨⟨tab, next⟩, hx, rfl⟩ := Option.map_eq_some_iff.mp h
  have hsame : ∀ j, (σ.task.mapRest (TaskStruct.checkSignals σ.jiffies)).counterAt j = σ.task.counterAt j ∧
      (σ.task.mapRest (TaskStruct.checkSignals σ.jiffies)).priorityAt j = σ.task.priorityAt j := fun j =>
    TaskTable.counterAt_mapRest fun t => t.checkSignals_priority σ.jiffies
  have hb' : (σ.task.mapRest (TaskStruct.checkSignals σ.jiffies)).Bounded := by
    refine TaskTable.mapRest_forall hb fun t ht => ?_
    obtain ⟨hp, hc⟩ := t.checkSignals_priority σ.jiffies
    unfold TaskStruct.Bounded
    rwa [hp, hc]
  have hrun : ∃ c, (σ.task.mapRest (TaskStruct.checkSignals σ.jiffies)).Runs i c := by
    obtain ⟨t, ht, hs⟩ := hr
    refine ⟨_, hi, _, by rw [TaskTable.mapRest_of_ne _ _ hi, ht]; rfl, ?_, rfl⟩
    unfold TaskStruct.checkSignals
    dsimp only
    split_ifs <;> first | exact hs | rfl
  have hcharge : (σ.task.mapRest (TaskStruct.checkSignals σ.jiffies)).charge = σ.task.charge :=
    Finset.sum_congr rfl fun j _ => (hsame j).1
  have hweight : (σ.task.mapRest (TaskStruct.checkSignals σ.jiffies)).weight = σ.task.weight :=
    Finset.sum_congr rfl fun j _ => (hsame j).2
  have hci := (hsame i).1
  unfold TaskTable.schedule at hx
  generalize σ.task.mapRest (TaskStruct.checkSignals σ.jiffies) = tab₁ at *
  obtain ⟨c, hc⟩ := hrun
  have hspent : ∀ {τ : Sched} {c : ℤ}, τ.task.Bounded → τ.task.Runs i c → τ.task.search.1 ≠ 0 → τ.current = τ.task.search.2 →
      τ.spent = 0 := fun hb hr h0 he => if_neg (he ▸ (TaskTable.search_pos hb hr h0).ne')
  rw [TaskTable.choose] at hx
  split_ifs at hx with h0
  · cases hx
    exact ⟨hspent hb' hc h0 rfl, .inl ⟨hcharge, hweight, hci⟩⟩
  · rw [TaskTable.choose] at hx
    split_ifs at hx with h1
    · cases hx
      obtain ⟨-, t, ht, hs, rfl⟩ := hc
      have hbt := hb' i t ht
      have hmax := tab₁.search_spec.2.2 i t.counter ⟨hi, t, ht, hs, rfl⟩
      have ht' : tab₁.mapRest TaskStruct.recharge i = some t.recharge := by
        rw [TaskTable.mapRest_of_ne _ _ hi, ht]
        rfl
      have hsum : t.recharge.counter = t.counter / 2 + t.priority :=
        long_of_isLong ⟨by have := hbt.1; have := hbt.2.2.1; omega, by have := hbt.2.1; have := hbt.2.2.2; omega⟩
      refine ⟨hspent (TaskTable.mapRest_forall hb' fun _ h => h.recharge) ⟨hi, _, ht', hs, rfl⟩ h1 rfl, .inr ⟨?_, ?_, ?_⟩⟩
      · rw [← hci, TaskTable.counterAt_some ht]
        omega
      · change 0 < (tab₁.mapRest TaskStruct.recharge).counterAt i
        rw [TaskTable.counterAt_some ht', hsum]
        have := hbt.1
        have := hbt.2.2.1
        omega
      · rw [← hcharge, ← hweight]
        exact TaskTable.charge_recharge hb'
    · cases hx

/-- A call of `schedule` brings the task nearer, unless the running one had something left. -/
theorem waiting_reschedule (hb : σ.task.Bounded) (hi : i ≠ 0) (hr : ∃ t, σ.task i = some t ∧ t.state = .running)
    (h : σ.reschedule = some σ') : σ'.waiting i + σ.spent ≤ σ.waiting i := by
  obtain ⟨hs, ⟨hc, hw, hi⟩ | ⟨h0, hpos, hle⟩⟩ := reschedule_cases hb hi hr h
  · unfold waiting
    rw [hs, hc, hw, hi]
    split_ifs <;> omega
  · unfold waiting
    rw [hs, if_pos h0, if_neg hpos.ne']
    omega

/-- The counter of the running task is set, to `n` or less. -/
theorem charge_setTask {t u : TaskStruct} (ht : σ.task σ.current = some t) :
    (σ.setTask σ.current u).task.charge + t.counter.toNat = σ.task.charge + u.counter.toNat := by
  have hu : (σ.setTask σ.current u).task.counterAt σ.current = u.counter.toNat :=
    TaskTable.counterAt_some (Function.update_self ..)
  have hrest : ∑ j ∈ Finset.univ.erase σ.current, (σ.setTask σ.current u).task.counterAt j =
      ∑ j ∈ Finset.univ.erase σ.current, σ.task.counterAt j := Finset.sum_congr rfl fun j hj => by
    unfold TaskTable.counterAt setTask
    dsimp only
    rw [Function.update_of_ne (Finset.ne_of_mem_erase hj)]
  unfold TaskTable.charge
  rw [← Finset.add_sum_erase _ _ (Finset.mem_univ σ.current), ← Finset.add_sum_erase _ _ (Finset.mem_univ σ.current), hu, hrest,
    TaskTable.counterAt_some ht]
  omega

theorem weight_setTask {t u : TaskStruct} (ht : σ.task σ.current = some t) (hu : u.priority = t.priority) :
    (σ.setTask σ.current u).task.weight = σ.task.weight := Finset.sum_congr rfl fun j _ => by
  unfold TaskTable.priorityAt setTask
  dsimp only
  by_cases hj : j = σ.current
  · rw [hj, Function.update_self, ht]
    exact congrArg Int.toNat hu
  · rw [Function.update_of_ne hj]

theorem counterAt_setTask {u : TaskStruct} (hi : σ.current ≠ i) : (σ.setTask σ.current u).task.counterAt i = σ.task.counterAt i := by
  unfold TaskTable.counterAt setTask
  dsimp only
  rw [Function.update_of_ne hi.symm]

/-- A tick takes one from the counter of the running task, or finds that nothing is left of it. -/
theorem waiting_tick {t : TaskStruct} {c : ℤ} (ht : σ.task σ.current = some t) (hi : σ.current ≠ i) (h : c.toNat ≤ t.counter.toNat) :
    (σ.setTask σ.current { t with counter := c }).waiting i + (t.counter.toNat - c.toNat) ≤ σ.waiting i ∧
      (σ.setTask σ.current { t with counter := c }).spent = if c.toNat = 0 then 1 else 0 := by
  have hcharge := charge_setTask (u := { t with counter := c }) ht
  have hspent : ∀ u : TaskStruct, (σ.setTask σ.current u).spent = if u.counter.toNat = 0 then 1 else 0 := fun u => by
    unfold spent
    rw [show (σ.setTask σ.current u).task.counterAt (σ.setTask σ.current u).current = u.counter.toNat from
      TaskTable.counterAt_some (Function.update_self ..)]
  have hspent' : σ.spent = if t.counter.toNat = 0 then 1 else 0 := by
    unfold spent
    rw [TaskTable.counterAt_some ht]
  have hweight := weight_setTask (u := { t with counter := c }) ht rfl
  refine ⟨?_, hspent _⟩
  unfold waiting
  rw [counterAt_setTask hi, hweight, hspent, hspent']
  dsimp only at hcharge ⊢
  split_ifs <;> omega

/-- Other code may release tasks and change states. -/
theorem waiting_other {tab : TaskTable} {j : ℤ} (hk : ∀ k, Kept (k = 0 ∨ k = σ.current) (σ.task k) (tab k))
    (hi : (tab i).isSome) : waiting i { σ with task := tab, jiffies := j } ≤ σ.waiting i := by
  have hle : ∀ k, tab.counterAt k ≤ σ.task.counterAt k ∧ tab.priorityAt k ≤ σ.task.priorityAt k ∧
      ((tab k).isSome → tab.counterAt k = σ.task.counterAt k) := fun k => by
    have := hk k
    unfold TaskTable.counterAt TaskTable.priorityAt
    cases h : σ.task k with
    | none =>
      cases h' : tab k with
      | none => exact ⟨le_rfl, le_rfl, fun _ => rfl⟩
      | some t =>
        rw [h, h'] at this
        exact this.elim
    | some t =>
      cases h' : tab k with
      | none => exact ⟨Nat.zero_le _, Nat.zero_le _, fun h => absurd h Bool.false_ne_true⟩
      | some t' =>
        rw [h, h'] at this
        obtain ⟨hc, hp⟩ := this
        change t'.counter.toNat ≤ t.counter.toNat ∧ t'.priority.toNat ≤ t.priority.toNat ∧ (_ → t'.counter.toNat = t.counter.toNat)
        rw [hc, hp]
        exact ⟨le_rfl, le_rfl, fun _ => rfl⟩
  have hcharge : tab.charge ≤ σ.task.charge := Finset.sum_le_sum fun k _ => (hle k).1
  have hweight : tab.weight ≤ σ.task.weight := Finset.sum_le_sum fun k _ => (hle k).2.1
  have hcur : tab.counterAt σ.current = σ.task.counterAt σ.current := by
    have := hk σ.current
    unfold TaskTable.counterAt
    cases h : σ.task σ.current with
    | none =>
      cases h' : tab σ.current with
      | none => rfl
      | some t =>
        rw [h, h'] at this
        exact this.elim
    | some t =>
      cases h' : tab σ.current with
      | none =>
        rw [h, h'] at this
        exact absurd (Or.inr rfl) this
      | some t' =>
        rw [h, h'] at this
        exact congrArg Int.toNat this.1
  have hspent : spent { σ with task := tab, jiffies := j } = σ.spent := by
    unfold spent
    dsimp only
    rw [hcur]
  unfold waiting
  rw [(hle i).2.2 hi]
  dsimp only
  split_ifs <;> omega

/-- What a step does to the wait of task `i`. -/
theorem waiting_step {e : SchedEvent} (hb : σ.task.Bounded) (hi : i ≠ 0) (he : e.calm = true) (hw : σ.Waits i) (hw' : σ'.Waits i)
    (h : σ.step e = some σ') : σ'.waiting i + (if e.userTick then 1 else 0) ≤ σ.waiting i := by
  cases e with
  | fork _ => exact absurd he Bool.false_ne_true
  | nice _ => exact absurd he Bool.false_ne_true
  | timer user =>
    unfold step at h
    cases ht : σ.task σ.current with
    | none =>
      rw [ht] at h
      cases h
    | some t =>
      rw [ht] at h
      dsimp only at h
      have hbt := hb _ t ht
      have hsub : long (t.counter - 1) = t.counter - 1 := long_of_isLong ⟨by have := hbt.1; omega, by have := hbt.2.1; omega⟩
      rw [hsub] at h
      split_ifs at h with hpos hu
      · cases h
        obtain ⟨hle, -⟩ := waiting_tick (c := t.counter - 1) ht hw.1 (by omega)
        have := hbt.1
        change (σ.setTask σ.current { t with counter := t.counter - 1 }).waiting i + _ ≤ _
        split_ifs <;> omega
      · obtain ⟨hle, hs⟩ := waiting_tick (c := 0) ht hw.1 (Nat.zero_le _)
        have hb' : (σ.setTask σ.current { t with counter := 0 }).task.Bounded := fun j u hj => by
          by_cases hc : j = σ.current
          · have hself : (σ.setTask σ.current { t with counter := 0 }).task σ.current = some { t with counter := 0 } :=
              Function.update_self ..
            rw [hc, hself] at hj
            cases hj
            exact ⟨le_rfl, show (0 : ℤ) < 2147483648 by decide, hbt.2.2⟩
          · exact hb j u ((Function.update_of_ne hc ..).symm.trans hj)
        have hr : ∃ u, (σ.setTask σ.current { t with counter := 0 }).task i = some u ∧ u.state = .running := by
          obtain ⟨u, hu, hru⟩ := hw.2
          exact ⟨u, (Function.update_of_ne hw.1.symm ..).trans hu, hru⟩
        have hstep := waiting_reschedule hb' hi hr h
        rw [hs] at hstep
        change σ'.waiting i + (if user = true then 1 else 0) ≤ _
        rw [if_pos hu]
        rw [if_pos Int.toNat_zero] at hstep
        omega
      · cases h
        obtain ⟨hle, -⟩ := waiting_tick (c := 0) ht hw.1 (Nat.zero_le _)
        change (σ.setTask σ.current { t with counter := 0 }).waiting i + (if user = true then 1 else 0) ≤ _
        rw [if_neg hu]
        omega
  | schedule =>
    have hstep := waiting_reschedule hb hi hw.2 h
    change σ'.waiting i + 0 ≤ _
    omega
  | other tab j =>
    unfold step at h
    dsimp only at h
    split_ifs at h with hk
    cases h
    obtain ⟨-, u, hu, -⟩ := hw'
    exact waiting_other hk (Option.isSome_iff_exists.mpr ⟨u, hu⟩)

end Sched

/-- A task that stays TASK_RUNNING waits for less than four times all counters and twice all
    priorities of ticks in user mode: it cannot starve. -/
theorem no_starvation {σ σ' : Sched} {i : Fin 64} {es : List SchedEvent} (hi : i ≠ 0)
    (h : (schedSystem.restrict Sched.Moderate).Reachable σ) (ht : (waitSystem i σ).Trace es σ') :
    es.countP SchedEvent.userTick ≤ 4 * σ.task.charge + 2 * σ.task.weight + 3 := by
  have hspent : σ.spent ≤ 1 := by
    unfold Sched.spent
    split_ifs <;> omega
  have hle := ht.countP_le (I := (schedSystem.restrict Sched.Moderate).Reachable) (V := Sched.waiting i)
    (p := SchedEvent.userTick) (n := σ.waiting i) (fun s hs => ?_) fun s e s' hr hs => ?_
  · have := hle.2
    unfold Sched.waiting at this
    split_ifs at this <;> omega
  · obtain rfl : s = σ := hs
    exact ⟨h, le_rfl⟩
  · obtain ⟨he, hw, hw', hstep⟩ := hs
    have hmod : s.Moderate e := by
      cases e with
      | nice inc => exact absurd he Bool.false_ne_true
      | _ => trivial
    exact ⟨hr.step ⟨hmod, hstep⟩, Sched.waiting_step (bounded_inv hr) hi he hw hw' hstep⟩

/-- Task 1 is made and waits while task 0 has a tick. -/
theorem no_starvation_first_tick : ∃ σ σ', Sched.start.step (.fork 1) = some σ ∧ (waitSystem 1 σ).Trace [.timer true] σ' ∧
    1 ≤ 4 * σ.task.charge + 2 * σ.task.weight + 3 := by
  have hsome : ((Sched.start.step (.fork 1)).bind fun σ => σ.step (.timer true)).isSome := by decide
  obtain ⟨σ', hb⟩ := Option.isSome_iff_exists.mp hsome
  obtain ⟨σ, hf, ht⟩ := Option.bind_eq_some_iff.mp hb
  have hval : (Sched.start.step (.fork 1)).map (fun σ => (σ.current, σ.task 1)) = some (0, some (Sched.child initTask)) ∧
      ((Sched.start.step (.fork 1)).bind fun σ => (σ.step (.timer true)).map fun σ => (σ.current, σ.task 1)) =
        some (0, some (Sched.child initTask)) := by decide
  rw [hf, Option.map_some, Option.bind_some, ht, Option.map_some] at hval
  simp only [Option.some.injEq, Prod.mk.injEq] at hval
  obtain ⟨⟨hc, h1⟩, hc', h1'⟩ := hval
  have hw : σ.Waits 1 := ⟨by rw [hc]; decide, _, h1, rfl⟩
  have hw' : σ'.Waits 1 := ⟨by rw [hc']; decide, _, h1', rfl⟩
  have htr : (waitSystem 1 σ).Trace [.timer true] σ' := (Lts.Trace.init rfl).step ⟨rfl, hw, hw', ht⟩
  have hm : Sched.start.Moderate (.fork 1) := trivial
  have hr : (schedSystem.restrict Sched.Moderate).Reachable σ := (Lts.Reachable.init rfl).step ⟨hm, hf⟩
  exact ⟨σ, σ', hf, htr, no_starvation (by decide) hr htr⟩

end Linux011.Kernel

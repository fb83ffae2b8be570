/-
  `sys_alarm` of kernel/sched.c and the alarm test at the top of `schedule`. The deadline is a
  32-bit sum of `jiffies` and a 32-bit product, and `schedule` compares it as a signed number.
  `alarm_on_time` says for which calls no later `schedule` sends SIGALRM early and a second call
  returns the time left.
-/
import Linux011.Kernel.Sched

namespace Linux011.Kernel
open Linux011.Lib

namespace Sched

def sysAlarm (σ : Sched) (seconds : ℤ) : Option (ℤ × Sched) :=
  match σ.task σ.current with
  | some t =>
    some (if t.alarm ≠ 0 then (long (t.alarm - σ.jiffies)).tdiv 100 else t.alarm,
      σ.setTask σ.current
        { t with alarm := if 0 < seconds then long (σ.jiffies + long (100 * seconds)) else 0 })
  | none => none

/-- The events in which `schedule` is called: a tick of a user program does when the time slice
    of the running task is over. -/
def CallsSchedule (σ : Sched) : SchedEvent → Prop
  | .schedule => True
  | .timer user => user ∧ ∃ t, σ.task σ.current = some t ∧ ¬ 0 < long (t.counter - 1)
  | _ => False

/-- `schedule` finds the alarm of task `i` to be over; it passes over task 0. -/
def Expired (σ : Sched) (i : Fin 64) (t : TaskStruct) : Prop := i ≠ 0 ∧ t.alarm ≠ 0 ∧ t.alarm < σ.jiffies

instance (σ : Sched) (i : Fin 64) (t : TaskStruct) : Decidable (σ.Expired i t) := inferInstanceAs (Decidable (_ ∧ _))

/-- `schedule`, called in this event, sends SIGALRM to task `i`. -/
def Rings (σ : Sched) (i : Fin 64) (e : SchedEvent) : Prop :=
  σ.CallsSchedule e ∧ ∃ t, σ.task i = some t ∧ σ.Expired i t

/-- No `sys_alarm` of task `i`, which is not released; `jiffies` counts up without overflow. -/
def Later (i : Fin 64) (σ : Sched) : SchedEvent → Prop
  | .other tab j => (tab i).map TaskStruct.alarm = (σ.task i).map TaskStruct.alarm ∧ σ.jiffies ≤ j ∧ j < 2147483648
  | _ => True

/-- What happens after `σ`. -/
def laterSystem (i : Fin 64) (σ : Sched) : Lts Sched SchedEvent where
  init s := s = σ
  step s e s' := Later i s e ∧ s.step e = some s'

/-- For a call `sys_alarm(seconds)` of task `i` at `since`: SIGALRM is sent only after more than
    the time asked for, and until then a second call returns the whole seconds that remain. -/
def OnTime (i : Fin 64) (since seconds : ℤ) (σ : Sched) : Prop :=
  (∀ e, σ.Rings i e → 100 * seconds < σ.jiffies - since) ∧
  (σ.current = i → σ.jiffies - since ≤ 100 * seconds → ∀ again, ∃ σ',
    σ.sysAlarm again = some ((since + 100 * seconds - σ.jiffies) / 100, σ'))

variable {σ σ' : Sched} {i : Fin 64} {t : TaskStruct} {e : SchedEvent}

@[simp] theorem setTask_self (σ : Sched) (i : Fin 64) (t : TaskStruct) : (σ.setTask i t).task i = some t :=
  Function.update_self ..

theorem setTask_of_ne (σ : Sched) {i j : Fin 64} (h : j ≠ i) (t : TaskStruct) : (σ.setTask i t).task j = σ.task j :=
  Function.update_of_ne h ..

/-- The signal pass on one task. -/
theorem checkSignals_alarm (j : ℤ) (t : TaskStruct) :
    (t.checkSignals j).alarm = (if t.alarm ≠ 0 ∧ t.alarm < j then 0 else t.alarm) ∧
    (t.checkSignals j).signal = if t.alarm ≠ 0 ∧ t.alarm < j then t.signal ||| 1 <<< 13 else t.signal := by
  unfold TaskStruct.checkSignals
  dsimp only
  split_ifs <;> exact ⟨rfl, rfl⟩

/-- The search for the next task changes counters only. -/
theorem choose_alarm {k : ℕ} {tab tab' : TaskTable} {next : Fin 64} (h : tab.choose k = some (tab', next))
    (ht : tab i = some t) : ∃ t', tab' i = some t' ∧ t'.alarm = t.alarm ∧ t'.signal = t.signal := by
  induction k generalizing tab t with
  | zero => cases h
  | succ k ih =>
    rw [TaskTable.choose] at h
    split_ifs at h
    · cases h
      exact ⟨t, ht, rfl, rfl⟩
    · by_cases hi : i = 0
      · subst hi
        exact ih h (by rwa [TaskTable.mapRest_zero])
      · obtain ⟨t', ht', ha, hs⟩ := ih h (t := t.recharge) (by rw [TaskTable.mapRest_of_ne _ _ hi, ht]; rfl)
        exact ⟨t', ht', ha, hs⟩

/-- `schedule` sets SIGALRM and clears the alarm of a task whose alarm is over, and leaves the
    signals and the alarm of every other one. -/
theorem reschedule_alarm (h : σ.reschedule = some σ') (ht : σ.task i = some t) :
    ∃ t', σ'.task i = some t' ∧ σ'.jiffies = σ.jiffies ∧ t'.alarm = (if σ.Expired i t then 0 else t.alarm) ∧
      t'.signal = if σ.Expired i t then t.signal ||| 1 <<< 13 else t.signal := by
  obtain ⟨⟨tab, next⟩, hx, rfl⟩ := Option.map_eq_some_iff.mp h
  by_cases hi : i = 0
  · subst hi
    obtain ⟨t', ht', ha, hs⟩ := choose_alarm hx (i := 0) (t := t) (by rwa [TaskTable.mapRest_zero])
    have hnot : ¬ σ.Expired 0 t := fun hn => hn.1 rfl
    exact ⟨t', ht', rfl, by rw [if_neg hnot, ha], by rw [if_neg hnot, hs]⟩
  · obtain ⟨t', ht', ha, hs⟩ := choose_alarm hx (i := i) (t := t.checkSignals σ.jiffies)
      (by rw [TaskTable.mapRest_of_ne _ _ hi, ht]; rfl)
    have hexp : σ.Expired i t ↔ t.alarm ≠ 0 ∧ t.alarm < σ.jiffies := ⟨fun h => h.2, fun h => ⟨hi, h⟩⟩
    obtain ⟨ha', hs'⟩ := checkSignals_alarm σ.jiffies t
    exact ⟨t', ht', rfl, by simp only [ha, ha', hexp], by simp only [hs, hs', hexp]⟩

/-- Without a call of `sys_alarm` only `schedule` touches the alarm of a task. -/
theorem step_alarm (h : σ.step e = some σ') (hl : Later i σ e) (ht : σ.task i = some t) :
    ∃ t', σ'.task i = some t' ∧ (σ.Rings i e → t'.alarm = 0) ∧ (¬ σ.Rings i e → t'.alarm = t.alarm) := by
  have hquiet : ¬ σ.CallsSchedule e → ∀ t', t'.alarm = t.alarm → σ'.task i = some t' →
      ∃ t', σ'.task i = some t' ∧ (σ.Rings i e → t'.alarm = 0) ∧ (¬ σ.Rings i e → t'.alarm = t.alarm) :=
    fun hn t' ha ht' => ⟨t', ht', fun hr => absurd hr.1 hn, fun _ => ha⟩
  have hset : ∀ j t₀, σ.task j = some t₀ → ∀ t', t'.alarm = t₀.alarm → ∃ t'', (σ.setTask j t').task i = some t'' ∧
      t''.alarm = t.alarm := by
    intro j t₀ hj t' ha
    by_cases hij : i = j
    · subst hij
      obtain rfl : t₀ = t := by rw [hj] at ht; exact Option.some.inj ht
      exact ⟨t', setTask_self .., ha⟩
    · exact ⟨t, by rw [setTask_of_ne _ hij, ht], rfl⟩
  have hcall : ∀ τ : Sched, τ.jiffies = σ.jiffies → τ.reschedule = some σ' → σ.CallsSchedule e →
      (∃ t', τ.task i = some t' ∧ t'.alarm = t.alarm) →
      ∃ t', σ'.task i = some t' ∧ (σ.Rings i e → t'.alarm = 0) ∧ (¬ σ.Rings i e → t'.alarm = t.alarm) := by
    rintro τ hj hτ hc ⟨t', ht', ha⟩
    obtain ⟨t'', ht'', -, ha'', -⟩ := reschedule_alarm hτ ht'
    have hexp : τ.Expired i t' ↔ σ.Expired i t := by simp only [Expired, ha, hj]
    rw [if_congr hexp rfl rfl, ha] at ha''
    refine ⟨t'', ht'', fun hr => ?_, fun hr => ?_⟩
    · obtain ⟨-, t₁, ht₁, hexp₁⟩ := hr
      obtain rfl : t = t₁ := by rw [ht] at ht₁; exact Option.some.inj ht₁
      rw [ha'', if_pos hexp₁]
    · rw [ha'', if_neg fun hn => hr ⟨hc, t, ht, hn⟩]
  cases e with
  | fork nr =>
    simp only [step] at h
    split at h
    · cases h
      rename_i t₀ h₀ hnr
      have hi : i ≠ nr := by rintro rfl; rw [hnr] at ht; cases ht
      exact hquiet id t rfl (by rw [setTask_of_ne _ hi, ht])
    · cases h
  | nice inc =>
    simp only [step] at h
    split at h
    · rename_i t₀ h₀
      split_ifs at h
      · cases h
        obtain ⟨t', ht', ha⟩ := hset _ _ h₀ { t₀ with priority := long (t₀.priority - inc) } rfl
        exact hquiet id t' ha ht'
      · cases h
        exact hquiet id t rfl ht
    · cases h
  | timer user =>
    simp only [step] at h
    split at h
    · rename_i t₀ h₀
      split_ifs at h with hc hu
      · cases h
        obtain ⟨t', ht', ha⟩ := hset _ _ h₀ { t₀ with counter := long (t₀.counter - 1) } rfl
        refine hquiet (fun hn => ?_) t' ha ht'
        obtain ⟨-, t₁, ht₁, hle⟩ := hn
        obtain rfl : t₀ = t₁ := by rw [h₀] at ht₁; exact Option.some.inj ht₁
        exact hle hc
      · exact hcall (σ.setTask σ.current { t₀ with counter := 0 }) rfl h ⟨hu, t₀, h₀, hc⟩ (hset _ _ h₀ _ rfl)
      · cases h
        obtain ⟨t', ht', ha⟩ := hset _ _ h₀ { t₀ with counter := 0 } rfl
        exact hquiet (fun hn => hu hn.1) t' ha ht'
    · cases h
  | schedule => exact hcall σ rfl h trivial ⟨t, ht, rfl⟩
  | other tab j =>
    simp only [step] at h
    split_ifs at h
    cases h
    have ha := hl.1
    rw [ht, Option.map_some, Option.map_eq_some_iff] at ha
    obtain ⟨t', ht', ha⟩ := ha
    exact hquiet id t' ha ht'

theorem reschedule_jiffies (h : σ.reschedule = some σ') : σ'.jiffies = σ.jiffies := by
  obtain ⟨x, -, rfl⟩ := Option.map_eq_some_iff.mp h
  rfl

theorem step_jiffies (h : σ.step e = some σ') (hl : Later i σ e) (hj : IsLong σ.jiffies) :
    σ.jiffies ≤ σ'.jiffies ∧ IsLong σ'.jiffies := by
  have hsame : σ'.jiffies = σ.jiffies → σ.jiffies ≤ σ'.jiffies ∧ IsLong σ'.jiffies :=
    fun he => ⟨he.ge, he ▸ hj⟩
  cases e with
  | other tab j =>
    simp only [step] at h
    split_ifs at h
    cases h
    exact ⟨hl.2.1, hj.1.trans hl.2.1, hl.2.2⟩
  | schedule => exact hsame (reschedule_jiffies h)
  | fork nr =>
    simp only [step] at h
    split at h <;> cases h
    exact hsame rfl
  | nice inc =>
    simp only [step] at h
    split at h
    · split_ifs at h <;> cases h <;> exact hsame rfl
    · cases h
  | timer user =>
    simp only [step] at h
    split at h
    · split_ifs at h
      · cases h
        exact hsame rfl
      · exact hsame ((reschedule_jiffies h).trans rfl)
      · cases h
        exact hsame rfl
    · cases h

/-- The alarm that `sys_alarm` sets. -/
theorem long_add_long (x y : ℤ) : long (x + long y) = long (x + y) := Int.add_bmod_bmod

theorem sysAlarm_sets {seconds old : ℤ} (h : σ.sysAlarm seconds = some (old, σ')) (hs : 0 < seconds) :
    σ'.current = σ.current ∧ σ'.jiffies = σ.jiffies ∧
      ∃ t, σ'.task σ.current = some t ∧ t.alarm = long (σ.jiffies + 100 * seconds) := by
  unfold sysAlarm at h
  split at h
  · cases h
    exact ⟨rfl, rfl, _, setTask_self .., by rw [if_pos hs, long_add_long]⟩
  · cases h

theorem sysAlarm_returns (ht : σ.task σ.current = some t) (again : ℤ) :
    ∃ σ', σ.sysAlarm again = some (if t.alarm ≠ 0 then (long (t.alarm - σ.jiffies)).tdiv 100 else t.alarm, σ') := by
  simp only [sysAlarm, ht]
  exact ⟨_, rfl⟩

/-- The deadline is a time that `jiffies` can pass, or the alarm is one of task 0, and it is not
    mistaken for no alarm; the time asked for is less than half the range of a word. -/
def Reaches (i : Fin 64) (since seconds : ℤ) : Prop :=
  100 * seconds < 2147483648 ∧ since + 100 * seconds ≠ 0 ∧ (since + 100 * seconds < 2147483648 ∨ i = 0)

instance (i : Fin 64) (since seconds : ℤ) : Decidable (Reaches i since seconds) :=
  inferInstanceAs (Decidable (_ ∧ _ ∧ (_ ∨ _)))

/-- The alarm is set and has not expired, or it is over and the time has passed. -/
structure Pending (i : Fin 64) (since seconds : ℤ) (σ : Sched) : Prop where
  time : since ≤ σ.jiffies ∧ IsLong σ.jiffies
  alarm : ∃ t, σ.task i = some t ∧ (t.alarm = long (since + 100 * seconds) ∨
    t.alarm = 0 ∧ 100 * seconds < σ.jiffies - since)

variable {since seconds : ℤ}

namespace Reaches

theorem long_eq (h : Reaches i since seconds) (hi : i ≠ 0) (hj : IsLong since) (hs : 0 < seconds) :
    long (since + 100 * seconds) = since + 100 * seconds :=
  long_of_isLong ⟨by have := hj.1; omega, h.2.2.resolve_right hi⟩

theorem long_ne_zero (h : Reaches i since seconds) (hj : IsLong since) (hs : 0 < seconds) :
    long (since + 100 * seconds) ≠ 0 := by
  obtain ⟨hsec, hne, -⟩ := h
  obtain ⟨h1, h2⟩ := hj
  rw [long, Int.bmod_def]
  split_ifs <;> omega

/-- What a second call reads of the alarm is the time left. -/
theorem long_left (h : Reaches i since seconds) (hj : since ≤ σ.jiffies) (hle : σ.jiffies - since ≤ 100 * seconds) :
    long (long (since + 100 * seconds) - σ.jiffies) = since + 100 * seconds - σ.jiffies := by
  have hsub : long (long (since + 100 * seconds) - σ.jiffies) = long (since + 100 * seconds - σ.jiffies) :=
    Int.bmod_sub_bmod ..
  rw [hsub]
  exact long_of_isLong ⟨by omega, by have := h.1; omega⟩

end Reaches

/-- An alarm rings only when its time has passed. -/
theorem Pending.rings (h : Pending i since seconds σ) (hr : Reaches i since seconds) (hj : IsLong since) (hs : 0 < seconds)
    (he : σ.Rings i e) : 100 * seconds < σ.jiffies - since := by
  obtain ⟨t, ht, ha | ⟨-, hlt⟩⟩ := h.alarm
  · obtain ⟨-, t', ht', hi, -, hlt⟩ := he
    obtain rfl : t = t' := by rw [ht] at ht'; exact Option.some.inj ht'
    rw [ha, hr.long_eq hi hj hs] at hlt
    omega
  · exact hlt

theorem Pending.step (h : Pending i since seconds σ) (hr : Reaches i since seconds) (hj : IsLong since) (hs : 0 < seconds)
    (hl : Later i σ e) (hstep : σ.step e = some σ') : Pending i since seconds σ' := by
  obtain ⟨hle, hj'⟩ := step_jiffies hstep hl h.time.2
  refine ⟨⟨h.time.1.trans hle, hj'⟩, ?_⟩
  obtain ⟨t, ht, ha⟩ := h.alarm
  obtain ⟨t', ht', hrings, hquiet⟩ := step_alarm hstep hl ht
  refine ⟨t', ht', ?_⟩
  by_cases he : σ.Rings i e
  · exact .inr ⟨hrings he, by have := h.rings hr hj hs he; omega⟩
  · rw [hquiet he]
    exact ha.imp_right fun h0 => ⟨h0.1, by omega⟩

theorem Pending.onTime (h : Pending i since seconds σ) (hr : Reaches i since seconds) (hj : IsLong since) (hs : 0 < seconds) :
    σ.OnTime i since seconds := by
  refine ⟨fun e he => h.rings hr hj hs he, ?_⟩
  rintro rfl hle again
  obtain ⟨t, ht, ha | ⟨-, hlt⟩⟩ := h.alarm
  · obtain ⟨σ', hσ'⟩ := sysAlarm_returns ht again
    rw [ha, if_pos (hr.long_ne_zero hj hs), hr.long_left h.time.1 hle, Int.tdiv_eq_ediv_of_nonneg (by omega)] at hσ'
    exact ⟨σ', hσ'⟩
  · omega

/-- In any later run. -/
theorem pending_of_reachable (h : Pending i since seconds σ) (hr : Reaches i since seconds) (hj : IsLong since)
    (hs : 0 < seconds) (hσ' : (laterSystem i σ).Reachable σ') : Pending i since seconds σ' :=
  hσ'.invariant (fun _ h₀ => h₀ ▸ h) fun _ _ _ _ hp ⟨hl, hstep⟩ => hp.step hr hj hs hl hstep

/-- Otherwise the call is already late: the time left is not what a second call returns, or the
    first `schedule` sends SIGALRM. -/
theorem not_onTime (hj : IsLong σ.jiffies) (hs : 0 < seconds) (ht : σ.task i = some t) (hcur : σ.current = i)
    (ha : t.alarm = long (σ.jiffies + 100 * seconds)) (h : σ.OnTime i σ.jiffies seconds) :
    Reaches i σ.jiffies seconds := by
  obtain ⟨hring, hleft⟩ := h
  obtain ⟨h1, h2⟩ := hj
  obtain ⟨σ', hσ'⟩ := hleft hcur (by omega) 0
  subst hcur
  obtain ⟨σ'', hσ''⟩ := sysAlarm_returns ht 0
  rw [hσ'', Option.some.injEq, Prod.mk.injEq] at hσ'
  have hval := hσ'.1
  rw [show σ.jiffies + 100 * seconds - σ.jiffies = 100 * seconds by omega, Int.mul_ediv_cancel_left _ (by decide)] at hval
  have hne : t.alarm ≠ 0 := by
    intro h0
    rw [h0] at hval
    simp at hval
    omega
  rw [if_pos hne] at hval
  have hsec : 100 * seconds < 2147483648 := by
    obtain ⟨hl, hu⟩ := isLong_long (t.alarm - σ.jiffies)
    obtain h0 | h0 := le_total 0 (long (t.alarm - σ.jiffies))
    · rw [Int.tdiv_eq_ediv_of_nonneg h0] at hval
      omega
    · have hneg := Int.tdiv_nonneg (Int.neg_nonneg_of_nonpos h0) (by decide : (0 : ℤ) ≤ 100)
      rw [Int.neg_tdiv] at hneg
      omega
  refine ⟨hsec, fun h0 => hne ?_, ?_⟩
  · rw [ha, h0]
    rfl
  · by_contra hn
    push Not at hn
    have hlow : t.alarm = σ.jiffies + 100 * seconds - 4294967296 := by
      rw [ha, long, Int.bmod_def]
      split_ifs <;> omega
    have := hring .schedule ⟨trivial, t, ht, hn.2, hne, by omega⟩
    omega

end Sched

open Sched in
/-- In every run after a call of `sys_alarm(seconds)` SIGALRM is sent only when more than the time
    asked for has passed, and until then a second call returns the time left, exactly if the
    deadline is a time that `jiffies` can pass. -/
theorem alarm_on_time {σ σ₁ : Sched} {seconds old : ℤ} (h : σ.sysAlarm seconds = some (old, σ₁))
    (hj : IsLong σ.jiffies) (hs : 0 < seconds) :
    (∀ σ', (laterSystem σ.current σ₁).Reachable σ' → σ'.OnTime σ.current σ.jiffies seconds) ↔
      Reaches σ.current σ.jiffies seconds := by
  obtain ⟨hcur, hjif, t, ht, ha⟩ := sysAlarm_sets h hs
  refine ⟨fun hall => ?_, fun hr σ' hσ' => ?_⟩
  · have h₁ := hall σ₁ (.init rfl)
    rw [← hjif] at h₁ ha ⊢
    rw [← hjif] at hj
    exact not_onTime hj hs ht hcur ha h₁
  · have hp : Pending σ.current σ.jiffies seconds σ₁ := ⟨by rw [hjif]; exact ⟨le_rfl, hj⟩, t, ht, .inl ha⟩
    exact (pending_of_reachable hp hr hj hs hσ').onTime hr hj hs

/-- Task 1 runs. -/
def Sched.oneTask (jiffies : ℤ) : Sched :=
  ⟨fun i => if i = 0 ∨ i = 1 then some initTask else none, 1, jiffies⟩

open Sched in
theorem alarm_on_time_minute : ∃ old σ₁, (oneTask 500).sysAlarm 60 = some (old, σ₁) ∧
    ∀ σ', (laterSystem 1 σ₁).Reachable σ' → σ'.OnTime 1 500 60 := by
  have hj : IsLong (oneTask 500).jiffies := by decide
  have hr : Reaches (oneTask 500).current (oneTask 500).jiffies 60 := by decide
  exact ⟨_, _, rfl, (alarm_on_time rfl hj (by decide)).mpr hr⟩

open Sched in
/-- An alarm after 248 days: the deadline wraps around, and the next `schedule` sends SIGALRM. -/
theorem alarm_at_once : ∃ old σ₁, (oneTask 1).sysAlarm 21474837 = some (old, σ₁) ∧
    ∃ σ', (laterSystem 1 σ₁).Reachable σ' ∧ ¬ σ'.OnTime 1 1 21474837 := by
  refine ⟨_, _, rfl, _, .init rfl, fun h => ?_⟩
  have := h.1 .schedule ⟨trivial, _, rfl, by decide⟩
  exact absurd this (by decide)

end Linux011.Kernel

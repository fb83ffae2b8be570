/-
  `interruptible_sleep_on` of kernel/sched.c on one queue, with `wake_up`, interrupt handlers
  that store to the state of `*p`, and signals. A task that goes on and finds another one in `*p`
  wakes that one and sleeps again; otherwise it empties `*p` and wakes its `tmp`. This keeps the
  queue together exactly as long as a task finds another one in `*p` just when a call still
  holds it: `interruptible_sleep_on_loses_nobody`.
-/
import Linux011.Kernel.SleepOn

namespace Linux011.Kernel
open Linux011.Lib

variable {ι : Type*} [DecidableEq ι]

namespace WaitQueue

/-- `schedule` returns in the call of `t` with saved `tmp`. -/
def goOn (s : WaitQueue ι) (t : ι) (tmp : Option ι) : WaitQueue ι :=
  match s.head with
  | none => s.leave t tmp none
  | some y =>
    if y = t then s.leave t tmp none
    else { (s.makeRunning y).setState t .interruptible with current := t }

/-- The events of a queue used through `interruptible_sleep_on` and `wake_up`. -/
def interruptibleSleepOn (idle : ι) (s : WaitQueue ι) : WaitEvent ι → Option (WaitQueue ι)
  | .sleep =>
    if s.current = idle ∨ s.frame s.current ≠ none then none else some (s.enter .interruptible)
  | .switch t =>
    if s.state t = .running ∨ t = idle then
      match s.frame t with
      | none => some { s with current := t }
      | some tmp => some (s.goOn t tmp)
    else none
  | .wake => some s.wakeUp
  | .other t st => if s.frame t ≠ none then none else some (s.setState t st)
  | .poke => some (s.makeRunning? s.head)
  | .signal t =>
    if s.frame t ≠ none ∧ s.state t = .interruptible then some (s.setState t .running) else none

/-- TASK_INTERRUPTIBLE in a call of `interruptible_sleep_on` on this queue. -/
def Dozes (s : WaitQueue ι) (x : ι) : Prop := s.Pending x ∧ s.state x = .interruptible

/-- From every sleeper the way back ends at `*p` or at a task that may run, and the tasks that the
    calls store to, their `tmp` and `*p`, are in the queue. -/
def KeepsAll (s : WaitQueue ι) : Prop :=
  (∀ x, s.Dozes x → s.Back x) ∧ (∀ t x, s.frame t = some (some x) → s.Pending x) ∧
    ∀ x, s.head = some x → s.Pending x

/-- A task that goes on finds another one in `*p` just when a call still holds it. -/
def Orderly (s : WaitQueue ι) : WaitEvent ι → Prop
  | .switch t => s.Pending t → ((∃ y, s.head = some y ∧ y ≠ t) ↔ ¬ s.Unsaved t)
  | _ => True

end WaitQueue

def interruptibleSystem (idle : ι) : Lts (WaitQueue ι) (WaitEvent ι) where
  init s := s.head = none ∧ ∀ t, s.frame t = none
  step s e s' := s.interruptibleSleepOn idle e = some s'

namespace WaitQueue

variable {s s' : WaitQueue ι} {idle : ι}

/-- Everything an event can do. -/
theorem interruptibleSleepOn_cases {e : WaitEvent ι} (h : s.interruptibleSleepOn idle e = some s') :
    (e = .sleep ∧ s.current ≠ idle ∧ ¬ s.Pending s.current ∧ s' = s.enter .interruptible) ∨
    (∃ t, e = .switch t ∧ ¬ s.Pending t ∧ s' = { s with current := t }) ∨
    (∃ t tmp, e = .switch t ∧ (s.state t = .running ∨ t = idle) ∧ s.frame t = some tmp ∧
      s' = s.goOn t tmp) ∨
    (e = .wake ∧ s' = s.wakeUp) ∨
    (∃ t st, e = .other t st ∧ ¬ s.Pending t ∧ s' = s.setState t st) ∨
    (e = .poke ∧ s' = s.makeRunning? s.head) ∨
    ∃ t, e = .signal t ∧ s.Dozes t ∧ s' = s.setState t .running := by
  cases e with
  | sleep =>
    simp only [interruptibleSleepOn] at h
    split_ifs at h with hc
    rw [not_or, not_not] at hc
    exact .inl ⟨rfl, hc.1, not_not.mpr hc.2, (Option.some.inj h).symm⟩
  | switch t =>
    simp only [interruptibleSleepOn] at h
    split_ifs at h with hc
    split at h
    · exact .inr (.inl ⟨t, rfl, not_not.mpr ‹_›, (Option.some.inj h).symm⟩)
    · exact .inr (.inr (.inl ⟨t, _, rfl, hc, ‹_›, (Option.some.inj h).symm⟩))
  | wake => exact .inr (.inr (.inr (.inl ⟨rfl, (Option.some.inj h).symm⟩)))
  | other t st =>
    simp only [interruptibleSleepOn] at h
    split_ifs at h with hc
    exact .inr (.inr (.inr (.inr (.inl ⟨t, st, rfl, hc, (Option.some.inj h).symm⟩))))
  | poke => exact .inr (.inr (.inr (.inr (.inr (.inl ⟨rfl, (Option.some.inj h).symm⟩)))))
  | signal t =>
    simp only [interruptibleSleepOn] at h
    split_ifs at h with hc
    exact .inr (.inr (.inr (.inr (.inr (.inr ⟨t, rfl, hc, (Option.some.inj h).symm⟩)))))

/-- The two ways a call goes on. -/
theorem goOn_cases (s : WaitQueue ι) (t : ι) (tmp : Option ι) :
    ((s.head = none ∨ s.head = some t) ∧ s.goOn t tmp = s.leave t tmp none) ∨
    ∃ y, s.head = some y ∧ y ≠ t ∧
      s.goOn t tmp = { (s.makeRunning y).setState t .interruptible with current := t } := by
  unfold goOn
  cases hh : s.head with
  | none => exact .inl ⟨.inl rfl, rfl⟩
  | some y =>
    by_cases hy : y = t
    · exact .inl ⟨.inr (by rw [hy]), if_pos hy⟩
    · exact .inr ⟨y, rfl, hy, if_neg hy⟩

/-- The links of the queue, and that a task in it sleeps or may run. -/
structure Dozers (idle : ι) (s : WaitQueue ι) : Prop where
  linked : s.Linked
  states : ∀ x, s.Pending x → s.state x = .interruptible ∨ s.state x = .running
  awake : ¬ s.Pending idle

namespace Dozers

omit [DecidableEq ι] in
/-- A change of the states of tasks in the queue, to sleep or to run. -/
theorem restate (h : s.Dozers idle) (hh : s'.head = s.head) (hf : s'.frame = s.frame)
    (hr : ∀ x, s.Unsaved x → s.head ≠ some x → s.state x = .running → s'.state x = .running)
    (hst : ∀ x, s.Pending x → s'.state x = .interruptible ∨ s'.state x = .running) :
    s'.Dozers idle := by
  refine ⟨h.linked.restate hh hf hr, ?_, ?_⟩
  · intro x hx
    rw [Pending, hf] at hx
    exact hst x hx
  · rw [Pending, hf]
    exact h.awake

theorem states_makeRunning? (h : s.Dozers idle) (o : Option ι) {x : ι} (hx : s.Pending x) :
    (s.makeRunning? o).state x = .interruptible ∨ (s.makeRunning? o).state x = .running := by
  by_cases ho : o = some x
  · subst ho
    exact .inr (s.makeRunning?_self x)
  · rw [s.makeRunning?_other ho]
    exact h.states x hx

theorem sleep (h : s.Dozers idle) (hi : s.current ≠ idle) (hc : ¬ s.Pending s.current) :
    (s.enter .interruptible).Dozers idle := by
  refine ⟨h.linked.enter hc _, fun x hx => ?_, ?_⟩
  · by_cases hxc : x = s.current
    · subst hxc
      exact .inl (Function.update_self ..)
    · rw [Pending, enter_frame_of_ne s _ hxc] at hx
      rw [show (s.enter .interruptible).state x = s.state x from Function.update_of_ne hxc ..]
      exact h.states x hx
  · rw [Pending, enter_frame_of_ne s _ hi.symm]
    exact h.awake

theorem goOn (h : s.Dozers idle) {t : ι} {tmp : Option ι} (ht : s.frame t = some tmp)
    (ho : s.Orderly (.switch t)) : (s.goOn t tmp).Dozers idle := by
  have hpend : s.Pending t := by rw [Pending, ht]; exact Option.some_ne_none _
  have hiff := ho hpend
  obtain ⟨hh, he⟩ | ⟨y, hy, hyt, he⟩ := s.goOn_cases t tmp
  · have hun : s.Unsaved t := by
      by_contra hsaved
      obtain ⟨y, hy, hyt⟩ := hiff.mpr hsaved
      obtain hn | hs := hh
      · rw [hn] at hy
        cases hy
      · rw [hs] at hy
        exact hyt (Option.some.inj hy).symm
    rw [he]
    refine ⟨h.linked.leave ht hun (.inr ⟨rfl, hh⟩), fun x hx => ?_, ?_⟩
    · obtain ⟨o, hxo⟩ := Option.ne_none_iff_exists'.mp hx
      have hx' : s.Pending x := by
        rw [Pending, (leave_pending hxo).2]
        exact Option.some_ne_none _
      have hst := h.states_makeRunning? tmp hx'
      cases tmp with
      | none => exact hst
      | some z => exact hst
    · intro hi
      obtain ⟨o, hxo⟩ := Option.ne_none_iff_exists'.mp hi
      refine h.awake ?_
      rw [Pending, (leave_pending hxo).2]
      exact Option.some_ne_none _
  · have hsaved : ¬ s.Unsaved t := hiff.mp ⟨y, hy, hyt⟩
    have hother : ∀ x, x ≠ t → (s.goOn t tmp).state x = (s.makeRunning y).state x := by
      intro x hx
      rw [he]
      exact Function.update_of_ne hx ..
    refine h.restate (by rw [he]; rfl) (by rw [he]; rfl) ?_ ?_
    · intro x hun _ hr
      rw [hother x fun hx => hsaved (hx ▸ hun)]
      exact s.makeRunning?_running (some y) hr
    · intro x hx
      by_cases hxt : x = t
      · subst hxt
        rw [he]
        exact .inl (Function.update_self ..)
      · rw [hother x hxt]
        exact h.states_makeRunning? (some y) hx

theorem wakeUp (h : s.Dozers idle) : s.wakeUp.Dozers idle := by
  have hf : s.wakeUp.frame = s.frame := s.makeRunning?_frame s.head
  refine ⟨h.linked.wakeUp, fun x hx => ?_, ?_⟩
  · rw [Pending, hf] at hx
    exact h.states_makeRunning? s.head hx
  · rw [Pending, hf]
    exact h.awake

theorem step (h : s.Dozers idle) {e : WaitEvent ι} (ho : s.Orderly e)
    (hs : s.interruptibleSleepOn idle e = some s') : s'.Dozers idle := by
  obtain ⟨-, hi, hc, rfl⟩ | ⟨t, -, ht, rfl⟩ | ⟨t, tmp, rfl, hr, ht, rfl⟩ | ⟨-, rfl⟩ |
    ⟨t, st, -, ht, rfl⟩ | ⟨-, rfl⟩ | ⟨t, -, ht, rfl⟩ := interruptibleSleepOn_cases hs
  · exact h.sleep hi hc
  · exact h.restate rfl rfl (fun x _ _ hr => hr) h.states
  · exact h.goOn ht ho
  · exact h.wakeUp
  · have hstate : ∀ x, s.Pending x → (s.setState t st).state x = s.state x := by
      intro x hx
      have hne : x ≠ t := fun he => ht (he ▸ hx)
      exact Function.update_of_ne hne ..
    refine ⟨h.linked.setState_other ht st, fun x hx => ?_, h.awake⟩
    rw [hstate x hx]
    exact h.states x hx
  · exact h.restate (s.makeRunning?_head _) (s.makeRunning?_frame _)
      (fun x _ _ hr => s.makeRunning?_running _ hr) fun x hx => h.states_makeRunning? _ hx
  · refine h.restate rfl rfl (fun x _ _ hr => ?_) fun x hx => ?_
    · by_cases hxt : x = t
      · exact hxt ▸ Function.update_self ..
      · exact (Function.update_of_ne hxt ..).trans hr
    · by_cases hxt : x = t
      · exact .inr (hxt ▸ Function.update_self ..)
      · rw [show (s.setState t .running).state x = s.state x from Function.update_of_ne hxt ..]
        exact h.states x hx

omit [DecidableEq ι] in
theorem keepsAll (h : s.Dozers idle) : s.KeepsAll :=
  ⟨fun x hx => (h.linked.up x hx.1).back (by rw [hx.2]; exact nofun), h.linked.tmp_pending,
    h.linked.head_pending⟩

/-- A task that does not find what it should is left behind, or leaves a call that holds it. -/
theorem orderly_of_keepsAll (h : s.Dozers idle) {t : ι} {tmp : Option ι}
    (hk : (s.goOn t tmp).KeepsAll) : s.Orderly (.switch t) := by
  intro hpend
  obtain ⟨hh, he⟩ | ⟨y, hy, hyt, he⟩ := s.goOn_cases t tmp
  · refine iff_of_false ?_ (not_not.mpr fun u hu => ?_)
    · rintro ⟨y, hy, hyt⟩
      obtain hn | hs := hh
      · rw [hn] at hy
        cases hy
      · rw [hs] at hy
        exact hyt (Option.some.inj hy).symm
    · have hut := h.linked.tmp_ne hu
      have hin := hk.2.1 u t (by rw [he, leave_frame s tmp none hut]; exact hu)
      rw [he] at hin
      exact hin (leave_frame_self s t tmp none)
  · refine iff_of_true ⟨y, hy, hyt⟩ fun hun => ?_
    have hf : (s.goOn t tmp).frame = s.frame := by rw [he]; rfl
    have hdoze : (s.goOn t tmp).Dozes t := by
      refine ⟨by rw [Pending, hf]; exact hpend, ?_⟩
      rw [he]
      exact Function.update_self ..
    cases hk.1 t hdoze with
    | head hh =>
      rw [he] at hh
      exact hyt (Option.some.inj (hy.symm.trans hh))
    | woken hu _ => exact hun _ (hf ▸ hu)
    | behind hu _ => exact hun _ (hf ▸ hu)

/-- A task of the queue that may not run stays in it. -/
theorem stays (h : s.Dozers idle) {e : WaitEvent ι}
    (hs : s.interruptibleSleepOn idle e = some s') {x : ι} (hx : s.Pending x)
    (hr : s.state x ≠ .running) : s'.Pending x := by
  obtain ⟨-, -, hc, rfl⟩ | ⟨t, -, -, rfl⟩ | ⟨t, tmp, -, ht, htf, rfl⟩ | ⟨-, rfl⟩ |
    ⟨t, st, -, -, rfl⟩ | ⟨-, rfl⟩ | ⟨t, -, -, rfl⟩ := interruptibleSleepOn_cases hs
  · rw [Pending, enter_frame_of_ne s _ fun he => hc (he ▸ hx)]
    exact hx
  · exact hx
  · have hne : x ≠ t := by
      rintro rfl
      exact ht.elim hr fun hi => h.awake (hi ▸ hx)
    obtain ⟨-, he⟩ | ⟨y, -, -, he⟩ := s.goOn_cases t tmp
    · rw [Pending, he, leave_frame s tmp _ hne]
      exact hx
    · rw [he]
      exact hx
  · rw [Pending, show s.wakeUp.frame = s.frame from s.makeRunning?_frame s.head]
    exact hx
  · exact hx
  · rw [Pending, makeRunning?_frame]
    exact hx
  · exact hx

/-- An orderly task that no call holds leaves the queue when it goes on. -/
theorem goOn_of_unsaved {t : ι} {tmp : Option ι} (ht : s.frame t = some tmp)
    (ho : s.Orderly (.switch t)) (hun : s.Unsaved t) : s.goOn t tmp = s.leave t tmp none := by
  obtain ⟨-, he⟩ | ⟨y, hy, hyt, -⟩ := s.goOn_cases t tmp
  · exact he
  · have hpend : s.Pending t := by rw [Pending, ht]; exact Option.some_ne_none _
    exact absurd hun ((ho hpend).mp ⟨y, hy, hyt⟩)

theorem freed_keep {e : WaitEvent ι} (ho : s.Orderly e)
    (hs : s.interruptibleSleepOn idle e = some s') {t x : ι} {n : ℕ} (hf : s.Freed t n x)
    (he : e ≠ .switch t) : s'.Freed t n x := by
  obtain ⟨-, -, hc, rfl⟩ | ⟨u, -, -, rfl⟩ | ⟨u, tmp, rfl, -, hu, rfl⟩ | ⟨-, rfl⟩ |
    ⟨u, st, -, -, rfl⟩ | ⟨-, rfl⟩ | ⟨u, -, -, rfl⟩ := interruptibleSleepOn_cases hs
  · exact hf.enter hc _
  · exact hf.same rfl rfl
  · by_cases hun : s.Unsaved u
    · rw [goOn_of_unsaved hu ho hun]
      exact hf.leave_other (fun hut => he (hut ▸ rfl)) hun (.inr rfl)
    · have hpend : s.Pending u := by rw [Pending, hu]; exact Option.some_ne_none _
      obtain ⟨y, hy, hyu⟩ := (ho hpend).mpr hun
      obtain ⟨hh, -⟩ | ⟨z, -, -, hg⟩ := s.goOn_cases u tmp
      · rw [hy] at hh
        exact absurd (Option.some.inj (hh.resolve_left (Option.some_ne_none y))) hyu
      · rw [hg]
        exact hf.same rfl rfl
  · exact hf.wakeUp
  · exact hf.same rfl rfl
  · exact hf.same (s.makeRunning?_head _) (s.makeRunning?_frame _)
  · exact hf.same rfl rfl

theorem freed_leave (h : s.Dozers idle) {t x : ι} {n : ℕ} (ho : s.Orderly (.switch t))
    (hs : s.interruptibleSleepOn idle (.switch t) = some s') (hf : s.Freed t (n + 1) x) :
    ∃ y, s'.Freed y n x := by
  obtain ⟨he, -⟩ | ⟨u, he, hu, -⟩ | ⟨u, tmp, he, -, hu, rfl⟩ | ⟨he, -⟩ | ⟨u, st, he, -⟩ |
    ⟨he, -⟩ | ⟨u, he, -⟩ := interruptibleSleepOn_cases hs
  · cases he
  · cases he
    exact absurd hf.pending hu
  · cases he
    rw [goOn_of_unsaved hu ho hf.unsaved]
    exact hf.leave_first h.linked (.inr rfl)
  all_goals cases he

end Dozers

end WaitQueue

open WaitQueue

theorem dozers_inv {idle : ι} {s : WaitQueue ι}
    (h : ((interruptibleSystem idle).restrict Orderly).Reachable s) : s.Dozers idle := by
  refine h.invariant ?_ fun s e s' _ hs hstep => hs.step hstep.1 hstep.2
  intro s ⟨hh, hf⟩
  exact ⟨.start hh hf, fun x hx => absurd (hf x) hx, not_not.mpr (hf idle)⟩

/-- As long as every task that goes on finds another one in `*p` just when a call holds it, nobody
    is lost and every store of a call is to a task in the queue; the step that breaks the rule
    breaks this at once. In a fair run that keeps the rule, a task asleep at a `wake_up` sleeps
    on until it may run, in the same call. -/
theorem interruptible_sleep_on_loses_nobody (idle : ι) :
    (∀ s, ((interruptibleSystem idle).restrict Orderly).Reachable s → s.KeepsAll) ∧
    (∀ s t s', ((interruptibleSystem idle).restrict Orderly).Reachable s → s.Pending t →
      s.interruptibleSleepOn idle (.switch t) = some s' →
      (s.Orderly (.switch t) ↔ s'.KeepsAll)) ∧
    ∀ σ e, ((interruptibleSystem idle).restrict Orderly).IsRun σ e → FairRun σ e →
      ∀ k, e k = .wake → ∀ x, (σ k).Dozes x →
        ∃ j, k < j ∧ (∀ i, k ≤ i → i < j → (σ i).Dozes x) ∧
          (σ j).Pending x ∧ (σ j).state x = .running := by
  refine ⟨fun s h => (dozers_inv h).keepsAll, fun s t s' h hpend hs => ⟨fun ho => ?_, fun hk => ?_⟩,
    fun σ e hrun hfair k hk x hx => ?_⟩
  · exact ((dozers_inv h).step ho hs).keepsAll
  · obtain ⟨he, -⟩ | ⟨u, he, hu, -⟩ | ⟨u, tmp, he, -, -, rfl⟩ | ⟨he, -⟩ | ⟨u, st, he, -⟩ |
      ⟨he, -⟩ | ⟨u, he, -⟩ := interruptibleSleepOn_cases hs
    · cases he
    · cases he
      exact absurd hpend hu
    · cases he
      exact (dozers_inv h).orderly_of_keepsAll hk
    all_goals cases he
  · have hinv : ∀ i, (σ i).Dozers idle := fun i => dozers_inv (hrun.reachable i)
    have hstep : ∀ i, (σ i).Orderly (e i) ∧
        (σ i).interruptibleSleepOn idle (e i) = some (σ (i + 1)) := hrun.step
    have hafter : σ (k + 1) = (σ k).wakeUp := by
      have := (hstep k).2
      rw [hk] at this
      exact (Option.some.inj this).symm
    obtain ⟨j, hkj, hbefore, hpend, hj⟩ := Linked.woken (fun i t => e i = .switch t)
      (fun i => (hinv i).linked) hfair
      (fun i t n x hf he => Dozers.freed_keep (hstep i).1 (hstep i).2 hf he)
      (fun i t n x hf he => (hinv i).freed_leave (he ▸ (hstep i).1) (he ▸ (hstep i).2) hf)
      (fun i hp hr => (hinv i).stays (hstep i).2 hp hr) hafter hx.1 (by rw [hx.2]; exact nofun)
    refine ⟨j, hkj, fun i hi hij => ?_, hpend, hj⟩
    obtain ⟨hp, hr⟩ := hbefore i hi hij
    exact ⟨hp, ((hinv i).states x hp).resolve_right hr⟩

theorem interruptible_sleep_on_loses_nobody_first :
    (emptyQueue.enter .interruptible).Dozes 1 ∧ (emptyQueue.enter .interruptible).KeepsAll := by
  have hs : emptyQueue.interruptibleSleepOn 0 .sleep = some (emptyQueue.enter .interruptible) := rfl
  have ho : emptyQueue.Orderly .sleep := trivial
  have hr : ((interruptibleSystem 0).restrict Orderly).Reachable emptyQueue :=
    .init ⟨rfl, fun _ => rfl⟩
  exact ⟨⟨nofun, rfl⟩, (interruptible_sleep_on_loses_nobody 0).1 _ (hr.step ⟨ho, hs⟩)⟩

/-- Task 1 sleeps and is woken; task 2 sleeps before task 1 goes on. -/
def newcomer : List (WaitEvent ℕ) := [.sleep, .wake, .switch 2, .sleep, .switch 1]

/-- Tasks 1 and 2 sleep and 2 is woken; a signal lets task 1 go on first, and it exits. -/
def departed : List (WaitEvent ℕ) :=
  [.sleep, .switch 2, .sleep, .wake, .signal 1, .switch 1, .other 1 .zombie]

/-- In the first run task 1 sleeps again, and neither `*p` nor any call leads to it. In the second
    the call of task 2 makes the zombie task 1 a running one. -/
theorem interruptible_sleep_on_strands_and_revives :
    (∃ s, (interruptibleSystem 0).Reachable s ∧ s.Dozes 1 ∧ ¬ s.Back 1) ∧
    ∃ s s', (interruptibleSystem 0).Reachable s ∧
      s.interruptibleSleepOn 0 (.switch 2) = some s' ∧ ¬ s.Pending 1 ∧ s.state 1 = .zombie ∧
      s'.state 1 = .running := by
  have hreach : ∀ (es : List (WaitEvent ℕ)) (s : WaitQueue ℕ),
      es.foldlM (interruptibleSleepOn 0) emptyQueue = some s →
      (interruptibleSystem 0).Reachable s := fun es s hs =>
    Lts.Reachable.foldlM (.init ⟨rfl, fun _ => rfl⟩) (fun _ e _ h => ⟨e, h⟩) es hs
  refine ⟨⟨_, hreach newcomer _ rfl, ⟨nofun, rfl⟩, ?_⟩,
    _, _, hreach departed _ rfl, rfl, fun h => h rfl, rfl, rfl⟩
  -- the calls of tasks 1 and 2 hold nobody
  have hun : ∀ t : ℕ, Function.update (Function.update (fun _ => (none : Option (Option ℕ))) 1
      (some none)) 2 (some none) t ≠ some (some 1) := by
    intro t
    simp only [Function.update_apply]
    split_ifs <;> exact nofun
  intro hback
  cases hback with
  | head hh => exact absurd (Option.some.inj hh) (by decide)
  | woken ht _ => exact hun _ ht
  | behind ht _ => exact hun _ ht

end Linux011.Kernel

/-
  `sleep_on` and `wake_up` of kernel/sched.c on one queue, under every interleaving of tasks that
  switch only in `schedule`. A call of `sleep_on` wakes the task in its `tmp` when it goes on, so
  the chain behind a woken task is woken link by link: `sleep_on_loses_nobody`.
-/
import Linux011.Kernel.Wait

namespace Linux011.Kernel
open Linux011.Lib

variable {ι : Type*} [DecidableEq ι]

namespace WaitQueue

/-- The events of a queue used through `sleep_on` and `wake_up`. Task 0, `idle`, cannot sleep
    (`sleep_on` panics), and `schedule` takes it whatever its state is. -/
def sleepOn (idle : ι) (s : WaitQueue ι) : WaitEvent ι → Option (WaitQueue ι)
  | .sleep =>
    if s.current = idle ∨ s.frame s.current ≠ none then none
    else some (s.enter .uninterruptible)
  | .switch t =>
    if s.state t = .running ∨ t = idle then
      match s.frame t with
      | none => some { s with current := t }
      | some tmp => some (s.leave t tmp s.head)
    else none
  | .wake => some s.wakeUp
  | .other t st => if s.frame t ≠ none then none else some (s.setState t st)
  | .poke | .signal _ => none

/-- TASK_UNINTERRUPTIBLE in a call of `sleep_on` on this queue. -/
def Asleep (s : WaitQueue ι) (x : ι) : Prop := s.Pending x ∧ s.state x = .uninterruptible

end WaitQueue

def sleepOnSystem (idle : ι) : Lts (WaitQueue ι) (WaitEvent ι) where
  init s := s.head = none ∧ ∀ t, s.frame t = none
  step s e s' := s.sleepOn idle e = some s'

namespace WaitQueue

variable {s s' : WaitQueue ι} {idle : ι}

/-- Everything an event can do. -/
theorem sleepOn_cases {e : WaitEvent ι} (h : s.sleepOn idle e = some s') :
    (e = .sleep ∧ s.current ≠ idle ∧ ¬ s.Pending s.current ∧ s' = s.enter .uninterruptible) ∨
    (∃ t, e = .switch t ∧ ¬ s.Pending t ∧ s' = { s with current := t }) ∨
    (∃ t tmp, e = .switch t ∧ (s.state t = .running ∨ t = idle) ∧ s.frame t = some tmp ∧
      s' = s.leave t tmp s.head) ∨
    (e = .wake ∧ s' = s.wakeUp) ∨
    ∃ t st, e = .other t st ∧ ¬ s.Pending t ∧ s' = s.setState t st := by
  cases e with
  | sleep =>
    simp only [sleepOn] at h
    split_ifs at h with hc
    rw [not_or, not_not] at hc
    exact .inl ⟨rfl, hc.1, not_not.mpr hc.2, (Option.some.inj h).symm⟩
  | switch t =>
    simp only [sleepOn] at h
    split_ifs at h with hc
    split at h
    · exact .inr (.inl ⟨t, rfl, not_not.mpr ‹_›, (Option.some.inj h).symm⟩)
    · exact .inr (.inr (.inl ⟨t, _, rfl, hc, ‹_›, (Option.some.inj h).symm⟩))
  | wake => exact .inr (.inr (.inr (.inl ⟨rfl, (Option.some.inj h).symm⟩)))
  | other t st =>
    simp only [sleepOn] at h
    split_ifs at h with hc
    exact .inr (.inr (.inr (.inr ⟨t, st, rfl, hc, (Option.some.inj h).symm⟩)))
  | poke => cases h
  | signal t => cases h

/-- The links of the queue, and that `*p` and every `tmp` are still asleep; a task in the queue
    sleeps, or has been woken once. -/
structure Sleepers (idle : ι) (s : WaitQueue ι) : Prop where
  linked : s.Linked
  head_asleep : ∀ x, s.head = some x → s.state x = .uninterruptible
  tmp_asleep : ∀ t x, s.frame t = some (some x) → s.state x = .uninterruptible
  once : ∀ x, s.Pending x → (s.state x = .uninterruptible ∧ s.stores x = 0) ∨
    (s.state x = .running ∧ s.stores x = 1)
  awake : ¬ s.Pending idle

namespace Sleepers

omit [DecidableEq ι] in
theorem unsaved_of_running (h : s.Sleepers idle) {t : ι} (hr : s.state t = .running) :
    s.Unsaved t := by
  intro u hu
  have := h.tmp_asleep u t hu
  rw [hr] at this
  cases this

omit [DecidableEq ι] in
theorem head_ne_of_running (h : s.Sleepers idle) {t : ι} (hr : s.state t = .running) :
    s.head ≠ some t := by
  intro hh
  have := h.head_asleep t hh
  rw [hr] at this
  cases this

omit [DecidableEq ι] in
theorem asleep (h : s.Sleepers idle) {x : ι} (hx : s.Pending x) (hr : s.state x ≠ .running) :
    s.Asleep x := by
  obtain ⟨hst, -⟩ | ⟨hst, -⟩ := h.once x hx
  · exact ⟨hx, hst⟩
  · exact absurd hst hr

omit [DecidableEq ι] in
theorem running_of_switch (h : s.Sleepers idle) {t : ι} {tmp : Option ι}
    (hr : s.state t = .running ∨ t = idle) (ht : s.frame t = some tmp) : s.state t = .running := by
  obtain hr | rfl := hr
  · exact hr
  · exact absurd (not_not.mp h.awake) (by rw [ht]; exact Option.some_ne_none _)

theorem sleep (h : s.Sleepers idle) (hi : s.current ≠ idle) (hc : ¬ s.Pending s.current) :
    (s.enter .uninterruptible).Sleepers idle := by
  have hstate : ∀ x, s.Pending x → (s.enter .uninterruptible).state x = s.state x ∧
      (s.enter .uninterruptible).stores x = s.stores x := by
    intro x hx
    have hne : x ≠ s.current := fun he => hc (he ▸ hx)
    exact ⟨Function.update_of_ne hne .., Function.update_of_ne hne ..⟩
  have hself : (s.enter .uninterruptible).state s.current = .uninterruptible :=
    Function.update_self ..
  refine ⟨h.linked.enter hc _, ?_, ?_, ?_, ?_⟩
  · intro x hx
    obtain rfl : s.current = x := Option.some.inj hx
    exact hself
  · intro t x ht
    obtain ⟨-, hh⟩ | ⟨-, ht⟩ := enter_saved ht
    · rw [(hstate x (h.linked.head_pending x hh)).1]
      exact h.head_asleep x hh
    · rw [(hstate x (h.linked.tmp_pending t x ht)).1]
      exact h.tmp_asleep t x ht
  · intro x hx
    by_cases hxc : x = s.current
    · subst hxc
      exact .inl ⟨hself, Function.update_self ..⟩
    · have hx' : s.Pending x := by rwa [Pending, enter_frame_of_ne s _ hxc] at hx
      rw [(hstate x hx').1, (hstate x hx').2]
      exact h.once x hx'
  · rw [Pending, enter_frame_of_ne s _ hi.symm]
    exact h.awake

/-- A store to the state of a sleeper of the queue, or none. -/
theorem once_makeRunning? (h : s.Sleepers idle) {o : Option ι}
    (ho : ∀ x, o = some x → s.state x = .uninterruptible) {x : ι} (hx : s.Pending x) :
    ((s.makeRunning? o).state x = .uninterruptible ∧ (s.makeRunning? o).stores x = 0) ∨
      ((s.makeRunning? o).state x = .running ∧ (s.makeRunning? o).stores x = 1) := by
  cases o with
  | none => exact h.once x hx
  | some y =>
    by_cases hxy : x = y
    · subst hxy
      right
      refine ⟨s.makeRunning?_self x, ?_⟩
      obtain ⟨-, hz⟩ | ⟨hr, -⟩ := h.once x hx
      · exact (Function.update_self ..).trans (by rw [hz])
      · rw [ho x rfl] at hr
        cases hr
    · rw [s.makeRunning?_other (fun he => hxy (Option.some.inj he).symm)]
      rw [show (s.makeRunning? (some y)).stores x = s.stores x from Function.update_of_ne hxy ..]
      exact h.once x hx

theorem resume (h : s.Sleepers idle) {t : ι} {tmp : Option ι} (hr : s.state t = .running)
    (ht : s.frame t = some tmp) : (s.leave t tmp s.head).Sleepers idle := by
  have hun := h.unsaved_of_running hr
  have hhead := h.head_ne_of_running hr
  refine ⟨h.linked.leave ht hun (.inl ⟨rfl, hhead⟩), ?_, ?_, ?_, ?_⟩
  · intro x hx
    rw [leave_head] at hx
    unfold leave
    rw [makeRunning?_other]
    · exact h.head_asleep x hx
    · rintro rfl
      exact h.linked.head_unsaved x hx t ht
  · intro u x hu
    obtain ⟨hut, hu'⟩ := leave_pending hu
    unfold leave
    rw [makeRunning?_other]
    · exact h.tmp_asleep u x hu'
    · rintro rfl
      exact hut (h.linked.tmp_inj u t x hu' ht)
  · intro x hx
    obtain ⟨o, ho⟩ := Option.ne_none_iff_exists'.mp hx
    have hpend : s.Pending x := by
      rw [Pending, (leave_pending ho).2]
      exact Option.some_ne_none _
    have hones := h.once_makeRunning? (o := tmp) (fun y hy => h.tmp_asleep t y (hy ▸ ht)) hpend
    cases tmp with
    | none => exact hones
    | some y => exact hones
  · intro hi
    obtain ⟨o, ho⟩ := Option.ne_none_iff_exists'.mp hi
    refine h.awake ?_
    rw [Pending, (leave_pending ho).2]
    exact Option.some_ne_none _

theorem wakeUp (h : s.Sleepers idle) : s.wakeUp.Sleepers idle := by
  have hf : s.wakeUp.frame = s.frame := s.makeRunning?_frame s.head
  refine ⟨h.linked.wakeUp, fun x hx => (nomatch hx), ?_, ?_, ?_⟩
  · intro t x ht
    rw [hf] at ht
    show (s.makeRunning? s.head).state x = .uninterruptible
    rw [makeRunning?_other]
    · exact h.tmp_asleep t x ht
    · exact fun hh => h.linked.head_unsaved x hh t ht
  · intro x hx
    rw [Pending, hf] at hx
    exact h.once_makeRunning? (fun y hy => h.head_asleep y hy) hx
  · rw [Pending, hf]
    exact h.awake

theorem other (h : s.Sleepers idle) {t : ι} (ht : ¬ s.Pending t) (st : TaskState) :
    (s.setState t st).Sleepers idle := by
  have hstate : ∀ x, s.Pending x → (s.setState t st).state x = s.state x := by
    intro x hx
    have hne : x ≠ t := fun he => ht (he ▸ hx)
    exact Function.update_of_ne hne ..
  refine ⟨h.linked.setState_other ht st, ?_, ?_, ?_, h.awake⟩
  · intro x hx
    rw [hstate x (h.linked.head_pending x hx)]
    exact h.head_asleep x hx
  · intro u x hu
    rw [hstate x (h.linked.tmp_pending u x hu)]
    exact h.tmp_asleep u x hu
  · intro x hx
    rw [hstate x hx]
    exact h.once x hx

theorem step (h : s.Sleepers idle) {e : WaitEvent ι} (hs : s.sleepOn idle e = some s') :
    s'.Sleepers idle := by
  obtain ⟨-, hi, hc, rfl⟩ | ⟨t, -, ht, rfl⟩ | ⟨t, tmp, -, hr, ht, rfl⟩ | ⟨-, rfl⟩ |
    ⟨t, st, -, ht, rfl⟩ := sleepOn_cases hs
  · exact h.sleep hi hc
  · exact ⟨h.linked.restate rfl rfl fun x _ _ hr => hr, h.head_asleep, h.tmp_asleep, h.once,
      h.awake⟩
  · exact h.resume (h.running_of_switch hr ht) ht
  · exact h.wakeUp
  · exact h.other ht st

end Sleepers

/-- A task asleep in the queue stays in it, whatever happens. -/
theorem Sleepers.stays (h : s.Sleepers idle) {e : WaitEvent ι} (hs : s.sleepOn idle e = some s')
    {x : ι} (hx : s.Asleep x) : s'.Pending x := by
  obtain ⟨-, -, hc, rfl⟩ | ⟨t, -, -, rfl⟩ | ⟨t, tmp, -, hr, ht, rfl⟩ | ⟨-, rfl⟩ |
    ⟨t, st, -, ht, rfl⟩ := sleepOn_cases hs
  · rw [Pending, enter_frame_of_ne s _ fun he => hc (he ▸ hx.1)]
    exact hx.1
  · exact hx.1
  · have hne : x ≠ t := by
      rintro rfl
      obtain hr | rfl := hr
      · rw [hx.2] at hr
        cases hr
      · exact h.awake hx.1
    rw [Pending, leave_frame s tmp _ hne]
    exact hx.1
  · rw [Pending, show s.wakeUp.frame = s.frame from s.makeRunning?_frame s.head]
    exact hx.1
  · exact hx.1

/-- A chain that is being woken stays until its first task goes on. -/
theorem Sleepers.freed_keep (h : s.Sleepers idle) {e : WaitEvent ι}
    (hs : s.sleepOn idle e = some s') {t x : ι} {n : ℕ} (hf : s.Freed t n x)
    (he : e ≠ .switch t) : s'.Freed t n x := by
  obtain ⟨-, -, hc, rfl⟩ | ⟨u, -, -, rfl⟩ | ⟨u, tmp, rfl, hr, hu, rfl⟩ | ⟨-, rfl⟩ |
    ⟨u, st, -, hu, rfl⟩ := sleepOn_cases hs
  · exact hf.enter hc _
  · exact hf.same rfl rfl
  · have hun := h.unsaved_of_running (h.running_of_switch hr hu)
    exact hf.leave_other (fun hut => he (hut ▸ rfl)) hun (.inl rfl)
  · exact hf.wakeUp
  · exact hf.same rfl rfl

theorem Sleepers.freed_leave (h : s.Sleepers idle) {t x : ι} {n : ℕ}
    (hs : s.sleepOn idle (.switch t) = some s') (hf : s.Freed t (n + 1) x) :
    ∃ y, s'.Freed y n x := by
  obtain ⟨he, -⟩ | ⟨u, he, hu, -⟩ | ⟨u, tmp, he, hr, hu, rfl⟩ | ⟨he, -⟩ | ⟨u, st, he, -⟩ :=
    sleepOn_cases hs
  · cases he
  · cases he
    exact absurd hf.pending hu
  · cases he
    exact hf.leave_first h.linked (.inl rfl)
  · cases he
  · cases he

end WaitQueue

open WaitQueue

theorem sleepers_inv {idle : ι} {s : WaitQueue ι} (h : (sleepOnSystem idle).Reachable s) :
    s.Sleepers idle := by
  refine h.invariant ?_ fun s e s' _ hs hstep => hs.step hstep
  intro s ⟨hh, hf⟩
  exact ⟨.start hh hf, fun x hx => (by rw [hh] at hx; cases hx),
    fun t x ht => (by rw [hf] at ht; cases ht), fun x hx => absurd (hf x) hx,
    not_not.mpr (hf idle)⟩

/-- In every state a sleeper of `sleep_on` is `*p` or the `tmp` of exactly one other call, from
    which the way back ends at `*p` or at a task that may run; a `tmp` is asleep in the queue for
    as long as a call holds it, so also when the call stores to its state; and a task in the
    queue has been stored to once if it may run and not at all if it sleeps. In every fair run
    a task asleep at a `wake_up` sleeps on until it is woken, once, in the same call. -/
theorem sleep_on_loses_nobody (idle : ι) :
    (∀ s, (sleepOnSystem idle).Reachable s →
      (∀ x, s.Asleep x → s.Back x ∧
        ((s.head = some x ∧ s.Unsaved x) ∨
          (s.head ≠ some x ∧ ∃! t, t ≠ x ∧ s.frame t = some (some x)))) ∧
      (∀ t x, s.frame t = some (some x) → s.Asleep x) ∧
      ∀ x, s.Pending x → s.stores x = if s.state x = .running then 1 else 0) ∧
    ∀ σ e, (sleepOnSystem idle).IsRun σ e → FairRun σ e →
      ∀ k, e k = .wake → ∀ x, (σ k).Asleep x →
        ∃ j, k < j ∧ (∀ i, k ≤ i → i < j → (σ i).Asleep x) ∧
          (σ j).Pending x ∧ (σ j).state x = .running ∧ (σ j).stores x = 1 := by
  refine ⟨fun s h => ?_, fun σ e hrun hfair k hk x hx => ?_⟩
  · have hs := sleepers_inv h
    refine ⟨fun x hx => ?_, fun t x ht => ⟨hs.linked.tmp_pending t x ht, hs.tmp_asleep t x ht⟩,
      fun x hx => ?_⟩
    · have hback := (hs.linked.up x hx.1).back (by rw [hx.2]; exact nofun)
      refine ⟨hback, ?_⟩
      have hsaved : ∀ t, s.frame t = some (some x) →
          s.head ≠ some x ∧ ∃! t, t ≠ x ∧ s.frame t = some (some x) := by
        intro t ht
        exact ⟨fun hh => hs.linked.head_unsaved x hh t ht, t, ⟨hs.linked.tmp_ne ht, ht⟩,
          fun u hu => hs.linked.tmp_inj u t x hu.2 ht⟩
      cases hback with
      | head hh => exact .inl ⟨hh, hs.linked.head_unsaved x hh⟩
      | woken ht _ => exact .inr (hsaved _ ht)
      | behind ht _ => exact .inr (hsaved _ ht)
    · obtain ⟨hst, hz⟩ | ⟨hst, hz⟩ := hs.once x hx
      · rw [hst, hz]
        rfl
      · rw [hst, hz]
        rfl
  · have hinv : ∀ i, (σ i).Sleepers idle := fun i => sleepers_inv (hrun.reachable i)
    have hstep : ∀ i, (σ i).sleepOn idle (e i) = some (σ (i + 1)) := hrun.step
    have hafter : σ (k + 1) = (σ k).wakeUp := by
      have := hstep k
      rw [hk] at this
      exact (Option.some.inj this).symm
    obtain ⟨j, hkj, hbefore, hpend, hj⟩ := Linked.woken (fun i t => e i = .switch t)
      (fun i => (hinv i).linked) hfair (fun i t n x hf he => (hinv i).freed_keep (hstep i) hf he)
      (fun i t n x hf he => (hinv i).freed_leave (he ▸ hstep i) hf)
      (fun i hp hr => (hinv i).stays (hstep i) ((hinv i).asleep hp hr)) hafter hx.1
      (by rw [hx.2]; exact nofun)
    refine ⟨j, hkj, fun i hi hij => ?_, hpend, hj, ?_⟩
    · obtain ⟨hp, hr⟩ := hbefore i hi hij
      exact (hinv i).asleep hp hr
    · obtain ⟨hst, -⟩ | hst := (hinv j).once x hpend
      · rw [hst] at hj
        cases hj
      · exact hst.2

/-- A queue with nobody in it, in which task 1 runs. -/
def emptyQueue : WaitQueue ℕ := ⟨none, fun _ => .running, fun _ => none, 1, fun _ => 0⟩

theorem sleep_on_loses_nobody_first :
    (emptyQueue.enter .uninterruptible).Asleep 1 ∧ (emptyQueue.enter .uninterruptible).Back 1 := by
  have hasleep : (emptyQueue.enter .uninterruptible).Asleep 1 := ⟨nofun, rfl⟩
  have hr : (sleepOnSystem 0).Reachable emptyQueue := .init ⟨rfl, fun _ => rfl⟩
  have hs : emptyQueue.sleepOn 0 .sleep = some (emptyQueue.enter .uninterruptible) := rfl
  exact ⟨hasleep, (((sleep_on_loses_nobody 0).1 _ (hr.step hs)).1 1 hasleep).1⟩

end Linux011.Kernel

/-
  A wait queue of kernel/sched.c: a pointer `*p` to a task, and behind it the variables `tmp` of
  the calls of `sleep_on` or `interruptible_sleep_on` that wait in `schedule`. The queue has no
  other structure. `Linked` is what the two kinds of sleep keep of it, and `Linked.leads` says
  that under fair scheduling a chain whose first task may run is woken to its end.
-/
import Linux011.Kernel.Sched

namespace Linux011.Kernel

variable {ι : Type*}

/-- One wait queue. `frame t` is the `tmp` of the call in which `t` waits, if it does; `stores`
    counts the stores of 0 to the state of a task since it went to sleep. -/
structure WaitQueue (ι : Type*) where
  head : Option ι
  state : ι → TaskState
  frame : ι → Option (Option ι)
  current : ι
  stores : ι → ℕ

inductive WaitEvent (ι : Type*)
  /-- the running task calls the sleeping function, up to `schedule` -/
  | sleep
  /-- `schedule` switches to a task -/
  | switch (t : ι)
  | wake
  /-- other code sets the state of a task that is not in the queue -/
  | other (t : ι) (st : TaskState)
  /-- an interrupt handler stores 0 into the state of `*p` -/
  | poke
  /-- `schedule` finds a signal for a task -/
  | signal (t : ι)

namespace WaitQueue

section Defs

variable [DecidableEq ι]

def setState (s : WaitQueue ι) (t : ι) (st : TaskState) : WaitQueue ι :=
  { s with state := Function.update s.state t st }

/-- A store of 0 (TASK_RUNNING) to the state of a task. -/
def makeRunning (s : WaitQueue ι) (t : ι) : WaitQueue ι :=
  { s.setState t .running with stores := Function.update s.stores t (s.stores t + 1) }

/-- `if (tmp) tmp->state = 0` -/
def makeRunning? (s : WaitQueue ι) : Option ι → WaitQueue ι
  | none => s
  | some t => s.makeRunning t

/-- `wake_up` -/
def wakeUp (s : WaitQueue ι) : WaitQueue ι :=
  { s.makeRunning? s.head with head := none }

/-- The start of either sleeping function: `tmp = *p; *p = current`, and the new state. -/
def enter (s : WaitQueue ι) (st : TaskState) : WaitQueue ι :=
  { s.setState s.current st with
    head := some s.current
    frame := Function.update s.frame s.current (some s.head)
    stores := Function.update s.stores s.current 0 }

/-- The end of the call in which `t` waits, with `*p` set to `hd`: `if (tmp) tmp->state = 0`. -/
def leave (s : WaitQueue ι) (t : ι) (tmp hd : Option ι) : WaitQueue ι :=
  ({ s with head := hd, frame := Function.update s.frame t none, current := t } :
    WaitQueue ι).makeRunning? tmp

end Defs

/-- `t` waits in a call on this queue. -/
def Pending (s : WaitQueue ι) (t : ι) : Prop := s.frame t ≠ none

/-- No call holds `x` in its `tmp`. -/
def Unsaved (s : WaitQueue ι) (x : ι) : Prop := ∀ t, s.frame t ≠ some (some x)

/-- From `x` back through the calls that hold it, up to `*p` or to a task that may run and that
    no call holds. -/
inductive Up (s : WaitQueue ι) : ι → Prop
  | head {x : ι} : s.head = some x → Up s x
  | loose {x : ι} : s.Unsaved x → s.state x = .running → Up s x
  | behind {x t : ι} : s.frame t = some (some x) → Up s t → Up s x

/-- From `x` back through the calls that hold it, to `*p` or to a task that may run. -/
inductive Back (s : WaitQueue ι) : ι → Prop
  | head {x : ι} : s.head = some x → Back s x
  | woken {x t : ι} : s.frame t = some (some x) → s.state t = .running → Back s x
  | behind {x t : ι} : s.frame t = some (some x) → Back s t → Back s x

/-- What both kinds of sleep keep: `*p` and every `tmp` wait in the queue, no task is held
    twice, `*p` is not held at all, and from everyone the way back ends well. -/
structure Linked (s : WaitQueue ι) : Prop where
  head_pending : ∀ x, s.head = some x → s.Pending x
  head_unsaved : ∀ x, s.head = some x → s.Unsaved x
  tmp_pending : ∀ t x, s.frame t = some (some x) → s.Pending x
  tmp_inj : ∀ t t' x, s.frame t = some (some x) → s.frame t' = some (some x) → t = t'
  up : ∀ x, s.Pending x → s.Up x

theorem Linked.start {s : WaitQueue ι} (hh : s.head = none) (hf : ∀ t, s.frame t = none) :
    s.Linked where
  head_pending x h := by rw [hh] at h; cases h
  head_unsaved x h := by rw [hh] at h; cases h
  tmp_pending t x h := by rw [hf] at h; cases h
  tmp_inj t t' x h := by rw [hf] at h; cases h
  up x h := absurd (hf x) h

/-- No call holds its own task. -/
theorem Linked.tmp_ne {s : WaitQueue ι} (h : s.Linked) {t x : ι} (ht : s.frame t = some (some x)) :
    t ≠ x := by
  have hself : ∀ y, s.Up y → s.frame y ≠ some (some y) := by
    intro y hy
    induction hy with
    | head hh => exact h.head_unsaved _ hh _
    | loose hun _ => exact hun _
    | behind hu _ ih =>
      intro hself
      obtain rfl := h.tmp_inj _ _ _ hu hself
      exact ih hu
  rintro rfl
  exact hself t (h.up t (h.tmp_pending t t ht)) ht

/-- A way back in a state gives one in another, when its ends and its links do. -/
theorem Up.map {s s' : WaitQueue ι} {P : ι → Prop} {x : ι} (h : s.Up x) (hx : P x)
    (hhead : ∀ y, P y → s.head = some y → s'.Up y)
    (hloose : ∀ y, P y → s.Unsaved y → s.state y = .running → s'.Up y)
    (hbehind : ∀ y t, P y → s.frame t = some (some y) →
      (P t ∧ (s'.Up t → s'.Up y)) ∨ s'.Up y) : s'.Up x := by
  induction h with
  | head h => exact hhead _ hx h
  | loose h hr => exact hloose _ hx h hr
  | behind h _ ih =>
    obtain ⟨ht, hup⟩ | hup := hbehind _ _ hx h
    · exact hup (ih ht)
    · exact hup

/-- A change of states alone keeps the links, if a task that no call holds and that is not `*p`
    may still run. -/
theorem Linked.restate {s s' : WaitQueue ι} (h : s.Linked) (hh : s'.head = s.head)
    (hf : s'.frame = s.frame)
    (hr : ∀ x, s.Unsaved x → s.head ≠ some x → s.state x = .running → s'.state x = .running) :
    s'.Linked where
  head_pending x hx := by
    rw [Pending, hf]
    exact h.head_pending x (hh ▸ hx)
  head_unsaved x hx := by
    rw [Unsaved, hf]
    exact h.head_unsaved x (hh ▸ hx)
  tmp_pending t x ht := by
    rw [Pending, hf]
    exact h.tmp_pending t x (hf ▸ ht)
  tmp_inj t t' x ht ht' := h.tmp_inj t t' x (hf ▸ ht) (hf ▸ ht')
  up x hx := by
    rw [Pending, hf] at hx
    refine (h.up x hx).map (P := fun _ => True) trivial ?_ ?_ ?_
    · exact fun y _ hy => .head (hh.trans hy)
    · intro y _ hun hrun
      by_cases hy : s.head = some y
      · exact .head (hh.trans hy)
      · refine .loose ?_ (hr y hun hy hrun)
        rw [Unsaved, hf]
        exact hun
    · exact fun y t _ ht => .inl ⟨trivial, .behind (by rw [hf]; exact ht)⟩

variable [DecidableEq ι] {s : WaitQueue ι}

theorem makeRunning?_head (s : WaitQueue ι) (o : Option ι) : (s.makeRunning? o).head = s.head := by
  cases o <;> rfl

theorem makeRunning?_frame (s : WaitQueue ι) (o : Option ι) :
    (s.makeRunning? o).frame = s.frame := by
  cases o <;> rfl

theorem makeRunning?_running (s : WaitQueue ι) (o : Option ι) {x : ι} (h : s.state x = .running) :
    (s.makeRunning? o).state x = .running := by
  cases o with
  | none => exact h
  | some t =>
    by_cases hx : x = t
    · exact hx ▸ Function.update_self ..
    · exact (Function.update_of_ne hx ..).trans h

theorem makeRunning?_self (s : WaitQueue ι) (x : ι) :
    (s.makeRunning? (some x)).state x = .running :=
  Function.update_self ..

theorem makeRunning?_other (s : WaitQueue ι) {o : Option ι} {x : ι} (h : o ≠ some x) :
    (s.makeRunning? o).state x = s.state x := by
  cases o with
  | none => rfl
  | some t =>
    have hx : x ≠ t := by
      rintro rfl
      exact h rfl
    exact Function.update_of_ne hx ..

theorem Linked.makeRunning? (h : s.Linked) (o : Option ι) : (s.makeRunning? o).Linked :=
  h.restate (s.makeRunning?_head o) (s.makeRunning?_frame o)
    fun _ _ _ hr => s.makeRunning?_running o hr

theorem enter_frame_of_ne (s : WaitQueue ι) (st : TaskState) {t : ι} (h : t ≠ s.current) :
    (s.enter st).frame t = s.frame t :=
  Function.update_of_ne h ..

theorem enter_frame_current (s : WaitQueue ι) (st : TaskState) :
    (s.enter st).frame s.current = some s.head :=
  Function.update_self ..

/-- The frames after `enter` that hold a task: the new one holds the old `*p`. -/
theorem enter_saved {st : TaskState} {t x : ι}
    (ht : (s.enter st).frame t = some (some x)) :
    (t = s.current ∧ s.head = some x) ∨ (t ≠ s.current ∧ s.frame t = some (some x)) := by
  by_cases htc : t = s.current
  · rw [htc, enter_frame_current] at ht
    exact .inl ⟨htc, Option.some.inj ht⟩
  · rw [enter_frame_of_ne s st htc] at ht
    exact .inr ⟨htc, ht⟩

theorem Linked.enter (h : s.Linked) (hc : ¬ s.Pending s.current) (st : TaskState) :
    (s.enter st).Linked := by
  have hpend : ∀ x, s.Pending x → (s.enter st).Pending x := by
    intro x hx
    rw [Pending, enter_frame_of_ne s st fun he => hc (he ▸ hx)]
    exact hx
  have hcur : (s.enter st).Pending s.current := by
    rw [Pending, enter_frame_current]
    exact Option.some_ne_none _
  refine ⟨?_, ?_, ?_, ?_, ?_⟩
  · intro x hx
    obtain rfl : s.current = x := Option.some.inj hx
    exact hcur
  · intro x hx t ht
    obtain rfl : s.current = x := Option.some.inj hx
    obtain ⟨-, hh⟩ | ⟨-, ht⟩ := enter_saved ht
    · exact hc (h.head_pending _ hh)
    · exact hc (h.tmp_pending t _ ht)
  · intro t x ht
    obtain ⟨-, hh⟩ | ⟨-, ht⟩ := enter_saved ht
    · exact hpend x (h.head_pending x hh)
    · exact hpend x (h.tmp_pending t x ht)
  · intro t t' x ht ht'
    obtain ⟨htc, hh⟩ | ⟨-, ht⟩ := enter_saved ht
    · obtain ⟨htc', -⟩ | ⟨-, ht'⟩ := enter_saved ht'
      · exact htc.trans htc'.symm
      · exact absurd ht' (h.head_unsaved x hh t')
    · obtain ⟨-, hh⟩ | ⟨-, ht'⟩ := enter_saved ht'
      · exact absurd ht (h.head_unsaved x hh t)
      · exact h.tmp_inj t t' x ht ht'
  · intro x hx
    by_cases hxc : x = s.current
    · exact .head (by rw [hxc]; rfl)
    · have hx' : s.Pending x := by
        rwa [Pending, enter_frame_of_ne s st hxc] at hx
      -- a way that ended at the old `*p` goes on to the new one
      have hnew : ∀ y, s.head = some y → (s.enter st).Up y := fun y hy =>
        .behind (t := s.current) (by rw [enter_frame_current, hy]) (.head rfl)
      refine (h.up x hx').map (P := s.Pending) hx' (fun y _ hy => hnew y hy) ?_ ?_
      · intro y hy hun hr
        by_cases hyh : s.head = some y
        · exact hnew y hyh
        · refine .loose (fun t ht => ?_) ?_
          · obtain ⟨-, hh⟩ | ⟨-, ht⟩ := enter_saved ht
            · exact hyh hh
            · exact hun t ht
          · have hyc : y ≠ s.current := fun he => hc (he ▸ hy)
            exact (Function.update_of_ne hyc ..).trans hr
      · intro y t hy ht
        have htp : s.Pending t := by
          rw [Pending, ht]
          exact Option.some_ne_none _
        refine .inl ⟨htp, .behind ?_⟩
        rw [enter_frame_of_ne s st fun he => hc (he ▸ htp)]
        exact ht

theorem leave_head (s : WaitQueue ι) (t : ι) (tmp hd : Option ι) : (s.leave t tmp hd).head = hd :=
  makeRunning?_head ..

theorem leave_frame (s : WaitQueue ι) {t u : ι} (tmp hd : Option ι) (h : u ≠ t) :
    (s.leave t tmp hd).frame u = s.frame u := by
  unfold leave
  rw [makeRunning?_frame]
  exact Function.update_of_ne h ..

theorem leave_frame_self (s : WaitQueue ι) (t : ι) (tmp hd : Option ι) :
    (s.leave t tmp hd).frame t = none := by
  unfold leave
  rw [makeRunning?_frame]
  exact Function.update_self ..

/-- The calls that are left when `t` has gone on. -/
theorem leave_pending {t u : ι} {tmp hd o : Option ι} (h : (s.leave t tmp hd).frame u = some o) :
    u ≠ t ∧ s.frame u = some o := by
  have hut : u ≠ t := by
    rintro rfl
    rw [leave_frame_self] at h
    cases h
  exact ⟨hut, (leave_frame s tmp hd hut).symm.trans h⟩

theorem Linked.wakeUp (h : s.Linked) : s.wakeUp.Linked := by
  have hf : s.wakeUp.frame = s.frame := s.makeRunning?_frame s.head
  refine ⟨fun x hx => (nomatch hx), fun x hx => (nomatch hx), ?_, ?_, ?_⟩
  · intro t x ht
    rw [Pending, hf]
    exact h.tmp_pending t x (hf ▸ ht)
  · exact fun t t' x ht ht' => h.tmp_inj t t' x (hf ▸ ht) (hf ▸ ht')
  · intro x hx
    rw [Pending, hf] at hx
    refine (h.up x hx).map (P := fun _ => True) trivial ?_ ?_ ?_
    · intro y _ hy
      refine .loose ?_ ?_
      · rw [Unsaved, hf]
        exact h.head_unsaved y hy
      · show (s.makeRunning? s.head).state y = .running
        rw [hy]
        exact s.makeRunning?_self y
    · intro y _ hun hr
      refine .loose ?_ (s.makeRunning?_running s.head hr)
      rw [Unsaved, hf]
      exact hun
    · exact fun y t _ ht => .inl ⟨trivial, .behind (by rw [hf]; exact ht)⟩

theorem Linked.setState_other (h : s.Linked) {t : ι} (ht : ¬ s.Pending t) (st : TaskState) :
    (s.setState t st).Linked := by
  refine ⟨h.head_pending, h.head_unsaved, h.tmp_pending, h.tmp_inj,
    fun x hx => (h.up x hx).map (P := s.Pending) hx ?_ ?_ ?_⟩
  · exact fun y _ hy => .head hy
  · intro y hy hun hr
    have hne : y ≠ t := fun he => ht (he ▸ hy)
    exact .loose hun ((Function.update_of_ne hne ..).trans hr)
  · intro y u _ hu
    exact .inl ⟨by rw [Pending, hu]; exact Option.some_ne_none _, .behind hu⟩

/-- The end of a call of a task that no other call holds: its `tmp` becomes the first of the
    rest of the chain, and may run. -/
theorem Linked.leave (h : s.Linked) {t : ι} {tmp hd : Option ι} (ht : s.frame t = some tmp)
    (hun : s.Unsaved t) (hhd : (hd = s.head ∧ s.head ≠ some t) ∨
      (hd = none ∧ (s.head = none ∨ s.head = some t))) : (s.leave t tmp hd).Linked := by
  have hsaved : ∀ {u x : ι}, (s.leave t tmp hd).frame u = some (some x) →
      u ≠ t ∧ x ≠ t ∧ s.frame u = some (some x) := by
    intro u x hu
    obtain ⟨hut, hu'⟩ := leave_pending hu
    refine ⟨hut, ?_, hu'⟩
    rintro rfl
    exact hun u hu'
  have hhead : ∀ x, (s.leave t tmp hd).head = some x → s.head = some x ∧ x ≠ t := by
    intro x hx
    rw [leave_head] at hx
    obtain ⟨rfl, hne⟩ | ⟨rfl, -⟩ := hhd
    · exact ⟨hx, fun he => hne (he ▸ hx)⟩
    · cases hx
  refine ⟨?_, ?_, ?_, ?_, ?_⟩
  · intro x hx
    obtain ⟨hx, hne⟩ := hhead x hx
    rw [Pending, leave_frame s tmp hd hne]
    exact h.head_pending x hx
  · intro x hx u hu
    exact h.head_unsaved x (hhead x hx).1 u (hsaved hu).2.2
  · intro u x hu
    obtain ⟨-, hne, hu⟩ := hsaved hu
    rw [Pending, leave_frame s tmp hd hne]
    exact h.tmp_pending u x hu
  · exact fun u u' x hu hu' => h.tmp_inj u u' x (hsaved hu).2.2 (hsaved hu').2.2
  · intro x hx
    have hxt : x ≠ t := by
      rintro rfl
      exact hx (leave_frame_self s x tmp hd)
    rw [Pending, leave_frame s tmp hd hxt] at hx
    refine (h.up x hx).map (P := fun y => y ≠ t) hxt ?_ ?_ ?_
    · intro y hy hyh
      refine .head ?_
      rw [leave_head]
      obtain ⟨rfl, -⟩ | ⟨-, hno | hat⟩ := hhd
      · exact hyh
      · rw [hno] at hyh
        cases hyh
      · rw [hat] at hyh
        exact absurd (Option.some.inj hyh).symm hy
    · intro y _ hyun hr
      refine .loose (fun u hu => hyun u (hsaved hu).2.2) ?_
      exact makeRunning?_running _ _ hr
    · intro y u hy hu
      by_cases hut : u = t
      · -- `y` is the `tmp` of `t`
        right
        subst hut
        obtain rfl : tmp = some y := Option.some.inj (ht.symm.trans hu)
        refine .loose (fun v hv => ?_) ?_
        · obtain ⟨hv, -, hv'⟩ := hsaved hv
          exact hv (h.tmp_inj v u y hv' hu)
        · exact makeRunning?_self ..
      · exact .inl ⟨hut, .behind (by rw [leave_frame s tmp hd hut]; exact hu)⟩

/-! ## Chains that are being woken -/

omit [DecidableEq ι] in
theorem Up.back {x : ι} (h : s.Up x) (hx : s.state x ≠ .running) : s.Back x := by
  induction h with
  | head h => exact .head h
  | loose _ hr => exact absurd hr hx
  | @behind x t ht _ ih =>
    by_cases hr : s.state t = .running
    · exact .woken ht hr
    · exact .behind ht (ih hr)

omit [DecidableEq ι] in
theorem Linked.running_of_unsaved (h : s.Linked) {x : ι} (hx : s.Pending x) (hun : s.Unsaved x)
    (hh : s.head ≠ some x) : s.state x = .running := by
  cases h.up x hx with
  | head h' => exact absurd h' hh
  | loose _ hr => exact hr
  | behind ht _ => exact absurd ht (hun _)

/-- `x` is reached from `t` through `n` saved `tmp`. -/
def Chain (s : WaitQueue ι) : ι → ℕ → ι → Prop
  | t, 0, x => x = t
  | t, n + 1, x => ∃ y, s.frame t = some (some y) ∧ Chain s y n x

omit [DecidableEq ι] in
theorem Chain.snoc {t y x : ι} {n : ℕ} (h : s.Chain t n y) (hx : s.frame y = some (some x)) :
    s.Chain t (n + 1) x := by
  induction n generalizing t with
  | zero =>
    obtain rfl : y = t := h
    exact ⟨x, hx, rfl⟩
  | succ n ih =>
    obtain ⟨z, hz, h⟩ := h
    exact ⟨z, hz, ih h⟩

/-- `x` is in a chain whose first task is neither `*p` nor held by a call. -/
structure Freed (s : WaitQueue ι) (t : ι) (n : ℕ) (x : ι) : Prop where
  pending : s.Pending t
  unsaved : s.Unsaved t
  not_head : s.head ≠ some t
  chain : s.Chain t n x

omit [DecidableEq ι] in
/-- With `*p` null every waiting task is in such a chain. -/
theorem Up.freed (hh : s.head = none) {x : ι} (h : s.Up x) (hx : s.Pending x) :
    ∃ t n, s.Freed t n x := by
  induction h with
  | head h =>
    rw [hh] at h
    cases h
  | loose hun _ => exact ⟨_, 0, hx, hun, by rw [hh]; exact nofun, rfl⟩
  | behind ht _ ih =>
    obtain ⟨t, n, hf⟩ := ih (by rw [Pending, ht]; exact Option.some_ne_none _)
    exact ⟨t, n + 1, hf.pending, hf.unsaved, hf.not_head, hf.chain.snoc ht⟩

omit [DecidableEq ι] in
/-- A chain stays as it is while the calls in it do, and nobody takes its first task up. -/
theorem Freed.of_frames {s' : WaitQueue ι} {t x : ι} {n : ℕ} (h : s.Freed t n x)
    (hkeep : ∀ y u, s.frame y = some u → s.frame y ≠ s'.frame y → y ≠ t ∧ s.Unsaved y)
    (hun : s'.Unsaved t) (hh : s'.head ≠ some t) : s'.Freed t n x := by
  have hsame : ∀ y, s.Pending y → y = t ∨ ¬ s.Unsaved y → s'.frame y = s.frame y := by
    intro y hy hor
    by_contra hne
    obtain ⟨u, hu⟩ := Option.ne_none_iff_exists'.mp hy
    obtain ⟨h1, h2⟩ := hkeep y u hu fun he => hne he.symm
    exact hor.elim h1 fun h' => h' h2
  have hpend : s'.Pending t := by
    rw [Pending, hsame t h.pending (.inl rfl)]
    exact h.pending
  refine ⟨hpend, hun, hh, ?_⟩
  have hchain : ∀ (n : ℕ) (y : ι), s.Chain y n x → y = t ∨ ¬ s.Unsaved y → s'.Chain y n x := by
    intro n
    induction n with
    | zero => exact fun y hy _ => hy
    | succ n ih =>
      rintro y ⟨z, hz, hc⟩ hor
      refine ⟨z, ?_, ih z hc (.inr fun h' => h' y hz)⟩
      rw [hsame y (by rw [Pending, hz]; exact Option.some_ne_none _) hor]
      exact hz
  exact hchain n t h.chain (.inl rfl)

omit [DecidableEq ι] in
theorem Freed.same {s' : WaitQueue ι} {t x : ι} {n : ℕ} (h : s.Freed t n x) (hh : s'.head = s.head)
    (hf : s'.frame = s.frame) : s'.Freed t n x := by
  refine h.of_frames (fun y o _ hne => absurd (congrFun hf y).symm hne) ?_ (hh ▸ h.not_head)
  rw [Unsaved, hf]
  exact h.unsaved

/-- The first task of a chain goes on: the chain is the rest. -/
theorem Freed.leave_first (hl : s.Linked) {t x : ι} {n : ℕ} (h : s.Freed t (n + 1) x)
    {tmp hd : Option ι} (hhd : hd = s.head ∨ hd = none) :
    ∃ y, (s.leave t tmp hd).Freed y n x := by
  obtain ⟨y, hy, hc⟩ := h.chain
  have hyt : y ≠ t := fun he => h.unsaved t (he ▸ hy)
  have hun : (s.leave t tmp hd).Unsaved y := by
    intro u hu
    obtain ⟨hut, hu⟩ := leave_pending hu
    exact hut (hl.tmp_inj u t y hu hy)
  have hhead : s.head ≠ some y := fun hh => hl.head_unsaved y hh t hy
  have hchain : ∀ (n : ℕ) (z : ι), s.Chain z n x → z ≠ t → (s.leave t tmp hd).Chain z n x := by
    intro n
    induction n with
    | zero => exact fun z hz _ => hz
    | succ n ih =>
      rintro z ⟨w, hw, hc⟩ hz
      have hwt : w ≠ t := fun he => h.unsaved z (he ▸ hw)
      exact ⟨w, (leave_frame s tmp hd hz).trans hw, ih w hc hwt⟩
  refine ⟨y, ?_, hun, ?_, hchain n y hc hyt⟩
  · rw [Pending, leave_frame s tmp hd hyt]
    exact hl.tmp_pending t y hy
  · rw [leave_head]
    obtain rfl | rfl := hhd
    · exact hhead
    · exact nofun

/-- Another task that no call holds goes on. -/
theorem Freed.leave_other {t u x : ι} {n : ℕ} (h : s.Freed t n x) {tmp hd : Option ι} (hut : u ≠ t)
    (hun : s.Unsaved u) (hhd : hd = s.head ∨ hd = none) : (s.leave u tmp hd).Freed t n x := by
  refine h.of_frames ?_ ?_ ?_
  · intro y o _ hne
    have hyu : y = u := by
      by_contra hyu
      exact hne (leave_frame s tmp hd hyu).symm
    exact hyu ▸ ⟨hut, hun⟩
  · intro v hv
    exact h.unsaved v (leave_pending hv).2
  · rw [leave_head]
    obtain rfl | rfl := hhd
    · exact h.not_head
    · exact nofun

theorem Freed.enter {t x : ι} {n : ℕ} (h : s.Freed t n x) (hc : ¬ s.Pending s.current)
    (st : TaskState) : (s.enter st).Freed t n x := by
  refine h.of_frames ?_ ?_ ?_
  · intro y o hy hne
    refine absurd (enter_frame_of_ne s st fun hyc => hc ?_).symm hne
    rw [← hyc, Pending, hy]
    exact Option.some_ne_none _
  · intro u hu
    obtain ⟨-, hh⟩ | ⟨-, hu⟩ := enter_saved hu
    · exact h.not_head hh
    · exact h.unsaved u hu
  · intro hh
    exact hc ((Option.some.inj hh) ▸ h.pending)

theorem Freed.wakeUp {t x : ι} {n : ℕ} (h : s.Freed t n x) : s.wakeUp.Freed t n x := by
  have hframe : s.wakeUp.frame = s.frame := s.makeRunning?_frame s.head
  refine h.of_frames (fun y o _ hne => absurd (congrFun hframe y).symm hne) ?_ nofun
  rw [Unsaved, hframe]
  exact h.unsaved

omit [DecidableEq ι] in
/-- A run in which every waiting task that may run is switched to, and in which the first task of
    a chain leaves it when it is: every task of the chain gets to run. -/
theorem Linked.leads {σ : ℕ → WaitQueue ι} (switched : ℕ → ι → Prop) (hl : ∀ k, (σ k).Linked)
    (hfair : ∀ k t, (σ k).Pending t → (σ k).state t = .running → ∃ j, k ≤ j ∧ switched j t)
    (hkeep : ∀ k t n x, (σ k).Freed t n x → ¬ switched k t → (σ (k + 1)).Freed t n x)
    (hleave : ∀ k t n x, (σ k).Freed t (n + 1) x → switched k t → ∃ y, (σ (k + 1)).Freed y n x)
    {k : ℕ} {t : ι} {n : ℕ} {x : ι} (h : (σ k).Freed t n x) :
    ∃ j, k ≤ j ∧ (σ j).Pending x ∧ (σ j).state x = .running := by
  induction n generalizing k t with
  | zero =>
    obtain rfl : x = t := h.chain
    exact ⟨k, le_rfl, h.pending, (hl k).running_of_unsaved h.pending h.unsaved h.not_head⟩
  | succ n ih =>
    have hrun := (hl k).running_of_unsaved h.pending h.unsaved h.not_head
    obtain ⟨j, hkj, hj⟩ := hfair k t h.pending hrun
    -- the first switch to `t` from `k` on
    obtain ⟨d, rfl⟩ := Nat.exists_eq_add_of_le hkj
    classical
    have hex : ∃ d, switched (k + d) t := ⟨d, hj⟩
    have hfirst : ∀ i, i ≤ Nat.find hex → (σ (k + i)).Freed t (n + 1) x := by
      intro i hi
      induction i with
      | zero => exact h
      | succ i ihi => exact hkeep _ t _ x (ihi (by omega)) (Nat.find_min hex (by omega))
    obtain ⟨y, hy⟩ := hleave _ t n x (hfirst _ le_rfl) (Nat.find_spec hex)
    obtain ⟨j, hle, hj⟩ := ih hy
    exact ⟨j, by omega, hj⟩

/-- In such a run a task that waits at a `wake_up` waits on until it may run, in the same call. -/
theorem Linked.woken {σ : ℕ → WaitQueue ι} (switched : ℕ → ι → Prop) (hl : ∀ k, (σ k).Linked)
    (hfair : ∀ k t, (σ k).Pending t → (σ k).state t = .running → ∃ j, k ≤ j ∧ switched j t)
    (hkeep : ∀ k t n x, (σ k).Freed t n x → ¬ switched k t → (σ (k + 1)).Freed t n x)
    (hleave : ∀ k t n x, (σ k).Freed t (n + 1) x → switched k t → ∃ y, (σ (k + 1)).Freed y n x)
    {k : ℕ} {x : ι}
    (hstays : ∀ i, (σ i).Pending x → (σ i).state x ≠ .running → (σ (i + 1)).Pending x)
    (hwake : σ (k + 1) = (σ k).wakeUp) (hx : (σ k).Pending x) (hr : (σ k).state x ≠ .running) :
    ∃ j, k < j ∧ (∀ i, k ≤ i → i < j → (σ i).Pending x ∧ (σ i).state x ≠ .running) ∧
      (σ j).Pending x ∧ (σ j).state x = .running := by
  have hpend := hstays k hx hr
  -- after the `wake_up` everyone in the queue is in a chain that is being woken
  obtain ⟨t, n, hf⟩ := ((hl (k + 1)).up x hpend).freed (by rw [hwake]; rfl) hpend
  obtain ⟨j, hkj, -, hj⟩ := Linked.leads switched hl hfair hkeep hleave hf
  -- the first state from `k` on in which `x` may run
  classical
  have hex : ∃ d, (σ (k + d)).state x = .running := by
    refine ⟨j - k, ?_⟩
    rwa [show k + (j - k) = j by omega]
  have hbefore : ∀ d, d ≤ Nat.find hex → (σ (k + d)).Pending x := by
    intro d hd
    induction d with
    | zero => exact hx
    | succ d ih => exact hstays _ (ih (by omega)) (Nat.find_min hex (by omega))
  have hpos : Nat.find hex ≠ 0 := by
    intro h0
    have hnow := Nat.find_spec hex
    rw [h0] at hnow
    exact hr hnow
  refine ⟨k + Nat.find hex, by omega, fun i hi hij => ?_, hbefore _ le_rfl, Nat.find_spec hex⟩
  obtain ⟨d, rfl⟩ := Nat.exists_eq_add_of_le hi
  exact ⟨hbefore d (by omega), Nat.find_min hex (by omega)⟩

end WaitQueue

/-- Every waiting task that may run is switched to again. -/
def FairRun (σ : ℕ → WaitQueue ι) (e : ℕ → WaitEvent ι) : Prop :=
  ∀ k t, (σ k).Pending t → (σ k).state t = .running → ∃ j, k ≤ j ∧ e j = .switch t

end Linux011.Kernel

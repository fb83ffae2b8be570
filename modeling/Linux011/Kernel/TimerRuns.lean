/-
  Runs of the timer list: any sequence of `add_timer` calls, from the kernel or from a running
  timer function, and of clock ticks. A tick may also come while a timer function runs, since
  `add_timer` ends with `sti()`; it cannot come between two tests of the loop of `do_timer`.
  `timer_slots_accounted`: the used slots are the linked ones, and every request is called once
  or waits. `timers_fire_on_time`: a request is called at its own tick as long as every new
  request is due after all those that wait.
-/
import Linux011.Kernel.Timer
import Linux011.Lib.Trans

namespace Linux011.Kernel
open Linux011.Lib

/-- A call of `add_timer` with a function, numbered; the code never looks at the number. -/
structure Request (G : Type*) where
  serial : ℕ
  fn : G
  n : ℤ
  start : ℕ
  deriving DecidableEq

/-- What the processor is in: the loop of `do_timer`, or a timer function. -/
inductive TimerFrame (G : Type*)
  | doTimer
  | callback (r : Request G)
  deriving DecidableEq

inductive TimerEvent (G : Type*)
  /-- `add_timer`, called by whatever runs -/
  | add (n : ℤ) (fn : Option G)
  /-- the timer interrupt, up to the loop of `do_timer` -/
  | tick
  /-- one test of the loop of `do_timer` -/
  | loop
  /-- the end of a timer function -/
  | ret

/-- The timer list with `jiffies` and the calls under way; `made` are the requests so far and
    `called` the calls of timer functions, each with the tick it was made in. -/
structure Clock (G : Type*) where
  timers : Timers (Request G)
  jiffies : ℕ
  stack : List (TimerFrame G)
  made : List (Request G)
  called : List (Request G × ℕ)

variable {G : Type*}

namespace Clock

def start : Clock G := ⟨.start, 0, [], [], []⟩

/-- Whether the loop of `do_timer` is what runs. -/
def looping (s : Clock G) : Bool :=
  match s.stack with
  | .doTimer :: _ => true
  | _ => false

/-- The request that a call of `add_timer` makes. -/
def request (s : Clock G) (n : ℤ) (g : G) : Request G := ⟨s.made.length, g, n, s.jiffies⟩

def step (s : Clock G) : TimerEvent G → Option (Clock G)
  | .add n fn =>
    if s.looping ∨ ¬ IsLong n then none
    else
      let r := fn.map (s.request n)
      match s.timers.addTimer n r with
      | .error _ => none
      | .ok (t, none) => some { s with timers := t, made := r.toList ++ s.made }
      | .ok (t, some r') => some { s with
          timers := t, made := r.toList ++ s.made, stack := .callback r' :: s.stack
          called := (r', s.jiffies) :: s.called }
  | .tick =>
    if s.looping then none
    else some { s with
      timers := s.timers.countDown, jiffies := s.jiffies + 1, stack := .doTimer :: s.stack }
  | .loop =>
    if ¬ s.looping then none
    else match s.timers.expire with
      | none => some { s with stack := s.stack.tail }
      | some (none, _) => none
      | some (some r, t) => some { s with
          timers := t, stack := .callback r :: s.stack, called := (r, s.jiffies) :: s.called }
  | .ret =>
    match s.stack with
    | .callback _ :: st => some { s with stack := st }
    | _ => none

end Clock

/-- The timer list from the boot on. -/
def timerSystem (G : Type*) : Lts (Clock G) (TimerEvent G) where
  init s := s = .start
  step s e s' := s.step e = some s'

namespace Clock

variable {s s' : Clock G}

/-- What `add_timer` does in a run. -/
theorem step_add {n : ℤ} {fn : Option G} (h : s.step (.add n fn) = some s') :
    s.looping = false ∧ IsLong n ∧
      ((fn = none ∧ s' = s) ∨
      (∃ g, fn = some g ∧ n ≤ 0 ∧ s' = { s with
        made := s.request n g :: s.made, stack := .callback (s.request n g) :: s.stack
        called := (s.request n g, s.jiffies) :: s.called }) ∨
      (∃ g t, fn = some g ∧ 0 < n ∧ s.timers.addTimer n (some (s.request n g)) = .ok (t, none) ∧
        s' = { s with timers := t, made := s.request n g :: s.made })) := by
  simp only [step] at h
  split_ifs at h with hc
  rw [not_or, not_not] at hc
  refine ⟨by simpa using hc.1, hc.2, ?_⟩
  cases fn with
  | none =>
    simp only [Option.map_none, Timers.addTimer, Option.toList_none, List.nil_append] at h
    exact .inl ⟨rfl, (Option.some.inj h).symm⟩
  | some g =>
    right
    simp only [Option.map_some, Option.toList_some, List.singleton_append] at h
    by_cases hn : n ≤ 0
    · left
      have hadd : s.timers.addTimer n (some (s.request n g)) =
          .ok (s.timers, some (s.request n g)) := by
        simp only [Timers.addTimer, if_pos hn]
      rw [hadd] at h
      exact ⟨g, rfl, hn, (Option.some.inj h).symm⟩
    · right
      cases hadd : s.timers.addTimer n (some (s.request n g)) with
      | error e => rw [hadd] at h; cases h
      | ok x =>
        obtain ⟨t, r⟩ := x
        cases r with
        | none =>
          rw [hadd] at h
          exact ⟨g, t, rfl, by omega, hadd ▸ rfl, (Option.some.inj h).symm⟩
        | some r =>
          -- a positive delay never calls at once
          simp only [Timers.addTimer, if_neg hn] at hadd
          split at hadd
          · cases hadd
          · cases hb : Timers.bubble timeRequests ‹_› _ with
            | error e => rw [hb] at hadd; cases hadd
            | ok t' => rw [hb] at hadd; cases hadd

theorem step_tick (h : s.step .tick = some s') :
    s.looping = false ∧ s' = { s with
      timers := s.timers.countDown, jiffies := s.jiffies + 1, stack := .doTimer :: s.stack } := by
  simp only [step] at h
  split_ifs at h with hc
  exact ⟨by simpa using hc, (Option.some.inj h).symm⟩

theorem step_loop (h : s.step .loop = some s') :
    s.looping = true ∧
      ((s.timers.expire = none ∧ s' = { s with stack := s.stack.tail }) ∨
      ∃ r t, s.timers.expire = some (some r, t) ∧ s' = { s with
          timers := t, stack := .callback r :: s.stack, called := (r, s.jiffies) :: s.called }) := by
  simp only [step] at h
  split_ifs at h with hc
  refine ⟨hc, ?_⟩
  split at h
  · exact .inl ⟨‹_›, (Option.some.inj h).symm⟩
  · cases h
  · exact .inr ⟨_, _, ‹_›, (Option.some.inj h).symm⟩

theorem step_ret (h : s.step .ret = some s') :
    ∃ r st, s.stack = .callback r :: st ∧ s' = { s with stack := st } := by
  simp only [step] at h
  split at h
  · exact ⟨_, _, ‹_›, (Option.some.inj h).symm⟩
  · cases h

/-! ## The delta queue behind the slots -/

/-- The queue of waiting requests after an event. -/
def after (s : Clock G) : TimerEvent G → List (ℤ × Request G) → List (ℤ × Request G)
  | .add n (some g), c => if 0 < n then place n (s.request n g) c else c
  | .tick, (d, r) :: c => (d - 1, r) :: c
  | .loop, (d, r) :: c => if d ≤ 0 then c else (d, r) :: c
  | _, c => c

/-- The slots hold the queue `c`, whose differences are positive (in the loop of `do_timer` the
    first one may be zero); the requests made are those called and those of the queue. -/
structure Inv (s : Clock G) (c : List (ℤ × Request G)) : Prop where
  holds : ∃ l, s.timers.Holds l c
  spaced : ∀ e ∈ c.tail, 0 < e.1 ∧ e.1 < 2147483648
  first : ∀ e ∈ c, 0 ≤ e.1 ∧ e.1 < 2147483648
  running : s.looping = false → ∀ e ∈ c, 0 < e.1
  made : s.made.Perm (s.called.map Prod.fst ++ c.map Prod.snd)
  serial : ∀ r ∈ s.made, r.serial < s.made.length
  nodup : s.made.Nodup

namespace Inv

variable {c : List (ℤ × Request G)}

theorem start : Inv (Clock.start : Clock G) [] where
  holds := ⟨[], Timers.Holds.start⟩
  spaced := by simp
  first := by simp
  running := by simp
  made := .refl _
  serial := by simp [Clock.start]
  nodup := List.nodup_nil

/-- A new request has a number of its own. -/
theorem request_notMem (h : Inv s c) (n : ℤ) (g : G) : s.request n g ∉ s.made :=
  fun hm => Nat.lt_irrefl _ (h.serial _ hm)

theorem serial_cons (h : Inv s c) (n : ℤ) (g : G) :
    ∀ r ∈ s.request n g :: s.made, r.serial < (s.request n g :: s.made).length := by
  intro r hr
  rw [List.length_cons]
  obtain rfl | hr := List.mem_cons.mp hr
  · exact Nat.lt_succ_self _
  · exact Nat.lt_succ_of_lt (h.serial r hr)

theorem queue_nodup (h : Inv s c) : (c.map Prod.snd).Nodup :=
  (List.nodup_append.mp (h.made.nodup_iff.mp h.nodup)).2.1

theorem called_nodup (h : Inv s c) : (s.called.map Prod.fst).Nodup :=
  (List.nodup_append.mp (h.made.nodup_iff.mp h.nodup)).1

theorem add (h : Inv s c) {n : ℤ} {fn : Option G} (hs : s.step (.add n fn) = some s') :
    Inv s' (s.after (.add n fn) c) := by
  obtain ⟨hloop, hn, ⟨rfl, rfl⟩ | ⟨g, rfl, hneg, rfl⟩ | ⟨g, t, rfl, hpos, hadd, rfl⟩⟩ := step_add hs
  · exact h
  · -- called at once
    rw [after, if_neg (by omega)]
    exact { h with
      running := fun _ => h.running hloop
      made := h.made.cons _
      serial := h.serial_cons n g
      nodup := List.nodup_cons.mpr ⟨h.request_notMem n g, h.nodup⟩ }
  · rw [after, if_pos hpos]
    obtain ⟨l, hl⟩ := h.holds
    have hb : ∀ e ∈ c, 0 < e.1 ∧ e.1 < 2147483648 := fun e he =>
      ⟨h.running hloop e he, (h.first e he).2⟩
    have hb' := place_pos (x := s.request n g) hpos hn.2 hb
    obtain ⟨herr, -⟩ | ⟨p, t', hok, ht'⟩ :=
      hl.addTimer_spec hpos hn (s.request n g) fun e he => (hb e he).1.le
    · rw [herr] at hadd
      cases hadd
    · obtain rfl : t' = t := by
        rw [hok] at hadd
        cases hadd
        rfl
      exact
        { holds := ⟨_, ht'⟩
          spaced := fun e he => hb' e (List.mem_of_mem_tail he)
          first := fun e he => ⟨(hb' e he).1.le, (hb' e he).2⟩
          running := fun _ e he => (hb' e he).1
          made := by
            refine (h.made.cons _).trans ?_
            exact List.perm_middle.symm.trans (((place_perm n _ c).symm).append_left _)
          serial := h.serial_cons n g
          nodup := List.nodup_cons.mpr ⟨h.request_notMem n g, h.nodup⟩ }

theorem tick (h : Inv s c) (hs : s.step .tick = some s') : Inv s' (s.after .tick c) := by
  obtain ⟨hloop, rfl⟩ := step_tick hs
  obtain ⟨l, hl⟩ := h.holds
  cases c with
  | nil =>
    exact { h with
      holds := ⟨l, by rw [hl.countDown_nil]; exact hl⟩
      running := fun hr => absurd hr (by simp [looping]) }
  | cons e c =>
    obtain ⟨d, r⟩ := e
    have hd := h.running hloop (d, r) List.mem_cons_self
    have hd' := (h.first (d, r) List.mem_cons_self).2
    simp only at hd hd'
    exact { h with
      holds := ⟨l, hl.countDown ⟨by omega, by omega⟩⟩
      spaced := h.spaced
      first := by
        intro e he
        obtain rfl | he := List.mem_cons.mp he
        · exact ⟨by show 0 ≤ d - 1; omega, by show d - 1 < _; omega⟩
        · exact h.first e (List.mem_cons_of_mem _ he)
      running := fun hr => absurd hr (by simp [looping])
      made := h.made }

theorem loop (h : Inv s c) (hs : s.step .loop = some s') : Inv s' (s.after .loop c) := by
  obtain ⟨-, hcase⟩ := step_loop hs
  obtain ⟨l, hl⟩ := h.holds
  cases c with
  | nil =>
    obtain ⟨-, rfl⟩ | ⟨r, t, hexp, -⟩ := hcase
    · exact { h with running := fun _ e he => absurd he List.not_mem_nil }
    · rw [hl.expire_nil] at hexp
      cases hexp
  | cons e c =>
    obtain ⟨d, r⟩ := e
    obtain ⟨hd, hnone⟩ | ⟨hd, t, hexp, ht⟩ := hl.expire
    · -- not due: the loop ends
      rw [after, if_neg (by omega)]
      obtain ⟨-, rfl⟩ | ⟨r', t, hexp, -⟩ := hcase
      · exact { h with
          running := fun _ => List.forall_mem_cons.mpr ⟨hd, fun e he => (h.spaced e he).1⟩ }
      · rw [hnone] at hexp
        cases hexp
    · rw [after, if_pos hd]
      obtain ⟨hnone, -⟩ | ⟨r', t', hexp', rfl⟩ := hcase
      · rw [hnone] at hexp
        cases hexp
      · rw [hexp] at hexp'
        cases hexp'
        exact { h with
          holds := ⟨_, ht⟩
          spaced := fun e he => h.spaced e (List.mem_of_mem_tail he)
          first := fun e he => h.first e (List.mem_cons_of_mem _ he)
          running := fun _ e he => (h.spaced e he).1
          made := h.made.trans List.perm_middle }

theorem step (h : Inv s c) {e : TimerEvent G} (hs : s.step e = some s') :
    Inv s' (s.after e c) := by
  cases e with
  | add n fn => exact h.add hs
  | tick => exact h.tick hs
  | loop => exact h.loop hs
  | ret =>
    obtain ⟨r, st, hst, rfl⟩ := step_ret hs
    have hrun : ∀ e ∈ c, 0 < e.1 := h.running (by simp [looping, hst])
    exact { h with running := fun _ => hrun }

end Inv

end Clock

theorem timer_inv {s : Clock G} (h : (timerSystem G).Reachable s) : ∃ c, s.Inv c := by
  refine Lts.Reachable.invariant (I := fun s => ∃ c, s.Inv c) h ?_ ?_
  · intro s hs
    rw [show s = .start from hs]
    exact ⟨[], Clock.Inv.start⟩
  · intro s e s' _ hi hs
    obtain ⟨c, hc⟩ := hi
    exact ⟨_, hc.step hs⟩

theorem reachable_run {s : Clock G} (es : List (TimerEvent G))
    (hs : es.foldlM Clock.step Clock.start = some s) : (timerSystem G).Reachable s :=
  Lts.Reachable.foldlM (.init rfl) (fun _ e _ h => ⟨e, h⟩) es hs

/-! ## Slots -/

/-- In every run the used slots are those linked from `next_timer`, each once; the requests
    made are those called and those that wait, each once; and `add_timer` stops the kernel only
    when 64 requests wait. -/
theorem timer_slots_accounted (G : Type*) (s : Clock G) (h : (timerSystem G).Reachable s) :
    (∃ l, Path (fun p => (s.timers.slot p).next) s.timers.head l ∧ l.Nodup ∧
      ∀ p, p ∈ l ↔ (s.timers.slot p).fn ≠ none) ∧
    s.made.Nodup ∧ s.made.Perm (s.called.map Prod.fst ++ s.timers.pending) ∧
    ∀ n fn e, IsLong n → s.looping = false → s.timers.addTimer n fn = .error e →
      e = .noMoreTimeRequests ∧ s.timers.pending.length = 64 := by
  obtain ⟨c, hc⟩ := timer_inv h
  obtain ⟨l, hl⟩ := hc.holds
  refine ⟨⟨l, hl.path, hl.nodup, hl.used⟩, hc.nodup,
    hc.made.trans (hl.pending_perm.symm.append_left _), ?_⟩
  intro n fn e hn hloop he
  cases fn with
  | none => cases he
  | some r =>
    by_cases hpos : n ≤ 0
    · simp only [Timers.addTimer, if_pos hpos] at he
      cases he
    · obtain ⟨herr, hlen⟩ | ⟨p, t, hok, -⟩ := hl.addTimer_spec (by omega) hn r
        fun e he => (hc.running hloop e he).le
      · rw [herr] at he
        cases he
        exact ⟨rfl, by rw [hl.pending_perm.length_eq, List.length_map, hlen]⟩
      · rw [hok] at he
        cases he

theorem timer_slots_accounted_one_tick :
    ∃ s, [TimerEvent.add 1 (some 7), .add 5 (some 8), .tick, .loop].foldlM Clock.step
        (Clock.start : Clock ℕ) = some s ∧
      s.made.Perm (s.called.map Prod.fst ++ s.timers.pending) := by
  have hsome : ([TimerEvent.add 1 (some 7), .add 5 (some 8), .tick, .loop].foldlM Clock.step
      (Clock.start : Clock ℕ)).isSome := by decide
  obtain ⟨s, hs⟩ := Option.isSome_iff_exists.mp hsome
  exact ⟨s, hs, (timer_slots_accounted ℕ s (reachable_run _ hs)).2.2.1⟩

/-! ## Times -/

/-- Each function called so far was called in the tick its request asked for, once, and each
    request that is due has been called, or is about to be by the loop of `do_timer`. -/
def Clock.OnTime (s : Clock G) : Prop :=
  (∀ r k, (r, k) ∈ s.called → 0 < r.n → (k : ℤ) = r.start + r.n) ∧
  (s.called.map Prod.fst).Nodup ∧
  ∀ r ∈ s.made, 0 < r.n → r.start + r.n ≤ s.jiffies →
    (∃ k, (r, k) ∈ s.called) ∨ (s.looping = true ∧ r.start + r.n = s.jiffies)

/-- A new request is due after every one that waits. -/
def Clock.Later (s : Clock G) : TimerEvent G → Prop
  | .add n (some _) => 0 < n → ∀ r ∈ s.timers.pending, r.start + r.n < s.jiffies + n
  | _ => True

/-- The queue `c` holds every waiting request at its own time. -/
structure Clock.Timed (s : Clock G) (c : List (ℤ × Request G)) : Prop where
  inv : s.Inv c
  due : ∀ e ∈ dues s.jiffies c, e.1 = e.2.start + e.2.n
  called : ∀ r k, (r, k) ∈ s.called → 0 < r.n → (k : ℤ) = r.start + r.n

namespace Clock.Timed

variable {s s' : Clock G} {c : List (ℤ × Request G)}

theorem add (h : s.Timed c) {n : ℤ} {fn : Option G} (hlater : s.Later (.add n fn))
    (hs : s.step (.add n fn) = some s') : s'.Timed (s.after (.add n fn) c) := by
  refine ⟨h.inv.step hs, ?_, ?_⟩
  · obtain ⟨hloop, hn, ⟨rfl, rfl⟩ | ⟨g, rfl, hneg, rfl⟩ | ⟨g, t, rfl, hpos, hadd, rfl⟩⟩ :=
      step_add hs
    · exact h.due
    · rw [after, if_neg (by omega)]
      exact h.due
    · rw [after, if_pos hpos]
      obtain ⟨l, hl⟩ := h.inv.holds
      have hlast : ∀ e ∈ dues (s.jiffies : ℤ) c, e.1 < s.jiffies + n := by
        intro e he
        rw [h.due e he]
        exact hlater hpos e.2 (hl.pending_perm.mem_iff.mpr (mem_of_mem_dues he))
      show ∀ e ∈ dues (s.jiffies : ℤ) (place n (s.request n g) c), _
      rw [dues_place_last hlast]
      intro e he
      obtain he | he := List.mem_append.mp he
      · exact h.due e he
      · rw [List.mem_singleton.mp he]
        rfl
  · obtain ⟨-, -, ⟨-, rfl⟩ | ⟨g, -, hneg, rfl⟩ | ⟨g, t, -, -, -, rfl⟩⟩ := step_add hs
    · exact h.called
    · intro r k hr hpos
      obtain hr | hr := List.mem_cons.mp hr
      · cases hr
        exact absurd hpos (by show ¬ 0 < n; omega)
      · exact h.called r k hr hpos
    · exact h.called

theorem tick (h : s.Timed c) (hs : s.step .tick = some s') : s'.Timed (s.after .tick c) := by
  refine ⟨h.inv.step hs, ?_, ?_⟩
  · obtain ⟨-, rfl⟩ := step_tick hs
    cases c with
    | nil => exact fun e he => absurd he List.not_mem_nil
    | cons e c =>
      -- one tick more and one jiffy less at the head: no request moves
      have hsame : dues ((s.jiffies + 1 : ℕ) : ℤ) ((e.1 - 1, e.2) :: c) =
          dues (s.jiffies : ℤ) (e :: c) := by
        simp only [dues]
        rw [show ((s.jiffies + 1 : ℕ) : ℤ) + (e.1 - 1) = s.jiffies + e.1 by push_cast; omega]
      show ∀ f ∈ dues ((s.jiffies + 1 : ℕ) : ℤ) ((e.1 - 1, e.2) :: c), _
      rw [hsame]
      exact h.due
  · obtain ⟨-, rfl⟩ := step_tick hs
    exact h.called

theorem loop (h : s.Timed c) (hs : s.step .loop = some s') : s'.Timed (s.after .loop c) := by
  obtain ⟨l, hl⟩ := h.inv.holds
  refine ⟨h.inv.step hs, ?_, ?_⟩
  · have hj : s'.jiffies = s.jiffies := by
      obtain ⟨-, ⟨-, rfl⟩ | ⟨r, t, -, rfl⟩⟩ := step_loop hs <;> rfl
    rw [hj]
    cases c with
    | nil => exact fun e he => absurd he List.not_mem_nil
    | cons e c =>
      by_cases hd : e.1 ≤ 0
      · -- the head was due now, so the rest is counted from the same tick
        have hzero : e.1 = 0 := le_antisymm hd (h.inv.first e List.mem_cons_self).1
        rw [after, if_pos hd]
        intro f hf
        refine h.due f (List.mem_cons_of_mem _ ?_)
        rwa [hzero, add_zero]
      · rw [after, if_neg hd]
        exact h.due
  · obtain ⟨-, ⟨-, rfl⟩ | ⟨r, t, hexp, rfl⟩⟩ := step_loop hs
    · exact h.called
    · intro r' k hr hpos
      obtain hr | hr := List.mem_cons.mp hr
      · cases hr
        cases c with
        | nil =>
          rw [hl.expire_nil] at hexp
          cases hexp
        | cons e c =>
          obtain ⟨-, hnone⟩ | ⟨hd, t', hsome, -⟩ := hl.expire
          · rw [hnone] at hexp
            cases hexp
          · rw [hsome] at hexp
            cases hexp
            have hzero : e.1 = 0 := le_antisymm hd (h.inv.first e List.mem_cons_self).1
            have hdue := h.due (s.jiffies + e.1, e.2) List.mem_cons_self
            simpa [hzero] using hdue
      · exact h.called r' k hr hpos

theorem step (h : s.Timed c) {e : TimerEvent G} (hlater : s.Later e) (hs : s.step e = some s') :
    s'.Timed (s.after e c) := by
  cases e with
  | add n fn => exact h.add hlater hs
  | tick => exact h.tick hs
  | loop => exact h.loop hs
  | ret =>
    have hinv := h.inv.step hs
    obtain ⟨r, st, -, rfl⟩ := step_ret hs
    exact ⟨hinv, h.due, h.called⟩

/-- What waits is not due before the present tick, and due in it only at the head, in the loop. -/
theorem onTime (h : s.Timed c) : s.OnTime := by
  refine ⟨h.called, h.inv.called_nodup, ?_⟩
  intro r hr hpos hdue
  obtain hr | hr := List.mem_append.mp (h.inv.made.mem_iff.mp hr)
  · obtain ⟨x, hx, rfl⟩ := List.mem_map.mp hr
    exact .inl ⟨x.2, hx⟩
  · right
    rw [← dues_map_snd (s.jiffies : ℤ) c] at hr
    obtain ⟨e, he, rfl⟩ := List.mem_map.mp hr
    have htime := h.due e he
    have hge := le_of_mem_dues (fun e he => (h.inv.first e he).1) he
    refine ⟨?_, by omega⟩
    by_contra hloop
    have hgt := lt_of_mem_dues (h.inv.running (by simpa using hloop)) he
    omega

end Clock.Timed

theorem timed_inv {s : Clock G} (h : ((timerSystem G).restrict Clock.Later).Reachable s) :
    ∃ c, s.Timed c := by
  refine Lts.Reachable.invariant (I := fun s => ∃ c, s.Timed c) h ?_ ?_
  · intro s hs
    rw [show s = .start from hs]
    exact ⟨[], Clock.Inv.start, fun e he => absurd he List.not_mem_nil,
      fun r k hr => absurd hr List.not_mem_nil⟩
  · intro s e s' _ hi hs
    obtain ⟨c, hc⟩ := hi
    exact ⟨_, hc.step hs.1 hs.2⟩

/-- As long as every new request is due after those that wait, every function is called in its
    own tick. In any run at all, a call of `add_timer` gives the new request its own time, and
    leaves those of the others exactly when they all come before it. -/
theorem timers_fire_on_time (G : Type*) :
    (∀ s, ((timerSystem G).restrict Clock.Later).Reachable s → s.OnTime) ∧
    ∀ s, (timerSystem G).Reachable s → s.looping = false → ∀ n r t, 0 < n → IsLong n →
      r ∉ s.timers.pending → s.timers.addTimer n (some r) = .ok (t, none) →
      ∃ l l' c c', s.timers.Holds l c ∧ t.Holds l' c' ∧ (n, r) ∈ dues 0 c' ∧
        ((∀ e ∈ dues 0 c, e ∈ dues 0 c') ↔ ∀ e ∈ dues 0 c, e.1 < n) := by
  refine ⟨fun s h => ?_, fun s h hloop n r t hpos hn hr hadd => ?_⟩
  · obtain ⟨c, hc⟩ := timed_inv h
    exact hc.onTime
  · obtain ⟨c, hc⟩ := timer_inv h
    obtain ⟨l, hl⟩ := hc.holds
    obtain ⟨herr, -⟩ | ⟨p, t', hok, ht'⟩ := hl.addTimer_spec hpos hn r
      fun e he => (hc.running hloop e he).le
    · rw [herr] at hadd
      cases hadd
    · rw [hok] at hadd
      cases hadd
      have hnew := mem_dues_place 0 n r c
      rw [zero_add] at hnew
      refine ⟨l, p :: l, c, place n r c, hl, ht', hnew, ?_⟩
      have hnd : (r :: c.map Prod.snd).Nodup :=
        List.nodup_cons.mpr ⟨fun hm => hr (hl.pending_perm.mem_iff.mpr hm), hc.queue_nodup⟩
      have hiff := dues_place_keeps_iff (a := 0) hpos hnd
      rwa [zero_add] at hiff

theorem timers_fire_on_time_one :
    ∃ s, [TimerEvent.add 1 (some 7), .tick, .loop].foldlM Clock.step (Clock.start : Clock ℕ) =
      some s ∧ s.OnTime := by
  have hsome : ([TimerEvent.add 1 (some 7), .tick, .loop].foldlM Clock.step
      (Clock.start : Clock ℕ)).isSome := by decide
  obtain ⟨s, hs⟩ := Option.isSome_iff_exists.mp hsome
  have hs' := hs
  rw [List.foldlM_cons] at hs'
  obtain ⟨s1, h1, hs'⟩ := Option.bind_eq_some_iff.mp hs'
  rw [List.foldlM_cons] at hs'
  obtain ⟨s2, h2, hs'⟩ := Option.bind_eq_some_iff.mp hs'
  rw [List.foldlM_cons] at hs'
  obtain ⟨s3, h3, hs'⟩ := Option.bind_eq_some_iff.mp hs'
  cases hs'
  have hpend : (Clock.start : Clock ℕ).timers.pending = [] := by decide
  have hlater : (Clock.start : Clock ℕ).Later (.add 1 (some 7)) := by
    intro _ r hr
    rw [hpend] at hr
    exact absurd hr List.not_mem_nil
  have r1 : ((timerSystem ℕ).restrict Clock.Later).Reachable s1 := .step (.init rfl) ⟨hlater, h1⟩
  have l2 : s1.Later .tick := trivial
  have l3 : s2.Later .loop := trivial
  have r3 := (r1.step ⟨l2, h2⟩).step ⟨l3, h3⟩
  exact ⟨s, hs, (timers_fire_on_time ℕ).1 s r3⟩

/-- Two requests, the second due before the first, and two ticks. -/
def overtaken : List (TimerEvent ℕ) :=
  [.add 2 (some 0), .add 1 (some 1), .tick, .loop, .ret, .loop, .tick, .loop]

/-- The first of the two requests is not called in the second tick: `add_timer` put the other
    one before it and left its jiffies at 2. -/
theorem overtaken_timer_late : ¬ ∀ s, (timerSystem ℕ).Reachable s → s.OnTime := by
  intro h
  have hsome : (overtaken.foldlM Clock.step Clock.start).isSome := by decide
  obtain ⟨s, hs⟩ := Option.isSome_iff_exists.mp hsome
  have hval : (overtaken.foldlM Clock.step Clock.start).map
      (fun s => (s.called, s.made, s.jiffies, s.looping)) =
      some ([(⟨1, 1, 1, 0⟩, 1)], [⟨1, 1, 1, 0⟩, ⟨0, 0, 2, 0⟩], 2, false) := by decide
  rw [hs, Option.map_some, Option.some.injEq] at hval
  simp only [Prod.mk.injEq] at hval
  obtain ⟨hcalled, hmade, hj, hloop⟩ := hval
  have hon := (h s (reachable_run overtaken hs)).2.2 ⟨0, 0, 2, 0⟩
    (by rw [hmade]; simp) (by decide) (by rw [hj]; decide)
  obtain ⟨k, hk⟩ | ⟨hl, -⟩ := hon
  · rw [hcalled] at hk
    simp at hk
  · rw [hloop] at hl
    cases hl

end Linux011.Kernel

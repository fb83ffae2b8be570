/-
  fs/buffer.c: `buffer_wait`. The processes of the buffer cache, with the wait queue they sleep on when
  `getblk` finds no buffer, and with what is owed to it: a count has gone from 1 to 0, and
  `wake_up(&buffer_wait)` has not been called since.

  `brelse` pays at once. `breada` and `get_hash_table` count down without `wake_up`: while they never
  come from 1 to 0, nobody on the queue misses a buffer (`freed_buffer_wakes`).
-/
import Linux011.Fs.Identity
import Linux011.Kernel.SleepOn

namespace Linux011.Fs

open Linux011.Lib Linux011.Kernel

/-! ## The processes and the queue -/

/-- `freed p`: since `p` went to sleep on `buffer_wait`, a count has gone from 1 to 0. The code keeps
    neither this nor `owed`. -/
structure WaitSys (ι : Type) where
  sys : Sys ι
  wait : WaitQueue ι
  owed : Bool
  freed : ι → Bool

/-- The action takes a count from 1 to 0. -/
def Cache.frees (c : Cache) : Action → Bool
  | .dec i => (c.buf i).count = 1
  | _ => false

/-- The code of the top frame ends in `wake_up(&buffer_wait)`. -/
def wakes : List Frame → Bool
  | .brelse _ :: _ => true
  | _ => false

/-- The top frame has called `sleep_on(&buffer_wait)`. -/
def sleeps : List Frame → Bool
  | .getblkSleep _ _ :: _ => true
  | _ => false

variable {ι : Type} [DecidableEq ι]

/-- What the code of a process does to the queue, from these frames to those. -/
def WaitQueue.ran (idle : ι) (w : WaitQueue ι) (st st' : List Frame) : Option (WaitQueue ι) :=
  if wakes st then w.sleepOn idle .wake else if sleeps st' then w.sleepOn idle .sleep else some w

/-- The events of the processes and the driver. A process in `sleep_on(&buffer_wait)` goes on when
    `schedule` takes it again. -/
inductive WaitSys.Step (idle : ι) : WaitSys ι → Event ι → WaitSys ι → Prop
  | run {τ : WaitSys ι} {a : Act} {x : Action} {st : List Frame} {w : WaitQueue ι} :
      exec τ.sys.c (τ.sys.stack τ.sys.cur) a = some (x, st) → ¬ τ.wait.Pending τ.sys.cur →
      WaitQueue.ran idle τ.wait (τ.sys.stack τ.sys.cur) st = some w →
      Step idle τ (.run a)
        { sys := { τ.sys with c := τ.sys.c.act x, stack := Function.update τ.sys.stack τ.sys.cur st }
          wait := w
          owed := !wakes (τ.sys.stack τ.sys.cur) && (τ.owed || τ.sys.c.frees x)
          freed := fun p => if sleeps st = true ∧ p = τ.sys.cur then false else τ.freed p || τ.sys.c.frees x }
  | switch {τ : WaitSys ι} {p : ι} {f : Frame} {st : List Frame} {w : WaitQueue ι} :
      τ.sys.stack τ.sys.cur = f :: st → f.Sleeps τ.sys.c → (sleeps (f :: st) = true → τ.wait.Pending τ.sys.cur) →
      τ.wait.sleepOn idle (.switch p) = some w →
      Step idle τ (.switch p) { τ with sys := { τ.sys with cur := p }, wait := w }
  | sector {τ : WaitSys ι} {m : ℕ} {c' : Cache} :
      τ.sys.c.sector m = some c' → Step idle τ (.sector m) { τ with sys := { τ.sys with c := c' } }
  | endRequest {τ : WaitSys ι} {m : ℕ} {uptodate : Bool} {c' : Cache} :
      τ.sys.c.endRequest m uptodate = some c' →
      Step idle τ (.endRequest m uptodate) { τ with sys := { τ.sys with c := c' } }

/-- The processes `ι` after `buffer_init`, with nobody asleep. -/
def waitSystem (ι : Type) [DecidableEq ι] (idle : ι) (n : ℕ) : Lts (WaitSys ι) (Event ι) where
  init τ := (procSystem ι n).init τ.sys ∧ τ.wait.head = none ∧ (∀ p, τ.wait.frame p = none) ∧ τ.wait.current = τ.sys.cur ∧
    τ.owed = false
  step := WaitSys.Step idle

/-! ## Counting down -/

variable {c : Cache} {st st' : List Frame} {a : Act} {x : Action} {i : ℕ}

theorem frees_iff : c.frees x = true ↔ ∃ i, (c.buf i).count = 1 ∧ ((c.act x).buf i).count = 0 := by
  simp only [act_count]
  cases x with
  | dec i =>
    refine ⟨fun h => ⟨i, of_decide_eq_true h, ?_⟩, fun h => decide_eq_true ?_⟩
    · rw [show (c.buf i).count = 1 from of_decide_eq_true h]
      exact if_pos rfl
    · obtain ⟨j, h1, h0⟩ := h
      simp only [Action.newCount] at h0
      split_ifs at h0 with hij
      · exact hij ▸ h1
      · rw [h1] at h0
        cases h0
  | inc i =>
    refine ⟨fun h => absurd h Bool.false_ne_true, fun h => ?_⟩
    obtain ⟨j, h1, h0⟩ := h
    simp only [Action.newCount, h1] at h0
    split_ifs at h0
  | reassign i =>
    refine ⟨fun h => absurd h Bool.false_ne_true, fun h => ?_⟩
    obtain ⟨j, h1, h0⟩ := h
    simp only [Action.newCount, h1] at h0
    split_ifs at h0
  | _ =>
    refine ⟨fun h => absurd h Bool.false_ne_true, fun h => ?_⟩
    obtain ⟨j, h1, h0⟩ := h
    rw [show Action.newCount (c.buf j).count j _ = (c.buf j).count from rfl, h1] at h0
    cases h0

/-- The frames that count down: `brelse`, `breada` after a further block, and `get_hash_table` when the
    buffer has become another block's. -/
theorem exec_dec (h : exec c st a = some (.dec i, st')) : ∃ f st1, st = f :: st1 ∧
    ((∃ r, f = .brelse r) ∨ (∃ r tmp rest, f = .breadaDrop r tmp rest ∧ tmp.i = i) ∨
      ∃ r, f = .getHashWait r ∧ r.i = i ∧ ¬ ((c.buf i).dev = r.dev ∧ (c.buf i).blocknr = r.block)) := by
  rcases exec_cases h with ⟨held, st1, -, hw⟩ | ⟨f, st1, rfl, hg⟩ | ⟨dev, pos, buf, st1, -, hx, -⟩ |
    ⟨r, off, chunk, dev, pos, buf, st1, -, hx, -⟩
  · obtain h | ⟨i, d, f, h⟩ := workStep_action hw <;> cases h
  · refine ⟨f, st1, rfl, ?_⟩
    cases f with
    | brelse r => exact Or.inl ⟨r, rfl⟩
    | breadaDrop r tmp rest =>
      cases hg
      exact Or.inr (Or.inl ⟨r, tmp, rest, rfl, rfl⟩)
    | getHashWait r =>
      dsimp only [goStep] at hg
      split_ifs at hg with hl hr
      · cases hg
      · cases hg
        exact Or.inr (Or.inr ⟨r, rfl, rfl, hr⟩)
    | ret v =>
      cases st1 with
      | nil => cases hg
      | cons f st => obtain h | ⟨i, h⟩ := deliver_action hg <;> cases h
    | getHash | request =>
      dsimp only [goStep] at hg
      split at hg
      · cases hg
      · first | cases hg | (split_ifs at hg; cases hg)
    | breadaNext r rest => cases rest <;> cases hg
    | fileCopy r off chunk => cases chunk <;> cases hg
    | work | getblk | bread | breada | breadaGot | fileCreate | fileRead | getblkSleep => cases hg
    | llRw | lockBuffer | getblkWait =>
      dsimp only [goStep, llRwStep, lockStep, getblkStep] at hg
      split_ifs at hg <;> cases hg
    | _ =>
      dsimp only [goStep] at hg
      split_ifs at hg <;> cases hg
  · cases hx
  · cases hx

/-- In the steps of `breada` and `get_hash_table` that count down, the count is not 1. -/
def WaitSys.Covered (τ : WaitSys ι) : Event ι → Prop
  | .run _ => match (τ.sys.stack τ.sys.cur).head? with
    | some (.breadaDrop _ tmp _) => (τ.sys.c.buf tmp.i).count ≠ 1
    | some (.getHashWait r) =>
      ¬ ((τ.sys.c.buf r.i).dev = r.dev ∧ (τ.sys.c.buf r.i).blocknr = r.block) → (τ.sys.c.buf r.i).count ≠ 1
    | _ => True
  | _ => True

omit [DecidableEq ι] in
/-- Then only `brelse` takes a count from 1 to 0. -/
theorem WaitSys.Covered.frees {τ : WaitSys ι} (h : τ.Covered (.run a))
    (hx : exec τ.sys.c (τ.sys.stack τ.sys.cur) a = some (x, st)) (hf : τ.sys.c.frees x = true) :
    wakes (τ.sys.stack τ.sys.cur) = true := by
  cases x with
  | dec i =>
    have hone : (τ.sys.c.buf i).count = 1 := of_decide_eq_true hf
    obtain ⟨f, st1, hst, ⟨r, rfl⟩ | ⟨r, tmp, rest, rfl, rfl⟩ | ⟨r, rfl, rfl, hr⟩⟩ := exec_dec hx
    · rw [hst]
      rfl
    · unfold Covered at h
      simp only [hst, List.head?_cons] at h
      exact absurd hone h
    · unfold Covered at h
      simp only [hst, List.head?_cons] at h
      exact absurd hone (h hr)
  | _ => cases hf

/-! ## Runs -/

variable {idle : ι} {τ τ' : WaitSys ι} {e : Event ι}

/-- Whoever is on the queue and has missed a buffer is behind a process that is being woken. -/
structure WaitSys.Good (idle : ι) (τ : WaitSys ι) : Prop where
  sleepers : τ.wait.Sleepers idle
  current : τ.wait.current = τ.sys.cur
  owed : τ.owed = false
  freed : ∀ p, τ.wait.Pending p → τ.freed p = true → ∃ t n, τ.wait.Freed t n p

theorem sleepOn_current {w w' : WaitQueue ι} {e : WaitEvent ι} (h : w.sleepOn idle e = some w') (he : ∀ t, e ≠ .switch t) :
    w'.current = w.current := by
  obtain ⟨-, -, -, rfl⟩ | ⟨t, rfl, -⟩ | ⟨t, tmp, rfl, -⟩ | ⟨-, rfl⟩ | ⟨t, st, -, -, rfl⟩ := WaitQueue.sleepOn_cases h
  · rfl
  · exact absurd rfl (he t)
  · exact absurd rfl (he t)
  · unfold WaitQueue.wakeUp
    cases w.head <;> rfl
  · rfl

/-- Another process is taken, or one that has been woken goes on. -/
theorem WaitSys.Good.switched {w : WaitQueue ι} {p : ι} (h : τ.Good idle) (hw : τ.wait.sleepOn idle (.switch p) = some w) :
    WaitSys.Good idle { τ with sys := { τ.sys with cur := p }, wait := w } := by
  have hcur : w.current = p := by
    obtain ⟨he, -⟩ | ⟨t, he, -, rfl⟩ | ⟨t, tmp, he, -, -, rfl⟩ | ⟨he, -⟩ | ⟨t, st, he, -⟩ := WaitQueue.sleepOn_cases hw
    · cases he
    · cases he
      rfl
    · cases he
      unfold WaitQueue.leave
      cases tmp <;> rfl
    · cases he
    · cases he
  refine ⟨h.sleepers.step hw, hcur, h.owed, fun q hq hf => ?_⟩
  have hpend : τ.wait.Pending q ∧ (q = p → ¬ τ.wait.Pending p) := by
    obtain ⟨he, -⟩ | ⟨t, he, ht, rfl⟩ | ⟨t, tmp, he, -, ht, rfl⟩ | ⟨he, -⟩ | ⟨t, st, he, -⟩ := WaitQueue.sleepOn_cases hw
    · cases he
    · cases he
      exact ⟨hq, fun _ => ht⟩
    · cases he
      obtain ⟨o, ho⟩ := Option.ne_none_iff_exists'.mp hq
      obtain ⟨hqp, ho⟩ := WaitQueue.leave_pending ho
      exact ⟨by rw [WaitQueue.Pending, ho]; exact Option.some_ne_none _, fun he => absurd he hqp⟩
    · cases he
    · cases he
  obtain ⟨t, n, hfreed⟩ := h.freed q hpend.1 hf
  by_cases htp : t = p
  · subst htp
    cases n with
    | zero =>
      obtain rfl : q = t := hfreed.chain
      exact absurd hpend.1 (hpend.2 rfl)
    | succ n =>
      obtain ⟨y, hy⟩ := h.sleepers.freed_leave hw hfreed
      exact ⟨y, n, hy⟩
  · exact ⟨t, n, h.sleepers.freed_keep hw hfreed fun he => htp (WaitEvent.switch.inj he).symm⟩

theorem WaitSys.Good.step (h : τ.Good idle) (hc : τ.Covered e) (hs : WaitSys.Step idle τ e τ') : τ'.Good idle := by
  cases hs with
  | @run a x st w hx hp hw =>
    have hfree : ∀ b, wakes (τ.sys.stack τ.sys.cur) = b → b = false → τ.sys.c.frees x = false := fun b hb h0 =>
      Bool.eq_false_iff.mpr fun hf => by
        rw [hc.frees hx hf, h0] at hb
        cases hb
    unfold WaitQueue.ran at hw
    split_ifs at hw with hwake hsleep
    · -- `brelse`: with `*p` null everybody on the queue is being woken
      have hs := h.sleepers.step hw
      have hhead : w.head = none := by
        cases hw
        rfl
      refine ⟨hs, (sleepOn_current hw nofun).trans h.current, ?_, fun p hp _ => (hs.linked.up p hp).freed hhead hp⟩
      dsimp only
      rw [hwake]
      rfl
    · have hf := hfree _ rfl (Bool.eq_false_iff.mpr hwake)
      obtain ⟨-, -, hcur, rfl⟩ | ⟨t, he, -⟩ | ⟨t, tmp, he, -⟩ | ⟨he, -⟩ | ⟨t, st, he, -⟩ := WaitQueue.sleepOn_cases hw
      · refine ⟨h.sleepers.step hw, h.current, ?_, fun p hp hfreed => ?_⟩
        · dsimp only
          rw [h.owed, hf, Bool.or_self, Bool.and_false]
        · -- who goes to sleep has missed nothing yet
          dsimp only at hp hfreed
          split_ifs at hfreed with hself
          rw [hf, Bool.or_false] at hfreed
          have hpc : p ≠ τ.wait.current := fun he => hself ⟨hsleep, he.trans h.current⟩
          rw [WaitQueue.Pending, WaitQueue.enter_frame_of_ne _ _ hpc] at hp
          obtain ⟨t, n, ht⟩ := h.freed p hp hfreed
          exact ⟨t, n, ht.enter hcur _⟩
      all_goals cases he
    · have hf := hfree _ rfl (Bool.eq_false_iff.mpr hwake)
      cases hw
      refine ⟨h.sleepers, h.current, ?_, fun p hp hfreed => h.freed p hp ?_⟩
      · dsimp only
        rw [h.owed, hf, Bool.or_self, Bool.and_false]
      · dsimp only at hfreed
        rwa [if_neg fun hs => hsleep hs.1, hf, Bool.or_false] at hfreed
  | switch hf hsl hasleep hw => exact h.switched hw
  | sector => exact ⟨h.sleepers, h.current, h.owed, h.freed⟩
  | endRequest => exact ⟨h.sleepers, h.current, h.owed, h.freed⟩

/-- A step that takes a count from 1 to 0 ends in `wake_up(&buffer_wait)`. -/
theorem WaitSys.Covered.woken (hc : τ.Covered e) (hs : WaitSys.Step idle τ e τ') (h1 : (τ.sys.c.buf i).count = 1)
    (h0 : (τ'.sys.c.buf i).count = 0) : wakes (τ.sys.stack τ.sys.cur) = true := by
  cases hs with
  | run hx => exact hc.frees hx (frees_iff.mpr ⟨i, h1, h0⟩)
  | switch => exact absurd (h1.symm.trans h0) Nat.one_ne_zero
  | sector hm => exact absurd (h1.symm.trans (((sector_keeps hm).2 i).symm.trans h0)) Nat.one_ne_zero
  | endRequest hm => exact absurd (h1.symm.trans (((endRequest_keeps hm).2 i).symm.trans h0)) Nat.one_ne_zero

/-- The frames in which a process of the run below gives up the CPU. -/
def Frame.gives (c : Cache) : Frame → Bool
  | .work _ | .getblkSleep _ _ => true
  | .getHashWait r | .breadWait r => (c.buf r.i).lock
  | _ => false

theorem Frame.gives_sleeps {f : Frame} (h : f.gives c = true) : f.Sleeps c := by
  cases f with
  | work | getblkSleep => trivial
  | getHashWait r | breadWait r => exact h
  | _ => cases h

/-- The next state of such a run. -/
def WaitSys.next (idle : ι) (τ : WaitSys ι) : Event ι → Option (WaitSys ι)
  | .run a => (exec τ.sys.c (τ.sys.stack τ.sys.cur) a).bind fun (x, st) =>
    if τ.wait.frame τ.sys.cur = none then
      (WaitQueue.ran idle τ.wait (τ.sys.stack τ.sys.cur) st).map fun w =>
        { sys := { τ.sys with c := τ.sys.c.act x, stack := Function.update τ.sys.stack τ.sys.cur st }
          wait := w
          owed := !wakes (τ.sys.stack τ.sys.cur) && (τ.owed || τ.sys.c.frees x)
          freed := fun p => if sleeps st = true ∧ p = τ.sys.cur then false else τ.freed p || τ.sys.c.frees x }
    else none
  | .switch p => match τ.sys.stack τ.sys.cur with
    | [] => none
    | f :: st =>
      if f.gives τ.sys.c = true ∧ (sleeps (f :: st) = true → τ.wait.frame τ.sys.cur ≠ none) then
        (τ.wait.sleepOn idle (.switch p)).map fun w => { τ with sys := { τ.sys with cur := p }, wait := w }
      else none
  | .sector m => (τ.sys.c.sector m).map fun c => { τ with sys := { τ.sys with c := c } }
  | .endRequest m uptodate => (τ.sys.c.endRequest m uptodate).map fun c => { τ with sys := { τ.sys with c := c } }

theorem WaitSys.next_step (h : τ.next idle e = some τ') : WaitSys.Step idle τ e τ' := by
  cases e with
  | run a =>
    obtain ⟨⟨x, st⟩, hx, h⟩ := Option.bind_eq_some_iff.mp h
    dsimp only at h
    split_ifs at h with hp
    obtain ⟨w, hw, rfl⟩ := Option.map_eq_some_iff.mp h
    exact .run hx (not_not.mpr hp) hw
  | switch p =>
    dsimp only [next] at h
    split at h
    · cases h
    · rename_i f st hst
      split_ifs at h with hs
      obtain ⟨w, hw, rfl⟩ := Option.map_eq_some_iff.mp h
      exact .switch hst (Frame.gives_sleeps hs.1) hs.2 hw
  | sector m =>
    obtain ⟨c, hc, rfl⟩ := Option.map_eq_some_iff.mp h
    exact .sector hc
  | endRequest m uptodate =>
    obtain ⟨c, hc, rfl⟩ := Option.map_eq_some_iff.mp h
    exact .endRequest hc

/-- Neither `breada` nor `get_hash_table` is about to count down. -/
def plain : List Frame → Bool
  | .breadaDrop _ _ _ :: _ | .getHashWait _ :: _ => false
  | _ => true

end Linux011.Fs

/-
  kernel/exit.c: `send_sig` and `sys_kill`. The branch for pid 0 compares the groups with the pid of
  the caller, and the branch for pid -1 sends to empty slots too, which is an error.
-/
import Linux011.Lib.Sizes
import Mathlib.Data.List.FinRange
import Mathlib.Data.Fintype.Basic
import Mathlib.Tactic.Common

namespace Linux011.Kernel.Kill

/-- What `sys_kill` uses of a task. -/
structure Proc where
  pid : BitVec 32
  pgrp : BitVec 32
  euid : BitVec 16
  signal : BitVec 32
  deriving DecidableEq

/-- `task[NR_TASKS]`, and the slot of `current`. -/
structure Procs where
  task : Fin 64 → Option Proc
  current : Fin 64
  running : (task current).isSome

namespace Procs

def cur (σ : Procs) : Proc := (σ.task σ.current).get σ.running

def suser (σ : Procs) : Bool := σ.cur.euid = 0

end Procs

def eperm : ℤ := 1
def einval : ℤ := 22

/-- `p->signal |= (1<<(sig-1))` -/
def Proc.raise (p : Proc) (sig : ℕ) : Proc := { p with signal := p.signal ||| (1 : BitVec 32) <<< (sig - 1) }

/-- The task in slot `i` gets the signal. -/
def Procs.raise (σ : Procs) (i : Fin 64) (sig : ℕ) : Procs where
  task j := if j = i then (σ.task j).map (Proc.raise · sig) else σ.task j
  current := σ.current
  running := by
    split_ifs
    · rw [Option.isSome_map]
      exact σ.running
    · exact σ.running

/-- `send_sig` to the task in slot `i` -/
def sendSig (sig : ℤ) (i : Fin 64) (priv : Bool) (σ : Procs) : Procs × ℤ :=
  match σ.task i with
  | none => (σ, -einval)
  | some p =>
    if sig < 1 ∨ 32 < sig then (σ, -einval)
    else if priv ∨ σ.cur.euid = p.euid ∨ σ.suser then (σ.raise i sig.toNat, 0)
    else (σ, -eperm)

/-- A loop of `sys_kill` over the slots `l`, with `retval` so far. -/
def killLoop (sel : Option Proc → Bool) (sig : ℤ) (priv : Bool) : List (Fin 64) → Procs × ℤ → Procs × ℤ
  | [], r => r
  | i :: l, (σ, retval) =>
    if sel (σ.task i) then
      let r := sendSig sig i priv σ
      killLoop sel sig priv l (r.1, if r.2 ≠ 0 then r.2 else retval)
    else killLoop sel sig priv l (σ, retval)

/-- The slots from the last one down to the one above `FIRST_TASK`. -/
def slots : List (Fin 64) := (List.finRange 64).tail.reverse

def sysKill (σ : Procs) (pid : BitVec 32) (sig : ℤ) : Procs × ℤ :=
  if pid = 0 then killLoop (fun p => p.any fun p => p.pgrp = σ.cur.pid) sig true slots (σ, 0)
  else if (0 : BitVec 32).slt pid then killLoop (fun p => p.any fun p => p.pid = pid) sig false slots (σ, 0)
  else if pid = -1 then killLoop (fun _ => true) sig false slots (σ, 0)
  else killLoop (fun p => p.any fun p => p.pgrp = -pid) sig false slots (σ, 0)

/-! ## Loops -/

variable {σ : Procs} {sig : ℤ} {i j : Fin 64} {priv : Bool} {pid : BitVec 32} {sel : Option Proc → Bool}

@[simp] theorem raise_euid (p : Proc) (n : ℕ) : (p.raise n).euid = p.euid := rfl

@[simp] theorem raise_pid (p : Proc) (n : ℕ) : (p.raise n).pid = p.pid := rfl

@[simp] theorem raise_pgrp (p : Proc) (n : ℕ) : (p.raise n).pgrp = p.pgrp := rfl

theorem mem_slots : i ∈ slots ↔ i ≠ 0 := by
  rw [slots, List.mem_reverse, List.finRange_succ, List.tail_cons, List.mem_map]
  simp only [List.mem_finRange, true_and, Fin.exists_succ_eq]

theorem slots_nodup : slots.Nodup :=
  List.nodup_reverse.mpr ((List.nodup_finRange 64).sublist (List.tail_sublist _))

/-- The caller is allowed to signal this task. -/
def Procs.May (σ : Procs) (priv : Bool) (p : Proc) : Prop := priv = true ∨ σ.cur.euid = p.euid ∨ σ.cur.euid = 0

instance (σ : Procs) (priv : Bool) (p : Proc) : Decidable (σ.May priv p) := inferInstanceAs (Decidable (_ ∨ _ ∨ _))

theorem raise_cur (σ : Procs) (i : Fin 64) (n : ℕ) :
    (σ.raise i n).cur = if σ.current = i then σ.cur.raise n else σ.cur := by
  have h : σ.task σ.current = some σ.cur := (Option.some_get σ.running).symm
  have h' : (σ.raise i n).task σ.current = some (σ.raise i n).cur := (Option.some_get (σ.raise i n).running).symm
  simp only [Procs.raise] at h'
  split_ifs at h' with hi
  · rw [h, Option.map_some] at h'
    rw [if_pos hi]
    exact (Option.some.inj h').symm
  · rw [h] at h'
    rw [if_neg hi]
    exact (Option.some.inj h').symm

/-- The caller may do the same whoever has got the signal. -/
theorem raise_may (p : Proc) (n : ℕ) : (σ.raise i n).May priv p ↔ σ.May priv p := by
  unfold Procs.May
  rw [raise_cur]
  split_ifs <;> rfl

/-- What one loop does, and what it returns. -/
structure Looped (sel : Option Proc → Bool) (sig : ℤ) (priv : Bool) (l : List (Fin 64)) (σ : Procs) (retval : ℤ)
    (r : Procs × ℤ) : Prop where
  task : ∀ j, r.1.task j = (σ.task j).map fun p =>
    if j ∈ l ∧ sel (σ.task j) = true ∧ σ.May priv p then p.raise sig.toNat else p
  current : r.1.current = σ.current
  retval : r.2 = 0 ↔ retval = 0 ∧ ∀ i ∈ l, sel (σ.task i) = true → ∃ p, σ.task i = some p ∧ σ.May priv p

theorem sendSig_none (h : σ.task i = none) : sendSig sig i priv σ = (σ, -einval) := by
  unfold sendSig
  rw [h]

theorem sendSig_some {p : Proc} (h : σ.task i = some p) (hs : 1 ≤ sig ∧ sig ≤ 32) :
    sendSig sig i priv σ = if σ.May priv p then (σ.raise i sig.toNat, 0) else (σ, -eperm) := by
  unfold sendSig
  rw [h]
  dsimp only
  rw [if_neg (by omega)]
  have hmay : (priv = true ∨ σ.cur.euid = p.euid ∨ σ.suser = true) ↔ σ.May priv p := by
    simp [Procs.May, Procs.suser]
  simp only [hmay]

/-- A slot that the loop passes over. -/
theorem Looped.skip {l : List (Fin 64)} {retval : ℤ} {r : Procs × ℤ} (h : Looped sel sig priv l σ retval r)
    (hsel : sel (σ.task i) = false) : Looped sel sig priv (i :: l) σ retval r where
  task j := by
    rw [h.task]
    by_cases hj : j = i
    · subst hj
      simp [hsel]
    · simp [hj]
  current := h.current
  retval := by
    rw [h.retval]
    simp [hsel]

/-- A slot from which the loop gets an error. -/
theorem Looped.refused {l : List (Fin 64)} {retval err : ℤ} {r : Procs × ℤ} (h : Looped sel sig priv l σ err r)
    (herr : err ≠ 0) (hsel : sel (σ.task i) = true) (hno : ∀ p, σ.task i = some p → ¬ σ.May priv p) :
    Looped sel sig priv (i :: l) σ retval r where
  task j := by
    rw [h.task]
    by_cases hj : j = i
    · subst hj
      cases hp : σ.task j with
      | none => rfl
      | some p => simp [hno p hp]
    · simp [hj]
  current := h.current
  retval := by
    rw [h.retval]
    refine ⟨fun hr => absurd hr.1 herr, fun hr => ?_⟩
    obtain ⟨p, hp, hmay⟩ := hr.2 i List.mem_cons_self hsel
    exact absurd hmay (hno p hp)

/-- A slot whose task gets the signal. -/
theorem Looped.sent {l : List (Fin 64)} {retval : ℤ} {r : Procs × ℤ} {p : Proc} (hp : σ.task i = some p)
    (h : Looped sel sig priv l (σ.raise i sig.toNat) retval r) (hi : i ∉ l) (hsel : sel (σ.task i) = true)
    (hmay : σ.May priv p) : Looped sel sig priv (i :: l) σ retval r := by
  have hrest : ∀ j, j ≠ i → (σ.raise i sig.toNat).task j = σ.task j := fun j hj => if_neg hj
  refine ⟨fun j => ?_, h.current, ?_⟩
  · rw [h.task]
    by_cases hj : j = i
    · subst hj
      rw [show (σ.raise j sig.toNat).task j = some (p.raise sig.toNat) from (if_pos rfl).trans (by rw [hp]; rfl), hp]
      rw [hp] at hsel
      simp [hi, hsel, hmay]
    · rw [hrest j hj]
      simp [hj, raise_may]
  · rw [h.retval]
    refine and_congr_right fun _ => ⟨fun hl j hj hs => ?_, fun hl j hj hs => ?_⟩
    · rcases List.mem_cons.mp hj with rfl | hj
      · exact ⟨p, hp, hmay⟩
      · have hne : j ≠ i := fun he => hi (he ▸ hj)
        obtain ⟨p', hp', hmay'⟩ := hl j hj (by rwa [hrest j hne])
        rw [hrest j hne] at hp'
        exact ⟨p', hp', (raise_may p' _).mp hmay'⟩
    · have hne : j ≠ i := fun he => hi (he ▸ hj)
      rw [hrest j hne] at hs
      obtain ⟨p', hp', hmay'⟩ := hl j (List.mem_cons_of_mem i hj) hs
      exact ⟨p', by rwa [hrest j hne], (raise_may p' _).mpr hmay'⟩

theorem killLoop_spec (hs : 1 ≤ sig ∧ sig ≤ 32) (l : List (Fin 64)) (hl : l.Nodup) (σ : Procs) (retval : ℤ) :
    Looped sel sig priv l σ retval (killLoop sel sig priv l (σ, retval)) := by
  induction l generalizing σ retval with
  | nil => exact ⟨fun j => by simp [killLoop], rfl, by simp [killLoop]⟩
  | cons i l ih =>
    obtain ⟨hi, hl⟩ := List.nodup_cons.mp hl
    rw [killLoop]
    cases hsel : sel (σ.task i) with
    | false => exact (ih hl σ retval).skip hsel
    | true =>
      rw [if_pos rfl]
      cases hp : σ.task i with
      | none =>
        rw [sendSig_none hp]
        exact (ih hl σ _).refused (by simp [einval]) hsel fun p h => by rw [hp] at h; cases h
      | some p =>
        rw [sendSig_some hp hs]
        by_cases hmay : σ.May priv p
        · rw [if_pos hmay]
          exact Looped.sent hp (ih hl _ retval) hi hsel hmay
        · rw [if_neg hmay]
          refine (ih hl σ _).refused (by simp [eperm]) hsel fun p' h => ?_
          rw [hp] at h
          cases h
          exact hmay

/-! ## kill -/

/-- The pid argument names this task. -/
def Procs.Names (σ : Procs) (pid : BitVec 32) (p : Proc) : Prop :=
  if pid = 0 then p.pgrp = σ.cur.pgrp
  else if (0 : BitVec 32).slt pid then p.pid = pid
  else if pid = -1 then True
  else p.pgrp = -pid

instance (σ : Procs) (pid : BitVec 32) (p : Proc) : Decidable (σ.Names pid p) := by
  unfold Procs.Names
  infer_instance

theorem names_own_group (p : Proc) : σ.Names 0 p ↔ p.pgrp = σ.cur.pgrp := Iff.rfl

theorem names_pid (h0 : pid ≠ 0) (hpos : (0 : BitVec 32).slt pid = true) (p : Proc) : σ.Names pid p ↔ p.pid = pid := by
  unfold Procs.Names
  rw [if_neg h0, if_pos hpos]

theorem names_all (p : Proc) : σ.Names (-1) p := by
  unfold Procs.Names
  rw [if_neg (by decide), if_neg (by decide), if_pos rfl]
  trivial

theorem names_group (h0 : pid ≠ 0) (hpos : ¬ (0 : BitVec 32).slt pid = true) (h1 : pid ≠ -1) (p : Proc) :
    σ.Names pid p ↔ p.pgrp = -pid := by
  unfold Procs.Names
  rw [if_neg h0, if_neg hpos, if_neg h1]

/-- The signal is set in the tasks of slots 1 to 63 that are named and may be signalled, nothing else
    is changed, and the result is 0 if no task that is named was refused. -/
structure Reaches (σ : Procs) (pid : BitVec 32) (sig : ℤ) (r : Procs × ℤ) : Prop where
  task : ∀ i, r.1.task i = (σ.task i).map fun p =>
    if i ≠ 0 ∧ σ.Names pid p ∧ σ.May (pid = 0) p then p.raise sig.toNat else p
  current : r.1.current = σ.current
  retval : r.2 = 0 ↔ ∀ i p, i ≠ 0 → σ.task i = some p → σ.Names pid p → σ.May (pid = 0) p

def Proc.Pending (p : Proc) (sig : ℤ) : Prop := p.signal.getLsbD (sig.toNat - 1) = true

/-- With pid 0 the caller is in the group of its own pid, as far as it matters; with pid -1 there
    is no empty slot, or a task that refuses anyhow. -/
structure Regular (σ : Procs) (pid : BitVec 32) (sig : ℤ) : Prop where
  group : pid = 0 → ∀ i p, i ≠ 0 → σ.task i = some p → ¬ p.Pending sig → (p.pgrp = σ.cur.pid ↔ p.pgrp = σ.cur.pgrp)
  all : pid = -1 → (∀ i, i ≠ 0 → σ.task i ≠ none) ∨ ∃ i p, i ≠ 0 ∧ σ.task i = some p ∧ ¬ σ.May false p

theorem pending_iff (p : Proc) (hs : 1 ≤ sig ∧ sig ≤ 32) : p.Pending sig ↔ p.raise sig.toNat = p := by
  have hk : sig.toNat - 1 < 32 := by omega
  unfold Proc.Pending
  generalize sig.toNat = n at *
  have hraise : p.raise n = p ↔ p.signal ||| (1 : BitVec 32) <<< (n - 1) = p.signal := by
    cases p
    simp [Proc.raise]
  rw [hraise]
  constructor
  · intro hp
    refine BitVec.eq_of_getLsbD_eq fun i hi => ?_
    by_cases hin : i = n - 1
    · subst hin
      rw [BitVec.getLsbD_or, hp, Bool.true_or]
    · have hbit : ((1 : BitVec 32) <<< (n - 1)).getLsbD i = false := by
        simp only [BitVec.getLsbD_shiftLeft]
        simp
        omega
      rw [BitVec.getLsbD_or, hbit, Bool.or_false]
  · intro h
    rw [← h, BitVec.getLsbD_or]
    simp [hk]

/-- Which of the named tasks a loop misses or adds can be seen where the signal was not pending. -/
theorem Looped.reaches_iff {r : Procs × ℤ} (hs : 1 ≤ sig ∧ sig ≤ 32) (h : Looped sel sig (pid = 0) slots σ 0 r) :
    Reaches σ pid sig r ↔
      (∀ i p, i ≠ 0 → σ.task i = some p → σ.May (pid = 0) p → ¬ p.Pending sig → (sel (some p) = true ↔ σ.Names pid p)) ∧
      ((∀ i, i ≠ 0 → sel (σ.task i) = true → ∃ p, σ.task i = some p ∧ σ.May (pid = 0) p) ↔
        ∀ i p, i ≠ 0 → σ.task i = some p → σ.Names pid p → σ.May (pid = 0) p) := by
  have hret : r.2 = 0 ↔ ∀ i, i ≠ 0 → sel (σ.task i) = true → ∃ p, σ.task i = some p ∧ σ.May (pid = 0) p := by
    rw [h.retval]
    simp only [mem_slots, true_and]
  constructor
  · intro hr
    refine ⟨fun i p hi hp hmay hnew => ?_, hret.symm.trans hr.retval⟩
    have h1 := (h.task i).symm.trans (hr.task i)
    rw [hp, Option.map_some, Option.map_some] at h1
    have h2 := Option.some.inj h1
    have hne : ¬ p.raise sig.toNat = p := fun he => hnew ((pending_iff p hs).mpr he)
    simp only [mem_slots, hi, hmay, ne_eq, not_false_eq_true, true_and, and_true] at h2
    by_cases hsel : sel (some p) = true
    · by_cases hn : σ.Names pid p
      · exact ⟨fun _ => hn, fun _ => hsel⟩
      · rw [if_pos hsel, if_neg hn] at h2
        exact absurd h2 hne
    · by_cases hn : σ.Names pid p
      · rw [if_neg hsel, if_pos hn] at h2
        exact absurd h2.symm hne
      · exact ⟨fun hc => absurd hc hsel, fun hc => absurd hc hn⟩
  · rintro ⟨htask, hall⟩
    refine ⟨fun i => ?_, h.current, hret.trans hall⟩
    rw [h.task]
    cases hp : σ.task i with
    | none => rfl
    | some p =>
      rw [Option.map_some, Option.map_some]
      congr 1
      by_cases hpend : p.Pending sig
      · rw [(pending_iff p hs).mp hpend, ite_self, ite_self]
      · refine if_congr ?_ rfl rfl
        rw [mem_slots]
        refine and_congr_right fun hi => ?_
        constructor
        · exact fun hc => ⟨(htask i p hi hp hc.2 hpend).mp hc.1, hc.2⟩
        · exact fun hc => ⟨(htask i p hi hp hc.2 hpend).mpr hc.1, hc.2⟩

/-- kill reaches the right tasks and reports the refusals exactly if the call is regular. -/
theorem sys_kill_reaches (σ : Procs) (pid : BitVec 32) (hs : 1 ≤ sig ∧ sig ≤ 32) :
    Reaches σ pid sig (sysKill σ pid sig) ↔ Regular σ pid sig := by
  have hloop : ∀ sel, Looped sel sig (pid = 0) slots σ 0 (killLoop sel sig (pid = 0) slots (σ, 0)) := fun sel =>
    killLoop_spec hs slots slots_nodup σ 0
  -- a loop that skips the empty slots and picks the tasks that are named
  have hright : ∀ sel : Option Proc → Bool, sel none = false → (∀ p, sel (some p) = true ↔ σ.Names pid p) →
      Reaches σ pid sig (killLoop sel sig (pid = 0) slots (σ, 0)) := fun sel hnone hsel => by
    refine ((hloop sel).reaches_iff hs).mpr ⟨fun _ p _ _ _ _ => hsel p, forall_congr' fun i => ?_⟩
    cases hp : σ.task i with
    | none => simp [hnone]
    | some p => simp [hsel]
  unfold sysKill
  split_ifs with h0 hpos hall
  · subst h0
    refine ((hloop _).reaches_iff hs).trans ⟨fun h => ⟨fun _ i p hi hp hnew => ?_, fun h => absurd h (by decide)⟩, fun h => ⟨?_, ?_⟩⟩
    · have h1 := h.1 i p hi hp (.inl rfl) hnew
      rw [names_own_group] at h1
      simpa using h1
    · intro i p hi hp _ hnew
      rw [names_own_group]
      simpa using h.group rfl i p hi hp hnew
    · refine ⟨fun _ i p hi hp _ => .inl rfl, fun _ i hi hsel => ?_⟩
      cases hp : σ.task i with
      | none => rw [hp] at hsel; cases hsel
      | some p => exact ⟨p, rfl, .inl rfl⟩
  · rw [decide_eq_false h0] at hright
    refine iff_of_true (hright _ rfl fun p => by simp [names_pid h0 hpos]) ⟨fun h => absurd h h0, fun h => ?_⟩
    rw [h] at hpos
    exact absurd hpos (by decide)
  · subst hall
    refine ((hloop _).reaches_iff hs).trans ⟨fun h => ⟨fun h => absurd h (by decide), fun _ => ?_⟩, fun h => ⟨?_, ?_⟩⟩
    · by_contra hc
      push Not at hc
      obtain ⟨⟨i, hi, hnone⟩, hmay⟩ := hc
      obtain ⟨p, hp, -⟩ := h.2.mpr (fun j p hj hp _ => hmay j p hj hp) i hi rfl
      rw [hnone] at hp
      cases hp
    · exact fun i p hi hp _ _ => ⟨fun _ => names_all p, fun _ => rfl⟩
    · constructor
      · intro hr i p hi hp _
        obtain ⟨p', hp', hmay⟩ := hr i hi rfl
        rw [hp] at hp'
        cases hp'
        exact hmay
      · intro hr i hi _
        obtain hfull | ⟨j, p, hj, hp, hno⟩ := h.all rfl
        · obtain ⟨p, hp⟩ := Option.ne_none_iff_exists'.mp (hfull i hi)
          exact ⟨p, hp, hr i p hi hp (names_all p)⟩
        · exact absurd (hr j p hj hp (names_all p)) hno
  · rw [decide_eq_false h0] at hright
    refine iff_of_true (hright _ rfl fun p => by simp [names_group h0 hpos hall]) ⟨fun h => absurd h h0, fun h => absurd h hall⟩

/-- Tasks 5 and 6 of user 1 in group 4, of which task 5 runs. -/
def family : Procs where
  task i := if i = 1 then some ⟨5, 4, 1, 0⟩ else if i = 2 then some ⟨6, 4, 1, 0⟩ else none
  current := 1
  running := rfl

theorem sys_kill_reaches_child : Reaches family 6 9 (sysKill family 6 9) :=
  (sys_kill_reaches family 6 (by decide)).mpr ⟨fun h => absurd h (by decide), fun h => absurd h (by decide)⟩

/-- With pid 0 nobody gets the signal, and with pid -1 the result is an error although nobody refuses. -/
theorem group_missed : ¬ Reaches family 0 9 (sysKill family 0 9) ∧ ¬ Reaches family (-1) 9 (sysKill family (-1) 9) := by
  refine ⟨fun h => ?_, fun h => ?_⟩
  · have h1 := h.task 1
    revert h1
    decide
  · have h0 : (sysKill family (-1) 9).2 ≠ 0 := by decide
    refine h0 (h.retval.mpr fun i p _ hp _ => ?_)
    have heuid : ∀ i p, family.task i = some p → p.euid = 1 := fun i p hp => by
      simp only [family] at hp
      split_ifs at hp
      · cases hp; rfl
      · cases hp; rfl
    exact .inr (.inl ((heuid i p hp).symm ▸ rfl))

end Linux011.Kernel.Kill

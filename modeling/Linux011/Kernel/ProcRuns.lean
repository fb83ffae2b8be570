/-
  The family of tasks over every run: pids are unique, every task but the first two has a living
  father, and `find_empty_process` ends.

  A status word agrees with sys/wait.h for every exit, and for the signals 1 and 2:
  `exit_status_round_trip`. `do_signal` exits with the bit of the signal, not with its number.
-/
import Linux011.Kernel.ProcTable
import Mathlib.Data.Fintype.Pigeonhole
import Mathlib.Data.Int.Cast.Basic

namespace Linux011.Kernel.ProcTable

open Linux011.Lib

variable {task task' : Table} {pid l : ℤ}

/-! ## find_empty_process -/

/-- Pids run from 1 to 2^31-1 and wrap around. -/
theorem nextPid_eq (h0 : 0 ≤ l) (h1 : l < 2147483648) : nextPid l = l % 2147483647 + 1 := by
  unfold nextPid
  by_cases hl : l = 2147483647
  · subst hl
    decide
  · have hlong : long (l + 1) = l + 1 := long_of_isLong ⟨by omega, by omega⟩
    rw [hlong, if_neg (by omega), Int.emod_eq_of_lt h0 (by omega)]

theorem pidUsed_iff : pidUsed task pid = true ↔ ∃ i p, task i = some p ∧ p.pid = pid := by
  unfold pidUsed
  rw [List.any_eq_true]
  constructor
  · rintro ⟨i, -, h⟩
    cases hp : task i with
    | none =>
      rw [hp] at h
      cases h
    | some p =>
      rw [hp] at h
      exact ⟨i, p, hp, of_decide_eq_true h⟩
  · rintro ⟨i, p, hp, he⟩
    refine ⟨i, List.mem_finRange i, ?_⟩
    rw [hp]
    exact decide_eq_true he

theorem searchPid_spec {n : ℕ} {r : ℤ} (h0 : 0 ≤ l) (h1 : l < 2147483648) (h : searchPid task n l = some r) :
    pidUsed task r = false ∧ 1 ≤ r ∧ r < 2147483648 := by
  induction n generalizing l with
  | zero => cases h
  | succ n ih =>
    have hn := nextPid_eq h0 h1
    unfold searchPid at h
    split_ifs at h with hu
    · exact ih (by omega) (by omega) h
    · cases h
      exact ⟨by simpa using hu, by omega, by omega⟩

/-- A search that has not ended has met used pids only. -/
theorem searchPid_none {n : ℕ} (h0 : 0 ≤ l) (h1 : l < 2147483648) (h : searchPid task n l = none) :
    ∀ k < n, pidUsed task ((l + k) % 2147483647 + 1) = true := by
  induction n generalizing l with
  | zero =>
    intro k hk
    omega
  | succ n ih =>
    have hn := nextPid_eq h0 h1
    unfold searchPid at h
    split_ifs at h with hu
    intro k hk
    cases k with
    | zero =>
      rw [show (l + ((0 : ℕ) : ℤ)) = l by omega, ← hn]
      exact hu
    | succ k =>
      have hk' := ih (l := nextPid l) (by omega) (by omega) h k (by omega)
      rw [show (l + ((k + 1 : ℕ) : ℤ)) % 2147483647 = (nextPid l + k) % 2147483647 by omega]
      exact hk'

/-- 64 entries cannot use 65 pids. -/
theorem searchPid_isSome (task : Table) (h0 : 0 ≤ l) (h1 : l < 2147483648) : (searchPid task 65 l).isSome := by
  by_contra hno
  have hnone : searchPid task 65 l = none := by simpa using hno
  have hused := searchPid_none h0 h1 hnone
  have hslot : ∀ k : Fin 65, ∃ i, ∃ p, task i = some p ∧ p.pid = (l + (k : ℕ)) % 2147483647 + 1 := fun k =>
    pidUsed_iff.mp (hused k k.isLt)
  choose slot hslot using hslot
  obtain ⟨j, k, hne, he⟩ := Fintype.exists_ne_map_eq_of_card_lt slot (by simp)
  obtain ⟨p, hp, hpid⟩ := hslot j
  obtain ⟨q, hq, hqid⟩ := hslot k
  rw [he] at hp
  cases hp.symm.trans hq
  have hj := j.isLt
  have hk := k.isLt
  have hval : (j : ℕ) ≠ k := fun h => hne (Fin.ext h)
  omega

theorem emptySlot_spec {nr : Fin 64} (h : emptySlot task = some nr) : nr ≠ 0 ∧ task nr = none := by
  have hp := List.find?_some h
  simpa using hp

/-! ## The family -/

variable {σ σ' : Sys} {i j me nr : Fin 64} {p q : Proc}

/-- The task in entry `i` has this pid, is no zombie and is not in `do_exit`. -/
def Alive (σ : Sys) (i : Fin 64) (pid : ℤ) : Prop :=
  ∃ q, σ.task i = some q ∧ q.pid = pid ∧ q.state ≠ .zombie ∧ ∀ code c, σ.place i ≠ .exiting code c

structure Inv (σ : Sys) : Prop where
  last : 0 ≤ σ.lastPid ∧ σ.lastPid < 2147483648
  zero : Alive σ 0 0
  pos : ∀ i p, σ.task i = some p → i ≠ 0 → 1 ≤ p.pid
  inj : ∀ i j p q, σ.task i = some p → σ.task j = some q → p.pid = q.pid → i = j
  before : σ.forked = false → σ.lastPid = 0 ∧ ∀ i, i ≠ 0 → σ.task i = none
  init : σ.forked = true → Alive σ 1 1 ∨ ∀ i, i ≠ 0 → σ.task i = none
  father : ∀ i p, σ.task i = some p → i ≠ 0 → i ≠ 1 → ∃ j, j ≠ 0 ∧ Alive σ j p.father
  first : ∀ i p, σ.task i = some p → i = 0 ∨ i = 1 → p.father ≤ 0

/-- A step after which the tasks are among those before it. -/
theorem Inv.of_subset (hi : Inv σ) (hlast : σ'.lastPid = σ.lastPid) (hforked : σ'.forked = σ.forked)
    (htask : ∀ i p', σ'.task i = some p' → ∃ p, σ.task i = some p ∧ p'.pid = p.pid ∧ (p.father ≤ 0 → p'.father ≤ 0))
    (h0 : Alive σ' 0 0)
    (h1 : Alive σ 1 1 → Alive σ' 1 1)
    (hfather : ∀ i p', σ'.task i = some p' → i ≠ 0 → i ≠ 1 → ∃ j, j ≠ 0 ∧ Alive σ' j p'.father) : Inv σ' where
  last := by rw [hlast]; exact hi.last
  zero := h0
  pos i p' hp' hne := by
    obtain ⟨p, hp, he, -⟩ := htask i p' hp'
    rw [he]
    exact hi.pos i p hp hne
  inj i j p' q' hp' hq' he := by
    obtain ⟨p, hp, hpe, -⟩ := htask i p' hp'
    obtain ⟨q, hq, hqe, -⟩ := htask j q' hq'
    exact hi.inj i j p q hp hq (by rw [← hpe, ← hqe, he])
  before hf := by
    rw [hforked] at hf
    refine ⟨by rw [hlast]; exact (hi.before hf).1, fun i hne => ?_⟩
    cases hp' : σ'.task i with
    | none => rfl
    | some p' =>
      obtain ⟨p, hp, -⟩ := htask i p' hp'
      exact absurd (hp.symm.trans ((hi.before hf).2 i hne)) nofun
  init hf := by
    rw [hforked] at hf
    refine (hi.init hf).imp h1 fun hnone i hne => ?_
    cases hp' : σ'.task i with
    | none => rfl
    | some p' =>
      obtain ⟨p, hp, -⟩ := htask i p' hp'
      exact absurd (hp.symm.trans (hnone i hne)) nofun
  father := hfather
  first i p' hp' h := by
    obtain ⟨p, hp, -, hf⟩ := htask i p' hp'
    exact hf (hi.first i p hp h)

/-- What the family is made of. -/
def key (p : Proc) : ℤ × ℤ × Bool := (p.pid, p.father, decide (p.state = .zombie))

/-- The family is the same, and nobody has entered `do_exit`. -/
structure Same (σ σ' : Sys) : Prop where
  task : ∀ i, (σ'.task i).map key = (σ.task i).map key
  place : ∀ i code c, σ'.place i = .exiting code c → σ.place i = .exiting code c

theorem Same.some (h : Same σ σ') {p' : Proc} (hp' : σ'.task i = some p') :
    ∃ p, σ.task i = some p ∧ key p' = key p := by
  have hk := h.task i
  rw [hp'] at hk
  obtain ⟨p, hp, he⟩ := Option.map_eq_some_iff.mp hk.symm
  exact ⟨p, hp, he.symm⟩

theorem Same.alive (h : Same σ σ') (ha : Alive σ i pid) : Alive σ' i pid := by
  obtain ⟨q, hq, hpid, hz, hplace⟩ := ha
  have hk := h.task i
  rw [hq] at hk
  obtain ⟨q', hq', he⟩ := Option.map_eq_some_iff.mp hk
  simp only [key, Prod.mk.injEq, decide_eq_decide] at he
  exact ⟨q', hq', he.1.trans hpid, fun hz' => hz (he.2.2.mp hz'), fun code c hc => hplace code c (h.place i code c hc)⟩

theorem Inv.same (hi : Inv σ) (h : Same σ σ') (hlast : σ'.lastPid = σ.lastPid) (hforked : σ'.forked = σ.forked) :
    Inv σ' := by
  refine hi.of_subset hlast hforked (fun i p' hp' => ?_) (h.alive hi.zero) h.alive fun i p' hp' h0 h1 => ?_
  · obtain ⟨p, hp, he⟩ := h.some hp'
    have hf : p'.father = p.father := congrArg (fun k => k.2.1) he
    exact ⟨p, hp, congrArg Prod.fst he, fun h => by rw [hf]; exact h⟩
  · obtain ⟨p, hp, he⟩ := h.some hp'
    obtain ⟨j, hj, ha⟩ := hi.father i p hp h0 h1
    have hf : p'.father = p.father := congrArg (fun k => k.2.1) he
    exact ⟨j, hj, by rw [hf]; exact h.alive ha⟩

theorem same_setProc {p' : Proc} (hp : σ.task i = some p) (hk : key p' = key p) : Same σ (σ.setProc i p') := by
  refine ⟨fun k => ?_, fun _ _ _ h => h⟩
  change (Function.update σ.task i (some p') k).map key = _
  rw [Function.update_apply]
  split_ifs with h
  · rw [h, hp, Option.map_some, Option.map_some, hk]
  · rfl

theorem same_setPlace {x : Place} (hx : ∀ code c, x ≠ .exiting code c) : Same σ (σ.setPlace i x) := by
  refine ⟨fun _ => rfl, fun k code c h => ?_⟩
  change Function.update σ.place i x k = _ at h
  rw [Function.update_apply] at h
  split_ifs at h with hk
  · exact absurd h (hx code c)
  · exact h

theorem Same.trans {σ'' : Sys} (h : Same σ σ') (h' : Same σ' σ'') : Same σ σ'' :=
  ⟨fun i => (h'.task i).trans (h.task i), fun i code c hc => h.place i code c (h'.place i code c hc)⟩

theorem Same.refl (σ : Sys) : Same σ σ := ⟨fun _ => rfl, fun _ _ _ h => h⟩

/-- Somebody but task 0 is there, so task 1 is. -/
theorem Inv.one_alive (hi : Inv σ) (hp : σ.task i = some p) (h0 : i ≠ 0) : Alive σ 1 1 := by
  cases hf : σ.forked with
  | false => exact absurd (hp.symm.trans ((hi.before hf).2 i h0)) nofun
  | true =>
    obtain h1 | hnone := hi.init hf
    · exact h1
    · exact absurd (hp.symm.trans (hnone i h0)) nofun

/-! ## do_exit -/

theorem reparent_some {p' : Proc} (h : reparent task pid i = some p') : ∃ p, task i = some p ∧ p'.pid = p.pid ∧
    p'.state = p.state ∧ p'.father = if p.father = pid then 1 else p.father := by
  obtain ⟨p, hp, rfl⟩ := Option.map_eq_some_iff.mp h
  refine ⟨p, hp, ?_⟩
  dsimp only
  split_ifs <;> simp_all [orSignal]

theorem reparent_of_some (pid : ℤ) (h : task i = some p) : ∃ p', reparent task pid i = some p' ∧ p'.pid = p.pid ∧ p'.state = p.state := by
  have hsome : ∃ p', reparent task pid i = some p' := by
    unfold reparent
    rw [h]
    exact ⟨_, rfl⟩
  obtain ⟨p', hp'⟩ := hsome
  obtain ⟨p₁, hp₁, h1, h2, -⟩ := reparent_some hp'
  cases h.symm.trans hp₁
  exact ⟨p', hp', h1, h2⟩

theorem doExit_inv (hi : Inv σ) (hp : σ.task me = some p) (h0 : me ≠ 0) (h1 : me ≠ 1) (code : BitVec 32) (c : Cause) :
    Inv (σ.doExit me p code c) := by
  -- the others are as alive as before
  have halive : ∀ i pid, i ≠ me → Alive σ i pid → Alive (σ.doExit me p code c) i pid := by
    rintro i pid hne ⟨q, hq, hpid, hz, hplace⟩
    obtain ⟨q', hq', he, hs⟩ := reparent_of_some p.pid hq
    refine ⟨q', hq', he.trans hpid, by rw [hs]; exact hz, fun code' c' hc => hplace code' c' ?_⟩
    change Function.update σ.place me _ i = _ at hc
    rwa [Function.update_of_ne hne] at hc
  have hone := hi.one_alive hp h0
  have hpos := hi.pos me p hp h0
  refine hi.of_subset rfl rfl (fun i p' hp' => ?_) (halive 0 0 h0.symm hi.zero) (halive 1 1 h1.symm) fun i p' hp' hi0 hi1 => ?_
  · obtain ⟨q, hq, he, -, hf⟩ := reparent_some hp'
    refine ⟨q, hq, he, fun hle => ?_⟩
    rw [hf, if_neg (by omega)]
    exact hle
  · obtain ⟨q, hq, -, -, hf⟩ := reparent_some hp'
    rw [hf]
    split_ifs with hpid
    · exact ⟨1, by decide, halive 1 1 h1.symm hone⟩
    · obtain ⟨j, hj, ha⟩ := hi.father i q hq hi0 hi1
      refine ⟨j, hj, halive j _ ?_ ha⟩
      rintro rfl
      obtain ⟨q', hq', he, -⟩ := ha
      cases hp.symm.trans hq'
      exact hpid he.symm

theorem findFather_isSome (hj : task j = some q) (hpid : q.pid = pid) (h0 : pid ≠ 0) : (findFather task pid).isSome := by
  unfold findFather
  rw [if_neg h0, List.find?_isSome]
  refine ⟨j, List.mem_finRange j, ?_⟩
  rw [hj]
  exact decide_eq_true hpid

theorem killSession_key (task : Table) (session : ℤ) (i : Fin 64) : (killSession task session i).map key = (task i).map key := by
  unfold killSession
  rw [Option.map_map]
  congr 1
  funext p
  dsimp only [Function.comp_apply]
  split_ifs <;> rfl

theorem key_pid {x : Option Proc} (h : x.map key = (task j).map key) (hj : task j = some q) : ∃ q', x = some q' ∧ q'.pid = q.pid := by
  rw [hj] at h
  obtain ⟨q', hq', he⟩ := Option.map_eq_some_iff.mp h
  exact ⟨q', hq', congrArg Prod.fst he⟩

/-- The task is a zombie in the end, and the others are as before. -/
theorem becomeZombie_key (code : BitVec 32) (hp : task me = some p) (i : Fin 64) :
    (becomeZombie task me p code i).map key = if i = me then some (p.pid, p.father, true) else (task i).map key := by
  unfold becomeZombie
  set task₁ := if p.leader then killSession task p.session else task with ht₁
  have h1 : ∀ i, (task₁ i).map key = (task i).map key := fun i => by
    rw [ht₁]
    split_ifs
    · exact killSession_key task p.session i
    · rfl
  rw [Function.update_apply]
  split_ifs with hi
  · have hm := h1 me
    rw [hp] at hm
    obtain ⟨p₁, hp₁, he⟩ := Option.map_eq_some_iff.mp hm
    rw [hp₁, Option.map_some, Option.map_some]
    have hpe : p₁.pid = p.pid := congrArg Prod.fst he
    have hfe : p₁.father = p.father := congrArg (fun k => k.2.1) he
    simp [key, hpe, hfe]
  · exact h1 i

/-- `tell_father` finds the father. -/
theorem becomeZombie_father (code : BitVec 32) (hp : task me = some p) (hj : task j = some q) (hpid : q.pid = p.father)
    (h0 : p.father ≠ 0) (hne : j ≠ me) : (findFather (becomeZombie task me p code) p.father).isSome := by
  have hk := becomeZombie_key code hp j
  rw [if_neg hne] at hk
  obtain ⟨q', hq', he⟩ := key_pid hk hj
  exact findFather_isSome hq' (he.trans hpid) h0

theorem exitEnd_key (code : BitVec 32) (hp : task me = some p) (hj : task j = some q) (hpid : q.pid = p.father)
    (h0 : p.father ≠ 0) (hne : j ≠ me) (i : Fin 64) :
    (exitEnd task me p code i).map key = if i = me then some (p.pid, p.father, true) else (task i).map key := by
  obtain ⟨f, hf⟩ := Option.isSome_iff_exists.mp (becomeZombie_father code hp hj hpid h0 hne)
  unfold exitEnd tellFather
  rw [hf]
  dsimp only
  rw [← becomeZombie_key code hp i, Function.update_apply]
  split_ifs with hif
  · rw [hif, Option.map_map]
    rfl
  · rfl

/-- A task in `do_exit` is not one of the first two, and has a father who is somebody else. -/
theorem Inv.exitingFather (hi : Inv σ) {code : BitVec 32} {c : Cause} (hp : σ.task me = some p)
    (hplace : σ.place me = .exiting code c) : ∃ j, j ≠ me ∧ j ≠ 0 ∧ Alive σ j p.father := by
  have hno : ∀ {i pid}, Alive σ i pid → i ≠ me := by
    rintro i pid ⟨_, _, _, _, h⟩ rfl
    exact h _ _ hplace
  have h0 : me ≠ 0 := (hno hi.zero).symm
  have h1 : me ≠ 1 := (hno (hi.one_alive hp h0)).symm
  obtain ⟨j, hj, ha⟩ := hi.father me p hp h0 h1
  exact ⟨j, hno ha, hj, ha⟩

theorem Inv.exiting (hi : Inv σ) {code : BitVec 32} {c : Cause} (hp : σ.task me = some p)
    (hplace : σ.place me = .exiting code c) :
    ∃ j q, j ≠ me ∧ σ.task j = some q ∧ q.pid = p.father ∧ p.father ≠ 0 := by
  obtain ⟨j, hne, hj, q, hq, hpid, -, -⟩ := hi.exitingFather hp hplace
  have hpos := hi.pos j q hq hj
  exact ⟨j, q, hne, hq, hpid, by omega⟩

theorem exitEnd_inv (hi : Inv σ) {code : BitVec 32} {c : Cause} (hp : σ.task me = some p)
    (hplace : σ.place me = .exiting code c) (cause : Fin 64 → Cause) :
    Inv { σ with task := exitEnd σ.task me p code, cause := cause } := by
  obtain ⟨j, q, hne, hq, hpid, h0⟩ := hi.exiting hp hplace
  have hkey := exitEnd_key code hp hq hpid h0 hne
  have hsome : ∀ i p', exitEnd σ.task me p code i = some p' → ∃ p, σ.task i = some p ∧ p'.pid = p.pid ∧ p'.father = p.father := by
    intro i p' hp'
    have hk := hkey i
    rw [hp'] at hk
    split_ifs at hk with him
    · simp only [Option.map_some, Option.some.injEq, key, Prod.mk.injEq] at hk
      exact ⟨p, him ▸ hp, hk.1, hk.2.1⟩
    · obtain ⟨p₁, hp₁, he⟩ := Option.map_eq_some_iff.mp hk.symm
      exact ⟨p₁, hp₁, (congrArg Prod.fst he).symm, (congrArg (fun k => k.2.1) he).symm⟩
  have halive : ∀ i pid, Alive σ i pid → Alive { σ with task := exitEnd σ.task me p code, cause := cause } i pid := by
    rintro i pid ⟨q, hq, hqp, hz, hpl⟩
    have him : i ≠ me := by
      rintro rfl
      exact hpl _ _ hplace
    have hk := hkey i
    rw [if_neg him, hq] at hk
    obtain ⟨q', hq', he⟩ := Option.map_eq_some_iff.mp hk
    simp only [key, Prod.mk.injEq, decide_eq_decide] at he
    exact ⟨q', hq', he.1.trans hqp, fun h => hz (he.2.2.mp h), hpl⟩
  refine hi.of_subset rfl rfl (fun i p' hp' => ?_) (halive _ _ hi.zero) (halive _ _) fun i p' hp' hi0 hi1 => ?_
  · obtain ⟨p₁, hp₁, he, hf⟩ := hsome i p' hp'
    exact ⟨p₁, hp₁, he, fun h => by rw [hf]; exact h⟩
  · obtain ⟨p₁, hp₁, -, he⟩ := hsome i p' hp'
    obtain ⟨j, hj, ha⟩ := hi.father i p₁ hp₁ hi0 hi1
    exact ⟨j, hj, by rw [he]; exact halive _ _ ha⟩

/-! ## sys_waitpid -/

theorem scan_zombie {is : List (Fin 64)} {flag : Bool} {options : BitVec 32}
    (h : scan task me p pid options is flag = .zombie i q) : task i = some q ∧ q.state = .zombie := by
  induction is generalizing flag with
  | nil => cases h
  | cons k is ih =>
    unfold scan at h
    cases hk : task k with
    | none =>
      rw [hk] at h
      exact ih h
    | some r =>
      rw [hk] at h
      dsimp only at h
      by_cases hs : k = me ∨ r.father ≠ p.pid ∨ selects p pid r = false
      · rw [if_pos hs] at h
        exact ih h
      rw [if_neg hs] at h
      cases hz : r.state <;> rw [hz] at h <;> dsimp only at h
      case zombie =>
        cases h
        exact ⟨hk, hz⟩
      case stopped =>
        split_ifs at h
        exact ih h
      all_goals exact ih h

theorem waitRepeat_inv (hi : Inv σ) (hp : σ.task me = some p) (hz : p.state ≠ .zombie) (pid : ℤ) (options : BitVec 32) :
    Inv (σ.waitRepeat me p pid options) := by
  unfold Sys.waitRepeat
  cases hs : scan σ.task me p pid options children false with
  | stopped q => exact hi.same (same_setPlace nofun) rfl rfl
  | nothing flag =>
    dsimp only
    split_ifs
    · have hk : key { p with state := TaskState.interruptible } = key p := by simp [key, hz]
      exact hi.same ((same_setProc hp hk).trans (same_setPlace nofun)) rfl rfl
    · exact hi.same (same_setPlace nofun) rfl rfl
  | zombie i q =>
    obtain ⟨hq, hqz⟩ := scan_zombie hs
    have htask : ∀ k p', Function.update σ.task i none k = some p' → σ.task k = some p' := fun k p' h => by
      rw [Function.update_apply] at h
      split_ifs at h
      exact h
    have halive : ∀ k pid', Alive σ k pid' →
        Alive { σ.setPlace me (.releasing q.pid q.exitCode (σ.cause i)) with task := Function.update σ.task i none } k pid' := by
      rintro k pid' ⟨r, hr, hrp, hrz, hpl⟩
      have hki : k ≠ i := by
        rintro rfl
        cases hq.symm.trans hr
        exact hrz hqz
      refine ⟨r, (Function.update_of_ne hki _ _).trans hr, hrp, hrz, fun code c hc => ?_⟩
      change Function.update σ.place me _ k = _ at hc
      rw [Function.update_apply] at hc
      split_ifs at hc
      exact hpl code c hc
    refine hi.of_subset rfl rfl (fun k p' hp' => ⟨p', htask k p' hp', rfl, id⟩) (halive _ _ hi.zero) (halive _ _)
      fun k p' hp' h0 h1 => ?_
    obtain ⟨j, hj, ha⟩ := hi.father k p' (htask k p' hp') h0 h1
    exact ⟨j, hj, halive _ _ ha⟩

/-! ## fork -/

theorem findEmptyProcess_spec (hi : Inv σ) {slot : Option (Fin 64)} (h : σ.findEmptyProcess = some (l, slot)) :
    pidUsed σ.task l = false ∧ 1 ≤ l ∧ l < 2147483648 ∧ slot = emptySlot σ.task := by
  obtain ⟨r, hr, he⟩ := Option.map_eq_some_iff.mp h
  cases he
  obtain ⟨hu, h1, h2⟩ := searchPid_spec hi.last.1 hi.last.2 hr
  exact ⟨hu, h1, h2, rfl⟩

theorem pid_ne_of_unused (h : pidUsed task l = false) (hp : task i = some p) : p.pid ≠ l := fun he => by
  have hu : pidUsed task l = true := pidUsed_iff.mpr ⟨i, p, hp, he⟩
  rw [h] at hu
  cases hu

/-- The first fork, of main(), makes task 1 with the pid 1. -/
theorem first_fork (hi : Inv σ) (hf : σ.forked = false) {slot : Option (Fin 64)} (h : σ.findEmptyProcess = some (l, slot)) :
    l = 1 ∧ slot = some 1 := by
  obtain ⟨hlast, hnone⟩ := hi.before hf
  obtain ⟨q, hq, hqp, -, -⟩ := hi.zero
  have hused : pidUsed σ.task 1 = false := by
    rw [Bool.eq_false_iff]
    intro hu
    obtain ⟨i, r, hr, hr1⟩ := pidUsed_iff.mp hu
    by_cases h0 : i = 0
    · subst h0
      cases hq.symm.trans hr
      omega
    · exact absurd (hr.symm.trans (hnone i h0)) nofun
  obtain ⟨r, hr, he⟩ := Option.map_eq_some_iff.mp h
  cases he
  rw [hlast] at hr
  unfold searchPid at hr
  rw [show nextPid 0 = 1 by decide, if_neg (by simp [hused])] at hr
  cases hr
  refine ⟨rfl, ?_⟩
  unfold emptySlot
  rw [show List.finRange 64 = 0 :: 1 :: (List.finRange 64).drop 2 by decide]
  simp [hnone 1 (by decide)]

/-- A fork for which there is no entry or no memory. -/
theorem forkNone_inv (hi : Inv σ) (hp : σ.task me = some p) {slot : Option (Fin 64)} (h : σ.findEmptyProcess = some (l, slot)) : Inv { σ with lastPid := l, forked := σ.forked || me = 0 } := by
  obtain ⟨-, h1, h2, -⟩ := findEmptyProcess_spec hi h
  refine ⟨⟨by dsimp only; omega, h2⟩, hi.zero, hi.pos, hi.inj, fun hf => ?_, fun _ => ?_, hi.father, hi.first⟩
  · -- somebody else has forked before main() has
    simp only [Bool.or_eq_false_iff, decide_eq_false_iff_not] at hf
    exact absurd (hp.symm.trans ((hi.before hf.1).2 me hf.2)) nofun
  · cases hf : σ.forked with
    | false => exact Or.inr (hi.before hf).2
    | true => exact hi.init hf

theorem fork_inv (hi : Inv σ) (hp : σ.task me = some p) (hz : p.state ≠ .zombie) (hplace : σ.place me = .user)
    (h0 : me = 0 → σ.forked = false) (h : σ.findEmptyProcess = some (l, some nr)) :
    Inv { (σ.setProc nr (childOf p l)).setPlace nr .user with lastPid := l, forked := σ.forked || me = 0 } := by
  obtain ⟨hu, h1, h2, hslot⟩ := findEmptyProcess_spec hi h
  obtain ⟨hnr, hfree⟩ := emptySlot_spec hslot.symm
  set σ' : Sys := { (σ.setProc nr (childOf p l)).setPlace nr .user with lastPid := l, forked := σ.forked || me = 0 } with hσ'
  have hnew : σ'.task nr = some (childOf p l) := Function.update_self ..
  have hold : ∀ i, i ≠ nr → σ'.task i = σ.task i := fun i hne => Function.update_of_ne hne ..
  have halive : ∀ i pid, Alive σ i pid → Alive σ' i pid := by
    rintro i pid ⟨q, hq, hpid, hqz, hpl⟩
    have hne : i ≠ nr := by
      rintro rfl
      exact absurd (hq.symm.trans hfree) nofun
    refine ⟨q, (hold i hne).trans hq, hpid, hqz, fun code c hc => hpl code c ?_⟩
    rwa [hσ', show (_ : Sys).place i = Function.update σ.place nr .user i from rfl, Function.update_of_ne hne] at hc
  have hme : Alive σ me p.pid := ⟨p, hp, rfl, hz, fun code c hc => absurd (hplace.symm.trans hc) nofun⟩
  -- main() makes task 1, and the others find it there
  have hcases : (me = 0 ∧ nr = 1 ∧ l = 1) ∨ (me ≠ 0 ∧ nr ≠ 1 ∧ Alive σ 1 1) := by
    by_cases hm : me = 0
    · obtain ⟨hl, hs⟩ := first_fork hi (h0 hm) h
      exact Or.inl ⟨hm, Option.some.inj hs, hl⟩
    · have hone := hi.one_alive hp hm
      refine Or.inr ⟨hm, ?_, hone⟩
      rintro rfl
      obtain ⟨q, hq, -⟩ := hone
      exact absurd (hq.symm.trans hfree) nofun
  have hpid0 : me = 0 → p.pid = 0 := by
    rintro rfl
    obtain ⟨q, hq, hq0, -⟩ := hi.zero
    cases hp.symm.trans hq
    exact hq0
  refine ⟨⟨by change 0 ≤ l; omega, h2⟩, halive _ _ hi.zero, fun i q hq hi0 => ?_, fun i j q r hq hr he => ?_, fun hf => ?_,
    fun _ => Or.inl ?_, fun i q hq hi0 hi1 => ?_, fun i q hq hi01 => ?_⟩
  · by_cases hin : i = nr
    · rw [hin, hnew] at hq
      cases hq
      exact h1
    · exact hi.pos i q ((hold i hin).symm.trans hq) hi0
  · by_cases hin : i = nr <;> by_cases hjn : j = nr
    · rw [hin, hjn]
    · rw [hin, hnew] at hq
      cases hq
      exact absurd he.symm (pid_ne_of_unused hu ((hold j hjn).symm.trans hr))
    · rw [hjn, hnew] at hr
      cases hr
      exact absurd he (pid_ne_of_unused hu ((hold i hin).symm.trans hq))
    · exact hi.inj i j q r ((hold i hin).symm.trans hq) ((hold j hjn).symm.trans hr) he
  · obtain ⟨hff, hm⟩ : σ.forked = false ∧ me ≠ 0 := by simpa [hσ'] using hf
    exact absurd (hp.symm.trans ((hi.before hff).2 me hm)) nofun
  · obtain ⟨-, hn1, hl1⟩ | ⟨-, -, hone⟩ := hcases
    · refine ⟨childOf p l, hn1 ▸ hnew, hl1, nofun, fun code c hc => ?_⟩
      rw [hσ', show (_ : Sys).place 1 = Function.update σ.place nr .user 1 from rfl, hn1, Function.update_self] at hc
      cases hc
    · exact halive _ _ hone
  · by_cases hin : i = nr
    · rw [hin, hnew] at hq
      cases hq
      obtain ⟨-, hn1, -⟩ | ⟨hm, -, -⟩ := hcases
      · exact absurd (hin.trans hn1) hi1
      · exact ⟨me, hm, halive _ _ hme⟩
    · obtain ⟨j, hj, ha⟩ := hi.father i q ((hold i hin).symm.trans hq) hi0 hi1
      exact ⟨j, hj, halive _ _ ha⟩
  · by_cases hin : i = nr
    · rw [hin, hnew] at hq
      cases hq
      obtain ⟨hm, -, -⟩ | ⟨-, hn1, -⟩ := hcases
      · change p.pid ≤ 0
        exact (hpid0 hm).le
      · obtain rfl | rfl := hi01
        · exact absurd hin.symm hnr
        · exact absurd hin.symm hn1
    · exact hi.first i q ((hold i hin).symm.trans hq) hi01

/-! ## Every run -/

theorem waitWoken_inv (hi : Inv σ) (hp : σ.task me = some p) (hz : p.state ≠ .zombie) (pid : ℤ) (options : BitVec 32) :
    Inv (σ.waitWoken me p pid options) := by
  unfold Sys.waitWoken
  dsimp only
  have hs : Same σ (σ.setProc me { p with signal := p.signal &&& ~~~sigBit sigchld }) := same_setProc hp rfl
  split_ifs
  · exact waitRepeat_inv (hi.same hs rfl rfl) (Function.update_self ..) hz pid options
  · exact hi.same (hs.trans (same_setPlace nofun)) rfl rfl

theorem Inv.step {e : Event} (hi : Inv σ) (h : Sys.Step σ e σ') : Inv σ' := by
  cases h with
  | forkFull hr _ _ hf => exact forkNone_inv hi hr.1 hf
  | forkFailed hr _ _ hf => exact forkNone_inv hi hr.1 hf
  | fork hr hpl h0 hf => exact fork_inv hi hr.1 (by rw [hr.2]; nofun) hpl h0 hf
  | exit hr _ h0 h1 => exact doExit_inv hi hr.1 h0 h1 _ _
  | signal hr _ h0 h1 _ => exact doExit_inv hi hr.1 h0 h1 _ _
  | fault hr _ h0 h1 => exact doExit_inv hi hr.1 h0 h1 _ _
  | exitEnd hr hpl => exact exitEnd_inv hi hr.1 hpl _
  | waitpid hr _ _ => exact waitRepeat_inv hi hr.1 (by rw [hr.2]; nofun) _ _
  | wake hr _ => exact waitWoken_inv hi hr.1 (by rw [hr.2]; nofun) _ _
  | @released me p pid code c hr _ =>
    have hs : Same σ (σ.setPlace me .user) := same_setPlace nofun
    exact hi.same (hs.trans ⟨fun _ => rfl, fun _ _ _ h => h⟩) rfl rfl
  | arrive hp => exact hi.same (same_setProc hp rfl) rfl rfl
  | group hp => exact hi.same (same_setProc hp rfl) rfl rfl
  | state hp hz hs => exact hi.same (same_setProc hp (by simp [key, hz, hs])) rfl rfl

theorem start_inv : Inv Sys.start := by
  have hnone : ∀ i, i ≠ 0 → Sys.start.task i = none := fun i h => by
    change Function.update (fun _ => none) 0 (some initProc) i = none
    exact Function.update_of_ne h ..
  have hzero : Sys.start.task 0 = some initProc := rfl
  have hi0 : ∀ {i p}, Sys.start.task i = some p → i = 0 ∧ p = initProc := by
    intro i p hp
    by_cases h : i = 0
    · subst h
      exact ⟨rfl, Option.some.inj (hp.symm.trans hzero)⟩
    · exact absurd (hp.symm.trans (hnone i h)) nofun
  exact {
    last := by decide
    zero := ⟨initProc, hzero, rfl, nofun, nofun⟩
    pos := fun i p hp h => absurd (hi0 hp).1 h
    inj := fun i j p q hp hq _ => (hi0 hp).1.trans (hi0 hq).1.symm
    before := fun _ => ⟨rfl, hnone⟩
    init := nofun
    father := fun i p hp h => absurd (hi0 hp).1 h
    first := fun i p hp _ => by rw [(hi0 hp).2]; decide }

theorem Inv.reachable (hr : procSystem.Reachable σ) : Inv σ :=
  by
  refine hr.invariant (fun σ hσ => ?_) fun σ e σ' _ hi hs => hi.step hs
  rw [show σ = Sys.start from hσ]
  exact start_inv

theorem findFather_some (h : findFather task pid = some i) : ∃ q, task i = some q ∧ q.pid = pid := by
  unfold findFather at h
  split_ifs at h
  have hp := List.find?_some h
  cases hq : task i with
  | none =>
    rw [hq] at hp
    cases hp
  | some q =>
    rw [hq] at hp
    exact ⟨q, rfl, of_decide_eq_true hp⟩

/-- The father `tell_father` finds is alive. -/
theorem Inv.tellFather (hi : Inv σ) {code : BitVec 32} {c : Cause} (hp : σ.task me = some p)
    (hplace : σ.place me = .exiting code c) :
    ∃ f q, findFather (becomeZombie σ.task me p code) p.father = some f ∧ σ.task f = some q ∧ q.pid = p.father ∧
      q.state ≠ .zombie := by
  obtain ⟨j, q, hne, hq, hpid, h0⟩ := hi.exiting hp hplace
  obtain ⟨f, hf⟩ := Option.isSome_iff_exists.mp (becomeZombie_father code hp hq hpid h0 hne)
  obtain ⟨r, hr, hrp⟩ := findFather_some hf
  obtain ⟨j', hj'me, -, q', hq', hpid', hz', -⟩ := hi.exitingFather hp hplace
  have hk := becomeZombie_key code hp f
  rw [hr] at hk
  -- the entry found has the father's pid, and so is his
  have hfj : f = j' := by
    split_ifs at hk with hfm
    · simp only [Option.map_some, Option.some.injEq, key, Prod.mk.injEq] at hk
      exact absurd (hi.inj me j' p q' hp hq' (by omega)) hj'me.symm
    · obtain ⟨r', hr', he⟩ := Option.map_eq_some_iff.mp hk.symm
      have hpe : r'.pid = r.pid := congrArg Prod.fst he
      exact hi.inj f j' r' q' hr' hq' (by omega)
  exact ⟨f, q', hf, hfj ▸ hq', hpid', hz'⟩

/-- In every run of `fork`, `do_exit` and `sys_waitpid` in which task 1 does not exit, pids are unique,
    every task but the first two has one father, who is no zombie, `tell_father` finds him, and
    `find_empty_process` ends with a pid that is nobody's and nobody's father's. -/
theorem process_table (h : procSystem.Reachable σ) :
    (∀ i j p q, σ.task i = some p → σ.task j = some q → p.pid = q.pid → i = j) ∧
    (∀ i p, σ.task i = some p → if i = 0 then p.pid = 0 else 0 < p.pid) ∧
    (∀ i p, σ.task i = some p → i ≠ 0 → i ≠ 1 → ∃! j, ∃ q, σ.task j = some q ∧ q.pid = p.father ∧ q.state ≠ .zombie) ∧
    (∀ me p code c, σ.task me = some p → σ.place me = .exiting code c →
      ∃ f q, findFather (becomeZombie σ.task me p code) p.father = some f ∧ σ.task f = some q ∧ q.pid = p.father ∧
        q.state ≠ .zombie) ∧
    ∃ l slot, σ.findEmptyProcess = some (l, slot) ∧ ∀ i p, σ.task i = some p → p.pid ≠ l ∧ p.father ≠ l := by
  have hi := Inv.reachable h
  refine ⟨hi.inj, fun i p hp => ?_, fun i p hp h0 h1 => ?_, fun me p code c hp hplace => hi.tellFather hp hplace, ?_⟩
  · split_ifs with h0
    · subst h0
      obtain ⟨q, hq, hq0, -⟩ := hi.zero
      cases hp.symm.trans hq
      exact hq0
    · have := hi.pos i p hp h0
      omega
  · obtain ⟨j, -, q, hq, hpid, hz, -⟩ := hi.father i p hp h0 h1
    refine ⟨j, ⟨q, hq, hpid, hz⟩, ?_⟩
    rintro k ⟨r, hr, hrp, -⟩
    exact hi.inj k j r q hr hq (by omega)
  · obtain ⟨l, hl⟩ := Option.isSome_iff_exists.mp (searchPid_isSome σ.task hi.last.1 hi.last.2)
    have hf : σ.findEmptyProcess = some (l, emptySlot σ.task) := by
      unfold Sys.findEmptyProcess
      rw [hl, Option.map_some]
    obtain ⟨hu, h1, -, -⟩ := findEmptyProcess_spec hi hf
    refine ⟨l, _, hf, fun i p hp => ⟨pid_ne_of_unused hu hp, ?_⟩⟩
    by_cases h01 : i = 0 ∨ i = 1
    · have := hi.first i p hp h01
      omega
    · push Not at h01
      obtain ⟨j, -, q, hq, hpid, -⟩ := hi.father i p hp h01.1 h01.2
      have := pid_ne_of_unused hu hq
      omega

/-- main() has forked task 1, and task 1 has forked. -/
def family : Sys where
  task := Function.update (Function.update Sys.start.task 1 (some (childOf initProc 1))) 2
    (some (childOf (childOf initProc 1) 2))
  place := Function.update (Function.update Sys.start.place 1 .user) 2 .user
  lastPid := 2
  forked := true
  cause _ := .fault
  reports := []

theorem family_reachable : procSystem.Reachable family := by
  have h1 := Lts.Reachable.step (M := procSystem) (.init rfl)
    (@Sys.Step.fork Sys.start 0 1 initProc 1 ⟨rfl, rfl⟩ rfl (fun _ => rfl) (by decide))
  exact h1.step (@Sys.Step.fork _ 1 2 (childOf initProc 1) 2 ⟨rfl, rfl⟩ rfl nofun (by decide))

/-- Task 2 in `do_exit`. -/
theorem process_table_of_family : ∃ σ p, procSystem.Reachable σ ∧ σ.task 2 = some p ∧
    σ.place 2 = .exiting 0x300 (.exit 3) ∧
    (∃! j, ∃ q, σ.task j = some q ∧ q.pid = p.father ∧ q.state ≠ .zombie) ∧
    ∃ f q, findFather (becomeZombie σ.task 2 p 0x300) p.father = some f ∧ σ.task f = some q ∧ q.pid = p.father ∧
      q.state ≠ .zombie := by
  have h := family_reachable.step (@Sys.Step.exit family 2 (childOf (childOf initProc 1) 2) 3 ⟨rfl, rfl⟩ rfl (by decide) (by decide))
  obtain ⟨-, -, h3, h4, -⟩ := process_table h
  exact ⟨_, childOf (childOf initProc 1) 2, h, rfl, rfl, h3 2 _ rfl (by decide) (by decide), h4 2 _ _ _ rfl rfl⟩

/-! ## The status -/

/-- What `sys_waitpid` promises of the status. -/
def Report.Law (r : Report) : Prop :=
  match r.cause with
  | .exit errorCode => WIFEXITED r.status ∧ ¬WIFSIGNALED r.status ∧ ¬WIFSTOPPED r.status ∧
      WEXITSTATUS r.status = errorCode &&& 0xFF
  | .signal i => WIFSIGNALED r.status ∧ ¬WIFEXITED r.status ∧ WTERMSIG r.status = BitVec.ofNat 32 (i.val + 1)
  | .fault => True

/-- The code with which the task has called `do_exit`. -/
def Cause.Codes : Cause → BitVec 32 → Prop
  | .exit errorCode, code => code = (errorCode &&& 0xFF) <<< 8
  | .signal i, code => code = 1 <<< i.val ∧ i.val + 1 ≠ sigchld
  | .fault, _ => True

structure Coded (σ : Sys) : Prop where
  exiting : ∀ i code c, σ.place i = .exiting code c → c.Codes code
  zombie : ∀ i p, σ.task i = some p → p.state = .zombie → (σ.cause i).Codes p.exitCode
  releasing : ∀ i pid code c, σ.place i = .releasing pid code c → c.Codes code
  reports : ∀ r ∈ σ.reports, r.cause.Codes r.status

theorem status_exit (e : BitVec 32) : WIFEXITED ((e &&& 0xFF) <<< 8) ∧ ¬WIFSIGNALED ((e &&& 0xFF) <<< 8) ∧
    ¬WIFSTOPPED ((e &&& 0xFF) <<< 8) ∧ WEXITSTATUS ((e &&& 0xFF) <<< 8) = e &&& 0xFF := by
  -- the status is one of 256
  obtain ⟨k, hk⟩ : ∃ k : BitVec 8, e &&& 0xFF = k.setWidth 32 := by
    refine ⟨e.setWidth 8, BitVec.eq_of_toNat_eq ?_⟩
    have hmod : e.toNat &&& 255 = e.toNat % 256 := Nat.and_two_pow_sub_one_eq_mod e.toNat 8
    rw [BitVec.toNat_and, BitVec.toNat_setWidth, BitVec.toNat_setWidth, show (0xFF : BitVec 32).toNat = 255 from rfl, hmod]
    omega
  rw [hk]
  have hall : ∀ k : BitVec 8, WIFEXITED (k.setWidth 32 <<< 8) ∧ ¬WIFSIGNALED (k.setWidth 32 <<< 8) ∧
      ¬WIFSTOPPED (k.setWidth 32 <<< 8) ∧ WEXITSTATUS (k.setWidth 32 <<< 8) = k.setWidth 32 := by
    decide +kernel
  exact hall k

/-- `do_signal` and sys/wait.h agree on the signals 1 and 2. -/
theorem status_signal : ∀ i : Fin 32, (WIFSIGNALED (1 <<< i.val) ∧ ¬WIFEXITED (1 <<< i.val) ∧
    WTERMSIG (1 <<< i.val) = BitVec.ofNat 32 (i.val + 1)) ↔ i.val + 1 ≤ 2 := by
  decide

theorem law_iff {r : Report} (h : r.cause.Codes r.status) : r.Law ↔ ∀ i, r.cause = .signal i → i.val + 1 ≤ 2 := by
  unfold Report.Law
  cases hc : r.cause with
  | exit e =>
    rw [hc] at h
    rw [show r.status = _ from h]
    exact iff_of_true (status_exit e) nofun
  | signal i =>
    rw [hc] at h
    dsimp only
    rw [h.1, status_signal i]
    constructor
    · intro hi j hj
      cases hj
      exact hi
    · exact fun hall => hall i rfl
  | fault => exact iff_of_true trivial nofun

/-- A step that makes no zombie and starts no `do_exit`. -/
theorem Coded.of_subset (hc : Coded σ)
    (htask : ∀ i p', σ'.task i = some p' → p'.state = .zombie →
      ∃ p, σ.task i = some p ∧ p.state = .zombie ∧ p'.exitCode = p.exitCode)
    (hcause : σ'.cause = σ.cause) (hreports : σ'.reports = σ.reports)
    (hexiting : ∀ i code c, σ'.place i = .exiting code c → σ.place i = .exiting code c ∨ c.Codes code)
    (hreleasing : ∀ i pid code c, σ'.place i = .releasing pid code c → σ.place i = .releasing pid code c ∨ c.Codes code) :
    Coded σ' where
  exiting i code c h := (hexiting i code c h).elim (hc.exiting i code c) id
  zombie i p' hp' hz := by
    obtain ⟨p, hp, hz', he⟩ := htask i p' hp' hz
    rw [hcause, he]
    exact hc.zombie i p hp hz'
  releasing i pid code c h := (hreleasing i pid code c h).elim (hc.releasing i pid code c) id
  reports := by rw [hreports]; exact hc.reports

theorem Coded.setProc (hc : Coded σ) {p' : Proc} (hp : σ.task i = some p)
    (hz : p'.state = .zombie → p.state = .zombie ∧ p'.exitCode = p.exitCode) : Coded (σ.setProc i p') := by
  refine hc.of_subset (fun k q hq hqz => ?_) rfl rfl (fun _ _ _ h => Or.inl h) fun _ _ _ _ h => Or.inl h
  change Function.update σ.task i (some p') k = _ at hq
  rw [Function.update_apply] at hq
  split_ifs at hq with hk
  · cases hq
    exact ⟨p, hk ▸ hp, hz hqz⟩
  · exact ⟨q, hq, hqz, rfl⟩

theorem Coded.setPlace (hc : Coded σ) {x : Place} (hexit : ∀ code c, x = .exiting code c → c.Codes code)
    (hrel : ∀ pid code c, x = .releasing pid code c → c.Codes code) : Coded (σ.setPlace i x) := by
  have hplace : ∀ k, (σ.setPlace i x).place k = x ∨ (σ.setPlace i x).place k = σ.place k := fun k => by
    change Function.update σ.place i x k = x ∨ Function.update σ.place i x k = _
    rw [Function.update_apply]
    split_ifs
    · exact Or.inl rfl
    · exact Or.inr rfl
  refine hc.of_subset (fun k q hq hqz => ⟨q, hq, hqz, rfl⟩) rfl rfl (fun k code c h => ?_) fun k pid code c h => ?_
  · exact (hplace k).elim (fun he => Or.inr (hexit code c (he.symm.trans h))) fun he => Or.inl (he.symm.trans h)
  · exact (hplace k).elim (fun he => Or.inr (hrel pid code c (he.symm.trans h))) fun he => Or.inl (he.symm.trans h)

theorem doExit_coded (hc : Coded σ) {code : BitVec 32} {c : Cause} (h : c.Codes code) : Coded (σ.doExit me p code c) := by
  have hplace : Coded (σ.setPlace me (.exiting code c)) :=
    hc.setPlace (fun code' c' he => by cases he; exact h) nofun
  refine hplace.of_subset (fun i p' hp' hz => ?_) rfl rfl (fun _ _ _ h => Or.inl h) fun _ _ _ _ h => Or.inl h
  obtain ⟨q, hq, rfl⟩ := Option.map_eq_some_iff.mp hp'
  refine ⟨q, hq, ?_⟩
  dsimp only at hz ⊢
  split_ifs at hz ⊢ <;> exact ⟨hz, rfl⟩

theorem exitEnd_coded (hc : Coded σ) {code : BitVec 32} {c : Cause} (hp : σ.task me = some p) (hplace : σ.place me = .exiting code c) :
    Coded { σ with task := exitEnd σ.task me p code, cause := Function.update σ.cause me c } := by
  -- every zombie is the one made here or an old one
  have hzombie : ∀ i p', exitEnd σ.task me p code i = some p' → p'.state = .zombie →
      (i = me ∧ p'.exitCode = code) ∨ i ≠ me ∧ ∃ q, σ.task i = some q ∧ q.state = .zombie ∧ p'.exitCode = q.exitCode := by
    intro i p' hp' hz
    have hb : ∃ q, becomeZombie σ.task me p code i = some q ∧ p'.state = q.state ∧ p'.exitCode = q.exitCode := by
      unfold exitEnd tellFather at hp'
      cases hf : findFather (becomeZombie σ.task me p code) p.father with
      | some f =>
        rw [hf] at hp'
        dsimp only at hp'
        rw [Function.update_apply] at hp'
        split_ifs at hp' with hif
        · obtain ⟨q, hq, rfl⟩ := Option.map_eq_some_iff.mp hp'
          exact ⟨q, hif ▸ hq, rfl, rfl⟩
        · exact ⟨p', hp', rfl, rfl⟩
      | none =>
        rw [hf] at hp'
        dsimp only at hp'
        rw [Function.update_apply] at hp'
        split_ifs at hp'
        exact ⟨p', hp', rfl, rfl⟩
    obtain ⟨q, hq, hs, he⟩ := hb
    unfold becomeZombie at hq
    rw [Function.update_apply] at hq
    split_ifs at hq with him hl hl
    · obtain ⟨r, -, rfl⟩ := Option.map_eq_some_iff.mp hq
      exact Or.inl ⟨him, he⟩
    · obtain ⟨r, -, rfl⟩ := Option.map_eq_some_iff.mp hq
      exact Or.inl ⟨him, he⟩
    · obtain ⟨r, hr, rfl⟩ := Option.map_eq_some_iff.mp hq
      refine Or.inr ⟨him, r, hr, ?_⟩
      split_ifs at hs he <;> exact ⟨hs.symm.trans hz, he⟩
    · exact Or.inr ⟨him, q, hq, hs.symm.trans hz, he⟩
  refine ⟨hc.exiting, fun i p' hp' hz => ?_, hc.releasing, hc.reports⟩
  change (Function.update σ.cause me c i).Codes _
  obtain ⟨rfl, he⟩ | ⟨hne, q, hq, hqz, he⟩ := hzombie i p' hp' hz
  · rw [Function.update_self, he]
    exact hc.exiting _ code c hplace
  · rw [Function.update_of_ne hne, he]
    exact hc.zombie i q hq hqz

theorem waitRepeat_coded (hc : Coded σ) (hp : σ.task me = some p) (pid : ℤ) (options : BitVec 32) :
    Coded (σ.waitRepeat me p pid options) := by
  unfold Sys.waitRepeat
  cases hs : scan σ.task me p pid options children false with
  | stopped q => exact hc.setPlace nofun nofun
  | nothing flag =>
    dsimp only
    split_ifs
    · have hset : Coded (σ.setProc me { p with state := .interruptible }) := hc.setProc hp nofun
      exact hset.setPlace nofun nofun
    · exact hc.setPlace nofun nofun
  | zombie i q =>
    obtain ⟨hq, hqz⟩ := scan_zombie hs
    have hplace : Coded (σ.setPlace me (.releasing q.pid q.exitCode (σ.cause i))) :=
      hc.setPlace nofun fun pid code c he => by cases he; exact hc.zombie i q hq hqz
    refine hplace.of_subset (fun k p' hp' hz => ?_) rfl rfl (fun _ _ _ h => Or.inl h) fun _ _ _ _ h => Or.inl h
    change Function.update σ.task i none k = some p' at hp'
    rw [Function.update_apply] at hp'
    split_ifs at hp'
    exact ⟨p', hp', hz, rfl⟩

theorem doSignal_exits {t : SigTask} {i : Fin 32} {regs : SigTask.Regs} {code : BitVec 32}
    (h : t.doSignal i regs = .exits code) : (Cause.signal i).Codes code := by
  unfold SigTask.doSignal at h
  dsimp only at h
  by_cases h1 : (t.sigaction i).handler = 1
  · rw [if_pos h1] at h
    cases h
  rw [if_neg h1] at h
  by_cases h0 : (t.sigaction i).handler = 0
  · rw [if_pos h0] at h
    split_ifs at h with hn
    cases h
    exact ⟨rfl, hn⟩
  · rw [if_neg h0] at h
    cases h

theorem Coded.step {e : Event} (hc : Coded σ) (h : Sys.Step σ e σ') : Coded σ' := by
  cases h with
  | forkFull => exact ⟨hc.exiting, hc.zombie, hc.releasing, hc.reports⟩
  | forkFailed => exact ⟨hc.exiting, hc.zombie, hc.releasing, hc.reports⟩
  | @fork me nr p l hr _ _ _ =>
    have hplace : Coded (σ.setPlace nr .user) := hc.setPlace nofun nofun
    refine hplace.of_subset (fun k q hq hqz => ?_) rfl rfl (fun _ _ _ h => Or.inl h) fun _ _ _ _ h => Or.inl h
    change Function.update σ.task nr (some (childOf p l)) k = some q at hq
    rw [Function.update_apply] at hq
    split_ifs at hq with hk
    · cases hq
      cases hqz
    · exact ⟨q, hq, hqz, rfl⟩
  | exit _ _ _ _ => exact doExit_coded hc rfl
  | signal _ _ _ _ hs => exact doExit_coded hc (doSignal_exits hs)
  | fault _ _ _ _ => exact doExit_coded hc trivial
  | exitEnd hr hpl => exact exitEnd_coded hc hr.1 hpl
  | waitpid hr _ _ => exact waitRepeat_coded hc hr.1 _ _
  | @wake me p pid options hr _ =>
    have hset : Coded (σ.setProc me { p with signal := p.signal &&& ~~~sigBit sigchld }) :=
      hc.setProc hr.1 fun hz => ⟨hz, rfl⟩
    unfold Sys.waitWoken
    dsimp only
    split_ifs
    · exact waitRepeat_coded hset (Function.update_self ..) pid options
    · exact hset.setPlace nofun nofun
  | @released me p pid code c hr hpl =>
    have hplace : Coded (σ.setPlace me .user) := hc.setPlace nofun nofun
    refine ⟨hplace.exiting, hplace.zombie, hplace.releasing, fun r hr => ?_⟩
    obtain rfl | hr := List.mem_cons.mp hr
    · exact hc.releasing me pid code c hpl
    · exact hc.reports r hr
  | arrive hp => exact hc.setProc hp fun hz => ⟨hz, rfl⟩
  | group hp => exact hc.setProc hp fun hz => ⟨hz, rfl⟩
  | state hp _ hs => exact hc.setProc hp fun hz => absurd hz hs

/-- Whatever a reported child ended with, the status agrees with sys/wait.h unless the child ended by
    a signal other than 1 and 2. -/
theorem exit_status_round_trip {r : Report} (h : procSystem.Reachable σ) (hr : r ∈ σ.reports) :
    r.Law ↔ ∀ i, r.cause = .signal i → i.val + 1 ≤ 2 := by
  have hc : Coded σ := by
    refine h.invariant (fun σ hσ => ?_) fun σ e σ' _ hc hs => hc.step hs
    rw [show σ = Sys.start from hσ]
    refine ⟨nofun, fun i p hp hz => ?_, nofun, nofun⟩
    change Function.update (fun _ => none) 0 (some initProc) i = some p at hp
    rw [Function.update_apply] at hp
    split_ifs at hp
    cases hp
    cases hz
  exact law_iff (hc.reports r hr)

/-- Task 2 ends, and task 1 waits for it. -/
theorem reported {code : BitVec 32} {c : Cause}
    (h : procSystem.Reachable (family.doExit 2 (childOf (childOf initProc 1) 2) code c)) :
    ∃ σ, procSystem.Reachable σ ∧ ⟨2, code, c⟩ ∈ σ.reports := by
  have h1 := h.step (@Sys.Step.exitEnd _ 2 (childOf (childOf initProc 1) 2) code c ⟨rfl, rfl⟩ rfl)
  have h2 := h1.step (@Sys.Step.waitpid _ 1 (orSignal (sigBit sigchld) (childOf initProc 1)) (-1) 0 ⟨rfl, rfl⟩ rfl (by decide))
  have h3 := h2.step (@Sys.Step.released _ 1 (orSignal (sigBit sigchld) (childOf initProc 1)) 2 code c ⟨rfl, rfl⟩ rfl)
  exact ⟨_, h3, List.mem_cons_self ..⟩

/-- exit(511) -/
theorem exit_status_round_trip_of_exit : ∃ (σ : Sys) (r : Report), procSystem.Reachable σ ∧ r ∈ σ.reports ∧
    r.cause = .exit 511 ∧ r.status = 0xFF00 ∧ r.Law := by
  obtain ⟨σ, hr, hmem⟩ := reported (family_reachable.step
    (@Sys.Step.exit family 2 (childOf (childOf initProc 1) 2) 511 ⟨rfl, rfl⟩ rfl (by decide) (by decide)))
  exact ⟨σ, _, hr, hmem, rfl, rfl, (exit_status_round_trip hr hmem).mpr nofun⟩

/-- Signal 9, as if the child had called exit(1). -/
theorem exit_status_of_sigkill : ∃ (σ : Sys) (r : Report), procSystem.Reachable σ ∧ r ∈ σ.reports ∧
    r.cause = .signal 8 ∧ WIFEXITED r.status ∧ WEXITSTATUS r.status = 1 ∧ ¬WIFSIGNALED r.status ∧ ¬r.Law := by
  obtain ⟨σ, hr, hmem⟩ := reported (family_reachable.step
    (@Sys.Step.signal family 2 (childOf (childOf initProc 1) 2) 8 ⟨initTask, fun _ => ⟨0, 0, 0, 0⟩⟩ ⟨0, 0, 0, 0, 0, 0⟩ 0x100
      ⟨rfl, rfl⟩ rfl (by decide) (by decide) rfl))
  exact ⟨σ, _, hr, hmem, rfl, by decide, by decide, by decide, fun h => absurd h.1 (by decide)⟩

end Linux011.Kernel.ProcTable

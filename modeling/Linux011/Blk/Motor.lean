/-
  The floppy motors (kernel/sched.c): `ticks_to_floppy_on`, `floppy_off` and `do_floppy_timer`, for any
  order of calls and ticks. `motor_times` says how long a motor has run before it is used, how long it
  goes on at least, and that it does not run for ever.
-/
import Linux011.Lib.Trans
import Mathlib.Data.List.FinRange

namespace Linux011.Blk.Motor

open Linux011.Lib

def HZ : ℕ := 100

/-- The timers and the register. History, per drive: the ticks since the motor was switched on; the
    ticks since the last call for it, what that call put into `moff_timer`, and whether the motor ran
    behind it. -/
structure Motors where
  mon : Fin 4 → ℕ
  moff : Fin 4 → ℕ
  /-- `current_DOR` -/
  dor : BitVec 8
  on : Fin 4 → ℕ
  since : Fin 4 → ℕ
  grace : Fin 4 → ℕ
  ran : Fin 4 → Bool

namespace Motors

variable (m : Motors)

/-- The motor bit of a drive. -/
def motor (nr : Fin 4) : Bool := m.dor.getLsbD (4 + nr)

/-- `0x10 << nr` -/
def mask (nr : Fin 4) : BitVec 8 := BitVec.twoPow 8 (4 + nr)

/-- The byte for FD_DOR; the drive is selected when no other one is. -/
def wanted (nr : Fin 4) (selected : Bool) : BitVec 8 :=
  if selected then mask nr ||| m.dor else ((mask nr ||| m.dor) &&& 0xFC) ||| BitVec.ofNat 8 nr

/-- `ticks_to_floppy_on`, without its result, which is `mon` of the drive. -/
def ticksToFloppyOn (nr : Fin 4) (selected : Bool) : Motors :=
  let m' := { m with
    moff := Function.update m.moff nr 10000, since := Function.update m.since nr 0
    grace := Function.update m.grace nr 10000, ran := Function.update m.ran nr true }
  let mask := m.wanted nr selected
  if mask ≠ m.dor then
    if (mask ^^^ m.dor) &&& 0xf0 ≠ 0 then
      { m' with mon := Function.update m.mon nr (HZ / 2), dor := mask, on := Function.update m.on nr 0 }
    else if m.mon nr < 2 then { m' with mon := Function.update m.mon nr 2, dor := mask }
    else { m' with dor := mask }
  else m'

def floppyOff (nr : Fin 4) : Motors :=
  { m with
    moff := Function.update m.moff nr (3 * HZ), since := Function.update m.since nr 0
    grace := Function.update m.grace nr (3 * HZ), ran := Function.update m.ran nr (m.motor nr) }

/-- `floppy_on_interrupt`: another drive is selected. -/
def select (nr : Fin 4) : Motors := { m with dor := (m.dor &&& 0xFC) ||| BitVec.ofNat 8 nr }

/-- One round of the loop of `do_floppy_timer`. -/
def round (i : Fin 4) : Motors :=
  if m.motor i then
    if m.mon i ≠ 0 then { m with mon := Function.update m.mon i (m.mon i - 1) }
    else if m.moff i = 0 then { m with dor := m.dor &&& ~~~mask i }
    else { m with moff := Function.update m.moff i (m.moff i - 1) }
  else m

/-- `do_timer` skips it when no motor runs, where it changes no timer. -/
def doFloppyTimer : Motors :=
  let m := (List.finRange 4).foldl round m
  { m with on := fun i => m.on i + 1, since := fun i => m.since i + 1 }

end Motors

inductive Event
  | ticksToFloppyOn (nr : Fin 4) (selected : Bool)
  | floppyOff (nr : Fin 4)
  | select (nr : Fin 4)
  | tick

/-- No motor runs. -/
def unused : Motors := ⟨fun _ => 0, fun _ => 0, 0x0C, fun _ => 0, fun _ => 0, fun _ => 0, fun _ => false⟩

def motorSystem : Lts Motors Event where
  init m := m = unused
  step m e m' := match e with
    | .ticksToFloppyOn nr selected => m' = m.ticksToFloppyOn nr selected
    | .floppyOff nr => m' = m.floppyOff nr
    | .select nr => m' = m.select nr
    | .tick => m' = m.doFloppyTimer

section

variable {m : Motors} {i j nr : Fin 4} {x : BitVec 8}

theorem mask_bit : (Motors.mask nr).getLsbD (4 + j) = decide (nr = j) := by
  unfold Motors.mask
  rw [BitVec.getLsbD_twoPow]
  have := nr.isLt
  simp [Fin.ext_iff]
  omega

theorem high_bits : ∀ j : Fin 4, (0xFC : BitVec 8).getLsbD (4 + j) = true ∧ (0xf0 : BitVec 8).getLsbD (4 + j) = true ∧
    (0xf0 : BitVec 8).getLsbD j = false := by decide

/-- The drive number is in the low bits. -/
theorem select_bit : ((x &&& 0xFC) ||| BitVec.ofNat 8 nr).getLsbD (4 + j) = x.getLsbD (4 + j) := by
  have hlow : (BitVec.ofNat 8 nr).getLsbD (4 + j) = false := by
    rw [BitVec.getLsbD_ofNat, Nat.testBit_lt_two_pow (Nat.lt_of_lt_of_le nr.isLt ?_)]
    · exact Bool.and_false _
    · exact (show 4 ≤ 2 ^ 4 by decide).trans (Nat.pow_le_pow_right (by decide) (Nat.le_add_right ..))
  rw [BitVec.getLsbD_or, BitVec.getLsbD_and, hlow, (high_bits j).1, Bool.or_false, Bool.and_true]

theorem wanted_bit (selected : Bool) : (m.wanted nr selected).getLsbD (4 + j) = (decide (nr = j) || m.motor j) := by
  unfold Motors.wanted
  cases selected with
  | true => rw [if_pos rfl, BitVec.getLsbD_or, mask_bit, Motors.motor]
  | false => rw [if_neg Bool.false_ne_true, select_bit, BitVec.getLsbD_or, mask_bit, Motors.motor]

/-- The high bits change exactly when the motor was off. -/
theorem wanted_high (selected : Bool) : (m.wanted nr selected ^^^ m.dor) &&& 0xf0 ≠ 0 ↔ m.motor nr = false := by
  have hbit : ∀ j : Fin 4, ((m.wanted nr selected ^^^ m.dor) &&& 0xf0).getLsbD (4 + j) = (decide (nr = j) && !m.motor j) := fun j => by
    have hm : m.dor.getLsbD (4 + j) = m.motor j := rfl
    rw [BitVec.getLsbD_and, BitVec.getLsbD_xor, wanted_bit, (high_bits j).2.1, Bool.and_true, hm]
    cases m.motor j <;> cases decide (nr = j) <;> rfl
  refine ⟨fun hne => ?_, fun hoff h0 => ?_⟩
  · by_contra hon
    refine hne (BitVec.eq_of_getLsbD_eq fun k hk => Eq.trans ?_ BitVec.getLsbD_zero.symm)
    obtain hlt | hge := Nat.lt_or_ge k 4
    · have hlow := (high_bits ⟨k, hlt⟩).2.2
      rw [BitVec.getLsbD_and, hlow, Bool.and_false]
    · obtain ⟨d, rfl⟩ := Nat.exists_eq_add_of_le hge
      have hd := hbit ⟨d, by omega⟩
      by_cases he : nr = ⟨d, by omega⟩
      · have hm : m.motor ⟨d, by omega⟩ = true := he ▸ Bool.eq_true_of_not_eq_false hon
        rw [hm] at hd
        exact hd.trans (Bool.and_false _)
      · rw [decide_eq_false he] at hd
        exact hd
  · have := hbit nr
    rw [h0, hoff, decide_eq_true rfl] at this
    exact Bool.false_ne_true (BitVec.getLsbD_zero.symm.trans this)

theorem motor_select : (m.select nr).motor j = m.motor j := select_bit

/-- `ticks_to_floppy_on` leaves the motor on. It starts the timer when the motor was off, and else
    raises it to 2 or leaves it. -/
theorem ticksToFloppyOn_spec (m : Motors) (nr : Fin 4) (selected : Bool) : ∃ t d on,
    m.ticksToFloppyOn nr selected = ⟨Function.update m.mon nr t, Function.update m.moff nr 10000, d, on,
      Function.update m.since nr 0, Function.update m.grace nr 10000, Function.update m.ran nr true⟩ ∧
    (∀ j : Fin 4, d.getLsbD (4 + j) = (decide (nr = j) || m.motor j)) ∧
    (m.motor nr = true ∧ on = m.on ∧ (t = m.mon nr ∨ m.mon nr < 2 ∧ t = 2) ∨
      m.motor nr = false ∧ on = Function.update m.on nr 0 ∧ t = HZ / 2) := by
  have hw : ∀ j : Fin 4, (m.wanted nr selected).getLsbD (4 + j) = (decide (nr = j) || m.motor j) := fun j => wanted_bit selected
  have hself : m.mon = Function.update m.mon nr (m.mon nr) := (Function.update_eq_self ..).symm
  unfold Motors.ticksToFloppyOn
  dsimp only
  by_cases hne : m.wanted nr selected ≠ m.dor
  · rw [if_pos hne]
    by_cases hh : (m.wanted nr selected ^^^ m.dor) &&& 0xf0 ≠ 0
    · rw [if_pos hh]
      exact ⟨_, _, _, rfl, hw, .inr ⟨(wanted_high selected).mp hh, rfl, rfl⟩⟩
    · have hon : m.motor nr = true := Bool.eq_true_of_not_eq_false fun h => hh ((wanted_high selected).mpr h)
      rw [if_neg hh]
      by_cases h2 : m.mon nr < 2
      · rw [if_pos h2]
        exact ⟨_, _, _, rfl, hw, .inl ⟨hon, rfl, .inr ⟨h2, rfl⟩⟩⟩
      · rw [if_neg h2]
        refine ⟨m.mon nr, _, m.on, ?_, hw, .inl ⟨hon, rfl, .inl rfl⟩⟩
        rw [← hself]
  · have heq : m.wanted nr selected = m.dor := not_not.mp hne
    have hon : m.motor nr = true := Bool.eq_true_of_not_eq_false fun h =>
      (wanted_high selected).mpr h (by rw [heq, BitVec.xor_self, BitVec.zero_and]; rfl)
    rw [if_neg hne]
    refine ⟨m.mon nr, m.dor, m.on, ?_, fun j => heq ▸ hw j, .inl ⟨hon, rfl, .inl rfl⟩⟩
    rw [← hself]

/-- What the loop reads and writes of a drive. -/
def drive (m : Motors) (j : Fin 4) : Bool × ℕ × ℕ := (m.motor j, m.mon j, m.moff j)

/-- A tick for one drive. -/
def counted : Bool × ℕ × ℕ → Bool × ℕ × ℕ
  | (false, mon, moff) => (false, mon, moff)
  | (true, mon + 1, moff) => (true, mon, moff)
  | (true, 0, 0) => (false, 0, 0)
  | (true, 0, moff + 1) => (true, 0, moff)

/-- A round of the loop leaves the history alone, -/
theorem round_history : (m.round i).on = m.on ∧ (m.round i).since = m.since ∧ (m.round i).grace = m.grace ∧
    (m.round i).ran = m.ran := by
  unfold Motors.round
  split_ifs <;> exact ⟨rfl, rfl, rfl, rfl⟩

theorem motor_off : (m.dor &&& ~~~Motors.mask i).getLsbD (4 + j) = (m.motor j && !decide (i = j)) := by
  rw [BitVec.getLsbD_and, BitVec.getLsbD_not, mask_bit, decide_eq_true (show 4 + j.val < 8 by omega), Bool.true_and]
  rfl

/-- and the other drives. -/
theorem drive_round_of_ne (h : i ≠ j) : drive (m.round i) j = drive m j := by
  unfold Motors.round
  split_ifs
  · exact congrArg (fun t => (m.motor j, t, m.moff j)) (Function.update_of_ne h.symm ..)
  · refine congrArg (·, m.mon j, m.moff j) (motor_off.trans ?_)
    rw [decide_eq_false h]
    exact Bool.and_true _
  · exact congrArg (fun t => (m.motor j, m.mon j, t)) (Function.update_of_ne h.symm ..)
  · rfl

theorem drive_round_self : drive (m.round i) i = counted (drive m i) := by
  unfold Motors.round
  split_ifs with hon hmon hmoff
  · obtain ⟨t, ht⟩ := Nat.exists_eq_succ_of_ne_zero hmon
    have hd : drive m i = (true, t + 1, m.moff i) := by rw [drive, hon, ht]
    rw [hd, ht, Nat.succ_sub_one]
    exact congrArg₂ (fun x y => (x, y, m.moff i)) hon (Function.update_self ..)
  · have hd : drive m i = (true, 0, 0) := by rw [drive, hon, not_not.mp hmon, hmoff]
    rw [hd]
    refine congrArg₂ Prod.mk (motor_off.trans ?_) (congrArg₂ Prod.mk (not_not.mp hmon) hmoff)
    rw [decide_eq_true rfl]
    exact Bool.and_false _
  · obtain ⟨t, ht⟩ := Nat.exists_eq_succ_of_ne_zero hmoff
    have hd : drive m i = (true, 0, t + 1) := by rw [drive, hon, not_not.mp hmon, ht]
    rw [hd, ht, Nat.succ_sub_one]
    exact congrArg₂ Prod.mk hon (congrArg₂ Prod.mk (not_not.mp hmon) (Function.update_self ..))
  · have hd : drive m i = (false, m.mon i, m.moff i) := congrArg (·, m.mon i, m.moff i) (Bool.eq_false_iff.mpr hon)
    rw [hd]
    rfl

theorem drive_foldl : ∀ (l : List (Fin 4)) (m : Motors), l.Nodup →
    drive (l.foldl Motors.round m) j = if j ∈ l then counted (drive m j) else drive m j
  | [], _, _ => (if_neg List.not_mem_nil).symm
  | i :: l, m, hnd => by
    obtain ⟨hi, hl⟩ := List.nodup_cons.mp hnd
    rw [List.foldl_cons, drive_foldl l _ hl]
    by_cases he : i = j
    · subst he
      rw [if_neg hi, drive_round_self, if_pos List.mem_cons_self]
    · simp only [drive_round_of_ne he, List.mem_cons, Ne.symm he, false_or]

theorem history_foldl (l : List (Fin 4)) : (l.foldl Motors.round m).on = m.on ∧ (l.foldl Motors.round m).since = m.since ∧
    (l.foldl Motors.round m).grace = m.grace ∧ (l.foldl Motors.round m).ran = m.ran := by
  induction l generalizing m with
  | nil => exact ⟨rfl, rfl, rfl, rfl⟩
  | cons i l ih =>
    obtain ⟨h1, h2, h3, h4⟩ := round_history (m := m) (i := i)
    obtain ⟨g1, g2, g3, g4⟩ := ih (m := m.round i)
    exact ⟨g1.trans h1, g2.trans h2, g3.trans h3, g4.trans h4⟩

/-- A tick counts every drive once. -/
theorem doFloppyTimer_spec : drive m.doFloppyTimer j = counted (drive m j) ∧ m.doFloppyTimer.on j = m.on j + 1 ∧
    m.doFloppyTimer.since j = m.since j + 1 ∧ m.doFloppyTimer.grace j = m.grace j ∧ m.doFloppyTimer.ran j = m.ran j := by
  obtain ⟨h1, h2, h3, h4⟩ := history_foldl (m := m) (List.finRange 4)
  exact ⟨(drive_foldl _ m (List.nodup_finRange 4)).trans (if_pos (List.mem_finRange j)), congrArg (· j + 1) h1, congrArg (· j + 1) h2,
    congrFun h3 j, congrFun h4 j⟩

/-- The invariant of a drive, on what `drive` and the history say of it. -/
structure Timed (d : Bool × ℕ × ℕ) (on since grace : ℕ) (ran : Bool) : Prop where
  le : d.2.1 ≤ HZ / 2
  speed : d.1 = true → HZ / 2 ≤ on + d.2.1
  keeps : ran = true → d.1 = true ∧ grace ≤ d.2.2 + since ∨ grace < since
  stops : d.1 = true → d.2.1 + d.2.2 + since ≤ grace + HZ / 2

theorem Timed.counted {d : Bool × ℕ × ℕ} {on since grace : ℕ} {ran : Bool} (h : Timed d on since grace ran) :
    Timed (counted d) (on + 1) (since + 1) grace ran := by
  obtain ⟨hle, hspeed, hkeeps, hstops⟩ := h
  obtain ⟨_ | _, _ | mon, _ | moff⟩ := d
  all_goals
    unfold Motor.counted
    simp only [true_implies, false_implies, Bool.false_eq_true, true_and, false_and, false_or] at hle hspeed hkeeps hstops
    refine ⟨?_, fun hon => ?_, fun hran => ?_, fun hon => ?_⟩
  all_goals
    first
    | exact (Bool.false_ne_true hon).elim
    | have hk := hkeeps hran
      simp only [Bool.false_eq_true, true_and, false_and, false_or]
      omega
    | simp only
      omega

/-- Another drive is as before, whatever the call did to its own. -/
theorem Timed.of_eq {d d' : Bool × ℕ × ℕ} {on on' since since' grace grace' : ℕ} {ran ran' : Bool} (h : Timed d on since grace ran)
    (hd : d' = d) (h1 : on' = on) (h2 : since' = since) (h3 : grace' = grace) (h4 : ran' = ran) : Timed d' on' since' grace' ran' :=
  hd ▸ h1 ▸ h2 ▸ h3 ▸ h4 ▸ h

/-- `Timed` for a drive of a state. -/
def At (m : Motors) (j : Fin 4) : Prop := Timed (drive m j) (m.on j) (m.since j) (m.grace j) (m.ran j)

theorem At.ticksToFloppyOn (hm : At m j) (nr : Fin 4) (selected : Bool) : At (m.ticksToFloppyOn nr selected) j := by
  obtain ⟨t, d, on, heq, hd, hc⟩ := ticksToFloppyOn_spec m nr selected
  rw [heq]
  by_cases he : nr = j
  · subst he
    have hT : Timed (true, t, 10000) (on nr) 0 10000 true := by
      have hle : m.mon nr ≤ HZ / 2 := hm.le
      obtain ⟨hon, rfl, hc⟩ | ⟨hoff, rfl, rfl⟩ := hc
      · have hspeed : HZ / 2 ≤ m.on nr + m.mon nr := hm.speed hon
        refine ⟨?_, fun _ => ?_, fun _ => .inl ⟨rfl, Nat.le_refl _⟩, fun _ => ?_⟩
        all_goals
          simp only [HZ] at *
          omega
      · rw [Function.update_self]
        exact ⟨Nat.le_refl _, fun _ => Nat.le_add_left .., fun _ => .inl ⟨rfl, Nat.le_refl _⟩, fun _ => by decide⟩
    refine hT.of_eq ?_ rfl (Function.update_self ..) (Function.update_self ..) (Function.update_self ..)
    exact congrArg₂ Prod.mk ((hd nr).trans (by rw [decide_eq_true rfl, Bool.true_or]))
      (congrArg₂ Prod.mk (Function.update_self ..) (Function.update_self ..))
  · have hj := Ne.symm he
    refine hm.of_eq ?_ ?_ (Function.update_of_ne hj ..) (Function.update_of_ne hj ..) (Function.update_of_ne hj ..)
    · exact congrArg₂ Prod.mk ((hd j).trans (by rw [decide_eq_false he, Bool.false_or]))
        (congrArg₂ Prod.mk (Function.update_of_ne hj ..) (Function.update_of_ne hj ..))
    · obtain ⟨-, rfl, -⟩ | ⟨-, rfl, -⟩ := hc
      · rfl
      · exact Function.update_of_ne hj ..

theorem At.floppyOff (hm : At m j) (nr : Fin 4) : At (m.floppyOff nr) j := by
  by_cases he : nr = j
  · subst he
    have hT : Timed (m.motor nr, m.mon nr, 3 * HZ) (m.on nr) 0 (3 * HZ) (m.motor nr) := by
      have hle : m.mon nr ≤ HZ / 2 := hm.le
      exact ⟨hle, hm.speed, fun hran => .inl ⟨hran, Nat.le_refl _⟩,
        fun _ => Nat.add_comm (3 * HZ) _ ▸ Nat.add_le_add_left hle (3 * HZ)⟩
    exact hT.of_eq (congrArg (fun t => (m.motor nr, m.mon nr, t)) (Function.update_self ..)) rfl (Function.update_self ..)
      (Function.update_self ..) (Function.update_self ..)
  · have hj := Ne.symm he
    exact hm.of_eq (congrArg (fun t => (m.motor j, m.mon j, t)) (Function.update_of_ne hj ..)) rfl (Function.update_of_ne hj ..)
      (Function.update_of_ne hj ..) (Function.update_of_ne hj ..)

theorem reachable_at (h : motorSystem.Reachable m) (j : Fin 4) : At m j := by
  refine h.invariant (I := fun m => ∀ j, At m j) ?_ ?_ j
  · rintro _ rfl j
    have hoff : ∀ j : Fin 4, (0x0C : BitVec 8).getLsbD (4 + j) = false := by decide
    exact ⟨Nat.zero_le _, fun h => (Bool.false_ne_true ((hoff j).symm.trans h)).elim, fun h => (Bool.false_ne_true h).elim,
      fun h => (Bool.false_ne_true ((hoff j).symm.trans h)).elim⟩
  · rintro m e m' - hm hs j
    cases e with
    | ticksToFloppyOn nr selected =>
      cases hs
      exact (hm j).ticksToFloppyOn nr selected
    | floppyOff nr =>
      cases hs
      exact (hm j).floppyOff nr
    | select nr =>
      cases hs
      exact Timed.of_eq (hm j) (congrArg (·, _) motor_select) rfl rfl rfl rfl
    | tick =>
      cases hs
      obtain ⟨h1, h2, h3, h4, h5⟩ := doFloppyTimer_spec (m := m) (j := j)
      exact (hm j).counted.of_eq h1 h2 h3 h4 h5

/-- A drive that may be used (`ticks_to_floppy_on` is 0 for it) has had its motor on for half a second;
    behind the last call for a drive whose motor runs, the motor stays on for the 3 s, or the 100 s, that
    the call asked for, and it is off half a second later than that. -/
theorem motor_times (h : motorSystem.Reachable m) (i : Fin 4) :
    (m.motor i = true → m.mon i = 0 → HZ / 2 ≤ m.on i) ∧ (m.ran i = true → m.since i ≤ m.grace i → m.motor i = true) ∧
      (m.motor i = true → m.since i ≤ m.grace i + HZ / 2) := by
  have hm := reachable_at h i
  refine ⟨fun hon h0 => ?_, fun hran hsince => ?_, fun hon => ?_⟩
  · have hspeed : HZ / 2 ≤ m.on i + m.mon i := hm.speed hon
    rwa [h0, Nat.add_zero] at hspeed
  · obtain ⟨hon, -⟩ | hlt := hm.keeps hran
    · exact hon
    · exact absurd hsince (Nat.not_le.mpr hlt)
  · exact (Nat.le_add_left ..).trans (hm.stops hon)

end

/-- A drive that was switched on and released is still on after a tick. -/
theorem motor_times_released : let m := ((unused.ticksToFloppyOn 1 true).floppyOff 1).doFloppyTimer
    m.motor 1 = true ∧ m.since 1 ≤ 350 := by
  have hr : motorSystem.Reachable ((unused.ticksToFloppyOn 1 true).floppyOff 1).doFloppyTimer :=
    .step (e := .tick) (.step (e := .floppyOff 1) (.step (e := .ticksToFloppyOn 1 true) (.init rfl) rfl) rfl) rfl
  have hon := (motor_times hr 1).2.1 (by decide) (by decide)
  exact ⟨hon, (motor_times hr 1).2.2 hon⟩

end Linux011.Blk.Motor

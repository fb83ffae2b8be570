/-
  `kernel_mktime` (kernel/mktime.c). A result of an operation goes through `word`, which says what a
  long can hold; the calendar is the Gregorian one.
-/
import Linux011.Lib.Sizes
import Mathlib.Algebra.BigOperators.Intervals

namespace Linux011.Kernel

def MINUTE : ℤ := 60
def HOUR : ℤ := 60 * MINUTE
def DAY : ℤ := 24 * HOUR
def YEAR : ℤ := 365 * DAY

/-- `month[12]`, in days. -/
def monthStart : List ℤ := [0, 31, 60, 91, 121, 152, 182, 213, 244, 274, 305, 335]

/-- `struct tm`, as far as it is read. -/
structure Tm where
  tmSec : ℤ
  tmMin : ℤ
  tmHour : ℤ
  tmMday : ℤ
  tmMon : ℤ
  tmYear : ℤ

def kernelMktime (word : ℤ → Option ℤ) (tm : Tm) : Option ℤ := do
  let year ← word (tm.tmYear - 70)
  let years ← word (YEAR * year)
  let y1 ← word (year + 1)
  let leaps ← word (DAY * y1.tdiv 4)
  let res ← word (years + leaps)
  let month ← (if tm.tmMon < 0 then none else monthStart[tm.tmMon.toNat]?)
  let res ← word (res + DAY * month)
  let y2 ← word (year + 2)
  -- the table assumes a leap year
  let res ← (if 1 < tm.tmMon ∧ y2.tmod 4 ≠ 0 then word (res - DAY) else some res)
  let mday ← word (tm.tmMday - 1)
  let days ← word (DAY * mday)
  let res ← word (res + days)
  let hours ← word (HOUR * tm.tmHour)
  let res ← word (res + hours)
  let minutes ← word (MINUTE * tm.tmMin)
  let res ← word (res + minutes)
  word (res + tm.tmSec)

/-- A 32-bit long. -/
def long32 (v : ℤ) : Option ℤ := if -2 ^ 31 ≤ v ∧ v < 2 ^ 31 then some v else none

/-! ## The calendar -/

def Leap (year : ℕ) : Prop := 4 ∣ year ∧ (¬ 100 ∣ year ∨ 400 ∣ year)

instance (year : ℕ) : Decidable (Leap year) := inferInstanceAs (Decidable (_ ∧ _))

def yearDays (year : ℕ) : ℕ := if Leap year then 366 else 365

/-- Month 0 is January. -/
def monthDays (year month : ℕ) : ℕ :=
  if month = 1 then if Leap year then 29 else 28
  else if month = 3 ∨ month = 5 ∨ month = 8 ∨ month = 10 then 30 else 31

/-- A date and time from 1970 to 2099. -/
structure Date where
  year : ℕ
  month : ℕ
  mday : ℕ
  hour : ℕ
  min : ℕ
  sec : ℕ
  hyear : 1970 ≤ year ∧ year ≤ 2099
  hmonth : month < 12
  hmday : 1 ≤ mday ∧ mday ≤ monthDays year month
  hhour : hour < 24
  hmin : min < 60
  hsec : sec < 60

namespace Date

variable (d : Date)

def tm : Tm := ⟨d.sec, d.min, d.hour, d.mday, d.month, (d.year : ℤ) - 1900⟩

/-- The days since 1970-01-01. -/
def days : ℕ := ∑ y ∈ Finset.Ico 1970 d.year, yearDays y + ∑ m ∈ Finset.range d.month, monthDays d.year m + (d.mday - 1)

def seconds : ℕ := 86400 * d.days + (3600 * d.hour + 60 * d.min + d.sec)

end Date

theorem leap_iff {n : ℕ} (h : n < 130) : Leap (1970 + n) ↔ (n + 2) % 4 = 0 := by
  unfold Leap
  omega

/-- Up to 2099 every fourth year is a leap year. -/
theorem sum_yearDays {n : ℕ} (h : n ≤ 130) : ∑ y ∈ Finset.Ico 1970 (1970 + n), yearDays y = 365 * n + (n + 1) / 4 := by
  induction n with
  | zero => rfl
  | succ n ih =>
    rw [← Nat.add_assoc, Finset.sum_Ico_succ_top (Nat.le_add_right 1970 n), ih (by omega)]
    unfold yearDays
    by_cases hl : Leap (1970 + n)
    · have h4 := (leap_iff (by omega)).mp hl
      rw [if_pos hl]
      omega
    · have h4 := mt (leap_iff (by omega)).mpr hl
      rw [if_neg hl]
      omega

theorem monthDays_congr {year year' : ℕ} (h : Leap year ↔ Leap year') (month : ℕ) :
    monthDays year month = monthDays year' month := by
  unfold monthDays
  simp only [h]

/-- The table, for a year of either length. -/
theorem monthStart_table : ∀ year ∈ [1970, 1972], ∀ month < 12,
    monthStart[month]? = some ((monthStart.getD month 0).toNat : ℤ) ∧ (monthStart.getD month 0).toNat ≤ 335 ∧
    (1 < month → 60 ≤ (monthStart.getD month 0).toNat) ∧
    (monthStart.getD month 0).toNat = ∑ m ∈ Finset.range month, monthDays year m + (if 1 < month ∧ ¬ Leap year then 1 else 0) := by
  decide

/-- The table is that of a leap year. -/
theorem monthStart_eq (year : ℕ) {month : ℕ} (h : month < 12) : ∃ start : ℕ, monthStart[month]? = some (start : ℤ) ∧
    start ≤ 335 ∧ (1 < month → 60 ≤ start) ∧
    start = ∑ m ∈ Finset.range month, monthDays year m + (if 1 < month ∧ ¬ Leap year then 1 else 0) := by
  obtain ⟨year', hyear', hl⟩ : ∃ year' ∈ [1970, 1972], (Leap year ↔ Leap year') := by
    by_cases hl : Leap year
    · exact ⟨1972, by decide, iff_of_true hl (by decide)⟩
    · exact ⟨1970, by decide, iff_of_false hl (by decide)⟩
  simp only [monthDays_congr hl, hl]
  exact ⟨_, monthStart_table year' hyear' month h⟩

/-- The days as `kernel_mktime` adds them up. -/
theorem Date.days_eq (d : Date) : ∃ n start : ℕ, d.year = 1970 + n ∧ (Leap d.year ↔ (n + 2) % 4 = 0) ∧
    monthStart[d.month]? = some (start : ℤ) ∧ start ≤ 335 ∧ (1 < d.month → 60 ≤ start) ∧
    d.days + (if 1 < d.month ∧ ¬ Leap d.year then 1 else 0) = 365 * n + (n + 1) / 4 + start + (d.mday - 1) := by
  obtain ⟨n, hn⟩ := Nat.exists_eq_add_of_le d.hyear.1
  have hlast := d.hyear.2
  obtain ⟨start, hstart, hle, hge, hsum⟩ := monthStart_eq d.year d.hmonth
  refine ⟨n, start, hn, hn ▸ leap_iff (by omega), hstart, hle, hge, ?_⟩
  unfold Date.days
  rw [hsum, hn, sum_yearDays (by omega)]
  omega

section

variable {word : ℤ → Option ℤ} {B : ℤ} (hw : ∀ v, 0 ≤ v → v ≤ B → word v = some v)

include hw

theorem word_bind {v : ℤ} (f : ℤ → Option ℤ) (h0 : 0 ≤ v) (h1 : v ≤ B) : (word v >>= f) = f v := by
  rw [hw v h0 h1]
  rfl

/-- The years and the months, up to the correction for February. -/
theorem years_eq {n start : ℕ} (f : ℤ → ℤ → Option ℤ) (hn : n ≤ 129) (hyears : 131 ≤ B)
    (hB : 31536000 * n + 86400 * ((n + 1) / 4 : ℕ) + 86400 * start ≤ B) : (do
      let year ← word n
      let years ← word (31536000 * year)
      let y1 ← word (year + 1)
      let leaps ← word (86400 * y1.tdiv 4)
      let res ← word (years + leaps)
      let month ← some (start : ℤ)
      let res ← word (res + 86400 * month)
      let y2 ← word (year + 2)
      f y2 res) = f (n + 2) (31536000 * n + 86400 * ((n + 1) / 4 : ℕ) + 86400 * start) := by
  refine (word_bind hw _ (by omega) (by omega)).trans ((word_bind hw _ (by omega) (by omega)).trans ?_)
  refine (word_bind hw _ (by omega) (by omega)).trans ?_
  change (word (86400 * ((n + 1) / 4 : ℕ)) >>= _) = _
  refine (word_bind hw _ (by omega) (by omega)).trans ((word_bind hw _ (by omega) (by omega)).trans ?_)
  exact (word_bind hw _ (by omega) (by omega)).trans (word_bind hw _ (by omega) (by omega))

/-- The days of the month and the time of day, behind the months. -/
theorem clock_eq {res mday hour min sec : ℤ} (hres : 0 ≤ res) (hmday : 0 ≤ mday) (hhour : 0 ≤ hour) (hmin : 0 ≤ min)
    (hsec : 0 ≤ sec) (hB : res + 86400 * mday + 3600 * hour + 60 * min + sec ≤ B) : (do
      let mday ← word mday
      let days ← word (86400 * mday)
      let res ← word (res + days)
      let hours ← word (3600 * hour)
      let res ← word (res + hours)
      let minutes ← word (60 * min)
      let res ← word (res + minutes)
      word (res + sec)) = some (res + 86400 * mday + 3600 * hour + 60 * min + sec) := by
  refine (word_bind hw _ hmday (by omega)).trans ((word_bind hw _ (by omega) (by omega)).trans ?_)
  refine (word_bind hw _ (by omega) (by omega)).trans ((word_bind hw _ (by omega) (by omega)).trans ?_)
  refine (word_bind hw _ (by omega) (by omega)).trans ((word_bind hw _ (by omega) (by omega)).trans ?_)
  exact (word_bind hw _ (by omega) (by omega)).trans (hw _ (by omega) hB)

/-- Whatever `word` refuses, it keeps the numbers of the computation: the last day of the year is the
    highest that may be taken off again. -/
theorem kernelMktime_eq (hyears : 131 ≤ B) (d : Date)
    (hB : (d.seconds : ℤ) ≤ B) (hfeb : 1 < d.month → ¬ Leap d.year → (d.seconds : ℤ) + DAY ≤ B) :
    kernelMktime word d.tm = some (d.seconds : ℤ) := by
  obtain ⟨n, start, hn, hleap, hstart, -, -, hdays⟩ := d.days_eq
  have hlast : n ≤ 129 := by
    have := d.hyear.2
    omega
  have htm : d.tm.tmYear - 70 = n := by
    change (d.year : ℤ) - 1900 - 70 = n
    omega
  have hmod : ((n : ℤ) + 2).tmod 4 = ((n + 2) % 4 : ℕ) := rfl
  have hmonth : (if d.tm.tmMon < 0 then none else monthStart[d.tm.tmMon.toNat]?) = some (start : ℤ) :=
    (if_neg (Int.not_lt.mpr (Int.natCast_nonneg d.month))).trans hstart
  have hmon : 1 < d.tm.tmMon ↔ 1 < d.month := Int.ofNat_lt (n := 1)
  obtain ⟨mday, hmday⟩ := Nat.exists_eq_add_of_le' d.hmday.1
  have hmday' : d.tm.tmMday - 1 = mday := by
    change (d.mday : ℤ) - 1 = mday
    omega
  have hday : DAY = 86400 := rfl
  -- the days before the month
  obtain ⟨before, hbefore⟩ : ∃ before, d.days = before + mday :=
    Nat.exists_eq_add_of_le' (by have : d.mday - 1 ≤ d.days := Nat.le_add_left ..; omega)
  have hseconds : (d.seconds : ℤ) = 86400 * before + 86400 * mday + 3600 * d.hour + 60 * d.min + d.sec := by
    have : d.seconds = 86400 * d.days + (3600 * d.hour + 60 * d.min + d.sec) := rfl
    rw [this, hbefore]
    clear hfeb hdays hmonth hleap
    omega
  rw [hbefore, hmday] at hdays
  rw [hseconds, hday] at hfeb
  rw [hseconds] at hB ⊢
  -- the correction for February
  have hcorrect : 31536000 * n + 86400 * ((n + 1) / 4 : ℕ) + 86400 * start ≤ B ∧
      (if 1 < d.tm.tmMon ∧ ((n : ℤ) + 2).tmod 4 ≠ 0
        then word (31536000 * n + 86400 * ((n + 1) / 4 : ℕ) + 86400 * start - 86400)
        else some (31536000 * n + 86400 * ((n + 1) / 4 : ℕ) + 86400 * start)) = some (86400 * before : ℤ) := by
    clear hseconds hbefore hmonth hstart htm hlast hn
    by_cases hc : 1 < d.month ∧ ¬ Leap d.year
    · have hfeb' := hfeb hc.1 hc.2
      rw [if_pos hc] at hdays
      have hsum : (31536000 * n + 86400 * ((n + 1) / 4 : ℕ) + 86400 * start : ℤ) - 86400 = 86400 * before := by omega
      rw [if_pos ⟨hmon.mpr hc.1, by rw [hmod]; exact Int.natCast_ne_zero.mpr (mt hleap.mpr hc.2)⟩, hsum]
      exact ⟨by omega, hw _ (by omega) (by omega)⟩
    · rw [if_neg hc] at hdays
      have hsum : (31536000 * n + 86400 * ((n + 1) / 4 : ℕ) + 86400 * start : ℤ) = 86400 * before := by omega
      rw [if_neg fun h => hc ⟨hmon.mp h.1, fun hl => h.2 (by rw [hmod, hleap.mp hl]; rfl)⟩, hsum]
      exact ⟨by omega, rfl⟩
  unfold kernelMktime
  rw [htm, hmonth, hmday']
  refine (years_eq hw (fun y2 res => (if 1 < d.tm.tmMon ∧ y2.tmod 4 ≠ 0 then word (res - 86400) else some res) >>= _) hlast
    hyears hcorrect.1).trans ?_
  refine (congrArg (· >>= _) hcorrect.2).trans ?_
  exact clock_eq hw (Int.natCast_nonneg _) (Int.natCast_nonneg _) (Int.natCast_nonneg _) (Int.natCast_nonneg _)
    (Int.natCast_nonneg _) hB

end

/-- From 1970 to 2099 `kernel_mktime` counts the seconds since 1970, and up to 2 ^ 31 - 1, which is
    2038-01-19 03:14:07, every number on the way fits in a long. -/
theorem kernel_mktime_exact (d : Date) : kernelMktime some d.tm = some (d.seconds : ℤ) ∧
    (d.seconds ≤ 2 ^ 31 - 1 → kernelMktime long32 d.tm = some (d.seconds : ℤ)) := by
  have hday : DAY = 86400 := rfl
  constructor
  · exact kernelMktime_eq (B := d.seconds + 86400) (fun _ _ _ => rfl) (by omega) d (by omega) fun _ _ => by omega
  · intro h
    refine kernelMktime_eq (B := 2 ^ 31 - 1) (fun v h0 h1 => if_pos ⟨by omega, by omega⟩) (by decide) d (by omega) fun hm hl => ?_
    obtain ⟨n, start, -, -, -, hle, hge, hdays⟩ := d.days_eq
    have hmday : d.mday ≤ 31 := d.hmday.2.trans (by unfold monthDays; split_ifs <;> decide)
    have hseconds : d.seconds = 86400 * d.days + (3600 * d.hour + 60 * d.min + d.sec) := rfl
    have hhour := d.hhour
    have hmin := d.hmin
    have hsec := d.hsec
    rw [if_pos ⟨hm, hl⟩] at hdays
    -- 2038 gets no further than January
    have hn : n ≤ 67 := by
      have := hge hm
      omega
    omega

/-- 2038-01-19 03:14:07 -/
def lastSecond : Date := ⟨2038, 0, 19, 3, 14, 7, by decide, by decide, by decide, by decide, by decide, by decide⟩

theorem kernel_mktime_last : lastSecond.seconds = 2 ^ 31 - 1 ∧ kernelMktime long32 lastSecond.tm = some (lastSecond.seconds : ℤ) :=
  ⟨by decide, (kernel_mktime_exact lastSecond).2 (by decide)⟩

end Linux011.Kernel

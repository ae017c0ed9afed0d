import Mathlib

/-! The proleptic Gregorian calendar on day numbers, day 0 being 1 January of
year 1. Months are counted through the years: month `12 * y + k` is the month
number `k + 1` of year `y`, so stepping over a year boundary is plain addition. -/
namespace Leibrix.Gregorian

def isLeap (y : Int) : Bool := y % 4 = 0 && (y % 100 ≠ 0 || y % 400 = 0)

def daysBeforeYear (y : Int) : Int :=
  365 * (y - 1) + (y - 1) / 4 - (y - 1) / 100 + (y - 1) / 400

def leapDay (y : Int) : Int := if isLeap y then 1 else 0

def daysBefore (y k : Int) : Int :=
  if k ≤ 0 then 0 else if k = 1 then 31 else
  leapDay y + if k = 2 then 59 else if k = 3 then 90 else if k = 4 then 120
    else if k = 5 then 151 else if k = 6 then 181 else if k = 7 then 212 else if k = 8 then 243
    else if k = 9 then 273 else if k = 10 then 304 else if k = 11 then 334 else 365

def monthLength (y k : Int) : Int :=
  if k = 1 then 28 + leapDay y else if k = 3 ∨ k = 5 ∨ k = 8 ∨ k = 10 then 30 else 31

def monthStart (m : Int) : Int := daysBeforeYear (m / 12) + daysBefore (m / 12) (m % 12)

def yearOf (n : Int) : Int :=
  -- the year a day belongs to: the mean year length gives it up to one
  let y := 400 * n / 146097 + 1
  if n < daysBeforeYear y then y - 1 else if daysBeforeYear (y + 1) ≤ n then y + 1 else y

def monthIn (y yday : Int) : Nat → Int
  | 0 => 0
  | k + 1 => if daysBefore y (k + 1) ≤ yday then k + 1 else monthIn y yday k

def monthOf (n : Int) : Int :=
  12 * yearOf n + monthIn (yearOf n) (n - daysBeforeYear (yearOf n)) 11

-- Days from 1 March of year 0 to 1 March of year `y`: the leap day ends a year that begins in
-- March.
def marchDays (y : Int) : Int := 365 * y + y / 4 - y / 100 + y / 400

-- Sunday is 0.
def dayOfWeek (n : Int) : Int := (n + 1) % 7

theorem daysBeforeYear_succ (y : Int) :
    daysBeforeYear (y + 1) = daysBeforeYear y + 365 + leapDay y := by
  unfold daysBeforeYear leapDay isLeap
  split_ifs with h
  · simp only [Bool.and_eq_true, Bool.or_eq_true, decide_eq_true_eq] at h
    omega
  · simp only [Bool.and_eq_true, Bool.or_eq_true, decide_eq_true_eq] at h
    omega

theorem yearOf_le (n : Int) : daysBeforeYear (yearOf n) ≤ n := by
  unfold yearOf daysBeforeYear
  dsimp only
  split_ifs <;> omega

theorem lt_yearOf_succ (n : Int) : n < daysBeforeYear (yearOf n + 1) := by
  unfold yearOf daysBeforeYear
  dsimp only
  split_ifs <;> omega

theorem leapDay_bounds (y : Int) : 0 ≤ leapDay y ∧ leapDay y ≤ 1 := by
  unfold leapDay
  split_ifs <;> omega

theorem daysBefore_succ (y k : Int) (h0 : 0 ≤ k) (h12 : k < 12) :
    daysBefore y (k + 1) = daysBefore y k + monthLength y k := by
  interval_cases k <;> simp [daysBefore, monthLength] <;> omega

theorem monthLength_bounds (y k : Int) : 28 ≤ monthLength y k ∧ monthLength y k ≤ 31 := by
  have hl := leapDay_bounds y
  unfold monthLength
  split_ifs <;> omega

theorem monthStart_succ (m : Int) :
    monthStart (m + 1) = monthStart m + monthLength (m / 12) (m % 12) := by
  have hs := daysBefore_succ (m / 12) (m % 12) (by omega) (by omega)
  rcases eq_or_ne (m % 12) 11 with hm | hm
  · -- December: the next month is January of the next year
    have hd : (m + 1) / 12 = m / 12 + 1 := by omega
    have hr : (m + 1) % 12 = 0 := by omega
    have hj : daysBefore (m / 12 + 1) 0 = 0 := by simp [daysBefore]
    have he : daysBefore (m / 12) (11 + 1) = leapDay (m / 12) + 365 := by simp [daysBefore]
    rw [hm, he] at hs
    rw [monthStart, monthStart, hd, hr, hj, hm, daysBeforeYear_succ]
    omega
  · have hd : (m + 1) / 12 = m / 12 := by omega
    have hr : (m + 1) % 12 = m % 12 + 1 := by omega
    rw [monthStart, monthStart, hd, hr, hs]
    omega

theorem monthStart_strictMono : StrictMono monthStart := by
  refine strictMono_of_lt_succ fun m _ => ?_
  have hb := monthLength_bounds (m / 12) (m % 12)
  rw [Order.succ_eq_add_one, monthStart_succ]
  omega

theorem monthIn_bounds (y yday : Int) (k : Nat) :
    0 ≤ monthIn y yday k ∧ monthIn y yday k ≤ k := by
  induction k with
  | zero => simp [monthIn]
  | succ k ih =>
    simp only [monthIn]
    split_ifs <;> push_cast <;> omega

/-- A day of the year lies between the start of its month and the next start. -/
theorem monthIn_spec (y yday : Int) (k : Nat) (h0 : 0 ≤ yday) (hk : yday < daysBefore y (k + 1)) :
    daysBefore y (monthIn y yday k) ≤ yday ∧ yday < daysBefore y (monthIn y yday k + 1) := by
  induction k with
  | zero => exact ⟨by simpa [monthIn, daysBefore] using h0, by simpa [monthIn] using hk⟩
  | succ k ih =>
    simp only [monthIn]
    split_ifs with h
    · exact ⟨h, by exact_mod_cast hk⟩
    · exact ih (by omega)

theorem monthOf_spec (n : Int) : monthStart (monthOf n) ≤ n ∧ n < monthStart (monthOf n + 1) := by
  have hlo := yearOf_le n
  have hhi := lt_yearOf_succ n
  rw [daysBeforeYear_succ] at hhi
  have hd : daysBefore (yearOf n) ((11 : Nat) + 1) = leapDay (yearOf n) + 365 := by
    simp [daysBefore]
  have hb := monthIn_bounds (yearOf n) (n - daysBeforeYear (yearOf n)) 11
  obtain ⟨h1, h2⟩ := monthIn_spec (yearOf n) (n - daysBeforeYear (yearOf n)) 11
    (by omega) (by omega)
  rw [daysBefore_succ _ _ hb.1 (by omega)] at h2
  rw [monthStart_succ]
  unfold monthStart monthOf
  generalize monthIn (yearOf n) (n - daysBeforeYear (yearOf n)) 11 = k at *
  have hq : (12 * yearOf n + k) / 12 = yearOf n := by omega
  have hr : (12 * yearOf n + k) % 12 = k := by omega
  rw [hq, hr]
  omega

/-- The month of a day is the only one whose days include it. -/
theorem monthOf_eq {n m : Int} (h1 : monthStart m ≤ n) (h2 : n < monthStart (m + 1)) :
    monthOf n = m := by
  obtain ⟨g1, g2⟩ := monthOf_spec n
  have ha : monthOf n < m + 1 := monthStart_strictMono.lt_iff_lt.mp (g1.trans_lt h2)
  have hb : m < monthOf n + 1 := monthStart_strictMono.lt_iff_lt.mp (h1.trans_lt g2)
  omega

theorem daysBeforeYear_add_one (y : Int) : daysBeforeYear (y + 1) = marchDays y := by
  simp only [daysBeforeYear, marchDays, add_sub_cancel_right]

theorem marchDays_add_400 (y k : Int) : marchDays (y + 400 * k) = marchDays y + 146097 * k := by
  unfold marchDays
  omega

/-- Counted from March, with January and February as months 13 and 14 of the year before, the
months of a year start after a linear number of days, rounded down. -/
theorem monthStart_march (y a : Int) (h3 : 3 ≤ a) (h14 : a ≤ 14) :
    monthStart (12 * y + (a - 1)) = marchDays y - 306 + (153 * a - 457) / 5 := by
  have hnext := daysBeforeYear_succ y
  have hmarch := daysBeforeYear_add_one y
  by_cases ha : a ≤ 12
  · have hq : (12 * y + (a - 1)) / 12 = y := by omega
    have hr : (12 * y + (a - 1)) % 12 = a - 1 := by omega
    rw [monthStart, hq, hr]
    interval_cases a <;> simp [daysBefore] <;> omega
  · have hq : (12 * y + (a - 1)) / 12 = y + 1 := by omega
    have hr : (12 * y + (a - 1)) % 12 = a - 13 := by omega
    rw [monthStart, hq, hr]
    obtain rfl | rfl : a = 13 ∨ a = 14 := by omega
    · simp [daysBefore]
      omega
    · simp [daysBefore]
      omega

/-- A month has 28 to 31 days. -/
theorem monthStart_sub_bounds {m n : Int} (h : m ≤ n) :
    28 * (n - m) ≤ monthStart n - monthStart m ∧ monthStart n - monthStart m ≤ 31 * (n - m) := by
  induction n, h using Int.leInduction with
  | base => simp
  | succ n _ ih =>
    have hb := monthLength_bounds (n / 12) (n % 12)
    rw [monthStart_succ]
    omega

@[simp] theorem monthOf_monthStart (m : Int) : monthOf (monthStart m) = m :=
  monthOf_eq le_rfl (monthStart_strictMono (by omega))

end Leibrix.Gregorian

import Leibrix.GoTime

/-! Dates of 64-bit times. From 1 March of the year -292277022400 on, Go's arithmetic on
centuries is the Gregorian calendar. Before that day the number of the year wraps around in
64 bits, which moves a date by some hours; the seconds still are those of a calendar modulo
2⁶⁴. -/
namespace Leibrix.GoTime
open Leibrix.Gregorian Leibrix.Proto Leibrix.Utc

theorem marchDays_century (c r : Int) (h0 : 0 ≤ r) (h1 : r < 100) :
    marchDays (100 * c + r) = 146097 * c / 4 + 1461 * r / 4 := by
  have h4 : (100 * c + r) / 4 = 25 * c + r / 4 := by omega
  have h100 : (100 * c + r) / 100 = c := by omega
  have h400 : (100 * c + r) / 400 = c / 4 := by omega
  have hc : 146097 * c / 4 = 36524 * c + c / 4 := by omega
  have hr : 1461 * r / 4 = 365 * r + r / 4 := by omega
  rw [marchDays, h4, h100, h400, hc, hr]
  ring

theorem splitDays_bounds (days : Int) :
    0 ≤ (splitDays days).cyear ∧ (splitDays days).cyear < 100 ∧
      0 ≤ (splitDays days).ayday ∧ (splitDays days).ayday ≤ 365 := by
  simp only [splitDays]
  omega

theorem rounded_split (n k : Int) (hk : 0 < k) :
    k * ((4 * n + 3) / k) / 4 + (4 * n + 3) % k / 4 = n := by
  have h := Int.mul_ediv_add_emod (4 * n + 3) k
  have hr := Int.emod_nonneg (4 * n + 3) hk.ne'
  generalize k * ((4 * n + 3) / k) = a at *
  generalize (4 * n + 3) % k = b at *
  omega

theorem splitDays_spec (days : Int) :
    marchDays (100 * (splitDays days).century + (splitDays days).cyear) +
      (splitDays days).ayday = days := by
  obtain ⟨h0, h1, -, -⟩ := splitDays_bounds days
  have hcentury := rounded_split days 146097 (by decide)
  have hyear := rounded_split ((4 * days + 3) % 146097 / 4) 1461 (by decide)
  rw [marchDays_century _ _ h0 h1]
  simp only [splitDays]
  rw [add_assoc, hyear, hcentury]

theorem splitDays_lt (days : Int) :
    days < marchDays (100 * (splitDays days).century + (splitDays days).cyear + 1) := by
  obtain ⟨h0, h1, -, -⟩ := splitDays_bounds days
  by_cases hlast : (splitDays days).cyear < 99
  · have hcentury := rounded_split days 146097 (by decide)
    rw [add_assoc, marchDays_century _ _ (by omega) (by omega)]
    simp only [splitDays] at *
    generalize (4 * days + 3) % 146097 / 4 = cday at *
    omega
  · have hy : 100 * (splitDays days).century + (splitDays days).cyear + 1 =
        100 * ((splitDays days).century + 1) + 0 := by omega
    rw [hy, marchDays_century _ _ le_rfl (by decide)]
    simp only [splitDays]
    omega

theorem marchDays_absolute (y : Int) :
    marchDays (y - absoluteYears) = marchDays y + 306 - absoluteDays := by
  -- the absolute year is a multiple of 400: only the count of days shifts
  have hy : y - absoluteYears = y + 400 * -730692556 := by
    simp only [absoluteYears]
    ring
  rw [hy, marchDays_add_400]
  simp only [absoluteDays]
  ring

theorem amonth_bounds (days : Int) :
    3 ≤ (splitDays days).amonth ∧ (splitDays days).amonth ≤ 14 := by
  obtain ⟨-, -, h0, h365⟩ := splitDays_bounds days
  simp only [AbsDate.amonth]
  omega

theorem splitDays_index (days : Int) :
    12 * (splitDays days).year + ((splitDays days).month - 1) =
      12 * (100 * (splitDays days).century + (splitDays days).cyear - absoluteYears) +
        ((splitDays days).amonth - 1) := by
  simp only [AbsDate.year, AbsDate.month]
  ring

/-- `year` and `month` are those of the Gregorian calendar. -/
theorem splitDays_month (days : Int) :
    12 * (splitDays days).year + ((splitDays days).month - 1) = monthOf (days - absoluteDays) := by
  obtain ⟨-, -, h0, h365⟩ := splitDays_bounds days
  obtain ⟨h3, h14⟩ := amonth_bounds days
  have hspec := splitDays_spec days
  have hlast := splitDays_lt days
  rw [splitDays_index]
  generalize splitDays days = d at *
  have hday : (153 * d.amonth - 457) / 5 ≤ d.ayday ∧
      (d.amonth < 14 → d.ayday < (153 * (d.amonth + 1) - 457) / 5) := by
    simp only [AbsDate.amonth]
    omega
  refine (monthOf_eq ?_ ?_).symm
  · rw [monthStart_march _ _ h3 h14, marchDays_absolute]
    omega
  · by_cases hfeb : d.amonth < 14
    · rw [add_assoc, show d.amonth - 1 + 1 = d.amonth + 1 - 1 by ring,
        monthStart_march _ _ (by omega) (by omega), marchDays_absolute]
      omega
    · -- February is followed by the March of the next year
      have hnext : 12 * (100 * d.century + d.cyear - absoluteYears) + (d.amonth - 1) + 1 =
          12 * (100 * d.century + d.cyear + 1 - absoluteYears) + (3 - 1) := by omega
      rw [hnext, monthStart_march _ _ le_rfl (by decide), marchDays_absolute]
      omega

theorem splitDays_day (days : Int) : (splitDays days).day =
    days - absoluteDays - monthStart (monthOf (days - absoluteDays)) + 1 := by
  obtain ⟨-, -, h0, h365⟩ := splitDays_bounds days
  obtain ⟨h3, h14⟩ := amonth_bounds days
  have hspec := splitDays_spec days
  rw [← splitDays_month, splitDays_index, monthStart_march _ _ h3 h14, marchDays_absolute]
  simp only [AbsDate.day, AbsDate.amonth] at *
  omega

theorem marchDays_add_16 (y : Int) :
    marchDays (y + 16) = marchDays y + 5843 ∨ marchDays (y + 16) = marchDays y + 5844 := by
  have h4 : (y + 16) / 4 = y / 4 + 4 := by omega
  have h100 : (y + 16) / 100 = y / 100 ∨ (y + 16) / 100 = y / 100 + 1 := by omega
  have h400 : (y + 16) / 400 = (y + 16) / 100 / 4 ∧ y / 400 = y / 100 / 4 := by omega
  simp only [marchDays, h4, h400]
  omega


theorem monthStart_eq (m : Int) :
    monthStart m = marchDays ((m - 2) / 12) - 306 + (153 * ((m - 2) % 12 + 3) - 457) / 5 := by
  rw [← monthStart_march _ _ (by omega) (by omega)]
  congr 1
  omega

theorem dateToAbsDays_eq (m day y : Int)
    (hy : y = ((m - 2) / 12 + absoluteYears) % 18446744073709551616) :
    dateToAbsDays (m / 12) (m % 12 + 1) day =
      146097 * (y / 100) % 18446744073709551616 / 4 + 1461 * (y % 100) / 4 +
        (153 * ((m - 2) % 12 + 3) - 457) / 5 + (day - 1) := by
  -- January and February belong to the year that began in the March before
  have hjan : m / 12 - (if m % 12 + 1 < 3 then 1 else 0) = (m - 2) / 12 := by
    split_ifs <;> omega
  have hamonth : m % 12 + 1 + 12 * (if m % 12 + 1 < 3 then 1 else 0) = (m - 2) % 12 + 3 := by
    split_ifs <;> omega
  simp only [dateToAbsDays, hjan, hamonth, ← hy]
  ring

theorem marchDays_eq (y : Int) : marchDays y = 146097 * (y / 100) / 4 + 1461 * (y % 100) / 4 := by
  rw [← marchDays_century _ _ (by omega) (by omega)]
  congr 1
  omega

/-- From the absolute year on, `Date` counts the days of the Gregorian calendar. -/
theorem dateToAbsDays_of_era {m : Int} (day : Int) (h0 : 2 - 12 * absoluteYears ≤ m)
    (h1 : m ≤ 8796093022208) :
    dateToAbsDays (m / 12) (m % 12 + 1) day = monthStart m + absoluteDays + (day - 1) := by
  have hy : (m - 2) / 12 + absoluteYears =
      ((m - 2) / 12 + absoluteYears) % 18446744073709551616 := by
    simp only [absoluteYears] at *
    omega
  have hcentury : 146097 * (((m - 2) / 12 + absoluteYears) / 100) % 18446744073709551616 =
      146097 * (((m - 2) / 12 + absoluteYears) / 100) := by
    simp only [absoluteYears] at *
    omega
  have hera := marchDays_absolute ((m - 2) / 12 + absoluteYears)
  rw [add_sub_cancel_right] at hera
  rw [dateToAbsDays_eq m day _ hy, hcentury, ← marchDays_eq, monthStart_eq, hera]
  ring

/-- Before the absolute year the number of the year wraps. 2⁶⁴ years are 16 years more than
a number of whole cycles of 400 years, and one of these is a whole number of seconds. -/
theorem dateToAbsDays_before_era {m : Int} (day : Int) (h0 : -8796093022208 ≤ m)
    (h1 : m < 2 - 12 * absoluteYears) : ∃ c k, (c = -76032 ∨ c = 10368) ∧
      dateToAbsDays (m / 12) (m % 12 + 1) day * 86400 =
        (monthStart m + absoluteDays + (day - 1)) * 86400 + c + 18446744073709551616 * k := by
  generalize hz : (m - 2) / 12 + absoluteYears = z at *
  have hy : 16 + z + 400 * 46116860184273879 =
      ((m - 2) / 12 + absoluteYears) % 18446744073709551616 := by
    rw [hz]
    simp only [absoluteYears] at *
    omega
  have hera := marchDays_absolute z
  rw [show z - absoluteYears = (m - 2) / 12 by omega] at hera
  rw [dateToAbsDays_eq m day _ hy, monthStart_eq, hera]
  have hyears := marchDays_add_400 (16 + z) 46116860184273879
  rw [marchDays_eq (16 + z + _)] at hyears
  generalize 16 + z + 400 * 46116860184273879 = y at *
  -- the product with the century wraps by whole multiples of 2⁶² days
  have hwrap := Int.mul_ediv_add_emod (146097 * (y / 100)) 18446744073709551616
  generalize 146097 * (y / 100) % 18446744073709551616 = r at *
  generalize 146097 * (y / 100) / 18446744073709551616 = q at *
  have hr : r / 4 = 146097 * (y / 100) / 4 - 4611686018427387904 * q := by omega
  have hshift := marchDays_add_16 z
  rw [add_comm z 16] at hshift
  rcases hshift with h | h
  · refine ⟨-76032, 31556952 - 21600 * q, .inl rfl, ?_⟩
    rw [h] at hyears
    simp only [absoluteDays]
    omega
  · refine ⟨10368, 31556952 - 21600 * q, .inr rfl, ?_⟩
    rw [h] at hyears
    simp only [absoluteDays]
    omega


namespace Time

-- the number of the day in the calendar that the date is read from
def civilDay (t : Time) : Int := t.absDays - absoluteDays

theorem civilDay_bounds (t : Time) : -absoluteDays ≤ t.civilDay ∧ t.civilDay ≤ 106751991980363 := by
  simp only [civilDay, absDays, absolute, absoluteDays]
  omega

theorem sec_eq (t : Time) : ∃ k,
    t.sec.toInt = 86400 * t.civilDay + t.clock + 18446744073709551616 * k := by
  refine ⟨(t.sec.toInt + internalToAbsolute) / 18446744073709551616, ?_⟩
  simp only [civilDay, absDays, clock, absolute, internalToAbsolute]
  omega

theorem month_bounds (t : Time) : 2 - 12 * absoluteYears ≤ monthOf t.civilDay ∧
    monthOf t.civilDay ≤ 3812571142167 := by
  obtain ⟨hlo, hhi⟩ := monthOf_spec t.civilDay
  obtain ⟨h0, h1⟩ := civilDay_bounds t
  constructor
  · have hera : monthStart (2 - 12 * absoluteYears) = -absoluteDays := by
      rw [monthStart_eq]
      decide
    have hlt : monthStart (2 - 12 * absoluteYears) < monthStart (monthOf t.civilDay + 1) := by omega
    have := monthStart_strictMono.lt_iff_lt.mp hlt
    omega
  · by_contra hlt
    have hb := (monthStart_sub_bounds (m := 12) (n := monthOf t.civilDay) (by omega)).1
    have hfirst : monthStart 12 = 0 := by decide
    omega

end Time

-- how far a date before the absolute year may be off, in seconds
def DateShift (c : Int) : Prop := c = 0 ∨ c = -76032 ∨ c = 10368

/-- `Date`, for months counted through the years. -/
theorem date_sec {year month m : Int} (day clock : Int) (nsec : Fin 1000000000)
    (hm : m = 12 * year + (month - 1)) (h0 : -8796093022208 ≤ m) (h1 : m ≤ 8796093022208) :
    ∃ c, DateShift c ∧ (2 - 12 * absoluteYears ≤ m → c = 0) ∧
      (date year month day clock nsec).sec =
        Int64.ofInt (86400 * (monthStart m + (day - 1)) + clock + c) := by
  have hyear : year + (month - 1) / 12 = m / 12 := by omega
  have hmonth : (month - 1) % 12 + 1 = m % 12 + 1 := by omega
  simp only [date, hyear, hmonth, internalToAbsolute]
  by_cases hera : 2 - 12 * absoluteYears ≤ m
  · refine ⟨0, .inl rfl, fun _ => rfl, ?_⟩
    rw [dateToAbsDays_of_era day hera h1]
    congr 1
    ring
  · obtain ⟨c, k, hc, hdays⟩ := dateToAbsDays_before_era day h0 (not_le.mp hera)
    refine ⟨c, .inr hc, fun h => absurd h hera, ?_⟩
    refine Eq.trans (congrArg Int64.ofInt ?_) (Words.ofInt_add_mul _ k)
    rw [hdays]
    ring

/-- `AddDate` in seconds, for times of any date. -/
theorem addDate_sec (t : Time) {months : Int} (days : Int) (h0 : -2147483648 ≤ months)
    (h1 : months ≤ 2147483647) : ∃ c, DateShift c ∧
      (2 - 12 * absoluteYears ≤ monthOf t.civilDay + months → c = 0) ∧
      (t.addDate 0 months days).sec = Int64.ofInt (t.sec.toInt + 86400 *
        (monthStart (monthOf t.civilDay + months) - monthStart (monthOf t.civilDay) + days) +
          c) := by
  have hmonth : monthOf t.civilDay + months = 12 * (t.year + 0) + (t.month + months - 1) := by
    have h := splitDays_month t.absDays
    simp only [Time.year, Time.month, Time.civilDay]
    omega
  have hday : t.day = t.civilDay - monthStart (monthOf t.civilDay) + 1 := splitDays_day t.absDays
  obtain ⟨hm0, hm1⟩ := t.month_bounds
  simp only [absoluteYears] at hm0
  obtain ⟨c, hc, hera, hsec⟩ :=
    date_sec (t.day + days) t.clock t.nsec hmonth (by omega) (by omega)
  obtain ⟨k, hk⟩ := t.sec_eq
  refine ⟨c, hc, hera, hsec.trans ?_⟩
  refine Eq.trans (Words.ofInt_add_mul _ k).symm (congrArg Int64.ofInt ?_)
  rw [hday, hk]
  ring

@[simp] theorem addDate_nsec (t : Time) (years months days : Int) :
    (t.addDate years months days).nsec = t.nsec := by
  simp only [Time.addDate, date]

theorem addDate_days (t : Time) (days : Int) :
    (t.addDate 0 0 days).sec = Int64.ofInt (t.sec.toInt + 86400 * days) := by
  obtain ⟨c, -, hera, hsec⟩ := addDate_sec t days (by decide) (by decide : (0 : Int) ≤ 2147483647)
  obtain rfl := hera (by simpa using t.month_bounds.1)
  simpa using hsec

theorem truncateToDay_sec (t : Time) :
    (date t.year t.month t.day 0 0).sec = Int64.ofInt (86400 * t.civilDay) := by
  have hmonth : monthOf t.civilDay = 12 * t.year + (t.month - 1) := (splitDays_month _).symm
  have hday : t.day = t.civilDay - monthStart (monthOf t.civilDay) + 1 := splitDays_day t.absDays
  obtain ⟨hm0, hm1⟩ := t.month_bounds
  obtain ⟨c, -, hera, hsec⟩ := date_sec t.day 0 0 hmonth
    (by simp only [absoluteYears] at hm0; omega) (by omega)
  obtain rfl := hera hm0
  rw [hsec, hday]
  congr 1
  ring

theorem truncateToMonth_sec (t : Time) : (date t.year t.month 1 0 0).sec =
    Int64.ofInt (86400 * monthStart (monthOf t.civilDay)) := by
  have hmonth : monthOf t.civilDay = 12 * t.year + (t.month - 1) := (splitDays_month _).symm
  obtain ⟨hm0, hm1⟩ := t.month_bounds
  obtain ⟨c, -, hera, hsec⟩ := date_sec 1 0 0 hmonth
    (by simp only [absoluteYears] at hm0; omega) (by omega)
  obtain rfl := hera hm0
  rw [hsec]
  congr 1
  ring

section Era

-- the years 1 to 9999 of valid timestamps
structure InEra (t : Time) : Prop where
  low : 0 ≤ t.sec.toInt
  high : t.sec.toInt < 315537897600

variable {t : Time}

theorem inEra_of_valid {ts : Timestamp} (h : ts.Valid) : InEra (asTime ts) := by
  obtain ⟨h0, h1, h2, h3⟩ := h
  have hsec : (asTime ts).sec.toInt = ts.seconds.toInt + unixToInternal := by
    rw [asTime, sec_unix, Int.ediv_eq_zero_of_lt h2 (by omega), add_zero]
    refine Words.toInt_ofInt_of_mem ?_ ?_ <;> simp only [unixToInternal] <;> omega
  refine ⟨?_, ?_⟩ <;> simp only [hsec, unixToInternal] <;> omega

theorem InEra.of_le {u : Time} (h : InEra u) (h0 : 0 ≤ t.sec.toInt) (hle : t ≤ u) : InEra t := by
  have ht := t.nsec.isLt
  have hu := u.nsec.isLt
  have hhigh := h.high
  simp only [Time.le_iff, Time.instant] at hle
  exact ⟨h0, by omega⟩

/-- In these years the date is that of the instant. -/
theorem civilDay_eq (h : InEra t) : t.civilDay = dayNumber t.instant := by
  have ht := t.nsec.isLt
  have hlow := h.low
  have hhigh := h.high
  simp only [Time.civilDay, Time.absDays, Time.absolute, internalToAbsolute, absoluteDays,
    dayNumber, Time.instant, unixToInternal, nsPerDay, unixDay]
  omega

theorem dayNumber_bounds (h : InEra t) :
    0 ≤ dayNumber t.instant ∧ dayNumber t.instant < 3652059 := by
  have ht := t.nsec.isLt
  have hlow := h.low
  have hhigh := h.high
  simp only [dayNumber, Time.instant, unixToInternal, nsPerDay, unixDay]
  omega

theorem weekday_eq (h : InEra t) : t.weekday = Utc.weekday t.instant := by
  have hday := civilDay_eq h
  simp only [Time.weekday, Utc.weekday, dayOfWeek, ← hday, Time.civilDay, absoluteDays]
  omega

theorem instant_of_sec {sec : Int} (h0 : -9223372036854775808 ≤ sec)
    (h1 : sec < 9223372036854775808) (hs : t.sec = Int64.ofInt sec) :
    t.instant = (sec - unixToInternal) * 1000000000 + t.nsec := by
  rw [Time.instant, hs, Words.toInt_ofInt_of_mem h0 h1]

/-- `AddDate` in days, from the valid years by up to 2³⁵ days. -/
theorem instant_addDate_days (h : InEra t) {days : Int} (h0 : -34359738368 ≤ days)
    (h1 : days ≤ 34359738368) : (t.addDate 0 0 days).instant = t.instant + days * nsPerDay := by
  have hlow := h.low
  have hhigh := h.high
  rw [instant_of_sec (by omega) (by omega) (addDate_days t days), addDate_nsec, Time.instant]
  simp only [nsPerDay]
  ring

theorem monthStart_nonneg_iff (m : Int) : 0 ≤ monthStart m ↔ 12 ≤ m := by
  rw [show (0 : Int) = monthStart 12 by decide, monthStart_strictMono.le_iff_le]

/-- `AddDate` in months, from the first midnight of a month. -/
theorem instant_addDate_months (h : InEra t) {m v : Int} (hm : t.instant = midnight (monthStart m))
    (h0 : -2147483648 ≤ v) (h1 : v ≤ 2147483647) :
    (t.addDate 0 v 0).instant = midnight (monthStart (m + v)) := by
  have hlow := h.low
  have hhigh := h.high
  have ht := t.nsec.isLt
  have hmonth : monthOf t.civilDay = m := by
    rw [civilDay_eq h, hm, dayNumber_midnight, monthOf_monthStart]
  have hstart : t.nsec.val = 0 ∧ t.sec.toInt = 86400 * monthStart m := by
    simp only [Time.instant, midnight, nsPerDay, unixDay, unixToInternal] at hm
    omega
  have hm12 : 12 ≤ m := (monthStart_nonneg_iff m).mp (by omega)
  obtain ⟨c, -, hera, hsec⟩ := addDate_sec t 0 h0 h1
  rw [hmonth] at hera hsec
  obtain rfl := hera (by simp only [absoluteYears]; omega)
  have hstep : -2147483648 * 31 ≤ monthStart (m + v) - monthStart m ∧
      monthStart (m + v) - monthStart m ≤ 2147483648 * 31 := by
    rcases le_total 0 v with hv | hv
    · have := monthStart_sub_bounds (m := m) (n := m + v) (by omega)
      omega
    · have := monthStart_sub_bounds (m := m + v) (n := m) (by omega)
      omega
  rw [instant_of_sec (by omega) (by omega) hsec, addDate_nsec, hstart.1, hstart.2]
  simp only [midnight, nsPerDay, unixDay, unixToInternal]
  push_cast
  ring

theorem instant_truncateToDay (h : InEra t) :
    (date t.year t.month t.day 0 0).instant = midnight (dayNumber t.instant) := by
  have hb := civilDay_eq h
  obtain ⟨h0, h1⟩ := dayNumber_bounds h
  rw [instant_of_sec (by omega) (by omega) (truncateToDay_sec t), hb]
  simp only [date, midnight, nsPerDay, unixDay, unixToInternal, Fin.val_zero]
  push_cast
  ring

theorem instant_truncateToMonth (h : InEra t) : (date t.year t.month 1 0 0).instant =
    midnight (monthStart (monthOf (dayNumber t.instant))) := by
  have hb := civilDay_eq h
  obtain ⟨h0, h1⟩ := dayNumber_bounds h
  obtain ⟨hlo, hhi⟩ := monthOf_spec t.civilDay
  have hm := monthLength_bounds (monthOf t.civilDay / 12) (monthOf t.civilDay % 12)
  rw [monthStart_succ] at hhi
  rw [instant_of_sec (by omega) (by omega) (truncateToMonth_sec t), hb]
  simp only [date, midnight, nsPerDay, unixDay, unixToInternal, Fin.val_zero]
  push_cast
  ring

end Era

end Leibrix.GoTime

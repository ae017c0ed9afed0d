import Leibrix.Gregorian

/-! The time line in UTC, without a bound. An instant is a count of nanoseconds since
1 January 1970; its day, its month and its time of day are those of the proleptic Gregorian
calendar. -/
namespace Leibrix.Utc
open Leibrix.Gregorian

def nsPerHour : Int := 3600000000000
def nsPerDay : Int := 86400000000000

-- the day number of 1 January 1970
def unixDay : Int := 719162

def dayNumber (t : Int) : Int := t / nsPerDay + unixDay
def clock (t : Int) : Int := t % nsPerDay
def midnight (n : Int) : Int := (n - unixDay) * nsPerDay

def dayOfMonth (t : Int) : Int := dayNumber t - monthStart (monthOf (dayNumber t)) + 1
def weekday (t : Int) : Int := dayOfWeek (dayNumber t)

theorem midnight_add_clock (t : Int) : midnight (dayNumber t) + clock t = t := by
  simp only [midnight, dayNumber, clock, unixDay, nsPerDay]
  omega

theorem clock_nonneg (t : Int) : 0 ≤ clock t := by
  simp only [clock, nsPerDay]
  omega

@[simp] theorem dayNumber_midnight (n : Int) : dayNumber (midnight n) = n := by
  simp only [midnight, dayNumber, unixDay, nsPerDay]
  omega

@[simp] theorem clock_midnight (n : Int) : clock (midnight n) = 0 := by
  simp only [midnight, clock, unixDay, nsPerDay]
  omega

theorem midnight_strictMono : StrictMono midnight := by
  intro a b h
  simp only [midnight, nsPerDay]
  omega

theorem midnight_dayNumber_le (t : Int) : midnight (dayNumber t) ≤ t := by
  have h1 := midnight_add_clock t
  have h2 := clock_nonneg t
  omega

theorem dayNumber_mono {s t : Int} (h : s ≤ t) : dayNumber s ≤ dayNumber t := by
  simp only [dayNumber, nsPerDay]
  omega

theorem add_days (t n : Int) :
    dayNumber (t + n * nsPerDay) = dayNumber t + n ∧ clock (t + n * nsPerDay) = clock t := by
  simp only [dayNumber, clock, nsPerDay]
  omega

end Leibrix.Utc

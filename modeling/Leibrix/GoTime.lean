import Leibrix.Proto
import Leibrix.Utc
import Leibrix.Words

/-! The operations of Go's `time` and `timestamppb` packages that slicing uses, for times in
UTC and in the widths they have there. A time is a signed 64-bit number of seconds since
1 January of year 1 and its nanoseconds. Its date is read from an unsigned number of seconds
since 1 March of the year -292277022400, so a time before that one has the date of a time 2⁶⁴
seconds later. Sums and products wrap: only their value modulo 2⁶⁴ counts, and it is reduced
once, at the end. -/
namespace Leibrix.GoTime
open Leibrix.Gregorian Leibrix.Proto Leibrix.Utc

instance neZero_nanoseconds : NeZero 1000000000 := ⟨by decide⟩

structure Time where
  sec : Int64
  nsec : Fin 1000000000
deriving DecidableEq

def unixToInternal : Int := 62135596800
def absoluteYears : Int := 292277022400

-- 365.2425 days in the mean year, and 306 days from March to December of year 0
def absoluteDays : Int := 106751990354238
def internalToAbsolute : Int := absoluteDays * 86400

def unix (sec nsec : Int) : Time :=
  ⟨Int64.ofInt (sec + nsec / 1000000000 + unixToInternal),
    Fin.ofNat _ (nsec % 1000000000).toNat⟩

namespace Time

def before (t u : Time) : Bool := t.sec < u.sec || t.sec == u.sec && t.nsec < u.nsec

def absolute (t : Time) : Int := (t.sec.toInt + internalToAbsolute) % 18446744073709551616
def absDays (t : Time) : Int := t.absolute / 86400

-- hour, minute and second as one number of seconds
def clock (t : Time) : Int := t.absolute % 86400

-- 1 March of the absolute year was a Wednesday
def weekday (t : Time) : Int := (t.absDays + 3) % 7

end Time

structure AbsDate where
  -- Years that begin in March, in centuries
  century : Int
  cyear : Int
  ayday : Int

def splitDays (days : Int) : AbsDate :=
  let century := (4 * days + 3) / 146097
  let cday := (4 * days + 3) % 146097 / 4
  ⟨century, (4 * cday + 3) / 1461, (4 * cday + 3) % 1461 / 4⟩

namespace AbsDate

def janFeb (d : AbsDate) : Int := if 306 ≤ d.ayday then 1 else 0
def amonth (d : AbsDate) : Int := (5 * d.ayday + 461) / 153

def year (d : AbsDate) : Int := d.century * 100 - absoluteYears + d.cyear + d.janFeb
def month (d : AbsDate) : Int := d.amonth - 12 * d.janFeb
def day (d : AbsDate) : Int := (5 * d.ayday + 461) % 153 / 5 + 1

end AbsDate

def dateToAbsDays (year month day : Int) : Int :=
  let janFeb := if month < 3 then 1 else 0
  let amonth := month + 12 * janFeb
  let y := (year - janFeb + absoluteYears) % 18446744073709551616
  let ayday := (153 * amonth - 457) / 5
  let century := y / 100
  let cday := 1461 * (y % 100) / 4
  let centurydays := 146097 * century % 18446744073709551616 / 4
  centurydays + (cday + ayday + day - 1)

def date (year month day clock : Int) (nsec : Fin 1000000000) : Time :=
  -- `time.Date`: a month outside its range carries over into the year
  let days := dateToAbsDays (year + (month - 1) / 12) ((month - 1) % 12 + 1) day
  ⟨Int64.ofInt (days * 86400 + clock - internalToAbsolute), nsec⟩

namespace Time

def year (t : Time) : Int := (splitDays t.absDays).year
def month (t : Time) : Int := (splitDays t.absDays).month
def day (t : Time) : Int := (splitDays t.absDays).day

def addDate (t : Time) (years months days : Int) : Time :=
  date (t.year + years) (t.month + months) (t.day + days) t.clock t.nsec

def addSec (ext d : Int64) : Int64 :=
  let sum := ext + d
  if (ext < sum ↔ 0 < d) then sum
  else if 0 < d then 9223372036854775807 else -9223372036854775807

def add (t : Time) (d : Int) : Time :=
  let nsec := t.nsec + d
  ⟨addSec t.sec (Int64.ofInt (nsec / 1000000000)), Fin.ofNat _ (nsec % 1000000000).toNat⟩

def remainder (t : Time) (d : Int64) : Int :=
  -- The remainder that `time.div` computes, for a duration of `d` whole seconds. A negative time is
  -- divided through its absolute value.
  if t.sec < 0 then
    let sec := if t.nsec = 0 then -t.sec else -t.sec - 1
    let nsec : Int := if t.nsec = 0 then 0 else 1000000000 - t.nsec
    let r := (sec % d).toInt * 1000000000 + nsec
    if r = 0 then 0 else d.toInt * 1000000000 - r
  else (t.sec % d).toInt * 1000000000 + t.nsec

def truncate (t : Time) (d : Int64) : Time := t.add (-t.remainder d)

def unixMilli (t : Time) : Int64 :=
  Int64.ofInt ((t.sec.toInt - unixToInternal) * 1000 + t.nsec / 1000000)

end Time

def asTime (ts : Timestamp) : Time := unix ts.seconds.toInt ts.nanos.toInt

def newTimestamp (t : Time) : Timestamp :=
  ⟨Int64.ofInt (t.sec.toInt - unixToInternal), Int32.ofNat t.nsec⟩

section Instants

-- the instant as an unbounded number of nanoseconds since 1970
def Time.instant (t : Time) : Int := (t.sec.toInt - unixToInternal) * 1000000000 + t.nsec

variable {t u : Time}

theorem Time.ext_iff_toInt : t = u ↔ t.sec.toInt = u.sec.toInt ∧ (t.nsec : Nat) = u.nsec := by
  obtain ⟨sec, nsec⟩ := t
  obtain ⟨sec', nsec'⟩ := u
  rw [Time.mk.injEq, Int64.toInt_inj, Fin.val_inj]

theorem Time.instant_injective : Function.Injective Time.instant := by
  intro t u h
  have ht := t.nsec.isLt
  have hu := u.nsec.isLt
  simp only [instant] at h
  exact ext_iff_toInt.mpr ⟨by omega, by omega⟩

-- instants of times are compared as the times are
instance : LinearOrder Time := LinearOrder.lift' Time.instant Time.instant_injective

theorem Time.lt_iff : t < u ↔ t.instant < u.instant := Iff.rfl
theorem Time.le_iff : t ≤ u ↔ t.instant ≤ u.instant := Iff.rfl

@[simp] theorem Time.before_iff : t.before u = true ↔ t < u := by
  have ht := t.nsec.isLt
  have hu := u.nsec.isLt
  simp only [before, Bool.or_eq_true, Bool.and_eq_true, decide_eq_true_eq, beq_iff_eq,
    Int64.lt_iff_toInt_lt, ← Int64.toInt_inj, Fin.lt_def, lt_iff, instant]
  omega

theorem sec_unix (sec nsec : Int) :
    (unix sec nsec).sec = Int64.ofInt (sec + nsec / 1000000000 + unixToInternal) := rfl

theorem nsec_ofNat_emod (n : Int) :
    ((Fin.ofNat 1000000000 (n % 1000000000).toNat : Nat) : Int) = n % 1000000000 := by
  simp only [Fin.val_ofNat]
  omega

theorem unix_instant (t : Time) : unix 0 t.instant = t := by
  have ht := t.nsec.isLt
  have hq : t.instant / 1000000000 = t.sec.toInt - unixToInternal := by
    simp only [Time.instant]
    omega
  have hr := nsec_ofNat_emod t.instant
  refine Time.ext_iff_toInt.mpr ⟨?_, ?_⟩
  · rw [sec_unix, hq, zero_add, sub_add_cancel, Int64.ofInt_toInt]
  · have hm : t.instant % 1000000000 = t.nsec := by
      simp only [Time.instant]
      omega
    simp only [unix]
    omega

def Representable (x : Int) : Prop :=
  -- 64 bits hold the seconds of an instant
  -9223372036854775808 ≤ x / 1000000000 + unixToInternal ∧
    x / 1000000000 + unixToInternal < 9223372036854775808

theorem instant_unix {x : Int} (h : Representable x) : (unix 0 x).instant = x := by
  have hr := nsec_ofNat_emod x
  simp only [Time.instant, unix, zero_add]
  rw [hr, Words.toInt_ofInt_of_mem h.1 h.2]
  omega

theorem representable_instant (t : Time) : Representable t.instant := by
  have ht := t.nsec.isLt
  have hlow := t.sec.le_toInt
  have hhigh := t.sec.toInt_lt
  simp only [Representable, Time.instant, unixToInternal]
  omega

@[simp] theorem asTime_newTimestamp (t : Time) : asTime (newTimestamp t) = t := by
  have ht := t.nsec.isLt
  have hnanos : (Int32.ofNat t.nsec).toInt = t.nsec := Int32.toInt_ofNat_of_lt (by omega)
  have hr := nsec_ofNat_emod (t.nsec : Int)
  obtain ⟨⟨k, hk⟩, -, -⟩ := Words.toInt_ofInt_spec (t.sec.toInt - unixToInternal)
  refine Time.ext_iff_toInt.mpr ⟨?_, ?_⟩
  · simp only [asTime, newTimestamp, sec_unix, hnanos, hk]
    rw [show t.sec.toInt - unixToInternal + 18446744073709551616 * k + (t.nsec : Int) / 1000000000 +
        unixToInternal = t.sec.toInt + 18446744073709551616 * k by omega, Words.ofInt_add_mul,
      Int64.ofInt_toInt]
  · simp only [asTime, newTimestamp, unix, hnanos]
    omega

/-- The sum, or the end of the range that it would pass. -/
theorem addSec_spec (ext d : Int64) :
    (Time.addSec ext d).toInt = ext.toInt + d.toInt ∨
      (0 < d.toInt ∧ 9223372036854775808 ≤ ext.toInt + d.toInt ∧
        (Time.addSec ext d).toInt = 9223372036854775807) ∨
      (d.toInt < 0 ∧ ext.toInt + d.toInt < -9223372036854775808 ∧
        (Time.addSec ext d).toInt = -9223372036854775807) := by
  have he := ext.le_toInt
  have he' := ext.toInt_lt
  have hd := d.le_toInt
  have hd' := d.toInt_lt
  have hsum := Words.toInt_ofInt_spec (ext.toInt + d.toInt)
  rw [Int64.ofInt_add, Int64.ofInt_toInt, Int64.ofInt_toInt] at hsum
  obtain ⟨⟨k, hk⟩, h0, h1⟩ := hsum
  have hmax : (9223372036854775807 : Int64).toInt = 9223372036854775807 := by decide
  have hmin : (-9223372036854775807 : Int64).toInt = -9223372036854775807 := by decide
  have hzero : (0 : Int64).toInt = 0 := by decide
  simp only [Time.addSec, Int64.lt_iff_toInt_lt, hzero]
  split_ifs with hin hpos
  · left; omega
  · omega
  · omega

theorem instant_add {t : Time} {d : Int} (h0 : -9223372036854775808 ≤ d)
    (h1 : d < 9223372036854775808) (hr : Representable (t.instant + d)) :
    (t.add d).instant = t.instant + d := by
  have ht := t.nsec.isLt
  have hn := nsec_ofNat_emod (t.nsec + d)
  have hsec := addSec_spec t.sec (Int64.ofInt ((t.nsec + d) / 1000000000))
  rw [Words.toInt_ofInt_of_mem (by omega) (by omega)] at hsec
  have hq : (t.instant + d) / 1000000000 =
      t.sec.toInt - unixToInternal + (t.nsec + d) / 1000000000 := by
    simp only [Time.instant]
    omega
  simp only [Representable, hq] at hr
  simp only [Time.instant, Time.add, hn]
  omega

/-- The remainder of a time from year 1 on. -/
theorem instant_truncate {t : Time} (h : 0 ≤ t.sec.toInt) :
    (t.truncate 3600).instant = t.instant - t.instant % nsPerHour := by
  have ht := t.nsec.isLt
  have hlt := t.sec.toInt_lt
  have hrest : t.remainder 3600 = t.instant % nsPerHour := by
    have hneg : ¬t.sec < 0 := by
      rw [Int64.lt_iff_toInt_lt, show (0 : Int64).toInt = 0 by decide]
      omega
    rw [Time.remainder, if_neg hneg, Int64.toInt_mod, show (3600 : Int64).toInt = 3600 by decide,
      Int.tmod_eq_emod_of_nonneg h]
    simp only [Time.instant, nsPerHour, unixToInternal]
    omega
  have hb : 0 ≤ t.instant % nsPerHour ∧ t.instant % nsPerHour < nsPerHour := by
    simp only [nsPerHour]
    omega
  simp only [nsPerHour] at hb
  rw [Time.truncate, hrest, instant_add]
  · ring
  · simp only [nsPerHour]
    omega
  · simp only [nsPerHour]
    omega
  · simp only [Representable, Time.instant, nsPerHour, unixToInternal] at *
    omega

/-- A negative duration leads back, or to the first seconds there are. -/
theorem add_nonpos (t : Time) {d : Int} (h0 : -9223372036854775808 ≤ d) (h1 : d ≤ 0) :
    t.add d ≤ t ∨ (t.add d).sec.toInt = -9223372036854775807 := by
  have ht := t.nsec.isLt
  have hn := nsec_ofNat_emod (t.nsec + d)
  have hsec := addSec_spec t.sec (Int64.ofInt ((t.nsec + d) / 1000000000))
  rw [Words.toInt_ofInt_of_mem (by omega) (by omega)] at hsec
  simp only [Time.le_iff, Time.instant, Time.add, hn]
  omega

theorem newTimestamp_injective : Function.Injective newTimestamp :=
  Function.LeftInverse.injective asTime_newTimestamp

end Instants

end Leibrix.GoTime

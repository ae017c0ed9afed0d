import Leibrix.EpochGenerator

/-! What the steps of a granularity come to on the unbounded time line: the grid that they lay
through an instant, and the last boundary of a unit before an instant. The grid's step counts
the granularity's value; the boundaries look at its unit only. -/
namespace Leibrix.EpochGenerator
open Leibrix.Proto Leibrix.Gregorian Leibrix.Utc

def StepsForward (granularity : EpochGranularity) : Prop :=
  match granularity.unit with
  | .hour => 0 < hourStep granularity.value
  | .day | .week | .month => 0 < granularity.value.toInt
  | .unrecognized _ => False

instance (granularity : EpochGranularity) : Decidable (StepsForward granularity) :=
  match granularity with
  | ⟨value, .hour⟩ => inferInstanceAs (Decidable (0 < hourStep value))
  | ⟨value, .day⟩ | ⟨value, .week⟩ | ⟨value, .month⟩ =>
    inferInstanceAs (Decidable (0 < value.toInt))
  | ⟨_, .unrecognized _⟩ => inferInstanceAs (Decidable False)

-- month slices start at the first midnight of a month, the other units set no condition
def OnGrid (granularity : EpochGranularity) (x : Int) : Prop :=
  granularity.unit = .month → ∃ m, x = midnight (monthStart m)

-- the instant `k` steps after `x`
def gridPoint (granularity : EpochGranularity) (x k : Int) : Int :=
  let value := granularity.value.toInt
  match granularity.unit with
  | .hour => x + k * hourStep granularity.value
  | .day => x + k * value * nsPerDay
  | .week => x + k * (value * 7) * nsPerDay
  | .month => midnight (monthStart (monthOf (dayNumber x) + k * value))
  | .unrecognized _ => x

-- weeks begin on Monday, and day 0 is one
def floorTo (unit : TimeUnit) (x : Int) : Int :=
  match unit with
  | .hour => x - x % nsPerHour
  | .day | .unrecognized _ => midnight (dayNumber x)
  | .week => midnight (7 * (dayNumber x / 7))
  | .month => midnight (monthStart (monthOf (dayNumber x)))

theorem hourStep_eq (value : Int32) :
    hourStep value = (value.toInt * nsPerHour).bmod 18446744073709551616 := by
  have hlow := value.le_toInt
  have hhigh := value.toInt_lt
  simp only [hourStep, nsPerHour, Int64.toInt_mul]
  rw [Int64.toInt_ofInt_of_le (by omega) (by omega),
    Int64.toInt_ofInt_of_le (by decide) (by decide)]

theorem hourStep_bounds (value : Int32) :
    -9223372036854775808 ≤ hourStep value ∧ hourStep value < 9223372036854775808 :=
  ⟨Int64.le_toInt _, Int64.toInt_lt _⟩

section Floor
variable (unit : TimeUnit) {x : Int}

theorem floorTo_le (x : Int) : floorTo unit x ≤ x := by
  cases unit with
  | hour =>
    simp only [floorTo, nsPerHour]
    omega
  | day | unrecognized code => exact midnight_dayNumber_le x
  | week =>
    refine le_trans ?_ (midnight_dayNumber_le x)
    exact midnight_strictMono.monotone (by omega)
  | month =>
    refine le_trans ?_ (midnight_dayNumber_le x)
    exact midnight_strictMono.monotone (monthOf_spec (dayNumber x)).1

/-- Year 1 begins with a boundary of every unit. -/
theorem le_floorTo (h : midnight 0 ≤ x) : midnight 0 ≤ floorTo unit x := by
  have hday : 0 ≤ dayNumber x := by
    simp only [midnight, dayNumber, nsPerDay, unixDay] at *
    omega
  cases unit with
  | hour =>
    simp only [floorTo, midnight, nsPerHour, nsPerDay, unixDay] at *
    omega
  | day | unrecognized code => exact midnight_strictMono.monotone hday
  | week => exact midnight_strictMono.monotone (by omega)
  | month =>
    refine midnight_strictMono.monotone ?_
    have hfirst : monthStart 12 = 0 := by decide
    have hlt : monthStart 12 < monthStart (monthOf (dayNumber x) + 1) := by
      have := (monthOf_spec (dayNumber x)).2
      omega
    have := monthStart_strictMono.lt_iff_lt.mp hlt
    rw [← hfirst]
    exact monthStart_strictMono.monotone (by omega)

theorem floorTo_onGrid (granularity : EpochGranularity) (x : Int) :
    OnGrid granularity (floorTo granularity.unit x) := by
  intro hu
  exact ⟨monthOf (dayNumber x), by simp only [floorTo, hu]⟩

end Floor

section Grid
variable {granularity : EpochGranularity} {x k m : Int}

theorem gridPoint_zero (h : OnGrid granularity x) : gridPoint granularity x 0 = x := by
  obtain ⟨value, unit⟩ := granularity
  cases unit with
  | month =>
    obtain ⟨n, rfl⟩ := h rfl
    simp [gridPoint]
  | hour | day | week | unrecognized code => simp [gridPoint]

theorem gridPoint_onGrid (x k : Int) : OnGrid granularity (gridPoint granularity x k) := by
  intro hu
  exact ⟨monthOf (dayNumber x) + k * granularity.value.toInt, by simp [gridPoint, hu]⟩

theorem gridPoint_add (k m : Int) :
    gridPoint granularity (gridPoint granularity x k) m = gridPoint granularity x (k + m) := by
  obtain ⟨value, unit⟩ := granularity
  cases unit with
  | month =>
    simp only [gridPoint, dayNumber_midnight, monthOf_monthStart]
    rw [add_mul, add_assoc]
  | hour | day | week =>
    simp only [gridPoint]
    ring
  | unrecognized code => rfl

theorem gridPoint_strictMono (hf : StepsForward granularity) (x : Int) :
    StrictMono (gridPoint granularity x) := by
  intro a b hab
  obtain ⟨value, unit⟩ := granularity
  cases unit with
  | hour =>
    have hs : 0 < hourStep value := hf
    simpa [gridPoint] using mul_lt_mul_of_pos_right hab hs
  | day =>
    have hs : 0 < value.toInt := hf
    have := mul_lt_mul_of_pos_right hab hs
    simp only [gridPoint, nsPerDay]
    omega
  | week =>
    have hs : 0 < value.toInt * 7 := by
      have : 0 < value.toInt := hf
      omega
    have := mul_lt_mul_of_pos_right hab hs
    simp only [gridPoint, nsPerDay]
    omega
  | month =>
    have hs : 0 < value.toInt := hf
    have := mul_lt_mul_of_pos_right hab hs
    refine midnight_strictMono (monthStart_strictMono ?_)
    simp only
    omega
  | unrecognized code => exact hf.elim

/-- With one unit to a step all boundaries lie on one grid. -/
theorem floorTo_on_grid (hv : granularity.value = 1) (hf : StepsForward granularity) (x y : Int) :
    ∃ k, floorTo granularity.unit y =
      gridPoint granularity (floorTo granularity.unit x) k := by
  obtain ⟨value, unit⟩ := granularity
  obtain rfl : value = 1 := hv
  have hone : (1 : Int32).toInt = 1 := by decide
  cases unit with
  | hour =>
    have hstep : hourStep 1 = nsPerHour := by decide
    refine ⟨(floorTo .hour y - floorTo .hour x) / nsPerHour, ?_⟩
    simp only [gridPoint, hstep, floorTo, nsPerHour]
    omega
  | day =>
    refine ⟨dayNumber y - dayNumber x, ?_⟩
    simp only [gridPoint, floorTo, midnight, hone]
    ring
  | week =>
    refine ⟨dayNumber y / 7 - dayNumber x / 7, ?_⟩
    simp only [gridPoint, floorTo, midnight, hone]
    ring
  | month =>
    refine ⟨monthOf (dayNumber y) - monthOf (dayNumber x), ?_⟩
    simp only [gridPoint, floorTo, dayNumber_midnight, monthOf_monthStart, hone]
    ring_nf
  | unrecognized code => exact hf.elim

end Grid
end Leibrix.EpochGenerator

import Leibrix.SliceEnds

/-! Truncation goes to the last calendar boundary of the unit, and slicing stays on these
boundaries. Epochs have the length that is asked for, unless it is given in hours and has
more nanoseconds than 63 bits hold. -/
namespace Leibrix.EpochGenerator
open Leibrix.Proto Leibrix.GoTime Leibrix.Gregorian Leibrix.Utc

-- a full hour, a midnight, a midnight that begins a Monday, one that begins a month
def IsBoundary (unit : TimeUnit) (x : Int) : Prop :=
  match unit with
  | .hour => clock x % nsPerHour = 0
  | .day => clock x = 0
  | .week => clock x = 0 ∧ weekday x = 1
  | .month => clock x = 0 ∧ dayOfMonth x = 1
  | .unrecognized _ => False

theorem isBoundary_hour {x : Int} : IsBoundary .hour x ↔ nsPerHour ∣ x := by
  simp only [IsBoundary, clock, nsPerDay, nsPerHour]
  omega

theorem isBoundary_day {x : Int} : IsBoundary .day x ↔ x = midnight (dayNumber x) := by
  have h := midnight_add_clock x
  simp only [IsBoundary]
  omega

theorem isBoundary_week {x : Int} :
    IsBoundary .week x ↔ x = midnight (7 * (dayNumber x / 7)) := by
  have h := midnight_add_clock x
  have hd := dayNumber_midnight (7 * (dayNumber x / 7))
  simp only [IsBoundary, weekday, dayOfWeek]
  constructor
  · intro hb
    have hn : 7 * (dayNumber x / 7) = dayNumber x := by omega
    rw [hn]
    omega
  · intro hx
    have hc := clock_midnight (7 * (dayNumber x / 7))
    rw [← hx] at hc hd
    omega

theorem isBoundary_month {x : Int} :
    IsBoundary .month x ↔ x = midnight (monthStart (monthOf (dayNumber x))) := by
  have h := midnight_add_clock x
  simp only [IsBoundary, dayOfMonth]
  constructor
  · intro hb
    have hn : monthStart (monthOf (dayNumber x)) = dayNumber x := by omega
    rw [hn]
    omega
  · intro hx
    have hd := dayNumber_midnight (monthStart (monthOf (dayNumber x)))
    have hc := clock_midnight (monthStart (monthOf (dayNumber x)))
    rw [← hx] at hc hd
    omega

theorem monthOf_mono {m n : Int} (h : m ≤ n) : monthOf m ≤ monthOf n := by
  obtain ⟨hlo, -⟩ := monthOf_spec m
  obtain ⟨-, hhi⟩ := monthOf_spec n
  have hlt : monthStart (monthOf m) < monthStart (monthOf n + 1) := by omega
  have := monthStart_strictMono.lt_iff_lt.mp hlt
  omega

section Floor
variable {unit : TimeUnit} {x : Int}

theorem floorTo_boundary (hu : ∀ code, unit ≠ .unrecognized code) (x : Int) :
    IsBoundary unit (floorTo unit x) := by
  cases unit with
  | hour =>
    simp only [isBoundary_hour, floorTo, nsPerHour]
    omega
  | day => simp [isBoundary_day, floorTo]
  | week =>
    simp only [isBoundary_week, floorTo, dayNumber_midnight]
    congr 1
    omega
  | month => simp [isBoundary_month, floorTo]
  | unrecognized code => exact absurd rfl (hu code)

/-- No boundary lies between the last one and the instant itself. -/
theorem boundary_le_floorTo {b : Int} (hb : IsBoundary unit b) (hle : b ≤ x) :
    b ≤ floorTo unit x := by
  have hday := dayNumber_mono hle
  cases unit with
  | hour =>
    simp only [isBoundary_hour, nsPerHour] at hb
    simp only [floorTo, nsPerHour]
    omega
  | day =>
    rw [isBoundary_day.mp hb]
    exact midnight_strictMono.monotone hday
  | week =>
    rw [isBoundary_week.mp hb]
    exact midnight_strictMono.monotone (by omega)
  | month =>
    rw [isBoundary_month.mp hb]
    have hmonth := monthStart_strictMono.monotone (monthOf_mono hday)
    exact midnight_strictMono.monotone hmonth
  | unrecognized code => exact hb.elim

theorem floorTo_eq_self (hb : IsBoundary unit x) : floorTo unit x = x :=
  le_antisymm (floorTo_le unit x) (boundary_le_floorTo hb le_rfl)

end Floor

variable {granularity : EpochGranularity}

section Truncation
variable {t : Time}

theorem truncateToGranularity_isGreatest (hu : KnownUnit granularity) (h : InEra t) :
    IsGreatest {b | IsBoundary granularity.unit b ∧ b ≤ t.instant}
      (truncateToGranularity t granularity).instant := by
  rw [instant_truncateToGranularity h]
  constructor
  · exact ⟨floorTo_boundary hu _, floorTo_le _ _⟩
  · intro b hb
    exact boundary_le_floorTo hb.1 hb.2

theorem truncateToGranularity_idem (hu : KnownUnit granularity) (h : InEra t) :
    truncateToGranularity (truncateToGranularity t granularity) granularity =
      truncateToGranularity t granularity := by
  apply Time.instant_injective
  rw [instant_truncateToGranularity (inEra_truncate h granularity),
    instant_truncateToGranularity h]
  exact floorTo_eq_self (floorTo_boundary hu _)

end Truncation

-- a positive number of known units whose hours fit into 63 bits of nanoseconds
structure Regular (granularity : EpochGranularity) : Prop where
  known : KnownUnit granularity
  positive : 0 < granularity.value.toInt
  fits : granularity.unit = .hour → granularity.value.toInt * nsPerHour < 9223372036854775808

theorem hourStep_of_fits {value : Int32} (hpos : 0 < value.toInt)
    (hfits : value.toInt * nsPerHour < 9223372036854775808) :
    hourStep value = value.toInt * nsPerHour := by
  rw [hourStep_eq]
  simp only [nsPerHour] at hfits ⊢
  rw [Int.bmod_def]
  omega

theorem Regular.stepsForward (h : Regular granularity) : StepsForward granularity := by
  obtain ⟨value, unit⟩ := granularity
  have hpos := h.positive
  cases unit with
  | hour =>
    have hstep := hourStep_of_fits hpos (h.fits rfl)
    simp only [StepsForward, hstep, nsPerHour]
    simp only at hpos
    omega
  | day | week | month => exact hpos
  | unrecognized code => exact absurd rfl (h.known code)

theorem Regular.gridPoint_boundary (h : Regular granularity) {x : Int}
    (hb : IsBoundary granularity.unit x) (k : Int) :
    IsBoundary granularity.unit (gridPoint granularity x k) := by
  obtain ⟨value, unit⟩ := granularity
  cases unit with
  | hour =>
    have hstep := hourStep_of_fits h.positive (h.fits rfl)
    rw [isBoundary_hour] at hb ⊢
    simp only [gridPoint, hstep]
    exact dvd_add hb (dvd_mul_of_dvd_right (dvd_mul_left _ _) _)
  | day =>
    simp only [IsBoundary, clock, gridPoint] at hb ⊢
    rw [Int.add_mul_emod_self_right, hb]
  | week =>
    rw [isBoundary_week] at hb
    have hpoint : gridPoint ⟨value, .week⟩ x k =
        midnight (7 * (dayNumber x / 7 + k * value.toInt)) := by
      simp only [gridPoint]
      nth_rewrite 1 [hb]
      simp only [midnight]
      ring
    rw [hpoint, isBoundary_week, dayNumber_midnight]
    congr 1
    omega
  | month => simp [isBoundary_month, gridPoint]
  | unrecognized code => exact absurd rfl (h.known code)

-- both ends of an epoch are there and lie on boundaries of the unit
def Aligned (unit : TimeUnit) (e : EpochInfo) : Prop :=
  ∃ start finish, e.timeRange = some ⟨some start, some finish⟩ ∧
    IsBoundary unit (asTime start).instant ∧ IsBoundary unit (asTime finish).instant

theorem Regular.gridEpoch_aligned (h : Regular granularity) (sha256 : List UInt8 → List UInt8)
    {x k : Int} (hb : IsBoundary granularity.unit x) (hc : CellFits granularity x k)
    (d : DimensionValues) : Aligned granularity.unit (gridEpoch sha256 granularity x d k) := by
  refine ⟨_, _, rfl, ?_, ?_⟩
  · rw [asTime_newTimestamp, instant_unix hc.1]
    exact h.gridPoint_boundary hb k
  · rw [asTime_newTimestamp, instant_unix hc.2]
    exact h.gridPoint_boundary hb (k + 1)

/-- The slices of a valid range are cells of the grid through its first boundary. -/
theorem slices_gridEpoch {sha256 : List UInt8 → List UInt8} {filter : TimeRangeFilter} {n : Nat}
    {d : DimensionValues} (hv : ValidTimes filter) (hf : StepsForward granularity)
    (hn : SlicedIn granularity filter n) {e : EpochInfo}
    (he : e ∈ slices sha256 d granularity n (anchor granularity filter)) :
    ∃ k, CellFits granularity
        (floorTo granularity.unit (fieldTime filter.startInclusive).instant) k ∧
      e = gridEpoch sha256 granularity
        (floorTo granularity.unit (fieldTime filter.startInclusive).instant) d k := by
  obtain ⟨hcells, hepoch⟩ := hn.cells hv hf
  obtain ⟨k, hk, rfl⟩ := (mem_slices sha256 d).mp he
  exact ⟨k, hcells.fits k hk, hepoch k hk d⟩

/-- Truncation of a valid timestamp is the last boundary not after it and repeating it changes
nothing; slicing a valid range returns, and every epoch starts and ends on a boundary. -/
theorem calendar_alignment (sha256 : List UInt8 → List UInt8) {filter : TimeRangeFilter}
    (hr : ValidRange filter) (hg : Regular granularity) (d : DimensionValues) :
    (∀ ts : Timestamp, ts.Valid →
      IsGreatest {b | IsBoundary granularity.unit b ∧ b ≤ (asTime ts).instant}
        (truncateToGranularity (asTime ts) granularity).instant) ∧
    (∀ ts : Timestamp, ts.Valid →
      truncateToGranularity (truncateToGranularity (asTime ts) granularity) granularity =
        truncateToGranularity (asTime ts) granularity) ∧
    ∃ epochs, (∀ fuel, sliceBound filter granularity ≤ fuel →
        sliceTimeRange sha256 fuel filter granularity d = .ok epochs) ∧
      ∀ e ∈ epochs, Aligned granularity.unit e := by
  obtain ⟨n, hlt, hn⟩ := exists_slicedIn hr hg.stepsForward
  refine ⟨fun ts hv => truncateToGranularity_isGreatest hg.known (inEra_of_valid hv),
    fun ts hv => truncateToGranularity_idem hg.known (inEra_of_valid hv),
    slices sha256 d granularity n (anchor granularity filter), fun fuel hfuel => ?_,
    fun e he => ?_⟩
  · exact sliceTimeRange_ok_iff.mpr ⟨n, hlt.trans_le hfuel, hn, rfl⟩
  · obtain ⟨k, hc, rfl⟩ := slices_gridEpoch hr.toValidTimes hg.stepsForward hn he
    exact hg.gridEpoch_aligned sha256 (floorTo_boundary hg.known _) hc d

/-- 10 to 20 February 2024 in months, from 1 February on. -/
theorem calendar_alignment_february :
    ValidRange februaryFilter ∧ Regular ⟨1, .month⟩ ∧
      (truncateToGranularity (asTime ⟨1707523200, 0⟩) ⟨1, .month⟩).instant =
        1706745600000000000 ∧
      ∃ epochs, (∀ fuel, sliceBound februaryFilter ⟨1, .month⟩ ≤ fuel →
          sliceTimeRange februarySha256 fuel februaryFilter ⟨1, .month⟩
            (Finmap.singleton "country" "de") = .ok epochs) ∧
        ∀ e ∈ epochs, Aligned .month e := by
  have hg : Regular ⟨1, .month⟩ := ⟨by simp [KnownUnit], by decide, by simp⟩
  exact ⟨februaryFilter_range, hg, by decide +kernel,
    (calendar_alignment februarySha256 februaryFilter_range hg _).2.2⟩

-- so many hours, or so many calendar days, weeks or months, to the same time of day and the
-- same day of the month
def Spans (granularity : EpochGranularity) (start finish : Int) : Prop :=
  let value := granularity.value.toInt
  match granularity.unit with
  | .hour => finish - start = value * nsPerHour
  | .day => dayNumber finish = dayNumber start + value ∧ clock finish = clock start
  | .week => dayNumber finish = dayNumber start + 7 * value ∧ clock finish = clock start
  | .month => monthOf (dayNumber finish) = monthOf (dayNumber start) + value ∧
      dayOfMonth finish = dayOfMonth start ∧ clock finish = clock start
  | .unrecognized _ => False

instance (granularity : EpochGranularity) (start finish : Int) :
    Decidable (Spans granularity start finish) :=
  match granularity with
  | ⟨_, .hour⟩ => inferInstanceAs (Decidable (_ = _))
  | ⟨_, .day⟩ | ⟨_, .week⟩ | ⟨_, .month⟩ => inferInstanceAs (Decidable (_ ∧ _))
  | ⟨_, .unrecognized _⟩ => inferInstanceAs (Decidable False)

/-- 64 bits hold the step exactly if it is less than their largest value. -/
theorem hourStep_eq_iff {value : Int32} (hpos : 0 < value.toInt) :
    hourStep value = value.toInt * nsPerHour ↔
      value.toInt * nsPerHour < 9223372036854775808 := by
  constructor
  · intro h
    rw [← h, hourStep_eq, Int.bmod_def]
    omega
  · exact hourStep_of_fits hpos

theorem spans_gridPoint (hf : StepsForward granularity) (hpos : 0 < granularity.value.toInt)
    (t k : Int) :
    Spans granularity (gridPoint granularity t k) (gridPoint granularity t (k + 1)) ↔
      (granularity.unit = .hour → granularity.value.toInt * nsPerHour < 9223372036854775808) := by
  obtain ⟨value, unit⟩ := granularity
  cases unit with
  | hour =>
    simp only [Spans, gridPoint, true_implies]
    rw [← hourStep_eq_iff hpos, show t + (k + 1) * hourStep value - (t + k * hourStep value) =
      hourStep value by ring]
  | day =>
    refine iff_of_true ?_ (by simp)
    rw [← gridPoint_add]
    simpa [Spans, gridPoint] using add_days (gridPoint ⟨value, .day⟩ t k) value.toInt
  | week =>
    refine iff_of_true ?_ (by simp)
    rw [← gridPoint_add]
    simpa [Spans, gridPoint, mul_comm] using
      add_days (gridPoint ⟨value, .week⟩ t k) (7 * value.toInt)
  | month =>
    refine iff_of_true ?_ (by simp)
    simp only [Spans, gridPoint, dayOfMonth, dayNumber_midnight, monthOf_monthStart, clock_midnight]
    refine ⟨by ring, ?_, trivial⟩
    ring
  | unrecognized code => exact hf.elim

/-- A list that `sliceTimeRange` returns for a valid range and a positive number of units has
epochs of that length, exactly if hours, where they are the unit, fit into 63 bits of
nanoseconds. -/
theorem epochs_span_iff {sha256 : List UInt8 → List UInt8} {fuel : Nat}
    {filter : TimeRangeFilter} {d : DimensionValues} {epochs : List EpochInfo}
    (hv : ValidTimes filter) (hpos : 1 ≤ granularity.value.toInt)
    (h : sliceTimeRange sha256 fuel filter granularity d = .ok epochs) :
    (∀ e ∈ epochs, Spans granularity (epochStart e) (epochEnd e)) ↔
      (granularity.unit = .hour →
        granularity.value.toInt * nsPerHour < 9223372036854775808) := by
  obtain ⟨n, -, hn, rfl⟩ := sliceTimeRange_ok_iff.mp h
  have hf := (hn.progresses hv).forward hpos
  have hspan := spans_gridPoint hf hpos
  constructor
  · intro hall
    obtain ⟨e, he⟩ := List.exists_mem_of_ne_nil _ (sliceTimeRange_slices hv hf h).nonempty
    obtain ⟨k, hc, rfl⟩ := slices_gridEpoch hv hf hn he
    rw [← hspan _ k]
    simpa only [epochStart_gridEpoch hc, epochEnd_gridEpoch hc] using hall _ he
  · intro hfits e he
    obtain ⟨k, hc, rfl⟩ := slices_gridEpoch hv hf hn he
    simpa only [epochStart_gridEpoch hc, epochEnd_gridEpoch hc] using (hspan _ k).mpr hfits

/-- From 10 to 20 February 2024 in steps of two weeks, from the Monday before. -/
theorem epochs_span_february :
    ∃ epochs, ValidTimes februaryFilter ∧
      sliceTimeRange februarySha256 3 februaryFilter ⟨2, .week⟩ ∅ = .ok epochs ∧
      epochs ≠ [] ∧ ∀ e ∈ epochs, Spans ⟨2, .week⟩ (epochStart e) (epochEnd e) := by
  obtain ⟨epochs, h, hne⟩ : ∃ epochs, sliceTimeRange februarySha256 3 februaryFilter ⟨2, .week⟩ ∅ =
      .ok epochs ∧ epochs ≠ [] := ⟨_, rfl, by simp⟩
  exact ⟨epochs, februaryFilter_valid, h, hne,
    (epochs_span_iff februaryFilter_valid (by decide) h).mpr (by simp)⟩

-- twenty-five minutes of 10 February 2024
def minutesFilter : TimeRangeFilter := ⟨some ⟨1707523200, 0⟩, some ⟨1707524700, 0⟩⟩

/-- 5124096 hours, or 584 years, are 2⁶⁴ + 1526290448384 nanoseconds. -/
theorem epoch_wraps :
    ∃ epochs, ValidTimes minutesFilter ∧
      sliceTimeRange februarySha256 2 minutesFilter ⟨5124096, .hour⟩ ∅ = .ok epochs ∧
      ∃ e ∈ epochs, epochEnd e - epochStart e = 1526290448384 ∧
        ¬Spans ⟨5124096, .hour⟩ (epochStart e) (epochEnd e) :=
  ⟨_, ⟨⟨_, rfl, by decide⟩, ⟨_, rfl, by decide⟩⟩, rfl, _, List.mem_singleton_self _,
    by decide +kernel, by decide +kernel⟩

end Leibrix.EpochGenerator

import Leibrix.GoCalendar
import Leibrix.Loops
import Leibrix.Tiling
import Leibrix.TimeGrid

/-! The slicing loop of `sliceTimeRange` on 64-bit times. It repeats one step from the truncated
start on, for as long as the end of the range is not reached. In the years of valid timestamps
a positive step leads from one point of the grid to the next, and the epochs tile the range. -/
namespace Leibrix.EpochGenerator
open Leibrix.Proto Leibrix.GoTime Leibrix.Gregorian Leibrix.Utc Leibrix.Tiling Leibrix.Loops

-- the unit is one of HOUR, DAY, WEEK and MONTH
def KnownUnit (granularity : EpochGranularity) : Prop :=
  ∀ code, granularity.unit ≠ .unrecognized code

def next (granularity : EpochGranularity) (t : Time) : Time :=
  match addGranularity t granularity with
  | .ok t' => t'
  | _ => t

variable {granularity : EpochGranularity}

theorem addGranularity_known (hu : KnownUnit granularity) (t : Time) :
    addGranularity t granularity = .ok (next granularity t) := by
  obtain ⟨value, unit⟩ := granularity
  cases unit with
  | hour | day | week | month => rfl
  | unrecognized code => exact absurd rfl (hu code)

theorem StepsForward.known (h : StepsForward granularity) : KnownUnit granularity := by
  intro code hu
  simp [StepsForward, hu] at h

section Loop
variable (sha256 : List UInt8 → List UInt8) (d : DimensionValues) {finish : Time}

def slices (granularity : EpochGranularity) : Nat → Time → List EpochInfo
  | 0, _ => []
  | n + 1, t =>
    newEpoch sha256 t (next granularity t) d :: slices granularity n (next granularity t)

theorem mem_slices {n : Nat} {t : Time} {e : EpochInfo} :
    e ∈ slices sha256 d granularity n t ↔ ∃ k < n,
      e = newEpoch sha256 ((next granularity)^[k] t) ((next granularity)^[k + 1] t) d := by
  induction n generalizing t with
  | zero => simp [slices]
  | succ n ih =>
    rw [slices, List.mem_cons, ih]
    constructor
    · rintro (rfl | ⟨k, hk, rfl⟩)
      · exact ⟨0, by omega, rfl⟩
      · exact ⟨k + 1, by omega, rfl⟩
    · rintro ⟨k, hk, rfl⟩
      cases k with
      | zero => exact .inl rfl
      | succ k => exact .inr ⟨k, by omega, rfl⟩

theorem sliceLoop_going (hu : KnownUnit granularity) (fuel : Nat) {t : Time} (hc : t < finish) :
    sliceLoop sha256 finish granularity d (fuel + 1) t =
      (sliceLoop sha256 finish granularity d fuel (next granularity t)).bind fun rest =>
        .ok (newEpoch sha256 t (next granularity t) d :: rest) := by
  rw [sliceLoop, if_pos (Time.before_iff.mpr hc), addGranularity_known hu]
  rfl

theorem sliceLoop_stopped (fuel : Nat) {t : Time} (hc : ¬t < finish) :
    sliceLoop sha256 finish granularity d (fuel + 1) t = .ok [] := by
  rw [sliceLoop, if_neg (Time.before_iff.not.mpr hc)]

theorem length_slices (n : Nat) (t : Time) :
    (slices sha256 d granularity n t).length = n := by
  induction n generalizing t with
  | zero => rfl
  | succ n ih => rw [slices, List.length_cons, ih]

/-- The loop returns after the number of turns that its step takes to the end. -/
theorem sliceLoop_ok (hu : KnownUnit granularity) {fuel : Nat} {t : Time} {es : List EpochInfo} :
    sliceLoop sha256 finish granularity d fuel t = .ok es ↔ ∃ n < fuel,
      Exits (next granularity) (· < finish) t n ∧ es = slices sha256 d granularity n t := by
  induction fuel generalizing t es with
  | zero => simp [sliceLoop]
  | succ fuel ih =>
    by_cases hc : t < finish
    · rw [sliceLoop_going sha256 d hu fuel hc, Outcome.bind_eq_ok]
      constructor
      · rintro ⟨rest, hr, h⟩
        obtain ⟨n, hn, he, rfl⟩ := ih.mp hr
        exact ⟨n + 1, by omega, exits_succ.mpr ⟨hc, he⟩, (Outcome.ok.inj h).symm⟩
      · rintro ⟨n, hn, he, rfl⟩
        cases n with
        | zero => exact absurd hc he.stopped
        | succ n => exact ⟨_, ih.mpr ⟨n, by omega, (exits_succ.mp he).2, rfl⟩, rfl⟩
    · rw [sliceLoop_stopped sha256 d fuel hc]
      constructor
      · intro h
        exact ⟨0, by omega, exits_zero.mpr hc, (Outcome.ok.inj h).symm⟩
      · rintro ⟨n, hn, he, rfl⟩
        cases n with
        | zero => rfl
        | succ n => exact absurd (exits_succ.mp he).1 hc

/-- Without an end of the turns the loop does not return. -/
theorem sliceLoop_hangs (hu : KnownUnit granularity) (fuel : Nat) {t : Time}
    (h : ∀ n, ¬Exits (next granularity) (· < finish) t n) :
    sliceLoop sha256 finish granularity d fuel t = .hang := by
  induction fuel generalizing t with
  | zero => rfl
  | succ fuel ih =>
    have hc : t < finish := not_not.mp fun hc => h 0 (exits_zero.mpr hc)
    rw [sliceLoop_going sha256 d hu fuel hc, ih fun n hn => h (n + 1) (exits_succ.mpr ⟨hc, hn⟩)]
    rfl

/-- A unit outside the enumeration leaves no slice to return. -/
theorem sliceLoop_known {fuel : Nat} {t : Time} {es : List EpochInfo}
    (h : sliceLoop sha256 finish granularity d fuel t = .ok es) (hne : es ≠ []) :
    KnownUnit granularity := by
  intro code hu
  cases fuel with
  | zero => simp [sliceLoop] at h
  | succ fuel =>
    by_cases hc : t < finish
    · rw [sliceLoop, if_pos (Time.before_iff.mpr hc)] at h
      obtain ⟨next, hn, -⟩ := Outcome.bind_eq_ok.mp h
      simp [addGranularity, hu] at hn
    · rw [sliceLoop_stopped sha256 d fuel hc] at h
      exact hne (Outcome.ok.inj h).symm

end Loop

section Ranges
variable {sha256 : List UInt8 → List UInt8} {d : DimensionValues} {filter : TimeRangeFilter}
  {es : List EpochInfo} {fuel n : Nat}

-- where the loop starts
def anchor (granularity : EpochGranularity) (filter : TimeRangeFilter) : Time :=
  truncateToGranularity (fieldTime filter.startInclusive) granularity

-- the loop over a range ends after `n` turns
def Turns (granularity : EpochGranularity) (filter : TimeRangeFilter) (n : Nat) : Prop :=
  Exits (next granularity) (· < fieldTime filter.endExclusive) (anchor granularity filter) n

instance (granularity : EpochGranularity) (filter : TimeRangeFilter) (n : Nat) :
    Decidable (Turns granularity filter n) :=
  inferInstanceAs (Decidable (Exits _ _ _ _))

-- slicing enters the loop and ends after `n` turns
structure SlicedIn (granularity : EpochGranularity) (filter : TimeRangeFilter) (n : Nat) :
    Prop where
  proper : fieldTime filter.startInclusive < fieldTime filter.endExclusive
  known : KnownUnit granularity
  pos : 0 < n
  turns : Turns granularity filter n

theorem sliceTimeRange_proper (h : fieldTime filter.startInclusive < fieldTime filter.endExclusive)
    (fuel : Nat) : sliceTimeRange sha256 fuel filter granularity d =
      (sliceLoop sha256 (fieldTime filter.endExclusive) granularity d fuel
        (anchor granularity filter)).bind fun epochs =>
          if epochs = [] then .err "no epochs generated from time range" else .ok epochs := by
  have hnot : ¬((fieldTime filter.endExclusive).before (fieldTime filter.startInclusive) = true ∨
      fieldTime filter.startInclusive = fieldTime filter.endExclusive) := by
    rw [Time.before_iff]
    exact not_or.mpr ⟨h.asymm, h.ne⟩
  simp only [sliceTimeRange, if_neg hnot]
  rfl

theorem sliceTimeRange_improper
    (h : ¬fieldTime filter.startInclusive < fieldTime filter.endExclusive) (fuel : Nat) :
    sliceTimeRange sha256 fuel filter granularity d =
      .err "invalid time range: start must be before end" := by
  have hor : (fieldTime filter.endExclusive).before (fieldTime filter.startInclusive) = true ∨
      fieldTime filter.startInclusive = fieldTime filter.endExclusive := by
    rw [Time.before_iff]
    exact (lt_or_eq_of_le (not_lt.mp h)).imp_right Eq.symm
  simp only [sliceTimeRange, if_pos hor]

/-- What `sliceTimeRange` returns for one set of dimension values, whatever the range. -/
theorem sliceTimeRange_ok_iff :
    sliceTimeRange sha256 fuel filter granularity d = .ok es ↔
      ∃ n < fuel, SlicedIn granularity filter n ∧
        es = slices sha256 d granularity n (anchor granularity filter) := by
  by_cases hr : fieldTime filter.startInclusive < fieldTime filter.endExclusive
  · rw [sliceTimeRange_proper hr, Outcome.bind_eq_ok]
    constructor
    · rintro ⟨es', hl, h⟩
      split_ifs at h with hne
      obtain rfl := Outcome.ok.inj h
      have hu := sliceLoop_known sha256 d hl hne
      obtain ⟨n, hn, he, hes⟩ := (sliceLoop_ok sha256 d hu).mp hl
      refine ⟨n, hn, ⟨hr, hu, ?_, he⟩, hes⟩
      by_contra hz
      obtain rfl : n = 0 := by omega
      exact hne hes
    · rintro ⟨n, hn, ⟨-, hu, hpos, he⟩, rfl⟩
      refine ⟨_, (sliceLoop_ok sha256 d hu).mpr ⟨n, hn, he, rfl⟩, if_neg ?_⟩
      obtain ⟨n, rfl⟩ := Nat.exists_eq_add_of_le' hpos
      simp [slices]
  · rw [sliceTimeRange_improper hr]
    refine iff_of_false (by simp) ?_
    rintro ⟨n, -, hn, -⟩
    exact hr hn.proper

end Ranges

section Forward
variable {t : Time}

theorem next_of_unit {value : Int32} :
    next ⟨value, .hour⟩ t = t.add (hourStep value) ∧
    next ⟨value, .day⟩ t = t.addDate 0 0 value.toInt ∧
    next ⟨value, .week⟩ t = t.addDate 0 0 (value.toInt * 7) ∧
    next ⟨value, .month⟩ t = t.addDate 0 value.toInt 0 := ⟨rfl, rfl, rfl, rfl⟩

theorem midnight_zero_le (h : InEra t) : midnight 0 ≤ t.instant := by
  have hlow := h.low
  simp only [midnight, Time.instant, unixDay, nsPerDay, unixToInternal]
  omega

theorem sec_nonneg (h : midnight 0 ≤ t.instant) : 0 ≤ t.sec.toInt := by
  have ht := t.nsec.isLt
  simp only [midnight, Time.instant, unixDay, nsPerDay, unixToInternal] at h
  omega

/-- In the years of valid timestamps, truncation goes to the last boundary of the unit. -/
theorem instant_truncateToGranularity (h : InEra t) (granularity : EpochGranularity) :
    (truncateToGranularity t granularity).instant = floorTo granularity.unit t.instant := by
  obtain ⟨value, unit⟩ := granularity
  cases unit with
  | hour => exact instant_truncate h.low
  | day | unrecognized code => exact instant_truncateToDay h
  | week =>
    obtain ⟨hd0, hd1⟩ := dayNumber_bounds h
    -- back to Monday, which is not before day 0
    have hback : ∃ back, 0 ≤ back ∧ back ≤ 6 ∧ dayNumber t.instant - back =
        7 * (dayNumber t.instant / 7) ∧
        -((if t.weekday = 0 then 7 else t.weekday) - 1) = -back := by
      refine ⟨_, ?_, ?_, ?_, rfl⟩ <;> rw [weekday_eq h] <;>
        simp only [weekday, dayOfWeek] <;> split_ifs <;> omega
    obtain ⟨back, hb0, hb6, hmonday, hb⟩ := hback
    have hinst := instant_addDate_days h (by omega : -34359738368 ≤ -back) (by omega)
    have hday := add_days t.instant (-back)
    have hera : InEra (t.addDate 0 0 (-back)) := by
      refine h.of_le (sec_nonneg ?_) ?_
      · have := midnight_dayNumber_le (t.addDate 0 0 (-back)).instant
        refine le_trans (midnight_strictMono.monotone ?_) this
        rw [hinst, hday.1]
        omega
      · rw [Time.le_iff, hinst]
        simp only [nsPerDay]
        omega
    simp only [truncateToGranularity, hb, truncateToDay, floorTo]
    rw [instant_truncateToDay hera, hinst, hday.1, ← hmonday, sub_eq_add_neg]
  | month => exact instant_truncateToMonth h

theorem inEra_truncate (h : InEra t) (granularity : EpochGranularity) :
    InEra (truncateToGranularity t granularity) := by
  have hinst := instant_truncateToGranularity h granularity
  refine h.of_le (sec_nonneg ?_) ?_
  · rw [hinst]
    exact le_floorTo _ (midnight_zero_le h)
  · rw [Time.le_iff, hinst]
    exact floorTo_le _ _

/-- There the loop's step leads to the next point of the grid, forward or back. -/
theorem instant_next (h : InEra t) (hg : OnGrid granularity t.instant)
    (hu : KnownUnit granularity) :
    (next granularity t).instant = gridPoint granularity t.instant 1 := by
  obtain ⟨value, unit⟩ := granularity
  have hlow := value.le_toInt
  have hhigh := value.toInt_lt
  have ht := t.nsec.isLt
  have hlo := h.low
  have hhi := h.high
  cases unit with
  | hour =>
    obtain ⟨h0, h1⟩ := hourStep_bounds value
    rw [next_of_unit.1, instant_add h0 h1]
    · simp [gridPoint]
    · simp only [Representable, Time.instant, unixToInternal]
      omega
  | day =>
    rw [next_of_unit.2.1, instant_addDate_days h (by omega) (by omega)]
    simp [gridPoint]
  | week =>
    rw [next_of_unit.2.2.1, instant_addDate_days h (by omega) (by omega)]
    simp [gridPoint]
  | month =>
    obtain ⟨m, hm⟩ := hg rfl
    rw [next_of_unit.2.2.2, instant_addDate_months h hm (by omega) (by omega), hm]
    simp [gridPoint]
  | unrecognized code => exact absurd rfl (hu code)

variable {finish : Time} {n k : Nat}

theorem inEra_of_gridPoint (hf : StepsForward granularity) (h : InEra t)
    (hg : OnGrid granularity t.instant) (hfin : InEra finish) {s : Time}
    (hs : s.instant = gridPoint granularity t.instant k) (hlt : s < finish) : InEra s := by
  have hfirst := (gridPoint_strictMono hf t.instant).monotone (Int.natCast_nonneg k)
  rw [gridPoint_zero hg] at hfirst
  refine hfin.of_le (sec_nonneg ?_) hlt.le
  rw [hs]
  exact (midnight_zero_le h).trans hfirst

/-- A loop with a positive step runs along the grid until it passes the end of the range. -/
theorem instant_iterate (hf : StepsForward granularity) (h : InEra t)
    (hg : OnGrid granularity t.instant) (hfin : InEra finish)
    (he : Exits (next granularity) (· < finish) t n) (hk : k ≤ n) :
    ((next granularity)^[k] t).instant = gridPoint granularity t.instant k := by
  induction k with
  | zero => exact (gridPoint_zero hg).symm
  | succ k ih =>
    have hinst := ih (by omega)
    have hera := inEra_of_gridPoint hf h hg hfin hinst (he.goes k (by omega))
    rw [Function.iterate_succ_apply', instant_next hera (by rw [hinst]; exact gridPoint_onGrid _ _)
      hf.known, hinst, gridPoint_add]
    push_cast
    rfl

theorem le_gridPoint (hf : StepsForward granularity) (hg : OnGrid granularity t.instant) (k : Nat) :
    t.instant + k ≤ gridPoint granularity t.instant k := by
  induction k with
  | zero => simpa using (gridPoint_zero hg).ge
  | succ k ih =>
    have := gridPoint_strictMono hf t.instant (Int.ofNat_lt.mpr (Nat.lt_succ_self k))
    push_cast at *
    omega

theorem exits_forward (hf : StepsForward granularity) (h : InEra t)
    (hg : OnGrid granularity t.instant) (hfin : InEra finish) :
    ∃ n ≤ (finish.instant - t.instant).toNat, Exits (next granularity) (· < finish) t n := by
  -- what is left of the range bounds the number of turns
  obtain ⟨n, hn⟩ : ∃ n, Exits (next granularity) (· < finish) t n := by
    refine exists_exits (I := fun s => s < finish → InEra s ∧ OnGrid granularity s.instant)
      (fun s => (finish.instant - s.instant).toNat) (fun s hs hlt => ?_) fun _ => ⟨h, hg⟩
    obtain ⟨hera, hgrid⟩ := hs hlt
    have hnext := instant_next hera hgrid hf.known
    have hstep := gridPoint_strictMono hf s.instant zero_lt_one
    rw [gridPoint_zero hgrid] at hstep
    rw [Time.lt_iff] at hlt
    refine ⟨fun hlt' => ⟨hfin.of_le (sec_nonneg ?_) hlt'.le, ?_⟩, ?_⟩
    · have := midnight_zero_le hera
      omega
    · rw [hnext]
      exact gridPoint_onGrid _ _
    · omega
  refine ⟨n, ?_, hn⟩
  cases n with
  | zero => omega
  | succ n =>
    have hlt : ((next granularity)^[n] t).instant < finish.instant := hn.goes n (by omega)
    rw [instant_iterate hf h hg hfin hn (by omega)] at hlt
    have := le_gridPoint hf hg n
    omega

end Forward

section Epochs
variable {sha256 : List UInt8 → List UInt8}

-- start and end of an epoch on the time line
def epochStart (e : EpochInfo) : Int := (fieldTime (e.timeRange.bind (·.startInclusive))).instant
def epochEnd (e : EpochInfo) : Int := (fieldTime (e.timeRange.bind (·.endExclusive))).instant
def span (e : EpochInfo) : Int × Int := (epochStart e, epochEnd e)

@[simp] theorem epochStart_newEpoch (s f : Time) (d : DimensionValues) :
    epochStart (newEpoch sha256 s f d) = s.instant := by
  simp [epochStart, newEpoch, fieldTime]

@[simp] theorem epochEnd_newEpoch (s f : Time) (d : DimensionValues) :
    epochEnd (newEpoch sha256 s f d) = f.instant := by
  simp [epochEnd, newEpoch, fieldTime]

@[simp] theorem newEpoch_dimensionValues (s f : Time) (d : DimensionValues) :
    (newEpoch sha256 s f d).dimensionValues = d := rfl

theorem slices_tiles {d : DimensionValues} {n : Nat} {t : Time}
    (h : ∀ k < n, (next granularity)^[k] t < (next granularity)^[k + 1] t) :
    Tiles t.instant ((next granularity)^[n] t).instant
      ((slices sha256 d granularity n t).map span) := by
  induction n generalizing t with
  | zero => rfl
  | succ n ih =>
    rw [slices, List.map_cons]
    refine ⟨epochStart_newEpoch _ _ _, ?_, ?_⟩
    · simp only [span, epochStart_newEpoch, epochEnd_newEpoch]
      exact h 0 (Nat.succ_pos n)
    · simp only [span, epochEnd_newEpoch]
      exact ih fun k hk => h (k + 1) (Nat.succ_lt_succ hk)

structure ValidTimes (filter : TimeRangeFilter) : Prop where
  start : ∃ ts, filter.startInclusive = some ts ∧ ts.Valid
  finish : ∃ ts, filter.endExclusive = some ts ∧ ts.Valid

theorem ValidTimes.inEra {filter : TimeRangeFilter} (h : ValidTimes filter) :
    InEra (fieldTime filter.startInclusive) ∧ InEra (fieldTime filter.endExclusive) := by
  obtain ⟨start, hs, hvs⟩ := h.start
  obtain ⟨finish, hf, hvf⟩ := h.finish
  rw [hs, hf]
  exact ⟨inEra_of_valid hvs, inEra_of_valid hvf⟩

theorem ValidTimes.anchor {filter : TimeRangeFilter} (h : ValidTimes filter)
    (granularity : EpochGranularity) : InEra (anchor granularity filter) ∧
      (anchor granularity filter).instant =
        floorTo granularity.unit (fieldTime filter.startInclusive).instant :=
  ⟨inEra_truncate h.inEra.1 granularity, instant_truncateToGranularity h.inEra.1 granularity⟩

theorem ValidTimes.onGrid {filter : TimeRangeFilter} (h : ValidTimes filter)
    (granularity : EpochGranularity) : OnGrid granularity (EpochGenerator.anchor granularity
      filter).instant := by
  rw [(h.anchor granularity).2]
  exact floorTo_onGrid _ _

-- what `sliceTimeRange` returns for one set of dimension values
structure Slices (start finish : Int) (d : DimensionValues) (es : List EpochInfo) : Prop where
  nonempty : es ≠ []
  tiles : ∃ first stop, first ≤ start ∧ finish ≤ stop ∧ Tiles first stop (es.map span)
  labelled : ∀ e ∈ es, e.dimensionValues = d
  early : ∀ e ∈ es, epochStart e < finish

theorem sliceTimeRange_slices {fuel : Nat} {filter : TimeRangeFilter} {d : DimensionValues}
    {es : List EpochInfo} (hv : ValidTimes filter) (hf : StepsForward granularity)
    (h : sliceTimeRange sha256 fuel filter granularity d = .ok es) :
    Slices (fieldTime filter.startInclusive).instant (fieldTime filter.endExclusive).instant d
      es := by
  obtain ⟨n, -, ⟨-, -, hpos, he⟩, rfl⟩ := sliceTimeRange_ok_iff.mp h
  have hera := hv.inEra
  have hanchor := hv.anchor granularity
  have hg := hv.onGrid granularity
  have hinst : ∀ k ≤ n, ((next granularity)^[k] (anchor granularity filter)).instant =
      gridPoint granularity (anchor granularity filter).instant k :=
    fun k hk => instant_iterate hf hanchor.1 hg hera.2 he hk
  refine ⟨?_, ⟨_, _, ?_, ?_, slices_tiles fun k hk => ?_⟩, fun e hm => ?_, fun e hm => ?_⟩
  · obtain ⟨n, rfl⟩ := Nat.exists_eq_add_of_le' hpos
    simp [slices]
  · rw [hanchor.2]
    exact floorTo_le _ _
  · exact not_lt.mp he.stopped
  · rw [Time.lt_iff, hinst k hk.le, hinst (k + 1) hk]
    exact gridPoint_strictMono hf _ (by push_cast; omega)
  · obtain ⟨k, -, rfl⟩ := (mem_slices sha256 d).mp hm
    rfl
  · obtain ⟨k, hk, rfl⟩ := (mem_slices sha256 d).mp hm
    rw [epochStart_newEpoch]
    exact he.goes k hk

end Epochs
end Leibrix.EpochGenerator

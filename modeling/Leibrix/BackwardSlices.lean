import Leibrix.TimeSlices

/-! Steps that are not positive. A negative number of days, weeks or months leads back past
the first 64-bit second and there, by wrapping, to times that are later than any valid one: the
loop ends, and before its last turn every step goes back by a multiple of 3456 seconds. Hours
do not wrap, since `Add` stops at the end of its range. -/
namespace Leibrix.EpochGenerator
open Leibrix.Proto Leibrix.GoTime Leibrix.Gregorian Leibrix.Utc Leibrix.Loops

def StepsBack (granularity : EpochGranularity) : Prop :=
  match granularity.unit with
  | .day | .week | .month => granularity.value.toInt < 0
  | .hour | .unrecognized _ => False

def Progresses (granularity : EpochGranularity) : Prop :=
  match granularity.unit with
  | .hour => 0 < hourStep granularity.value
  | .day | .week | .month => granularity.value.toInt ≠ 0
  | .unrecognized _ => False

instance (granularity : EpochGranularity) : Decidable (StepsBack granularity) :=
  match granularity with
  | ⟨value, .day⟩ | ⟨value, .week⟩ | ⟨value, .month⟩ =>
    inferInstanceAs (Decidable (value.toInt < 0))
  | ⟨_, .hour⟩ | ⟨_, .unrecognized _⟩ => inferInstanceAs (Decidable False)

instance (granularity : EpochGranularity) : Decidable (Progresses granularity) :=
  match granularity with
  | ⟨value, .hour⟩ => inferInstanceAs (Decidable (0 < hourStep value))
  | ⟨value, .day⟩ | ⟨value, .week⟩ | ⟨value, .month⟩ =>
    inferInstanceAs (Decidable (value.toInt ≠ 0))
  | ⟨_, .unrecognized _⟩ => inferInstanceAs (Decidable False)

variable {granularity : EpochGranularity} {t finish : Time} {n k : Nat}

theorem progresses_iff : Progresses granularity ↔
    StepsForward granularity ∨ StepsBack granularity := by
  obtain ⟨value, unit⟩ := granularity
  cases unit <;> simp [Progresses, StepsForward, StepsBack] <;> omega

theorem StepsBack.known (h : StepsBack granularity) : KnownUnit granularity := by
  intro code hu
  simp [StepsBack, hu] at h

theorem Progresses.known (h : Progresses granularity) : KnownUnit granularity :=
  (progresses_iff.mp h).elim StepsForward.known StepsBack.known

theorem Progresses.forward (h : Progresses granularity) (hpos : 0 < granularity.value.toInt) :
    StepsForward granularity := by
  refine (progresses_iff.mp h).resolve_right fun hb => ?_
  obtain ⟨value, unit⟩ := granularity
  cases unit with
  | day | week | month => exact absurd hb hpos.not_gt
  | hour | unrecognized code => exact hb

theorem next_back (h : StepsBack granularity) (t : Time) : ∃ j, 1 ≤ j ∧
    3456 * j < 9007199254740992 ∧
    (next granularity t).sec = Int64.ofInt (t.sec.toInt - 3456 * j) ∧
    (next granularity t).nsec = t.nsec := by
  obtain ⟨value, unit⟩ := granularity
  have hlow := value.le_toInt
  have hhigh := value.toInt_lt
  cases unit with
  | day =>
    have hneg : value.toInt < 0 := h
    refine ⟨-25 * value.toInt, by omega, by omega, ?_, addDate_nsec _ _ _ _⟩
    rw [next_of_unit.2.1, addDate_days]
    congr 1
    ring
  | week =>
    have hneg : value.toInt < 0 := h
    refine ⟨-175 * value.toInt, by omega, by omega, ?_, addDate_nsec _ _ _ _⟩
    rw [next_of_unit.2.2.1, addDate_days]
    congr 1
    ring
  | month =>
    have hneg : value.toInt < 0 := h
    obtain ⟨c, hc, -, hsec⟩ := addDate_sec t 0 hlow (by omega : value.toInt ≤ 2147483647)
    have hb := monthStart_sub_bounds (m := monthOf t.civilDay + value.toInt)
      (n := monthOf t.civilDay) (by omega)
    generalize monthStart (monthOf t.civilDay) = s at *
    generalize monthStart (monthOf t.civilDay + value.toInt) = s' at *
    -- the shift of a date before the absolute year is a multiple of 3456 seconds too
    obtain ⟨c', rfl, hc'⟩ : ∃ c', c = 3456 * c' ∧ -22 ≤ c' ∧ c' ≤ 3 := by
      rcases hc with rfl | rfl | rfl
      · exact ⟨0, by omega⟩
      · exact ⟨-22, by omega⟩
      · exact ⟨3, by omega⟩
    refine ⟨25 * (s - s') - c', by omega, by omega, ?_, addDate_nsec _ _ _ _⟩
    rw [next_of_unit.2.2.2, hsec]
    congr 1
    ring
  | hour | unrecognized code => exact absurd h (by simp [StepsBack])

/-- The step goes back, or it has wrapped around and the loop is over. -/
theorem next_back_cases (h : StepsBack granularity) (hfin : InEra finish) (hlt : t < finish) :
    (∃ j, 1 ≤ j ∧ (next granularity t).sec.toInt = t.sec.toInt - 3456 * j ∧
      (next granularity t).nsec = t.nsec) ∨ ¬next granularity t < finish := by
  obtain ⟨j, h1, hj, hsec, hnsec⟩ := next_back h t
  have ht := t.nsec.isLt
  have hf := finish.nsec.isLt
  have hlow := t.sec.le_toInt
  have hhigh := hfin.high
  obtain ⟨⟨q, hq⟩, hq0, hq1⟩ := Words.toInt_ofInt_spec (t.sec.toInt - 3456 * j)
  rw [← hsec] at hq hq0 hq1
  simp only [Time.lt_iff, Time.instant] at hlt
  by_cases hwrap : -9223372036854775808 ≤ t.sec.toInt - 3456 * j
  · exact .inl ⟨j, h1, by omega, hnsec⟩
  · refine .inr ?_
    simp only [Time.lt_iff, Time.instant, hnsec]
    omega

theorem next_lt (h : StepsBack granularity) (ht : InEra t) : next granularity t < t := by
  obtain ⟨j, h1, hj, hsec, hnsec⟩ := next_back h t
  have hlow := ht.low
  have hhigh := t.sec.toInt_lt
  simp only [Time.lt_iff, Time.instant, hsec, hnsec]
  rw [Words.toInt_ofInt_of_mem (by omega) (by omega)]
  omega

theorem exits_back (h : StepsBack granularity) (hfin : InEra finish) (t : Time) :
    ∃ n, Exits (next granularity) (· < finish) t n := by
  -- the seconds that are left above the first one bound the number of turns
  refine exists_exits (I := fun _ => True) (fun s =>
    if s < finish then (s.sec.toInt + 9223372036854775808).toNat + 1 else 0)
    (fun s _ hlt => ⟨trivial, ?_⟩) trivial
  have hlow := (next granularity s).sec.le_toInt
  rw [if_pos hlt]
  rcases next_back_cases h hfin hlt with ⟨j, hj, hsec, -⟩ | hstop
  · split_ifs <;> omega
  · rw [if_neg hstop]
    omega

theorem iterate_back (h : StepsBack granularity) (hfin : InEra finish)
    (he : Exits (next granularity) (· < finish) t n) (hk : k < n) :
    ∃ j : Int, k ≤ j ∧ ((next granularity)^[k] t).sec.toInt = t.sec.toInt - 3456 * j ∧
      ((next granularity)^[k] t).nsec = t.nsec := by
  induction k with
  | zero => exact ⟨0, by simp⟩
  | succ k ih =>
    obtain ⟨j, hj, hsec, hnsec⟩ := ih (by omega)
    rcases next_back_cases h hfin (he.goes k (by omega)) with ⟨i, hi, hsec', hnsec'⟩ | hstop
    · rw [Function.iterate_succ_apply']
      exact ⟨j + i, by push_cast; omega, by rw [hsec', hsec]; ring, by rw [hnsec', hnsec]⟩
    · rw [← Function.iterate_succ_apply' (next granularity)] at hstop
      exact absurd (he.goes (k + 1) hk) hstop

/-- Steps of no length, and of hours that do not lead forward, keep the loop going. -/
theorem not_exits_of_not_progresses (hu : KnownUnit granularity) (h : ¬Progresses granularity)
    (hfin : InEra finish) (hlt : t < finish) (n : Nat) :
    ¬Exits (next granularity) (· < finish) t n := by
  refine not_exits (p := (· < finish)) hlt (fun s hs => ?_) n
  obtain ⟨value, unit⟩ := granularity
  have hsame : s.addDate 0 0 0 = s := by
    have hsec := addDate_days s 0
    rw [mul_zero, add_zero, Int64.ofInt_toInt] at hsec
    exact Time.ext_iff_toInt.mpr ⟨by rw [hsec], by rw [addDate_nsec]⟩
  cases unit with
  | hour =>
    obtain ⟨h0, -⟩ := hourStep_bounds value
    rcases add_nonpos s h0 (not_lt.mp h) with hle | hmin
    · exact hle.trans_lt hs
    · have hlow := hfin.low
      have hn := (s.add (hourStep value)).nsec.isLt
      rw [next_of_unit.1, Time.lt_iff]
      simp only [Time.instant, hmin]
      omega
  | day =>
    have hz : value.toInt = 0 := not_not.mp h
    rwa [next_of_unit.2.1, hz, hsame]
  | week =>
    have hz : value.toInt = 0 := not_not.mp h
    rwa [next_of_unit.2.2.1, hz, zero_mul, hsame]
  | month =>
    have hz : value.toInt = 0 := not_not.mp h
    rwa [next_of_unit.2.2.2, hz, hsame]
  | unrecognized code => exact absurd rfl (hu code)

section Ranges
variable {filter : TimeRangeFilter}

theorem anchor_lt (hv : ValidTimes filter)
    (hlt : fieldTime filter.startInclusive < fieldTime filter.endExclusive) :
    anchor granularity filter < fieldTime filter.endExclusive := by
  rw [Time.lt_iff, (hv.anchor granularity).2]
  exact (floorTo_le _ _).trans_lt hlt

/-- Slicing a valid range in a known unit comes to its end exactly if the step is positive or,
in days, weeks and months, negative. -/
theorem turns_iff (hv : ValidTimes filter)
    (hlt : fieldTime filter.startInclusive < fieldTime filter.endExclusive)
    (hu : KnownUnit granularity) : (∃ n, Turns granularity filter n) ↔ Progresses granularity := by
  constructor
  · rintro ⟨n, hn⟩
    by_contra hp
    exact not_exits_of_not_progresses hu hp hv.inEra.2 (anchor_lt hv hlt) n hn
  · intro hp
    rcases progresses_iff.mp hp with hf | hb
    · obtain ⟨n, -, hn⟩ := exits_forward hf (hv.anchor granularity).1 (hv.onGrid granularity)
        hv.inEra.2
      exact ⟨n, hn⟩
    · exact exits_back hb hv.inEra.2 _

theorem SlicedIn.progresses {n : Nat} (h : SlicedIn granularity filter n)
    (hv : ValidTimes filter) : Progresses granularity :=
  (turns_iff hv h.proper h.known).mp ⟨n, h.turns⟩

end Ranges
end Leibrix.EpochGenerator

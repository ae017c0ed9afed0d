import Leibrix.EpochGrid

/-! When `GenerateEpochs` ends: exactly for those steps for which its loop does. -/
namespace Leibrix.EpochGenerator
open Leibrix.Proto Leibrix.GoTime

structure ValidRange (filter : TimeRangeFilter) : Prop extends ValidTimes filter where
  proper : fieldTime filter.startInclusive < fieldTime filter.endExclusive

section Calls
variable (sha256 : List UInt8 → List UInt8) {filter : TimeRangeFilter}
  {granularity : EpochGranularity} {n : Nat}

theorem ValidRange.slicedIn (hr : ValidRange filter) (hu : KnownUnit granularity)
    (h : Turns granularity filter n) : SlicedIn granularity filter n := by
  refine ⟨hr.proper, hu, Nat.pos_of_ne_zero fun hz => ?_, h⟩
  subst hz
  exact h.stopped (anchor_lt hr.toValidTimes hr.proper)

theorem sliceTimeRange_hangs (hr : ValidRange filter) (hu : KnownUnit granularity)
    (hp : ¬Progresses granularity) (fuel : Nat) (d : DimensionValues) :
    sliceTimeRange sha256 fuel filter granularity d = .hang := by
  have hlt : anchor granularity filter < fieldTime filter.endExclusive :=
    anchor_lt hr.toValidTimes hr.proper
  have hloop := sliceLoop_hangs sha256 d hu fuel
    (not_exits_of_not_progresses hu hp hr.inEra.2 hlt)
  rw [sliceTimeRange_proper hr.proper, hloop]
  rfl

theorem sliceEach_returns (hn : SlicedIn granularity filter n) (sets : List DimensionValues)
    {fuel : Nat} (hfuel : n < fuel) :
    sliceEach sha256 fuel filter granularity sets =
      .ok (sets.flatMap fun d => slices sha256 d granularity n (anchor granularity filter)) := by
  induction sets with
  | nil => rfl
  | cons d sets ih =>
    exact sliceEach_cons.mpr ⟨_, _, sliceTimeRange_ok_iff.mpr ⟨n, hfuel, hn, rfl⟩, ih, rfl⟩

-- the nanoseconds from the first boundary to the end bound the turns of a positive step
def sliceBound (filter : TimeRangeFilter) (granularity : EpochGranularity) : Nat :=
  ((fieldTime filter.endExclusive).instant - (anchor granularity filter).instant).toNat + 1

theorem exists_slicedIn (hr : ValidRange filter) (hf : StepsForward granularity) :
    ∃ n < sliceBound filter granularity, SlicedIn granularity filter n := by
  obtain ⟨n, hle, hn⟩ := exits_forward hf (hr.anchor granularity).1 (hr.onGrid granularity)
    hr.inEra.2
  exact ⟨n, Nat.lt_succ_of_le hle, hr.slicedIn hf.known hn⟩

end Calls

section Requests
variable {request : AdmitDatasetRequest} {filter : TimeRangeFilter}
  {granularity : EpochGranularity}

theorem determineGranularity_derived (hn : request.epochGranularity = none)
    (hg : determineGranularity request = some granularity) :
    granularity.value = 1 ∧ StepsForward granularity := by
  simp only [determineGranularity, hn] at hg
  cases htp : request.source.bind (·.partition) |>.bind (·.timePartition) with
  | none => simp [htp] at hg
  | some timePartition =>
    simp only [htp] at hg
    cases hc : timePartition.column.bind (·.sourceGranularity) with
    | none =>
      simp only [hc, Option.some.injEq] at hg
      subst hg
      decide
    | some source =>
      simp only [hc] at hg
      cases source with
      | unspecified | unrecognized code => simp [convertSourceGranularity] at hg
      | hour | day | week | month =>
        simp only [convertSourceGranularity, Option.some.injEq] at hg
        subst hg
        decide

theorem generateEpochs_returns (sha256 : List UInt8 → List UInt8) {n fuel : Nat}
    (hf : extractTimeRange request = .ok filter)
    (hg : determineGranularity request = some granularity) (hn : SlicedIn granularity filter n)
    (hfuel : n < fuel) : generateEpochs sha256 fuel request =
      .ok ((extractDimensionValueSets request).flatMap fun d =>
        slices sha256 d granularity n (anchor granularity filter)) :=
  (generateEpochs_of_range sha256 fuel hf hg).trans (sliceEach_returns sha256 hn _ hfuel)

theorem generateEpochs_hangs (sha256 : List UInt8 → List UInt8) (fuel : Nat)
    (hf : timeFilter request = some filter) (hr : ValidRange filter)
    (hg : determineGranularity request = some granularity) (hu : KnownUnit granularity)
    (hp : ¬Progresses granularity) : generateEpochs sha256 fuel request = .hang := by
  rw [generateEpochs_of_range sha256 fuel (extractTimeRange_of_valid hf hr.toValidTimes) hg]
  cases hsets : extractDimensionValueSets request with
  | nil => exact absurd hsets (extractDimensionValueSets_ne_nil request)
  | cons d sets =>
    rw [sliceEach, sliceTimeRange_hangs sha256 hr hu hp fuel d]
    rfl

/-- Slicing a valid range in a known unit ends exactly when its step leads somewhere: forward
for hours, in the 64-bit product of the value and the length of an hour, and in either
direction for days, weeks and months, which come to later times by wrapping around. -/
theorem generateEpochs_ends_iff (sha256 : List UInt8 → List UInt8)
    (hf : timeFilter request = some filter) (hr : ValidRange filter)
    (hg : determineGranularity request = some granularity) (hu : KnownUnit granularity) :
    Ends (fun fuel => generateEpochs sha256 fuel request) ↔ Progresses granularity := by
  constructor
  · intro h
    by_contra hp
    exact not_ends_of_hangs (fun fuel => generateEpochs_hangs sha256 fuel hf hr hg hu hp) h
  · intro hp
    obtain ⟨n, hn⟩ := (turns_iff hr.toValidTimes hr.proper hu).mpr hp
    exact ⟨n + 1, .ok _, trivial, fun fuel hfuel => generateEpochs_returns sha256
      (extractTimeRange_of_valid hf hr.toValidTimes) hg (hr.slicedIn hu hn) hfuel⟩

end Requests

theorem februaryFilter_range : ValidRange februaryFilter :=
  ⟨februaryFilter_valid, by decide⟩

theorem generateEpochs_ends_february :
    timeFilter (februaryIn (-2147483648) .month) = some februaryFilter ∧
      ValidRange februaryFilter ∧
      Ends (fun fuel => generateEpochs februarySha256 fuel februaryRequest) ∧
      Ends (fun fuel => generateEpochs februarySha256 fuel
        (februaryIn (-2147483648) .month)) := by
  have hu : KnownUnit ⟨1, .month⟩ := by simp [KnownUnit]
  have hu' : KnownUnit ⟨-2147483648, .month⟩ := by simp [KnownUnit]
  exact ⟨rfl, februaryFilter_range,
    (generateEpochs_ends_iff februarySha256 rfl februaryFilter_range rfl hu).mpr (by decide),
    (generateEpochs_ends_iff februarySha256 rfl februaryFilter_range rfl hu').mpr (by decide)⟩

/-- Steps of no days, and steps of so many hours that their nanoseconds pass 63 bits. -/
theorem generateEpochs_endless :
    ValidRange februaryFilter ∧ timeFilter (februaryIn 0 .day) = some februaryFilter ∧
      timeFilter (februaryIn 2562048 .hour) = some februaryFilter ∧
      ∀ sha256, ¬Ends (fun fuel => generateEpochs sha256 fuel (februaryIn 0 .day)) ∧
        ¬Ends (fun fuel => generateEpochs sha256 fuel (februaryIn 2562048 .hour)) := by
  refine ⟨februaryFilter_range, rfl, rfl, fun sha256 => ⟨?_, ?_⟩⟩
  · have hu : KnownUnit ⟨0, .day⟩ := by simp [KnownUnit]
    refine not_ends_of_hangs fun fuel => ?_
    exact generateEpochs_hangs sha256 fuel rfl februaryFilter_range rfl hu (by decide)
  · have hu : KnownUnit ⟨2562048, .hour⟩ := by simp [KnownUnit]
    refine not_ends_of_hangs fun fuel => ?_
    exact generateEpochs_hangs sha256 fuel rfl februaryFilter_range rfl hu (by decide)

end Leibrix.EpochGenerator

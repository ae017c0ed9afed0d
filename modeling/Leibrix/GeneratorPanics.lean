import Leibrix.Management
import Leibrix.SliceEnds

/-! The requests on which `GenerateEpochs` panics. There are two kinds: a time partition
without its filter, and a unit code outside the enumeration once there is a range to slice. -/
namespace Leibrix.EpochGenerator
open Leibrix.Proto Leibrix.GoTime

-- `filter.StartInclusive` is read through a nil filter
def FilterMissing (request : AdmitDatasetRequest) : Prop :=
  ∃ partition timePartition, request.source.bind (·.partition) = some partition ∧
    partition.timePartition = some timePartition ∧ timePartition.filter = none

-- a unit that the enumeration does not have, and a range over which the loop is entered: its
-- start, and the midnight that such a unit is truncated to, are before its end
structure UnknownStep (request : AdmitDatasetRequest) : Prop where
  unit : ∃ value code, request.epochGranularity = some ⟨value, .unrecognized code⟩
  range : ∃ start finish, timeFilter request = some ⟨some start, some finish⟩ ∧
    asTime start < asTime finish ∧ truncateToDay (asTime start) < asTime finish

section Slicing
variable (sha256 : List UInt8 → List UInt8) {granularity : EpochGranularity}

theorem addGranularity_panics_iff {t : Time} :
    (addGranularity t granularity).Panics ↔ ¬KnownUnit granularity := by
  constructor
  · intro h hu
    simp [addGranularity_known hu] at h
  · intro hu
    obtain ⟨code, hc⟩ := not_forall_not.mp hu
    simp [addGranularity, hc]

theorem sliceLoop_panics_iff {finish : Time} {d : DimensionValues} (fuel : Nat) {current : Time} :
    (sliceLoop sha256 finish granularity d fuel current).Panics ↔
      0 < fuel ∧ current < finish ∧ ¬KnownUnit granularity := by
  -- Induction on the fuel. The first step that is tried panics or none does, since the unit stays
  -- the same.
  induction fuel generalizing current with
  | zero => simp [sliceLoop]
  | succ fuel ih =>
    by_cases hc : current < finish
    · rw [sliceLoop, if_pos (Time.before_iff.mpr hc)]
      refine Outcome.panics_bind.trans ?_
      rw [addGranularity_panics_iff]
      constructor
      · intro h
        refine ⟨Nat.succ_pos fuel, hc, ?_⟩
        cases h with
        | inl hu => exact hu
        | inr h =>
          obtain ⟨next, -, h⟩ := h
          cases Outcome.panics_bind.mp h with
          | inl h => exact (ih.mp h).2.2
          | inr h =>
            obtain ⟨rest, -, h⟩ := h
            exact absurd h (Outcome.not_panics_ok _)
      · intro h
        exact .inl h.2.2
    · simp [sliceLoop, hc]

/-- Unknown units are truncated as days are. -/
theorem anchor_unknown (hu : ¬KnownUnit granularity) (filter : TimeRangeFilter) :
    anchor granularity filter = truncateToDay (fieldTime filter.startInclusive) := by
  obtain ⟨code, hc⟩ := not_forall_not.mp hu
  simp only [anchor, truncateToGranularity, hc]

structure EntersUnknown (granularity : EpochGranularity) (filter : TimeRangeFilter) : Prop where
  unit : ¬KnownUnit granularity
  proper : fieldTime filter.startInclusive < fieldTime filter.endExclusive
  enters : truncateToDay (fieldTime filter.startInclusive) < fieldTime filter.endExclusive

theorem sliceTimeRange_panics_iff (fuel : Nat) {filter : TimeRangeFilter} {d : DimensionValues} :
    (sliceTimeRange sha256 fuel filter granularity d).Panics ↔
      0 < fuel ∧ EntersUnknown granularity filter := by
  by_cases hlt : fieldTime filter.startInclusive < fieldTime filter.endExclusive
  · rw [sliceTimeRange_proper hlt, Outcome.panics_bind, sliceLoop_panics_iff]
    constructor
    · rintro (⟨hfuel, henter, hu⟩ | ⟨es, -, h⟩)
      · exact ⟨hfuel, hu, hlt, anchor_unknown hu filter ▸ henter⟩
      · split_ifs at h <;> simp at h
    · rintro ⟨hfuel, hu, -, henter⟩
      exact .inl ⟨hfuel, (anchor_unknown hu filter).symm ▸ henter, hu⟩
  · rw [sliceTimeRange_improper hlt]
    refine iff_of_false (Outcome.not_panics_err _) ?_
    rintro ⟨-, -, hproper, -⟩
    exact hlt hproper

theorem sliceEach_panics_iff (fuel : Nat) {filter : TimeRangeFilter}
    {sets : List DimensionValues} :
    (sliceEach sha256 fuel filter granularity sets).Panics ↔
      sets ≠ [] ∧ 0 < fuel ∧ EntersUnknown granularity filter := by
  induction sets with
  | nil => simp [sliceEach]
  | cons d sets ih =>
    refine Outcome.panics_bind.trans ?_
    rw [Outcome.panics_wrapErr, sliceTimeRange_panics_iff]
    simp only [ne_eq, reduceCtorEq, not_false_eq_true, true_and]
    refine or_iff_left_of_imp ?_
    intro h
    obtain ⟨run, -, h⟩ := h
    cases Outcome.panics_bind.mp h with
    | inl h => exact (ih.mp h).2
    | inr h =>
      obtain ⟨rest, -, h⟩ := h
      exact absurd h (Outcome.not_panics_ok _)

end Slicing

section Requests
variable {request : AdmitDatasetRequest}

theorem extractTimeRange_panics_iff :
    (extractTimeRange request).Panics ↔ FilterMissing request := by
  unfold extractTimeRange FilterMissing
  cases hp : request.source.bind (·.partition) with
  | none => simp
  | some partition =>
    cases ht : partition.timePartition with
    | none => simp [ht]
    | some timePartition =>
      cases hf : timePartition.filter with
      | none => simp [ht, hf]
      | some filter =>
        simp only [Option.bind_some, ht, hf]
        split_ifs <;> simp [ht, hf]

/-- Units that are derived from the source column are known. -/
theorem determineGranularity_unknown {granularity : EpochGranularity}
    (hu : ¬KnownUnit granularity) : determineGranularity request = some granularity ↔
      request.epochGranularity = some granularity := by
  cases hg : request.epochGranularity with
  | none =>
    simp only [reduceCtorEq, iff_false]
    intro h
    exact hu (determineGranularity_derived hg h).2.known
  | some explicit => simp [determineGranularity, hg]

theorem unknownStep_iff : UnknownStep request ↔ ∃ filter granularity,
    extractTimeRange request = .ok filter ∧
      determineGranularity request = some granularity ∧ EntersUnknown granularity filter := by
  constructor
  · intro h
    obtain ⟨value, code, hg⟩ := h.unit
    obtain ⟨start, finish, hf, hlt, henter⟩ := h.range
    have hu : ¬KnownUnit ⟨value, .unrecognized code⟩ := fun hu => hu code rfl
    exact ⟨⟨some start, some finish⟩, ⟨value, .unrecognized code⟩,
      extractTimeRange_ok_iff.mpr ⟨hf, start, finish, rfl⟩,
      (determineGranularity_unknown hu).mpr hg, hu, hlt, henter⟩
  · rintro ⟨filter, granularity, hf, hg, hu, hlt, henter⟩
    obtain ⟨hf, start, finish, rfl⟩ := extractTimeRange_ok_iff.mp hf
    rw [determineGranularity_unknown hu] at hg
    obtain ⟨code, hc⟩ := not_forall_not.mp hu
    obtain ⟨value, unit⟩ := granularity
    obtain rfl : unit = .unrecognized code := hc
    exact ⟨⟨value, code, hg⟩, start, finish, hf, hlt, henter⟩

theorem generateEpochs_panics_iff (sha256 : List UInt8 → List UInt8) (fuel : Nat) :
    (generateEpochs sha256 fuel request).Panics ↔
      FilterMissing request ∨ (0 < fuel ∧ UnknownStep request) := by
  have hsets := extractDimensionValueSets_ne_nil request
  refine Outcome.panics_bind.trans ?_
  rw [Outcome.panics_wrapErr, extractTimeRange_panics_iff, unknownStep_iff]
  refine or_congr_right ?_
  cases hg : determineGranularity request with
  | none => simp
  | some granularity =>
    simp only [Outcome.wrapErr_eq_ok, sliceEach_panics_iff, Option.some.injEq]
    constructor
    · rintro ⟨filter, hf, _, hfuel, henter⟩
      exact ⟨hfuel, filter, granularity, hf, rfl, henter⟩
    · rintro ⟨hfuel, filter, g, hf, he, henter⟩
      subst he
      exact ⟨filter, hf, hsets, hfuel, henter⟩

/-- No panic, and an answer whenever the loop ends: exactly for the requests of neither
kind, validated or not. -/
theorem generateEpochs_safe_iff (sha256 : List UInt8 → List UInt8)
    (request : AdmitDatasetRequest) :
    (∀ fuel, ¬(generateEpochs sha256 fuel request).Panics ∧
      (generateEpochs sha256 fuel request ≠ .hang →
        (generateEpochs sha256 fuel request).Returned)) ↔
      ¬FilterMissing request ∧ ¬UnknownStep request := by
  constructor
  · intro h
    have hone := (h 1).1
    rw [generateEpochs_panics_iff] at hone
    exact ⟨fun hm => hone (.inl hm), fun hu => hone (.inr ⟨Nat.one_pos, hu⟩)⟩
  · rintro ⟨hm, hu⟩ fuel
    have hsafe : ¬(generateEpochs sha256 fuel request).Panics := by
      simp [generateEpochs_panics_iff, hm, hu]
    exact ⟨hsafe, fun hh => Outcome.returned_iff.mpr ⟨hh, hsafe⟩⟩

end Requests

def februaryUnfiltered : AdmitDatasetRequest :=
  { februaryRequest with source := some ⟨some ⟨some ⟨some ⟨"dt", some .day⟩, none⟩, []⟩⟩ }

/-- Both requests are let through by the validation. -/
theorem generateEpochs_panics_february :
    Management.validateAdmitRequest februaryUnfiltered = .ok () ∧
      Management.validateAdmitRequest (februaryIn 1 (.unrecognized 4)) = .ok () ∧
      ∀ sha256 fuel, (generateEpochs sha256 fuel februaryUnfiltered).Panics ∧
        (generateEpochs sha256 (fuel + 1) (februaryIn 1 (.unrecognized 4))).Panics := by
  refine ⟨rfl, rfl, fun sha256 fuel => ⟨?_, ?_⟩⟩
  · rw [generateEpochs_panics_iff]
    exact .inl ⟨_, _, rfl, rfl, rfl⟩
  · rw [generateEpochs_panics_iff]
    exact .inr ⟨Nat.succ_pos fuel, ⟨1, 4, rfl⟩, _, _, rfl, by decide, by decide +kernel⟩

end Leibrix.EpochGenerator

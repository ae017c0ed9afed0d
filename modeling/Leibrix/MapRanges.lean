import Leibrix.EpochGenerator

/-! The generator with the order in which Go walks a map left open. Every `range` over a map
is a choice of its own: the copies made for the cross product and the keys collected for an
id may come in another order each time. -/
namespace Leibrix.EpochGenerator
open Leibrix.Proto Leibrix.GoTime

structure MapRange where
  -- one execution of `for key := range dimensionValues`: every key once, in some order
  keys : DimensionValues → List String
  nodup : ∀ d, (keys d).Nodup
  mem_iff : ∀ d name, name ∈ keys d ↔ name ∈ d

structure RunOrders where
  -- The orders of one run of the generator. A copy is made per partition, existing set and value,
  -- an id per set and slice; the last two are numbered by what is left to do.
  clone : Nat → Nat → Nat → MapRange
  slice : Nat → Nat → MapRange

def cloneDimensionValues (range : MapRange) (values : DimensionValues) : DimensionValues :=
  if values = ∅ then ∅
  else (range.keys values).foldl
    (fun cloned key => cloned.insert key ((values.lookup key).getD "")) ∅

def extendValueSetsIn (clone : Nat → Nat → MapRange) (sets : List DimensionValues)
    (dimPartition : DimensionPartition) : List DimensionValues :=
  match dimPartition.column, dimPartition.values with
  | some column, some values =>
    if values.values = [] then sets
    else sets.zipIdx.flatMap fun existing => values.values.zipIdx.map fun value =>
      (cloneDimensionValues (clone existing.2 value.2) existing.1).insert column.name value.1
  | _, _ => sets

def extractDimensionValueSetsIn (clone : Nat → Nat → Nat → MapRange)
    (request : AdmitDatasetRequest) : List DimensionValues :=
  match request.source.bind (·.partition) with
  | none => [∅]
  | some partition => partition.dimensionPartitions.zipIdx.foldl
      (fun sets p => extendValueSetsIn (clone p.2) sets p.1) [∅]

section Slicing
variable (sha256 : List UInt8 → List UInt8)

def generateEpochIDIn (range : MapRange) (start : Time) (dimensionValues : DimensionValues) :
    String :=
  let keys := (range.keys dimensionValues).mergeSort (· ≤ ·)
  let written := keys.foldl
    (fun written key => written ++ (key ++ "=" ++ (dimensionValues.lookup key).getD ""))
    (toString start.unixMilli.toInt)
  let hashBytes := sha256 written.toUTF8.toList
  toString start.unixMilli.toInt ++ "_" ++ hexEncode (hashBytes.take 3)

def newEpochIn (range : MapRange) (start finish : Time) (dimensionValues : DimensionValues) :
    EpochInfo where
  epochId := generateEpochIDIn sha256 range start dimensionValues
  timeRange := some ⟨some (newTimestamp start), some (newTimestamp finish)⟩
  dimensionValues := dimensionValues

def sliceLoopIn (slice : Nat → MapRange) (finish : Time) (granularity : EpochGranularity)
    (dimensionValues : DimensionValues) : Nat → Time → Outcome (List EpochInfo)
  | 0, _ => .hang
  | fuel + 1, current =>
    if current.before finish then do
      let epochEnd ← addGranularity current granularity
      let rest ← sliceLoopIn slice finish granularity dimensionValues fuel epochEnd
      return newEpochIn sha256 (slice fuel) current epochEnd dimensionValues :: rest
    else .ok []

def sliceTimeRangeIn (slice : Nat → MapRange) (fuel : Nat) (timeRange : TimeRangeFilter)
    (granularity : EpochGranularity) (dimensionValues : DimensionValues) :
    Outcome (List EpochInfo) :=
  let start := fieldTime timeRange.startInclusive
  let finish := fieldTime timeRange.endExclusive
  if finish.before start ∨ start = finish then
    .err "invalid time range: start must be before end"
  else do
    let epochs ← sliceLoopIn sha256 slice finish granularity dimensionValues fuel
      (truncateToGranularity start granularity)
    if epochs = [] then .err "no epochs generated from time range" else .ok epochs

def sliceEachIn (slice : Nat → Nat → MapRange) (fuel : Nat) (timeRange : TimeRangeFilter)
    (granularity : EpochGranularity) : List DimensionValues → Outcome (List EpochInfo)
  | [] => .ok []
  | dimensionValues :: sets => do
    let dimensionEpochs ← (sliceTimeRangeIn sha256 (slice sets.length) fuel timeRange granularity
      dimensionValues).wrapErr "failed to slice time range: "
    let epochs ← sliceEachIn slice fuel timeRange granularity sets
    return dimensionEpochs ++ epochs

def generateEpochsIn (orders : RunOrders) (fuel : Nat) (request : AdmitDatasetRequest) :
    Outcome (List EpochInfo) := do
  let timeRange ← (extractTimeRange request).wrapErr "failed to extract time range: "
  match determineGranularity request with
  | none => .err "failed to determine epoch granularity"
  | some granularity =>
    sliceEachIn sha256 orders.slice fuel timeRange granularity
      (extractDimensionValueSetsIn orders.clone request)

end Slicing

theorem lookup_foldl_insert (f : String → String) (keys : List String) (d : DimensionValues)
    (name : String) :
    (keys.foldl (fun d key => d.insert key (f key)) d).lookup name =
      if name ∈ keys then some (f name) else d.lookup name := by
  induction keys generalizing d with
  | nil => simp
  | cons key keys ih =>
    rw [List.foldl_cons, ih]
    by_cases hk : name = key
    · subst hk
      simp [Finmap.lookup_insert]
    · simp [hk, Finmap.lookup_insert_of_ne]

/-- A copy is a copy, whichever way the map is walked. -/
theorem cloneDimensionValues_eq (range : MapRange) (values : DimensionValues) :
    cloneDimensionValues range values = values := by
  unfold cloneDimensionValues
  split_ifs with he
  · exact he.symm
  · refine Finmap.ext_lookup fun name => ?_
    rw [lookup_foldl_insert]
    split_ifs with hm
    · obtain ⟨value, hv⟩ := Finmap.mem_iff.mp ((range.mem_iff values name).mp hm)
      simp [hv]
    · rw [Finmap.lookup_empty, Finmap.lookup_eq_none.mpr fun h =>
        hm ((range.mem_iff values name).mpr h)]

/-- Sorting takes the order out again. -/
theorem mergeSort_keys (range : MapRange) (d : DimensionValues) :
    (range.keys d).mergeSort (· ≤ ·) = keyOrder d.keys := by
  have hperm : ((range.keys d).mergeSort (· ≤ ·)).Perm (keyOrder d.keys) := by
    refine (List.mergeSort_perm _ _).trans ?_
    refine (List.perm_ext_iff_of_nodup (range.nodup d) (Finset.sort_nodup _ _)).mpr ?_
    intro name
    rw [range.mem_iff, Finset.mem_sort, Finmap.mem_keys]
  refine hperm.eq_of_pairwise' (List.pairwise_mergeSort' (· ≤ ·) _) ?_
  exact Finset.pairwise_sort _ _

section Equal
variable (sha256 : List UInt8 → List UInt8)

theorem newEpochIn_eq (range : MapRange) (start finish : Time) (d : DimensionValues) :
    newEpochIn sha256 range start finish d = newEpoch sha256 start finish d := by
  unfold newEpochIn newEpoch generateEpochIDIn generateEpochID hashInput
  rw [mergeSort_keys]
  rfl

theorem sliceLoopIn_eq (slice : Nat → MapRange) (finish : Time) (granularity : EpochGranularity)
    (d : DimensionValues) (fuel : Nat) (current : Time) :
    sliceLoopIn sha256 slice finish granularity d fuel current =
      sliceLoop sha256 finish granularity d fuel current := by
  induction fuel generalizing current with
  | zero => rfl
  | succ fuel ih => simp only [sliceLoopIn, sliceLoop, ih, newEpochIn_eq]

theorem sliceEachIn_eq (slice : Nat → Nat → MapRange) (fuel : Nat) (timeRange : TimeRangeFilter)
    (granularity : EpochGranularity) (sets : List DimensionValues) :
    sliceEachIn sha256 slice fuel timeRange granularity sets =
      sliceEach sha256 fuel timeRange granularity sets := by
  induction sets with
  | nil => rfl
  | cons d sets ih =>
    simp only [sliceEachIn, sliceEach, sliceTimeRangeIn, sliceTimeRange, sliceLoopIn_eq, ih]

theorem zipIdx_map {α β : Type} (f : α → β) (l : List α) :
    (l.zipIdx.map fun p => f p.1) = l.map f := by
  conv_rhs => rw [← List.zipIdx_map_fst 0 l, List.map_map]
  rfl

theorem zipIdx_flatMap {α β : Type} (f : α → List β) (l : List α) :
    (l.zipIdx.flatMap fun p => f p.1) = l.flatMap f := by
  conv_rhs => rw [← List.zipIdx_map_fst 0 l, List.flatMap_map]

theorem extendValueSetsIn_eq (clone : Nat → Nat → MapRange) (sets : List DimensionValues)
    (p : DimensionPartition) : extendValueSetsIn clone sets p = extendValueSets sets p := by
  obtain ⟨column, values⟩ := p
  cases column with
  | none => rfl
  | some column =>
    cases values with
    | none => rfl
    | some values =>
      simp only [extendValueSetsIn, extendValueSets, cloneDimensionValues_eq]
      have hrow (existing : DimensionValues) := zipIdx_map
        (fun value => existing.insert column.name value) values.values
      simp only [hrow]
      exact if_congr Iff.rfl rfl (zipIdx_flatMap (fun existing : DimensionValues =>
        values.values.map fun value => existing.insert column.name value) sets)

theorem extractDimensionValueSetsIn_eq (clone : Nat → Nat → Nat → MapRange)
    (request : AdmitDatasetRequest) :
    extractDimensionValueSetsIn clone request = extractDimensionValueSets request := by
  unfold extractDimensionValueSetsIn extractDimensionValueSets
  cases request.source.bind (·.partition) with
  | none => rfl
  | some partition =>
    simp only [extendValueSetsIn_eq]
    conv_rhs => rw [← List.zipIdx_map_fst 0 partition.dimensionPartitions, List.foldl_map]

/-- The order of the maps does not show in the epochs, their ids or their order. -/
theorem generateEpochsIn_eq (orders : RunOrders) (fuel : Nat) (request : AdmitDatasetRequest) :
    generateEpochsIn sha256 orders fuel request = generateEpochs sha256 fuel request := by
  unfold generateEpochsIn generateEpochs
  cases determineGranularity request with
  | none => rfl
  | some granularity => simp only [sliceEachIn_eq, extractDimensionValueSetsIn_eq]

end Equal
end Leibrix.EpochGenerator

import Leibrix.GoTime
import Leibrix.Outcome
import Mathlib.Data.Finset.Sort
import Mathlib.Data.String.Basic

/-! `internal/api/grpc/epoch_generator.go`: from an admission request to its list of
epochs. The slicing loop has no bound of its own, so it runs on fuel; `hang` is a
loop that is still going when the fuel is used up. -/
namespace Leibrix.EpochGenerator
open Leibrix.Proto Leibrix.GoTime Leibrix.Utc

def extractTimeRange (request : AdmitDatasetRequest) : Outcome TimeRangeFilter :=
  match request.source.bind (·.partition) |>.bind (·.timePartition) with
  | none => .err "time partition information is incomplete"
  | some timePartition =>
    match timePartition.filter with
    | none => .panic "nil pointer dereference"
    | some filter =>
      if filter.startInclusive = none ∨ filter.endExclusive = none then
        .err "start_inclusive and end_exclusive are required"
      else .ok filter

def convertSourceGranularity : SourceGranularity → Option EpochGranularity
  | .hour => some ⟨1, .hour⟩
  | .day => some ⟨1, .day⟩
  | .week => some ⟨1, .week⟩
  | .month => some ⟨1, .month⟩
  | .unspecified => none
  | .unrecognized _ => none

def determineGranularity (request : AdmitDatasetRequest) : Option EpochGranularity :=
  match request.epochGranularity with
  | some granularity => some granularity
  | none =>
    match request.source.bind (·.partition) |>.bind (·.timePartition) with
    | none => none
    | some timePartition =>
      match timePartition.column.bind (·.sourceGranularity) with
      | some sourceGranularity => convertSourceGranularity sourceGranularity
      | none => some ⟨1, .day⟩

/-- One round of the cross product. A partition without a column or without values
is skipped; a column name that is already set is overwritten. -/
def extendValueSets (sets : List DimensionValues) (dimPartition : DimensionPartition) :
    List DimensionValues :=
  match dimPartition.column, dimPartition.values with
  | some column, some values =>
    if values.values = [] then sets
    else sets.flatMap fun existing =>
      values.values.map fun value => existing.insert column.name value
  | _, _ => sets

def extractDimensionValueSets (request : AdmitDatasetRequest) : List DimensionValues :=
  match request.source.bind (·.partition) with
  | none => [∅]
  | some partition => partition.dimensionPartitions.foldl extendValueSets [∅]

def truncateToDay (t : Time) : Time := date t.year t.month t.day 0 0

def truncateToGranularity (t : Time) (granularity : EpochGranularity) : Time :=
  match granularity.unit with
  | .hour => t.truncate 3600
  | .day => truncateToDay t
  | .week =>
    let isoWeekday := if t.weekday = 0 then 7 else t.weekday
    truncateToDay (t.addDate 0 0 (-(isoWeekday - 1)))
  | .month => date t.year t.month 1 0 0
  | .unrecognized _ => truncateToDay t

-- `time.Duration(value) * time.Hour` in 64 bits
def hourStep (value : Int32) : Int := (Int64.ofInt value.toInt * Int64.ofInt nsPerHour).toInt

def addGranularity (t : Time) (granularity : EpochGranularity) : Outcome Time :=
  let value := granularity.value.toInt
  match granularity.unit with
  | .hour => .ok (t.add (hourStep granularity.value))
  | .day => .ok (t.addDate 0 0 value)
  | .week => .ok (t.addDate 0 0 (value * 7))
  | .month => .ok (t.addDate 0 value 0)
  | .unrecognized code => .panic ("unknown granularity unit " ++ toString code.toInt)

def hexEncode (bytes : List UInt8) : String :=
  String.ofList (bytes.flatMap fun b => [(b.toNat / 16).digitChar, (b.toNat % 16).digitChar])

section Slicing
variable (sha256 : List UInt8 → List UInt8)

/-- The text given to the hash: the start in milliseconds, then every `key=value`
in key order, with nothing between them. -/
def hashInput (start : Time) (dimensionValues : DimensionValues) : String :=
  (dimensionValues.keys.sort (· ≤ ·)).foldl
    (fun written key => written ++ (key ++ "=" ++ (dimensionValues.lookup key).getD ""))
    (toString start.unixMilli.toInt)

def keyOrder (names : Finset String) : List String := names.sort (· ≤ ·)

def generateEpochID (start : Time) (dimensionValues : DimensionValues) : String :=
  let hashBytes := sha256 (hashInput start dimensionValues).toUTF8.toList
  toString start.unixMilli.toInt ++ "_" ++ hexEncode (hashBytes.take 3)

def newEpoch (start finish : Time) (dimensionValues : DimensionValues) : EpochInfo where
  epochId := generateEpochID sha256 start dimensionValues
  timeRange := some ⟨some (newTimestamp start), some (newTimestamp finish)⟩
  dimensionValues := dimensionValues

def sliceLoop (finish : Time) (granularity : EpochGranularity)
    (dimensionValues : DimensionValues) : Nat → Time → Outcome (List EpochInfo)
  | 0, _ => .hang
  | fuel + 1, current =>
    if current.before finish then do
      let epochEnd ← addGranularity current granularity
      let rest ← sliceLoop finish granularity dimensionValues fuel epochEnd
      return newEpoch sha256 current epochEnd dimensionValues :: rest
    else .ok []

-- `Timestamp.AsTime` of a field that may be nil: its getters then answer 0.
def fieldTime (ts : Option Timestamp) : Time := ts.elim (unix 0 0) asTime

def sliceTimeRange (fuel : Nat) (timeRange : TimeRangeFilter) (granularity : EpochGranularity)
    (dimensionValues : DimensionValues) : Outcome (List EpochInfo) :=
  let start := fieldTime timeRange.startInclusive
  let finish := fieldTime timeRange.endExclusive
  if finish.before start ∨ start = finish then
    .err "invalid time range: start must be before end"
  else do
    let epochs ← sliceLoop sha256 finish granularity dimensionValues fuel
      (truncateToGranularity start granularity)
    if epochs = [] then .err "no epochs generated from time range" else .ok epochs

def sliceEach (fuel : Nat) (timeRange : TimeRangeFilter) (granularity : EpochGranularity) :
    List DimensionValues → Outcome (List EpochInfo)
  | [] => .ok []
  | dimensionValues :: sets => do
    let dimensionEpochs ← (sliceTimeRange sha256 fuel timeRange granularity
      dimensionValues).wrapErr "failed to slice time range: "
    let epochs ← sliceEach fuel timeRange granularity sets
    return dimensionEpochs ++ epochs

def generateEpochs (fuel : Nat) (request : AdmitDatasetRequest) : Outcome (List EpochInfo) := do
  let timeRange ← (extractTimeRange request).wrapErr "failed to extract time range: "
  match determineGranularity request with
  | none => .err "failed to determine epoch granularity"
  | some granularity =>
    sliceEach sha256 fuel timeRange granularity (extractDimensionValueSets request)

end Slicing
end Leibrix.EpochGenerator

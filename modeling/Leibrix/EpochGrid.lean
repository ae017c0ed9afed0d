import Leibrix.EpochCover

/-! The epochs of a request, turn by turn of the loop, and for a positive step as cells of the
grid through its truncated start. -/
namespace Leibrix.EpochGenerator
open Leibrix.Proto Leibrix.GoTime Leibrix.Gregorian Leibrix.Utc Leibrix.Loops

section Turns
variable {sha256 : List UInt8 → List UInt8} {fuel : Nat} {request : AdmitDatasetRequest}
  {epochs : List EpochInfo}

theorem sliceEach_mem {filter : TimeRangeFilter} {granularity : EpochGranularity}
    {sets : List DimensionValues} (h : sliceEach sha256 fuel filter granularity sets = .ok epochs)
    {e : EpochInfo} : e ∈ epochs ↔ ∃ d ∈ sets, ∃ es,
      sliceTimeRange sha256 fuel filter granularity d = .ok es ∧ e ∈ es := by
  induction sets generalizing epochs with
  | nil =>
    obtain rfl : epochs = [] := by simpa [sliceEach] using h.symm
    simp
  | cons d sets ih =>
    obtain ⟨run, rest, hr, hs, rfl⟩ := sliceEach_cons.mp h
    rw [List.mem_append, ih hs]
    simp [hr]

theorem sliceEach_forall {filter : TimeRangeFilter} {granularity : EpochGranularity}
    {sets : List DimensionValues} (h : sliceEach sha256 fuel filter granularity sets = .ok epochs) :
    ∀ d ∈ sets, ∃ es, sliceTimeRange sha256 fuel filter granularity d = .ok es := by
  induction sets generalizing epochs with
  | nil => simp
  | cons d sets ih =>
    obtain ⟨run, rest, hr, hs, rfl⟩ := sliceEach_cons.mp h
    simpa using ⟨⟨run, hr⟩, ih hs⟩

theorem newEpoch_start {t t' u u' : Time} {d d' : DimensionValues}
    (h : newEpoch sha256 t u d = newEpoch sha256 t' u' d') : t = t' := by
  have hstart := congrArg (fun e => e.timeRange.bind (·.startInclusive)) h
  exact newTimestamp_injective (Option.some.inj hstart)

-- the epoch of turn `k`
def turnEpoch (sha256 : List UInt8 → List UInt8) (granularity : EpochGranularity) (t : Time)
    (d : DimensionValues) (k : Nat) : EpochInfo :=
  newEpoch sha256 ((next granularity)^[k] t) ((next granularity)^[k + 1] t) d

-- what comes back for a request, whatever its step and its timestamps
structure RequestTurns (sha256 : List UInt8 → List UInt8) (granularity : EpochGranularity)
    (filter : TimeRangeFilter) (sets : List DimensionValues) (epochs : List EpochInfo) (n : Nat) :
    Prop extends SlicedIn granularity filter n where
  mem : ∀ e, e ∈ epochs ↔ ∃ d ∈ sets, ∃ k < n,
    e = turnEpoch sha256 granularity (anchor granularity filter) d k

theorem sliceEach_turns {filter : TimeRangeFilter} {granularity : EpochGranularity}
    {sets : List DimensionValues} (hs : sets ≠ [])
    (h : sliceEach sha256 fuel filter granularity sets = .ok epochs) :
    ∃ n, RequestTurns sha256 granularity filter sets epochs n := by
  obtain ⟨d₀, hd₀⟩ := List.exists_mem_of_ne_nil _ hs
  obtain ⟨es₀, hes₀⟩ := sliceEach_forall h d₀ hd₀
  obtain ⟨n, hfuel, hn, -⟩ := sliceTimeRange_ok_iff.mp hes₀
  refine ⟨n, hn, fun e => ?_⟩
  have hrun : ∀ d, sliceTimeRange sha256 fuel filter granularity d =
      .ok (slices sha256 d granularity n (anchor granularity filter)) :=
    fun d => sliceTimeRange_ok_iff.mpr ⟨n, hfuel, hn, rfl⟩
  rw [sliceEach_mem h]
  simp only [hrun, Outcome.ok.injEq, exists_eq_left', mem_slices]
  rfl

theorem generateEpochs_turns (h : generateEpochs sha256 fuel request = .ok epochs) :
    ∃ filter granularity n, timeFilter request = some filter ∧
      determineGranularity request = some granularity ∧
      RequestTurns sha256 granularity filter (extractDimensionValueSets request) epochs n := by
  obtain ⟨filter, granularity, hf, hg, hs⟩ := generateEpochs_ok h
  obtain ⟨n, hn⟩ := sliceEach_turns (extractDimensionValueSets_ne_nil request) hs
  exact ⟨filter, granularity, n, hf, hg, hn⟩

end Turns

section Cells
variable {sha256 : List UInt8 → List UInt8} {granularity : EpochGranularity} {x k m : Int}
  {d : DimensionValues}

-- the epoch of the grid cell that begins `k` steps after `x`
def gridEpoch (sha256 : List UInt8 → List UInt8) (granularity : EpochGranularity) (x : Int)
    (d : DimensionValues) (k : Int) : EpochInfo :=
  newEpoch sha256 (unix 0 (gridPoint granularity x k)) (unix 0 (gridPoint granularity x (k + 1))) d

theorem gridEpoch_shift (k m : Int) :
    gridEpoch sha256 granularity (gridPoint granularity x k) d m =
      gridEpoch sha256 granularity x d (k + m) := by
  simp only [gridEpoch, gridPoint_add, add_assoc]

-- both ends of the cell have a time
def CellFits (granularity : EpochGranularity) (x k : Int) : Prop :=
  Representable (gridPoint granularity x k) ∧ Representable (gridPoint granularity x (k + 1))

theorem epochStart_gridEpoch (h : CellFits granularity x k) (d : DimensionValues) :
    epochStart (gridEpoch sha256 granularity x d k) = gridPoint granularity x k := by
  rw [gridEpoch, epochStart_newEpoch, instant_unix h.1]

theorem epochEnd_gridEpoch (h : CellFits granularity x k) (d : DimensionValues) :
    epochEnd (gridEpoch sha256 granularity x d k) = gridPoint granularity x (k + 1) := by
  rw [gridEpoch, epochEnd_newEpoch, instant_unix h.2]

-- the turns of a loop with a positive step, on the grid
structure Cells (granularity : EpochGranularity) (start finish : Int) (n : Nat) : Prop where
  forward : StepsForward granularity
  proper : start < finish
  count : ∀ k : Nat, k < n ↔
    gridPoint granularity (floorTo granularity.unit start) k < finish
  fits : ∀ k < n, CellFits granularity (floorTo granularity.unit start) k

theorem SlicedIn.cells {filter : TimeRangeFilter} {n : Nat} (h : SlicedIn granularity filter n)
    (hv : ValidTimes filter) (hf : StepsForward granularity) :
    Cells granularity (fieldTime filter.startInclusive).instant
        (fieldTime filter.endExclusive).instant n ∧
      ∀ k < n, ∀ d, turnEpoch sha256 granularity (anchor granularity filter) d k =
        gridEpoch sha256 granularity
          (floorTo granularity.unit (fieldTime filter.startInclusive).instant) d k := by
  have hanchor := hv.anchor granularity
  have hinst : ∀ k ≤ n, ((next granularity)^[k] (anchor granularity filter)).instant =
      gridPoint granularity (floorTo granularity.unit
        (fieldTime filter.startInclusive).instant) k := by
    intro k hk
    rw [instant_iterate hf hanchor.1 (hv.onGrid granularity) hv.inEra.2 h.turns hk, hanchor.2]
  have hlast := not_lt.mp h.turns.stopped
  rw [Time.le_iff, hinst n le_rfl] at hlast
  refine ⟨⟨hf, h.proper, fun k => ⟨fun hk => ?_, fun hk => ?_⟩, fun k hk => ⟨?_, ?_⟩⟩,
    fun k hk d => ?_⟩
  · rw [← hinst k hk.le]
    exact h.turns.goes k hk
  · have hmono := gridPoint_strictMono hf (floorTo granularity.unit
      (fieldTime filter.startInclusive).instant)
    exact Int.ofNat_lt.mp (hmono.lt_iff_lt.mp (hk.trans_le hlast))
  · rw [← hinst k hk.le]
    exact representable_instant _
  · rw [← Nat.cast_succ, ← hinst (k + 1) hk]
    exact representable_instant _
  · rw [gridEpoch, ← Nat.cast_succ, ← hinst k hk.le, ← hinst (k + 1) hk, unix_instant,
      unix_instant]
    rfl

end Cells

section Requests
variable {sha256 : List UInt8 → List UInt8} {fuel : Nat} {request : AdmitDatasetRequest}
  {epochs : List EpochInfo} {granularity : EpochGranularity}

-- where the grid of a request is anchored
def sliceStart (granularity : EpochGranularity) (request : AdmitDatasetRequest) : Int :=
  floorTo granularity.unit (requestStart request)

theorem sliceStart_onGrid (granularity : EpochGranularity) (request : AdmitDatasetRequest) :
    OnGrid granularity (sliceStart granularity request) :=
  floorTo_onGrid _ _

theorem sliceStart_le (granularity : EpochGranularity) (request : AdmitDatasetRequest) :
    sliceStart granularity request ≤ requestStart request :=
  floorTo_le _ _

-- the slicing of a request ends, and its cells have their times
structure Sliceable (granularity : EpochGranularity) (request : AdmitDatasetRequest) : Prop where
  forward : StepsForward granularity
  proper : requestStart request < requestEnd request
  ends : ∃ n : Nat,
    requestEnd request ≤ gridPoint granularity (sliceStart granularity request) n
  fits : ∀ k : Nat,
    gridPoint granularity (sliceStart granularity request) k < requestEnd request →
      CellFits granularity (sliceStart granularity request) k

-- for every member of the cross product the cells that begin before the end of the range
structure RequestCells (sha256 : List UInt8 → List UInt8) (granularity : EpochGranularity)
    (request : AdmitDatasetRequest) (epochs : List EpochInfo) :
    Prop extends Sliceable granularity request where
  mem : ∀ e, e ∈ epochs ↔ ∃ d ∈ extractDimensionValueSets request, ∃ k : Nat,
    gridPoint granularity (sliceStart granularity request) k < requestEnd request ∧
      e = gridEpoch sha256 granularity (sliceStart granularity request) d k

/-- What `GenerateEpochs` returns for valid timestamps and a positive step. -/
theorem generateEpochs_cells (hv : HasValidTimes request)
    (hg : determineGranularity request = some granularity) (hstep : StepsForward granularity)
    (h : generateEpochs sha256 fuel request = .ok epochs) :
    RequestCells sha256 granularity request epochs := by
  obtain ⟨filter, hf, hvalid⟩ := hv
  obtain ⟨filter', granularity', n, hf', hg', hturns⟩ := generateEpochs_turns h
  obtain rfl : filter' = filter := Option.some.inj (hf'.symm.trans hf)
  obtain rfl : granularity' = granularity := Option.some.inj (hg'.symm.trans hg)
  obtain ⟨hcells, hepoch⟩ := hturns.cells hvalid hstep
  have hstart : requestStart request = (fieldTime filter'.startInclusive).instant := by
    simp [requestStart, hf]
  have hend : requestEnd request = (fieldTime filter'.endExclusive).instant := by
    simp [requestEnd, hf]
  simp only [← hstart, ← hend] at hcells hepoch
  refine ⟨⟨hstep, hcells.proper, ⟨n, ?_⟩, fun k hk => ?_⟩, fun e => ?_⟩
  · exact not_lt.mp fun hlt => lt_irrefl n ((hcells.count n).mpr hlt)
  · exact hcells.fits k ((hcells.count k).mpr hk)
  · rw [hturns.mem]
    constructor
    · rintro ⟨d, hd, k, hk, rfl⟩
      exact ⟨d, hd, k, (hcells.count k).mp hk, hepoch k hk d⟩
    · rintro ⟨d, hd, k, hk, rfl⟩
      have hk := (hcells.count k).mpr hk
      exact ⟨d, hd, k, hk, (hepoch k hk d).symm⟩

/-- A positive value makes a positive step wherever slicing returns. -/
theorem stepsForward_of_value (hv : HasValidTimes request)
    (hg : determineGranularity request = some granularity) (hpos : 0 < granularity.value.toInt)
    (h : generateEpochs sha256 fuel request = .ok epochs) : StepsForward granularity :=
  (progresses_of_ok hv hg h).forward hpos

end Requests

end Leibrix.EpochGenerator

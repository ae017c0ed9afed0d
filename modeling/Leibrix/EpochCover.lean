import Leibrix.BackwardSlices
import Leibrix.DimensionProduct

/-! What `GenerateEpochs` returns for a positive step is an exact cover: the cross product of
the partition columns, and for each of its members one gapless run of epochs. -/
namespace Leibrix.EpochGenerator
open Leibrix.Proto Leibrix.GoTime Leibrix.Tiling Leibrix.Loops

variable {sha256 : List UInt8 → List UInt8} {fuel : Nat}

def timeFilter (request : AdmitDatasetRequest) : Option TimeRangeFilter :=
  request.source.bind (·.partition) |>.bind (·.timePartition) |>.bind (·.filter)

def requestStart (request : AdmitDatasetRequest) : Int :=
  (fieldTime ((timeFilter request).bind (·.startInclusive))).instant
def requestEnd (request : AdmitDatasetRequest) : Int :=
  (fieldTime ((timeFilter request).bind (·.endExclusive))).instant

def HasValidTimes (request : AdmitDatasetRequest) : Prop :=
  ∃ filter, timeFilter request = some filter ∧ ValidTimes filter

structure OrderedRun (start finish : Int) (d : DimensionValues) (run : List EpochInfo) :
    Prop where
  -- the epochs of one member `d` of the cross product, in list order
  nonempty : run ≠ []
  labelled : ∀ e ∈ run, e.dimensionValues = d
  increasing : run.Pairwise fun e e' => epochStart e < epochStart e'
  adjacent : run.IsChain fun e e' => epochEnd e = epochStart e'
  first : ∀ e ∈ run.head?, epochStart e ≤ start
  last : ∀ e ∈ run.getLast?, epochStart e < finish ∧ finish ≤ epochEnd e

structure ExactCover (columns : List Column) (start finish : Int) (epochs : List EpochInfo) :
    Prop where
  product : ∀ d, (∃ e ∈ epochs, e.dimensionValues = d) ↔ Selects columns d
  once : ∀ d, Selects columns d → ∀ t, start ≤ t → t < finish →
    epochs.countP (fun e => e.dimensionValues = d ∧ epochStart e ≤ t ∧ t < epochEnd e) = 1
  runs : ∀ d, Selects columns d → ∃ before run after, epochs = before ++ run ++ after ∧
    (∀ e ∈ before ++ after, e.dimensionValues ≠ d) ∧ OrderedRun start finish d run

theorem extractTimeRange_ok_iff {request : AdmitDatasetRequest} {filter : TimeRangeFilter} :
    extractTimeRange request = .ok filter ↔
      timeFilter request = some filter ∧ ∃ start finish, filter = ⟨some start, some finish⟩ := by
  unfold extractTimeRange timeFilter
  cases htp : request.source.bind (·.partition) |>.bind (·.timePartition) with
  | none => simp
  | some timePartition =>
    cases hf : timePartition.filter with
    | none => simp [hf]
    | some found =>
      obtain ⟨start, finish⟩ := found
      simp only [Option.bind_some, hf, Option.some.injEq]
      constructor
      · intro h
        split_ifs at h with hn
        obtain rfl := Outcome.ok.inj h
        obtain ⟨hs, he⟩ := not_or.mp hn
        obtain ⟨ts, rfl⟩ := Option.ne_none_iff_exists'.mp hs
        obtain ⟨ts', rfl⟩ := Option.ne_none_iff_exists'.mp he
        exact ⟨rfl, ts, ts', rfl⟩
      · intro ⟨h, ts, ts', he⟩
        cases h.trans he
        simp [h]

theorem generateEpochs_ok {request : AdmitDatasetRequest} {epochs : List EpochInfo}
    (h : generateEpochs sha256 fuel request = .ok epochs) :
    ∃ filter granularity, timeFilter request = some filter ∧
      determineGranularity request = some granularity ∧
      sliceEach sha256 fuel filter granularity (extractDimensionValueSets request) =
        .ok epochs := by
  obtain ⟨filter, hf, h⟩ := Outcome.bind_eq_ok.mp h
  have hfilter := (extractTimeRange_ok_iff.mp (Outcome.wrapErr_eq_ok.mp hf)).1
  cases hg : determineGranularity request with
  | none => simp [hg] at h
  | some granularity => exact ⟨filter, granularity, hfilter, rfl, by simpa [hg] using h⟩

theorem extractTimeRange_of_valid {request : AdmitDatasetRequest} {filter : TimeRangeFilter}
    (hf : timeFilter request = some filter) (hv : ValidTimes filter) :
    extractTimeRange request = .ok filter := by
  obtain ⟨start, hs, -⟩ := hv.start
  obtain ⟨finish, he, -⟩ := hv.finish
  refine extractTimeRange_ok_iff.mpr ⟨hf, start, finish, ?_⟩
  rw [← hs, ← he]

theorem generateEpochs_of_range {request : AdmitDatasetRequest} {filter : TimeRangeFilter}
    {granularity : EpochGranularity} (sha256 : List UInt8 → List UInt8) (fuel : Nat)
    (hf : extractTimeRange request = .ok filter)
    (hg : determineGranularity request = some granularity) :
    generateEpochs sha256 fuel request =
      sliceEach sha256 fuel filter granularity (extractDimensionValueSets request) := by
  rw [generateEpochs, hf, hg]
  rfl

section Blocks
variable {filter : TimeRangeFilter} {granularity : EpochGranularity}

theorem sliceEach_cons {d : DimensionValues} {sets : List DimensionValues}
    {epochs : List EpochInfo} :
    sliceEach sha256 fuel filter granularity (d :: sets) = .ok epochs ↔
      ∃ run rest, sliceTimeRange sha256 fuel filter granularity d = .ok run ∧
        sliceEach sha256 fuel filter granularity sets = .ok rest ∧ run ++ rest = epochs := by
  constructor
  · intro h
    obtain ⟨run, hr, h⟩ := Outcome.bind_eq_ok.mp h
    obtain ⟨rest, hs, h⟩ := Outcome.bind_eq_ok.mp h
    exact ⟨run, rest, Outcome.wrapErr_eq_ok.mp hr, hs, by simpa using h⟩
  · rintro ⟨run, rest, hr, hs, rfl⟩
    exact Outcome.bind_eq_ok.mpr ⟨run, Outcome.wrapErr_eq_ok.mpr hr,
      Outcome.bind_eq_ok.mpr ⟨rest, hs, rfl⟩⟩

theorem sliceEach_append {sets sets' : List DimensionValues} {epochs : List EpochInfo}
    (h : sliceEach sha256 fuel filter granularity (sets ++ sets') = .ok epochs) :
    ∃ es es', sliceEach sha256 fuel filter granularity sets = .ok es ∧
      sliceEach sha256 fuel filter granularity sets' = .ok es' ∧ es ++ es' = epochs := by
  induction sets generalizing epochs with
  | nil => exact ⟨[], epochs, rfl, h, rfl⟩
  | cons d sets ih =>
    obtain ⟨run, rest, hr, hs, rfl⟩ := sliceEach_cons.mp h
    obtain ⟨es, es', h1, h2, rfl⟩ := ih hs
    exact ⟨run ++ es, es', sliceEach_cons.mpr ⟨run, es, hr, h1, rfl⟩, h2, by simp⟩

theorem sliceTimeRange_labels {d : DimensionValues} {es : List EpochInfo}
    (h : sliceTimeRange sha256 fuel filter granularity d = .ok es) {e : EpochInfo} (he : e ∈ es) :
    e.dimensionValues = d := by
  obtain ⟨n, -, -, rfl⟩ := sliceTimeRange_ok_iff.mp h
  obtain ⟨k, -, rfl⟩ := (mem_slices sha256 d).mp he
  rfl

theorem sliceEach_labels {sets : List DimensionValues} {epochs : List EpochInfo}
    (h : sliceEach sha256 fuel filter granularity sets = .ok epochs) {e : EpochInfo}
    (he : e ∈ epochs) : e.dimensionValues ∈ sets := by
  induction sets generalizing epochs with
  | nil =>
    obtain rfl : epochs = [] := by simpa [sliceEach] using h.symm
    simp at he
  | cons d sets ih =>
    obtain ⟨run, rest, hr, hs, rfl⟩ := sliceEach_cons.mp h
    rcases List.mem_append.mp he with he | he
    · simp [sliceTimeRange_labels hr he]
    · exact List.mem_cons_of_mem _ (ih hs he)

/-- The slices of `d` stand together, and nothing else carries its values. -/
theorem sliceEach_block {sets : List DimensionValues} {epochs : List EpochInfo}
    (h : sliceEach sha256 fuel filter granularity sets = .ok epochs) (hn : sets.Nodup)
    {d : DimensionValues} (hd : d ∈ sets) :
    ∃ before run after, epochs = before ++ run ++ after ∧
      (∀ e ∈ before ++ after, e.dimensionValues ≠ d) ∧
      sliceTimeRange sha256 fuel filter granularity d = .ok run := by
  obtain ⟨s, s', rfl⟩ := List.append_of_mem hd
  obtain ⟨before, tail, hb, ht, rfl⟩ := sliceEach_append h
  obtain ⟨run, after, hr, ha, rfl⟩ := sliceEach_cons.mp ht
  refine ⟨before, run, after, by simp, ?_, hr⟩
  rw [List.nodup_middle, List.nodup_cons, List.mem_append] at hn
  intro e he hed
  rcases List.mem_append.mp he with he | he
  · exact hn.1 (.inl (hed ▸ sliceEach_labels hb he))
  · exact hn.1 (.inr (hed ▸ sliceEach_labels ha he))

end Blocks

theorem Slices.orderedRun {start finish : Int} {d : DimensionValues} {run : List EpochInfo}
    (h : Slices start finish d run) : OrderedRun start finish d run := by
  obtain ⟨first, stop, hf, hs, ht⟩ := h.tiles
  refine ⟨h.nonempty, h.labelled, ?_, ?_, ?_, ?_⟩
  · exact (List.pairwise_map (f := span)).mp ht.pairwise
  · exact List.isChain_map _ |>.mp ht.isChain
  · intro e he
    have hh : span e ∈ (run.map span).head? := by simpa using ⟨e, he, rfl⟩
    have := ht.head_eq hh
    simp only [span] at this
    omega
  · intro e he
    have hl : span e ∈ (run.map span).getLast? := by
      rw [List.getLast?_map]
      exact Option.mem_map_of_mem span he
    have := ht.last_eq hl
    simp only [span] at this
    exact ⟨h.early e (List.mem_of_mem_getLast? he), by omega⟩

theorem Slices.count_eq_one {start finish t : Int} {d : DimensionValues} {run : List EpochInfo}
    (h : Slices start finish d run) (h1 : start ≤ t) (h2 : t < finish) :
    run.countP (fun e => e.dimensionValues = d ∧ epochStart e ≤ t ∧ t < epochEnd e) = 1 := by
  obtain ⟨first, stop, hf, hs, ht⟩ := h.tiles
  have hc := ht.count_eq_one (t := t) (by omega) (by omega)
  rw [List.countP_map] at hc
  rw [← hc]
  refine List.countP_congr fun e he => ?_
  have hcov : (covers t ∘ span) e = true ↔ epochStart e ≤ t ∧ t < epochEnd e :=
    decide_eq_true_iff
  rw [hcov, decide_eq_true_iff]
  simp [h.labelled e he]

section Requests
variable {request : AdmitDatasetRequest} {epochs : List EpochInfo}
  {granularity : EpochGranularity}

theorem generateEpochs_exactCover (hp : ProperColumns (usedColumns request))
    (hv : HasValidTimes request) (hg : determineGranularity request = some granularity)
    (hstep : StepsForward granularity) (h : generateEpochs sha256 fuel request = .ok epochs) :
    ExactCover (usedColumns request) (requestStart request) (requestEnd request) epochs := by
  obtain ⟨filter, hf, hvalid⟩ := hv
  obtain ⟨filter', granularity', hf', hg', hs⟩ := generateEpochs_ok h
  obtain rfl : filter' = filter := Option.some.inj (hf'.symm.trans hf)
  obtain rfl : granularity' = granularity := Option.some.inj (hg'.symm.trans hg)
  rw [extractDimensionValueSets_eq] at hs
  obtain ⟨hmem, hnd⟩ := foldl_addColumn_spec (usedColumns request) hp
  have hstart : requestStart request = (fieldTime filter'.startInclusive).instant := by
    simp [requestStart, hf]
  have hend : requestEnd request = (fieldTime filter'.endExclusive).instant := by
    simp [requestEnd, hf]
  have hblock : ∀ d, Selects (usedColumns request) d → ∃ before run after,
      epochs = before ++ run ++ after ∧ (∀ e ∈ before ++ after, e.dimensionValues ≠ d) ∧
      Slices (requestStart request) (requestEnd request) d run := by
    intro d hd
    obtain ⟨before, run, after, he, hne, hr⟩ := sliceEach_block hs hnd ((hmem d).mpr hd)
    refine ⟨before, run, after, he, hne, ?_⟩
    rw [hstart, hend]
    exact sliceTimeRange_slices hvalid hstep hr
  refine ⟨fun d => ⟨?_, ?_⟩, ?_, ?_⟩
  · rintro ⟨e, he, rfl⟩
    exact (hmem _).mp (sliceEach_labels hs he)
  · intro hd
    obtain ⟨before, run, after, rfl, -, hr⟩ := hblock d hd
    obtain ⟨e, he⟩ := List.exists_mem_of_ne_nil run hr.nonempty
    exact ⟨e, by simp [he], hr.labelled e he⟩
  · intro d hd t h1 h2
    obtain ⟨before, run, after, rfl, hne, hr⟩ := hblock d hd
    have hzero : ∀ es : List EpochInfo, (∀ e ∈ es, e ∈ before ++ after) →
        es.countP (fun e => e.dimensionValues = d ∧ epochStart e ≤ t ∧ t < epochEnd e) = 0 := by
      intro es hes
      rw [List.countP_eq_zero]
      intro e he hc
      exact hne e (hes e he) (by simpa using (of_decide_eq_true hc).1)
    rw [List.countP_append, List.countP_append, hr.count_eq_one h1 h2,
      hzero before (by simp +contextual), hzero after (by simp +contextual)]
  · intro d hd
    obtain ⟨before, run, after, he, hne, hr⟩ := hblock d hd
    exact ⟨before, run, after, he, hne, hr.orderedRun⟩

theorem filter_block {before run after : List EpochInfo} {d : DimensionValues}
    (hne : ∀ e ∈ before ++ after, e.dimensionValues ≠ d)
    (hrun : ∀ e ∈ run, e.dimensionValues = d) :
    (before ++ run ++ after).filter (·.dimensionValues = d) = run := by
  have hnone : ∀ es : List EpochInfo, (∀ e ∈ es, e ∈ before ++ after) →
      es.filter (·.dimensionValues = d) = [] := by
    intro es hes
    rw [List.filter_eq_nil_iff]
    intro e he
    simpa using hne e (hes e he)
  have hall : run.filter (·.dimensionValues = d) = run := by
    rw [List.filter_eq_self]
    intro e he
    simpa using hrun e he
  rw [List.filter_append, List.filter_append, hall, hnone before (by simp +contextual),
    hnone after (by simp +contextual)]
  simp

/-- The second of the epochs that steps back give begins before the first. -/
theorem not_increasing_of_back {filter : TimeRangeFilter} {d : DimensionValues}
    {run : List EpochInfo} (hv : ValidTimes filter) (hb : StepsBack granularity)
    (h : sliceTimeRange sha256 fuel filter granularity d = .ok run) :
    ¬run.Pairwise fun e e' => epochStart e < epochStart e' := by
  obtain ⟨n, -, ⟨hlt, -, hpos, he⟩, rfl⟩ := sliceTimeRange_ok_iff.mp h
  have hback := next_lt hb (hv.anchor granularity).1
  obtain ⟨n, rfl⟩ := Nat.exists_eq_add_of_le' hpos
  cases n with
  | zero => exact absurd (hback.trans (anchor_lt hv hlt)) (exits_succ.mp he).2.stopped
  | succ n =>
    intro hinc
    have hfirst := (List.pairwise_cons.mp hinc).1 _ List.mem_cons_self
    rw [epochStart_newEpoch, epochStart_newEpoch] at hfirst
    exact absurd hback hfirst.asymm

theorem not_exactCover_of_back (hp : ProperColumns (usedColumns request))
    (hv : HasValidTimes request) (hg : determineGranularity request = some granularity)
    (hb : StepsBack granularity) (h : generateEpochs sha256 fuel request = .ok epochs) :
    ¬ExactCover (usedColumns request) (requestStart request) (requestEnd request) epochs := by
  intro hcover
  obtain ⟨filter, hf, hvalid⟩ := hv
  obtain ⟨filter', granularity', hf', hg', hs⟩ := generateEpochs_ok h
  obtain rfl : filter' = filter := Option.some.inj (hf'.symm.trans hf)
  obtain rfl : granularity' = granularity := Option.some.inj (hg'.symm.trans hg)
  have hsets := extractDimensionValueSets_ne_nil request
  rw [extractDimensionValueSets_eq] at hs hsets
  obtain ⟨hmem, hnd⟩ := foldl_addColumn_spec (usedColumns request) hp
  obtain ⟨d, hd⟩ := List.exists_mem_of_ne_nil _ hsets
  obtain ⟨before, run, after, rfl, hne, hr⟩ := sliceEach_block hs hnd hd
  obtain ⟨before', run', after', he, hne', hrun'⟩ := hcover.runs d ((hmem d).mp hd)
  have hfilter := filter_block hne fun e he => sliceTimeRange_labels hr he
  rw [he, filter_block hne' hrun'.labelled] at hfilter
  exact not_increasing_of_back hvalid hb hr (hfilter ▸ hrun'.increasing)

/-- A list comes back for a positive step or for a step back. -/
theorem progresses_of_ok (hv : HasValidTimes request)
    (hg : determineGranularity request = some granularity)
    (h : generateEpochs sha256 fuel request = .ok epochs) : Progresses granularity := by
  obtain ⟨filter, hf, hvalid⟩ := hv
  obtain ⟨filter', granularity', hf', hg', hs⟩ := generateEpochs_ok h
  obtain rfl : filter' = filter := Option.some.inj (hf'.symm.trans hf)
  obtain rfl : granularity' = granularity := Option.some.inj (hg'.symm.trans hg)
  cases hsets : extractDimensionValueSets request with
  | nil => exact absurd hsets (extractDimensionValueSets_ne_nil request)
  | cons d sets =>
    rw [hsets] at hs
    obtain ⟨run, -, hr, -, -⟩ := sliceEach_cons.mp hs
    obtain ⟨n, -, hn, -⟩ := sliceTimeRange_ok_iff.mp hr
    exact hn.progresses hvalid

/-- Exact cover, for every hash function and every list that comes back for valid timestamps
and proper columns: exactly if the step is positive. A negative number of days, weeks or
months gives a list as well, in decreasing order. -/
theorem generateEpochs_exactCover_iff (hp : ProperColumns (usedColumns request))
    (hv : HasValidTimes request) (hg : determineGranularity request = some granularity)
    (h : generateEpochs sha256 fuel request = .ok epochs) :
    ExactCover (usedColumns request) (requestStart request) (requestEnd request) epochs ↔
      StepsForward granularity := by
  constructor
  · intro hcover
    refine (progresses_iff.mp (progresses_of_ok hv hg h)).resolve_right fun hb => ?_
    exact not_exactCover_of_back hp hv hg hb h hcover
  · intro hf
    exact generateEpochs_exactCover hp hv hg hf h

end Requests

def februarySha256 (input : List UInt8) : List UInt8 :=
  if input = "1706745600000country=de".toUTF8.toList then
    [123, 119, 184, 239, 8, 105, 64, 143, 156, 179, 157, 233, 141, 13, 249, 197,
      125, 244, 6, 249, 154, 228, 59, 141, 74, 132, 108, 193, 119, 127, 72, 155]
  else if input = "1706745600000country=fr".toUTF8.toList then
    [167, 153, 149, 119, 106, 223, 104, 244, 125, 19, 18, 58, 222, 123, 218, 14,
      98, 187, 108, 187, 252, 101, 184, 96, 215, 250, 55, 24, 222, 191, 142, 88]
  else []

def februaryRequest : AdmitDatasetRequest where
  tenantId := "acme"
  datasetId := "sales"
  source := some ⟨some {
    timePartition := some ⟨some ⟨"dt", some .day⟩,
      some ⟨some ⟨1707523200, 0⟩, some ⟨1708387200, 0⟩⟩⟩
    dimensionPartitions := [⟨some ⟨"country", none⟩, some ⟨["de", "fr"]⟩⟩] }⟩
  epochGranularity := some ⟨1, .month⟩

-- its time range
def februaryFilter : TimeRangeFilter := ⟨some ⟨1707523200, 0⟩, some ⟨1708387200, 0⟩⟩

theorem februaryFilter_valid : ValidTimes februaryFilter :=
  ⟨⟨_, rfl, by decide⟩, ⟨_, rfl, by decide⟩⟩

theorem generateEpochs_exactCover_february :
    ∃ epochs, generateEpochs februarySha256 2 februaryRequest = .ok epochs ∧
      ProperColumns (usedColumns februaryRequest) ∧ HasValidTimes februaryRequest ∧
      determineGranularity februaryRequest = some ⟨1, .month⟩ ∧
      ExactCover (usedColumns februaryRequest) (requestStart februaryRequest)
        (requestEnd februaryRequest) epochs := by
  have hp : ProperColumns (usedColumns februaryRequest) := ⟨by decide, by decide⟩
  have hv : HasValidTimes februaryRequest := ⟨_, rfl, februaryFilter_valid⟩
  obtain ⟨epochs, he⟩ : ∃ epochs, generateEpochs februarySha256 2 februaryRequest = .ok epochs :=
    ⟨_, rfl⟩
  exact ⟨epochs, he, hp, hv, rfl, (generateEpochs_exactCover_iff hp hv rfl he).mpr (by decide)⟩

-- `februaryRequest` in steps of `value` units
def februaryIn (value : Int32) (unit : TimeUnit) : AdmitDatasetRequest :=
  { februaryRequest with epochGranularity := some ⟨value, unit⟩ }

/-- Steps of -2147483648 months: 1634 epochs for each country, and each of them begins before
the one that precedes it. -/
theorem generateEpochs_decreasing :
    ∃ epochs, generateEpochs februarySha256 1635 (februaryIn (-2147483648) .month) = .ok epochs ∧
      epochs.length = 3268 ∧ HasValidTimes (februaryIn (-2147483648) .month) ∧
      ProperColumns (usedColumns (februaryIn (-2147483648) .month)) ∧
      ¬ExactCover (usedColumns (februaryIn (-2147483648) .month))
        (requestStart (februaryIn (-2147483648) .month))
        (requestEnd (februaryIn (-2147483648) .month)) epochs := by
  have hp : ProperColumns (usedColumns (februaryIn (-2147483648) .month)) :=
    ⟨by decide, by decide⟩
  have hv : HasValidTimes (februaryIn (-2147483648) .month) := ⟨_, rfl, februaryFilter_valid⟩
  have hturns : Turns ⟨-2147483648, .month⟩ februaryFilter 1634 := by decide +kernel
  have hrun : ∀ d, sliceTimeRange februarySha256 1635 februaryFilter ⟨-2147483648, .month⟩ d =
      .ok (slices februarySha256 d ⟨-2147483648, .month⟩ 1634
        (anchor ⟨-2147483648, .month⟩ februaryFilter)) := fun d =>
    sliceTimeRange_ok_iff.mpr ⟨1634, by decide, ⟨by decide, by simp [KnownUnit], by decide,
      hturns⟩, rfl⟩
  obtain ⟨epochs, h, hlen⟩ : ∃ epochs,
      generateEpochs februarySha256 1635 (februaryIn (-2147483648) .month) = .ok epochs ∧
      epochs.length = 3268 := by
    refine ⟨_, (generateEpochs_of_range februarySha256 1635 rfl rfl).trans
      (sliceEach_cons.mpr ⟨_, _, hrun _, sliceEach_cons.mpr ⟨_, _, hrun _, rfl, rfl⟩, rfl⟩), ?_⟩
    simp [length_slices]
  have hb : StepsBack ⟨-2147483648, .month⟩ := by decide
  exact ⟨epochs, h, hlen, hv, hp, not_exactCover_of_back hp hv rfl hb h⟩

end Leibrix.EpochGenerator

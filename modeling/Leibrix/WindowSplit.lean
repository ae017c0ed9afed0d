import Leibrix.CalendarBoundaries

/-! A range sliced as a whole and in two parts. Without an explicit granularity a step is
one unit, so every part is sliced on the same grid. -/
namespace Leibrix.EpochGenerator
open Leibrix.Proto Leibrix.GoTime Leibrix.Loops

def withRange (start finish : Timestamp) (request : AdmitDatasetRequest) : AdmitDatasetRequest :=
  { request with
    source := request.source.map fun source =>
      { source with
        partition := source.partition.map fun partition =>
          { partition with
            timePartition := partition.timePartition.map fun timePartition =>
              { timePartition with filter := some ⟨some start, some finish⟩ } } } }

variable {request : AdmitDatasetRequest} {granularity : EpochGranularity}

theorem withRange_timePartition (start finish : Timestamp) :
    ((withRange start finish request).source.bind (·.partition) |>.bind (·.timePartition)) =
      (request.source.bind (·.partition) |>.bind (·.timePartition)).map fun timePartition =>
        { timePartition with filter := some ⟨some start, some finish⟩ } := by
  cases hs : request.source with
  | none => simp [withRange, hs]
  | some source => cases hp : source.partition <;> simp [withRange, hs, hp]

theorem determineGranularity_withRange (start finish : Timestamp) :
    determineGranularity (withRange start finish request) = determineGranularity request := by
  unfold determineGranularity
  rw [withRange_timePartition]
  cases htp : request.source.bind (·.partition) |>.bind (·.timePartition) <;>
    simp [withRange]

theorem extractDimensionValueSets_withRange (start finish : Timestamp) :
    extractDimensionValueSets (withRange start finish request) =
      extractDimensionValueSets request := by
  unfold extractDimensionValueSets
  cases hs : request.source with
  | none => simp [withRange, hs]
  | some source => cases hp : source.partition <;> simp [withRange, hs, hp]

/-- A granularity that is derived comes from a time partition, which gets the range. -/
theorem timeFilter_withRange (hn : request.epochGranularity = none)
    (hg : determineGranularity request = some granularity) (start finish : Timestamp) :
    timeFilter (withRange start finish request) = some ⟨some start, some finish⟩ := by
  unfold timeFilter
  rw [withRange_timePartition]
  cases htp : request.source.bind (·.partition) |>.bind (·.timePartition) with
  | none => simp [determineGranularity, hn, htp] at hg
  | some timePartition => rfl

section Parts
variable (sha256 : List UInt8 → List UInt8)

-- the cells that begin at or after `x` and before `finish`
def InCells (sets : List DimensionValues) (granularity : EpochGranularity) (x finish : Int)
    (e : EpochInfo) : Prop :=
  ∃ d ∈ sets, ∃ k : Nat, gridPoint granularity x k < finish ∧
    e = gridEpoch sha256 granularity x d k

theorem generateEpochs_withRange {start finish : Timestamp} (hn : request.epochGranularity = none)
    (hg : determineGranularity request = some granularity) (hs : start.Valid)
    (hf : finish.Valid) (hlt : asTime start < asTime finish) :
    ∃ enough epochs, (∀ fuel, enough ≤ fuel →
        generateEpochs sha256 fuel (withRange start finish request) = .ok epochs) ∧
      ∀ e, e ∈ epochs ↔ InCells sha256 (extractDimensionValueSets request) granularity
        (floorTo granularity.unit (asTime start).instant) (asTime finish).instant e := by
  obtain ⟨-, hsteps⟩ := determineGranularity_derived hn hg
  have hfilter := timeFilter_withRange hn hg start finish
  have hv : ValidTimes ⟨some start, some finish⟩ := ⟨⟨start, rfl, hs⟩, ⟨finish, rfl, hf⟩⟩
  have hg' : determineGranularity (withRange start finish request) = some granularity :=
    (determineGranularity_withRange start finish).trans hg
  obtain ⟨n, -, hsliced⟩ := exists_slicedIn ⟨hv, hlt⟩ hsteps
  have he {fuel : Nat} (hfuel : n < fuel) := generateEpochs_returns sha256
    (extractTimeRange_of_valid hfilter hv) hg' hsliced hfuel
  refine ⟨n + 1, _, fun fuel hfuel => he hfuel, fun e => ?_⟩
  have hmem := (generateEpochs_cells ⟨_, hfilter, hv⟩ hg' hsteps (he (Nat.lt_succ_self n))).mem e
  simp only [sliceStart, requestStart, requestEnd, hfilter, extractDimensionValueSets_withRange]
    at hmem
  rw [extractDimensionValueSets_withRange]
  exact hmem

variable {sha256}

/-- A cell before `finish` begins before the cut, or it is a cell of the grid that is
anchored `m` steps on. -/
theorem inCells_split {sets : List DimensionValues} {x cut finish : Int} {m : Nat}
    (hf : StepsForward granularity) (hm : gridPoint granularity x m ≤ cut) (hc : cut < finish)
    (e : EpochInfo) :
    InCells sha256 sets granularity x finish e ↔
      InCells sha256 sets granularity x cut e ∨
        InCells sha256 sets granularity (gridPoint granularity x m) finish e := by
  have hmono := gridPoint_strictMono hf x
  constructor
  · intro h
    obtain ⟨d, hd, k, hk, he⟩ := h
    by_cases hb : gridPoint granularity x k < cut
    · exact .inl ⟨d, hd, k, hb, he⟩
    · have hle : gridPoint granularity x m ≤ gridPoint granularity x k := by omega
      have hmk : (m : Int) ≤ k := hmono.le_iff_le.mp hle
      have hsum : (m : Int) + ((k - m : Nat) : Int) = k := by omega
      refine .inr ⟨d, hd, k - m, ?_, ?_⟩
      · rwa [gridPoint_add, hsum]
      · rw [gridEpoch_shift, hsum]
        exact he
  · intro h
    cases h with
    | inl h =>
      obtain ⟨d, hd, k, hk, he⟩ := h
      exact ⟨d, hd, k, by omega, he⟩
    | inr h =>
      obtain ⟨d, hd, k, hk, he⟩ := h
      rw [gridPoint_add] at hk
      rw [gridEpoch_shift] at he
      exact ⟨d, hd, m + k, by push_cast; exact hk, by push_cast; exact he⟩

/-- The last boundary before a later instant lies a number of steps ahead. -/
theorem floorTo_ahead (hv : granularity.value = 1) (hf : StepsForward granularity) {x y : Int}
    (hle : x ≤ y) : ∃ m : Nat, floorTo granularity.unit y =
      gridPoint granularity (floorTo granularity.unit x) m := by
  obtain ⟨k, hk⟩ := floorTo_on_grid hv hf x y
  have hle' := boundary_le_floorTo (floorTo_boundary hf.known x)
    ((floorTo_le granularity.unit x).trans hle)
  have hzero := gridPoint_zero (floorTo_onGrid granularity x)
  rw [hk] at hle'
  nth_rewrite 1 [← hzero] at hle'
  have hpos : 0 ≤ k := (gridPoint_strictMono hf _).le_iff_le.mp hle'
  exact ⟨k.toNat, by rw [Int.toNat_of_nonneg hpos, hk]⟩

end Parts

/-- On the default path and for valid timestamps the epochs of a range are those of its two
parts, wherever it is cut: all three requests are answered, and an epoch is in the whole list
exactly if it is in one of the others. -/
theorem generateEpochs_split (sha256 : List UInt8 → List UInt8) {a b c : Timestamp}
    (hn : request.epochGranularity = none)
    (hg : determineGranularity request = some granularity) (ha : a.Valid) (hb : b.Valid)
    (hc : c.Valid) (hab : asTime a < asTime b) (hbc : asTime b < asTime c) :
    ∃ enough whole first second, (∀ fuel, enough ≤ fuel →
        generateEpochs sha256 fuel (withRange a c request) = .ok whole ∧
        generateEpochs sha256 fuel (withRange a b request) = .ok first ∧
        generateEpochs sha256 fuel (withRange b c request) = .ok second) ∧
      ∀ e, e ∈ whole ↔ e ∈ first ∨ e ∈ second := by
  obtain ⟨n, whole, hw, hwhole⟩ := generateEpochs_withRange sha256 hn hg ha hc (hab.trans hbc)
  obtain ⟨n₁, first, h₁, hfirst⟩ := generateEpochs_withRange sha256 hn hg ha hb hab
  obtain ⟨n₂, second, h₂, hsecond⟩ := generateEpochs_withRange sha256 hn hg hb hc hbc
  obtain ⟨hv, hsteps⟩ := determineGranularity_derived hn hg
  obtain ⟨m, hm⟩ := floorTo_ahead hv hsteps (Time.le_iff.mp hab.le)
  refine ⟨n + n₁ + n₂, whole, first, second, fun fuel hfuel => ?_, fun e => ?_⟩
  · exact ⟨hw fuel (by omega), h₁ fuel (by omega), h₂ fuel (by omega)⟩
  · have hle := floorTo_le granularity.unit (asTime b).instant
    rw [hm] at hle
    rw [hwhole, hfirst, hsecond, hm]
    exact inCells_split hsteps hle hbc e

def februaryDefault : AdmitDatasetRequest :=
  -- `februaryRequest` over a column that is partitioned by months, without a granularity of its own
  { februaryRequest with
    source := some ⟨some {
      timePartition := some ⟨some ⟨"dt", some .month⟩, some februaryFilter⟩
      dimensionPartitions := [⟨some ⟨"country", none⟩, some ⟨["de", "fr"]⟩⟩] }⟩
    epochGranularity := none }

/-- 10 to 20 February 2024, cut at noon of 15 February. -/
theorem generateEpochs_split_february :
    determineGranularity februaryDefault = some ⟨1, .month⟩ ∧
      ∃ enough whole first second, (∀ fuel, enough ≤ fuel →
          generateEpochs februarySha256 fuel
            (withRange ⟨1707523200, 0⟩ ⟨1708387200, 0⟩ februaryDefault) = .ok whole ∧
          generateEpochs februarySha256 fuel
            (withRange ⟨1707523200, 0⟩ ⟨1707998400, 0⟩ februaryDefault) = .ok first ∧
          generateEpochs februarySha256 fuel
            (withRange ⟨1707998400, 0⟩ ⟨1708387200, 0⟩ februaryDefault) = .ok second) ∧
        ∀ e, e ∈ whole ↔ e ∈ first ∨ e ∈ second :=
  ⟨rfl, generateEpochs_split februarySha256 rfl rfl (by decide) (by decide) (by decide)
    (by decide) (by decide)⟩

-- one epoch a day
def dailyDefault : AdmitDatasetRequest :=
  { februaryRequest with
    source := some ⟨some {
      timePartition := some ⟨some ⟨"dt", some .day⟩, some februaryFilter⟩
      dimensionPartitions := [] }⟩
    epochGranularity := none }

-- five days around the first second with a date
def firstSecond : Timestamp := ⟨-9223372028741932795, 0⟩
def secondCut : Timestamp := ⟨-9223372028741673500, 0⟩
def lastSecond : Timestamp := ⟨-9223372028741500800, 0⟩

/-- The days of times before 1 March of the absolute year are off by 25216 seconds, which is
2⁶⁴ modulo a day: slicing from there misses the midnights that slicing from later on finds. -/
theorem generateEpochs_split_wraps :
    asTime firstSecond < asTime secondCut ∧ asTime secondCut < asTime lastSecond ∧
      determineGranularity dailyDefault = some ⟨1, .day⟩ ∧
      ∀ sha256, ∃ whole first second, (∀ fuel, 7 ≤ fuel →
          generateEpochs sha256 fuel (withRange firstSecond lastSecond dailyDefault) =
            .ok whole ∧
          generateEpochs sha256 fuel (withRange firstSecond secondCut dailyDefault) =
            .ok first ∧
          generateEpochs sha256 fuel (withRange secondCut lastSecond dailyDefault) =
            .ok second) ∧
        ∃ e ∈ second, e ∉ whole := by
  have hu : KnownUnit ⟨1, .day⟩ := by simp [KnownUnit]
  have hw : SlicedIn ⟨1, .day⟩ ⟨some firstSecond, some lastSecond⟩ 6 :=
    ⟨by decide +kernel, hu, by decide, by decide +kernel⟩
  have h₁ : SlicedIn ⟨1, .day⟩ ⟨some firstSecond, some secondCut⟩ 4 :=
    ⟨by decide +kernel, hu, by decide, by decide +kernel⟩
  have h₂ : SlicedIn ⟨1, .day⟩ ⟨some secondCut, some lastSecond⟩ 2 :=
    ⟨by decide +kernel, hu, by decide, by decide +kernel⟩
  refine ⟨by decide +kernel, by decide +kernel, rfl, fun sha256 => ?_⟩
  refine ⟨_, _, _, fun fuel hfuel => ⟨generateEpochs_returns sha256 rfl rfl hw (by omega),
    generateEpochs_returns sha256 rfl rfl h₁ (by omega),
    generateEpochs_returns sha256 rfl rfl h₂ (by omega)⟩, ?_⟩
  refine ⟨turnEpoch sha256 ⟨1, .day⟩ (anchor ⟨1, .day⟩ ⟨some secondCut, some lastSecond⟩) ∅ 0,
    ?_, ?_⟩
  · exact List.mem_flatMap.mpr ⟨∅, List.mem_singleton_self _,
      (mem_slices sha256 ∅).mpr ⟨0, by decide, rfl⟩⟩
  · intro he
    obtain ⟨d, -, he⟩ := List.mem_flatMap.mp he
    obtain ⟨k, hk, he⟩ := (mem_slices sha256 d).mp he
    have hmiss : ∀ k < 6, anchor ⟨1, .day⟩ ⟨some secondCut, some lastSecond⟩ ≠
        (next ⟨1, .day⟩)^[k] (anchor ⟨1, .day⟩ ⟨some firstSecond, some lastSecond⟩) := by
      decide +kernel
    exact hmiss k hk (newEpoch_start he)

end Leibrix.EpochGenerator

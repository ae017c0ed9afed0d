import Leibrix.EpochIds

/-! Values that a partition lists twice, and column names that come back. The set of epochs
does not depend on them, the list does: every repetition is a copy. -/
namespace Leibrix.EpochGenerator
open Leibrix.Proto Leibrix.GoTime Leibrix.Loops

structure DistinctChoices (columns : List Column) : Prop where
  -- the cross product makes no set twice: no column lists a value twice, and a column whose name
  -- comes again, so that its value is overwritten, has only one to overwrite
  values : ∀ column ∈ columns, column.2.Nodup
  names : columns.Pairwise fun column later => column.1 = later.1 → column.2.length = 1

section Columns
variable {column : Column} {columns : List Column} {sets : List DimensionValues}

theorem ProperColumns.distinctChoices (h : ProperColumns columns) : DistinctChoices columns := by
  refine ⟨h.values, ?_⟩
  refine (List.pairwise_map.mp h.names).imp ?_
  intro column later hne he
  exact absurd he hne

theorem distinctChoices_cons : DistinctChoices (column :: columns) ↔
    column.2.Nodup ∧ (column.1 ∈ columns.map Prod.fst → column.2.length = 1) ∧
      DistinctChoices columns := by
  constructor
  · intro h
    obtain ⟨hlater, hnames⟩ := List.pairwise_cons.mp h.names
    refine ⟨h.values column (by simp), ?_, fun c hc => h.values c (by simp [hc]), hnames⟩
    intro hm
    obtain ⟨later, hl, he⟩ := List.mem_map.mp hm
    exact hlater later hl he.symm
  · rintro ⟨hv, hlater, h⟩
    refine ⟨by simpa using ⟨hv, fun a b hc => h.values (a, b) hc⟩, ?_⟩
    refine List.pairwise_cons.mpr ⟨fun later hl he => ?_, h.names⟩
    exact hlater (List.mem_map.mpr ⟨later, hl, he.symm⟩)

theorem insert_eq_union (d : DimensionValues) (name value : String) :
    d.insert name value = Finmap.singleton name value ∪ d := by
  refine Finmap.ext_lookup fun other => ?_
  by_cases h : other = name
  · subst h
    rw [Finmap.lookup_insert, Finmap.lookup_union_left (by simp), Finmap.lookup_singleton_eq]
  · rw [Finmap.lookup_insert_of_ne _ h, Finmap.lookup_union_right (by simpa using h)]

/-- Later columns overwrite what a set holds already. -/
theorem foldl_addColumn_eq (columns : List Column) (sets : List DimensionValues) :
    columns.foldl addColumn sets =
      sets.flatMap fun d => (columns.foldl addColumn [∅]).map (· ∪ d) := by
  induction columns generalizing sets with
  | nil => simp [Finmap.empty_union]
  | cons column columns ih =>
    rw [List.foldl_cons, List.foldl_cons, ih (addColumn sets column),
      ih (addColumn [∅] column)]
    simp [addColumn, List.flatMap_assoc, List.flatMap_map, List.map_flatMap, insert_eq_union,
      Finmap.union_empty, Finmap.union_assoc, Function.comp_def]

theorem foldl_addColumn_cons (column : Column) (columns : List Column) :
    (column :: columns).foldl addColumn [∅] = column.2.flatMap fun value =>
      (columns.foldl addColumn [∅]).map (· ∪ Finmap.singleton column.1 value) := by
  rw [List.foldl_cons, foldl_addColumn_eq]
  simp [addColumn, List.flatMap_map, insert_eq_union, Finmap.union_empty]

theorem union_singleton_of_mem {d : DimensionValues} {name value : String} (h : name ∈ d) :
    d ∪ Finmap.singleton name value = d := by
  refine Finmap.ext_lookup fun other => ?_
  by_cases ho : other ∈ d
  · exact Finmap.lookup_union_left ho
  · have hne : other ≠ name := fun he => ho (he ▸ h)
    rw [Finmap.lookup_union_right ho, Finmap.lookup_eq_none.mpr ho,
      Finmap.lookup_eq_none.mpr (by simpa using hne)]

/-- A set without the name and the value it gets are read off the extended set. -/
theorem union_singleton_inj {d d' : DimensionValues} {name value value' : String}
    (h : name ∉ d) (h' : name ∉ d')
    (he : d ∪ Finmap.singleton name value = d' ∪ Finmap.singleton name value') :
    d = d' ∧ value = value' := by
  constructor
  · refine Finmap.ext_lookup fun other => ?_
    by_cases ho : other = name
    · rw [ho, Finmap.lookup_eq_none.mpr h, Finmap.lookup_eq_none.mpr h']
    · have hl := congrArg (Finmap.lookup other) he
      rwa [Finmap.lookup_union_left_of_not_in (by simpa using ho),
        Finmap.lookup_union_left_of_not_in (by simpa using ho)] at hl
  · have hl := congrArg (Finmap.lookup name) he
    rw [Finmap.lookup_union_right h, Finmap.lookup_union_right h',
      Finmap.lookup_singleton_eq, Finmap.lookup_singleton_eq] at hl
    exact Option.some.inj hl

/-- A column that is overwritten later only repeats the list. -/
theorem nodup_overwritten {values : List String} (hv : values ≠ []) (hs : sets ≠ []) :
    (values.flatMap fun _ => sets).Nodup ↔ values.length = 1 ∧ sets.Nodup := by
  cases values with
  | nil => exact absurd rfl hv
  | cons value values =>
    cases values with
    | nil => simp
    | cons value' values =>
      obtain ⟨d, hd⟩ := List.exists_mem_of_ne_nil sets hs
      simp only [List.flatMap_cons, List.length_cons]
      constructor
      · intro h
        exact absurd (List.mem_append_left _ hd) (List.disjoint_of_nodup_append h hd)
      · omega

/-- A column with a new name puts the lists of its values side by side. -/
theorem nodup_extended {name : String} {values : List String} (hv : values ≠ [])
    (hs : sets ≠ []) (hn : ∀ d ∈ sets, name ∉ d) :
    (values.flatMap fun value => sets.map (· ∪ Finmap.singleton name value)).Nodup ↔
      values.Nodup ∧ sets.Nodup := by
  have hrow : ∀ value, (sets.map (· ∪ Finmap.singleton name value)).Nodup ↔ sets.Nodup := by
    intro value
    constructor
    · exact List.Nodup.of_map _
    · intro h
      refine h.map_on fun d hd d' hd' he => ?_
      exact (union_singleton_inj (hn d hd) (hn d' hd') he).1
  have hrows : ∀ value value', (Function.onFun List.Disjoint fun value =>
      sets.map (· ∪ Finmap.singleton name value)) value value' ↔ value ≠ value' := by
    intro value value'
    constructor
    · intro h he
      subst he
      obtain ⟨d, hd⟩ := List.exists_mem_of_ne_nil sets hs
      exact h (List.mem_map_of_mem hd) (List.mem_map_of_mem hd)
    · intro hne e he he'
      obtain ⟨d, hd, rfl⟩ := List.mem_map.mp he
      obtain ⟨d', hd', heq⟩ := List.mem_map.mp he'
      exact hne (union_singleton_inj (hn d' hd') (hn d hd) heq).2.symm
  rw [List.nodup_flatMap, List.Pairwise.iff hrows]
  obtain ⟨value, hm⟩ := List.exists_mem_of_ne_nil values hv
  constructor
  · rintro ⟨h, hne⟩
    exact ⟨hne, (hrow value).mp (h value hm)⟩
  · rintro ⟨hne, h⟩
    exact ⟨fun v _ => (hrow v).mpr h, hne⟩

theorem foldl_addColumn_nodup_iff (hv : ∀ c ∈ columns, c.2 ≠ []) :
    (columns.foldl addColumn [∅]).Nodup ↔ DistinctChoices columns := by
  -- induction from the first column on: the rest says whether its value survives
  induction columns with
  | nil => simpa using (⟨by simp, .nil⟩ : DistinctChoices [])
  | cons column columns ih =>
    have hcolumn := hv column (by simp)
    have hrest : ∀ c ∈ columns, c.2 ≠ [] := fun c hc => hv c (by simp [hc])
    have hsets := foldl_addColumn_ne_nil hrest (by simp : [(∅ : DimensionValues)] ≠ [])
    have hnames : ∀ d ∈ columns.foldl addColumn [∅],
        (column.1 ∈ d ↔ column.1 ∈ columns.map Prod.fst) := fun d hd =>
      ((mem_foldl_addColumn hrest).mp hd).names column.1
    rw [foldl_addColumn_cons, distinctChoices_cons, ← ih hrest]
    by_cases hm : column.1 ∈ columns.map Prod.fst
    · have hsame : ∀ value : String, (columns.foldl addColumn [∅]).map
          (· ∪ Finmap.singleton column.1 value) = columns.foldl addColumn [∅] := by
        intro value
        refine (List.map_congr_left fun d hd => ?_).trans (List.map_id _)
        exact union_singleton_of_mem ((hnames d hd).mpr hm)
      simp only [hsame, nodup_overwritten hcolumn hsets, hm, true_imp_iff]
      constructor
      · rintro ⟨hl, hs⟩
        obtain ⟨value, he⟩ := List.length_eq_one_iff.mp hl
        exact ⟨by simp [he], hl, hs⟩
      · rintro ⟨_, hl, hs⟩
        exact ⟨hl, hs⟩
    · rw [nodup_extended hcolumn hsets fun d hd h => hm ((hnames d hd).mp h)]
      simp only [hm, false_imp_iff, true_and]

end Columns

section Slicing
variable {sha256 : List UInt8 → List UInt8} {fuel : Nat} {filter : TimeRangeFilter}
  {granularity : EpochGranularity} {sets sets' : List DimensionValues} {epochs : List EpochInfo}

/-- A loop that ends comes by no start twice. -/
theorem slices_nodup {finish t : Time} {n : Nat} (d : DimensionValues)
    (h : Exits (next granularity) (· < finish) t n) :
    (slices sha256 d granularity n t).Nodup := by
  induction n generalizing t with
  | zero => exact List.nodup_nil
  | succ n ih =>
    refine List.nodup_cons.mpr ⟨fun hm => ?_, ih (exits_succ.mp h).2⟩
    obtain ⟨k, hk, he⟩ := (mem_slices sha256 d).mp hm
    exact h.ne_of_lt (Nat.succ_pos k) (Nat.succ_lt_succ hk) (newEpoch_start he)

/-- The epochs of one set differ in their start, and those of two sets in the values. -/
theorem sliceEach_nodup_iff (h : sliceEach sha256 fuel filter granularity sets = .ok epochs) :
    epochs.Nodup ↔ sets.Nodup := by
  induction sets generalizing epochs with
  | nil =>
    obtain rfl : epochs = [] := by simpa [sliceEach] using h.symm
    simp
  | cons d sets ih =>
    obtain ⟨run, rest, hr, hs, rfl⟩ := sliceEach_cons.mp h
    obtain ⟨n, -, ⟨-, -, hpos, hturns⟩, hrun⟩ := sliceTimeRange_ok_iff.mp hr
    have hnodup : run.Nodup := hrun ▸ slices_nodup d hturns
    have hne : run ≠ [] := by
      rw [hrun, ← List.length_pos_iff, length_slices]
      exact hpos
    rw [List.nodup_append', List.nodup_cons, ih hs]
    constructor
    · rintro ⟨_, hsets, hdisjoint⟩
      refine ⟨fun hd => ?_, hsets⟩
      obtain ⟨e, he⟩ := List.exists_mem_of_ne_nil run hne
      exact hdisjoint he ((sliceEach_mem hs).mpr ⟨d, hd, run, hr, he⟩)
    · rintro ⟨hd, hsets⟩
      refine ⟨hnodup, hsets, fun e he he' => hd ?_⟩
      rw [← sliceTimeRange_labels hr he]
      exact sliceEach_labels hs he'

/-- The slicing succeeds on a list of sets when it does on each. -/
theorem sliceEach_of_forall (h : ∀ d ∈ sets, ∃ es,
    sliceTimeRange sha256 fuel filter granularity d = .ok es) :
    ∃ epochs, sliceEach sha256 fuel filter granularity sets = .ok epochs := by
  induction sets with
  | nil => exact ⟨[], rfl⟩
  | cons d sets ih =>
    obtain ⟨run, hr⟩ := h d (by simp)
    obtain ⟨rest, hs⟩ := ih fun d hd => h d (by simp [hd])
    exact ⟨run ++ rest, sliceEach_cons.mpr ⟨run, rest, hr, hs, rfl⟩⟩

theorem sliceEach_congr (h : sliceEach sha256 fuel filter granularity sets = .ok epochs)
    (hsets : ∀ d, d ∈ sets ↔ d ∈ sets') :
    ∃ epochs', sliceEach sha256 fuel filter granularity sets' = .ok epochs' ∧
      ∀ e, e ∈ epochs ↔ e ∈ epochs' := by
  obtain ⟨epochs', h'⟩ := sliceEach_of_forall fun d hd => sliceEach_forall h d ((hsets d).mpr hd)
  refine ⟨epochs', h', fun e => ?_⟩
  simp only [sliceEach_mem h, sliceEach_mem h', hsets]

end Slicing

section Requests
variable {sha256 : List UInt8 → List UInt8} {fuel : Nat} {request : AdmitDatasetRequest}
  {epochs : List EpochInfo}

def dedupPartition (p : DimensionPartition) : DimensionPartition :=
  { p with values := p.values.map fun v => ⟨v.values.dedup⟩ }

def dedupRequest (request : AdmitDatasetRequest) : AdmitDatasetRequest :=
  { request with source := request.source.map fun s => { s with
      partition := s.partition.map fun p => { p with
        dimensionPartitions := p.dimensionPartitions.map dedupPartition } } }

def dedupColumn (column : Column) : Column := (column.1, column.2.dedup)

theorem usedColumn_dedup (p : DimensionPartition) :
    usedColumn (dedupPartition p) = (usedColumn p).map dedupColumn := by
  obtain ⟨column, values⟩ := p
  cases column with
  | none => rfl
  | some column =>
    cases values with
    | none => rfl
    | some values =>
      by_cases h : values.values = [] <;>
        simp [usedColumn, dedupPartition, dedupColumn, List.dedup_eq_nil, h]

theorem usedColumns_dedup (request : AdmitDatasetRequest) :
    usedColumns (dedupRequest request) = (usedColumns request).map dedupColumn := by
  unfold usedColumns dedupRequest
  cases request.source with
  | none => rfl
  | some source =>
    cases hp : source.partition with
    | none => simp [hp]
    | some partition =>
      simp only [Option.map_some, Option.bind_some, hp, List.filterMap_map, List.map_filterMap]
      exact List.filterMap_congr fun p _ => usedColumn_dedup p

theorem mem_foldl_dedup (columns : List Column) {sets sets' : List DimensionValues}
    (h : ∀ d, d ∈ sets ↔ d ∈ sets') (d : DimensionValues) :
    d ∈ columns.foldl addColumn sets ↔ d ∈ (columns.map dedupColumn).foldl addColumn sets' := by
  induction columns generalizing sets sets' with
  | nil => exact h d
  | cons column columns ih =>
    refine ih fun e => ?_
    simp only [mem_addColumn, h, dedupColumn, List.mem_dedup]

theorem extractTimeRange_dedup (request : AdmitDatasetRequest) :
    extractTimeRange (dedupRequest request) = extractTimeRange request ∧
      determineGranularity (dedupRequest request) = determineGranularity request := by
  have h : ((dedupRequest request).source.bind (·.partition) |>.bind (·.timePartition)) =
      (request.source.bind (·.partition) |>.bind (·.timePartition)) := by
    unfold dedupRequest
    cases request.source with
    | none => rfl
    | some source => cases hp : source.partition <;> simp [hp]
  constructor
  · rw [extractTimeRange, extractTimeRange, h]
  · rw [determineGranularity, determineGranularity, h]
    rfl

/-- The set of epochs does not see repeated values. -/
theorem generateEpochs_dedup (h : generateEpochs sha256 fuel request = .ok epochs) :
    ∃ epochs', generateEpochs sha256 fuel (dedupRequest request) = .ok epochs' ∧
      ∀ e, e ∈ epochs ↔ e ∈ epochs' := by
  obtain ⟨htime, hgran⟩ := extractTimeRange_dedup request
  obtain ⟨filter, hf, h⟩ := Outcome.bind_eq_ok.mp h
  cases hg : determineGranularity request with
  | none => simp [hg] at h
  | some granularity =>
    simp only [hg] at h
    have hsets : ∀ d, d ∈ extractDimensionValueSets request ↔
        d ∈ extractDimensionValueSets (dedupRequest request) := by
      intro d
      rw [extractDimensionValueSets_eq, extractDimensionValueSets_eq, usedColumns_dedup]
      exact mem_foldl_dedup _ (fun _ => Iff.rfl) d
    obtain ⟨epochs', h', hmem⟩ := sliceEach_congr h hsets
    refine ⟨epochs', Outcome.bind_eq_ok.mpr ⟨filter, by rw [htime, hf], ?_⟩, hmem⟩
    simp only [hgran, hg, h']

/-- The answer lists no epoch twice and is, as a set, that of the request without repeated
values: exactly when the columns make distinct choices. -/
theorem generateEpochs_distinct_iff (h : generateEpochs sha256 fuel request = .ok epochs) :
    (epochs.Nodup ∧ ∃ epochs',
      generateEpochs sha256 fuel (dedupRequest request) = .ok epochs' ∧
        ∀ e, e ∈ epochs ↔ e ∈ epochs') ↔ DistinctChoices (usedColumns request) := by
  obtain ⟨filter, granularity, -, -, hs⟩ := generateEpochs_ok h
  have hn := sliceEach_nodup_iff hs
  rw [extractDimensionValueSets_eq, foldl_addColumn_nodup_iff (usedColumns_nonempty request)] at hn
  rw [hn]
  exact and_iff_left (generateEpochs_dedup h)

end Requests

theorem generateEpochs_distinct_february :
    ∃ epochs, generateEpochs februarySha256 2 februaryRequest = .ok epochs ∧ epochs.Nodup ∧
      ∃ epochs', generateEpochs februarySha256 2 (dedupRequest februaryRequest) = .ok epochs' ∧
        ∀ e, e ∈ epochs ↔ e ∈ epochs' := by
  have hp : ProperColumns (usedColumns februaryRequest) := ⟨by decide, by decide⟩
  obtain ⟨epochs, he⟩ : ∃ epochs, generateEpochs februarySha256 2 februaryRequest = .ok epochs :=
    ⟨_, rfl⟩
  exact ⟨epochs, he, (generateEpochs_distinct_iff he).mpr hp.distinctChoices⟩

def februaryBy (columns : List Column) : AdmitDatasetRequest :=
  { februaryRequest with source := februaryRequest.source.map fun s => { s with
      partition := s.partition.map fun p => { p with
        dimensionPartitions := columns.map fun column =>
          ⟨some ⟨column.1, none⟩, some ⟨column.2⟩⟩ } } }

/-- A value listed twice, and two values that a later column of the name overwrites: both
requests get the one epoch of February twice. -/
theorem generateEpochs_repeated :
    ∃ epoch, generateEpochs februarySha256 2 (februaryBy [("country", ["de"])]) = .ok [epoch] ∧
      generateEpochs februarySha256 2 (februaryBy [("country", ["de", "de"])]) =
        .ok [epoch, epoch] ∧
      generateEpochs februarySha256 2 (februaryBy [("country", ["fr", "es"]),
        ("country", ["de"])]) = .ok [epoch, epoch] ∧
      ¬[epoch, epoch].Nodup :=
  ⟨_, rfl, rfl, rfl, by simp⟩

end Leibrix.EpochGenerator

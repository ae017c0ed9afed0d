import Leibrix.EpochGenerator

/-! `extractDimensionValueSets` builds the cross product of the partition columns. -/
namespace Leibrix.EpochGenerator
open Leibrix.Proto

abbrev Column := String × List String

def usedColumn (dimPartition : DimensionPartition) : Option Column :=
  -- the name and values of a partition that has a column and at least one value
  match dimPartition.column, dimPartition.values with
  | some column, some values =>
    if values.values = [] then none else some (column.name, values.values)
  | _, _ => none

def usedColumns (request : AdmitDatasetRequest) : List Column :=
  match request.source.bind (·.partition) with
  | none => []
  | some partition => partition.dimensionPartitions.filterMap usedColumn

structure ProperColumns (columns : List Column) : Prop where
  names : (columns.map Prod.fst).Nodup
  values : ∀ column ∈ columns, column.2.Nodup

structure Selects (columns : List Column) (d : DimensionValues) : Prop where
  names : ∀ name, name ∈ d ↔ name ∈ columns.map Prod.fst
  values : ∀ column ∈ columns, ∃ value ∈ column.2, d.lookup column.1 = some value

def addColumn (sets : List DimensionValues) (column : Column) : List DimensionValues :=
  sets.flatMap fun existing => column.2.map fun value => existing.insert column.1 value

theorem extendValueSets_eq (sets : List DimensionValues) (p : DimensionPartition) :
    extendValueSets sets p = (usedColumn p).elim sets (addColumn sets) := by
  obtain ⟨column, values⟩ := p
  cases column with
  | none => rfl
  | some column =>
    cases values with
    | none => rfl
    | some values =>
      by_cases h : values.values = [] <;> simp [extendValueSets, usedColumn, addColumn, h]

theorem foldl_extendValueSets (partitions : List DimensionPartition)
    (sets : List DimensionValues) :
    partitions.foldl extendValueSets sets =
      (partitions.filterMap usedColumn).foldl addColumn sets := by
  induction partitions generalizing sets with
  | nil => rfl
  | cons p ps ih =>
    rw [List.foldl_cons, ih, extendValueSets_eq]
    cases h : usedColumn p <;> simp [h]

theorem extractDimensionValueSets_eq (request : AdmitDatasetRequest) :
    extractDimensionValueSets request = (usedColumns request).foldl addColumn [∅] := by
  unfold extractDimensionValueSets usedColumns
  cases request.source.bind (·.partition) with
  | none => rfl
  | some partition => exact foldl_extendValueSets _ _

theorem mem_addColumn {sets : List DimensionValues} {column : Column} {d : DimensionValues} :
    d ∈ addColumn sets column ↔
      ∃ existing ∈ sets, ∃ value ∈ column.2, existing.insert column.1 value = d := by
  simp [addColumn]

/-- A selection of the columns with one more is a selection without it, extended. -/
theorem selects_append {columns : List Column} {column : Column} {d : DimensionValues}
    (hn : column.1 ∉ columns.map Prod.fst) :
    Selects (columns ++ [column]) d ↔
      ∃ existing, Selects columns existing ∧ ∃ value ∈ column.2,
        existing.insert column.1 value = d := by
  have hne : ∀ c ∈ columns, c.1 ≠ column.1 := by
    intro c hc he
    exact hn (he ▸ List.mem_map_of_mem hc)
  constructor
  · intro h
    obtain ⟨value, hv, hl⟩ := h.values column (by simp)
    refine ⟨d.erase column.1, ⟨?_, ?_⟩, value, hv, ?_⟩
    · intro name
      rw [Finmap.mem_erase, h.names]
      simp only [List.map_append, List.map_cons, List.map_nil, List.mem_append,
        List.mem_singleton]
      constructor
      · rintro ⟨hne', hc | hc⟩
        · exact hc
        · exact absurd hc hne'
      · intro hc
        exact ⟨fun he => hn (he ▸ hc), .inl hc⟩
    · intro c hc
      obtain ⟨v, hv, hl⟩ := h.values c (by simp [hc])
      exact ⟨v, hv, by rw [Finmap.lookup_erase_ne (hne c hc), hl]⟩
    · refine Finmap.ext_lookup fun name => ?_
      by_cases he : name = column.1
      · subst he
        rw [Finmap.lookup_insert, hl]
      · rw [Finmap.lookup_insert_of_ne _ he, Finmap.lookup_erase_ne he]
  · rintro ⟨existing, h, value, hv, rfl⟩
    refine ⟨?_, ?_⟩
    · intro name
      rw [Finmap.mem_insert, h.names]
      simp [or_comm]
    · intro c hc
      rcases List.mem_append.mp hc with hc | hc
      · obtain ⟨v, hv', hl⟩ := h.values c hc
        exact ⟨v, hv', by rw [Finmap.lookup_insert_of_ne _ (hne c hc), hl]⟩
      · obtain rfl : c = column := by simpa using hc
        exact ⟨value, hv, Finmap.lookup_insert _⟩

theorem eq_empty_of_forall_notMem {d : DimensionValues} (h : ∀ name, name ∉ d) : d = ∅ := by
  refine Finmap.ext_lookup fun name => ?_
  rw [Finmap.lookup_empty, Finmap.lookup_eq_none]
  exact h name

theorem selects_nil {d : DimensionValues} : Selects [] d ↔ d = ∅ := by
  constructor
  · intro h
    apply eq_empty_of_forall_notMem
    simp [h.names]
  · rintro rfl
    exact ⟨fun name => by simp [Finmap.notMem_empty], by simp⟩

/-- The fold lists the selections, each of them once. Induction from the last
column on, since the fold adds columns at that end. -/
theorem foldl_addColumn_spec (columns : List Column) (hp : ProperColumns columns) :
    (∀ d, d ∈ columns.foldl addColumn [∅] ↔ Selects columns d) ∧
      (columns.foldl addColumn [∅]).Nodup := by
  induction columns using List.reverseRecOn with
  | nil => exact ⟨fun d => by simp [selects_nil], by simp⟩
  | append_singleton columns column ih =>
    have hnames := hp.names
    rw [List.map_append, List.nodup_append] at hnames
    have hn : column.1 ∉ columns.map Prod.fst := by
      intro h
      exact hnames.2.2 _ h _ (by simp) rfl
    obtain ⟨hmem, hnd⟩ := ih ⟨hnames.1, fun c hc => hp.values c (by simp [hc])⟩
    rw [List.foldl_append, List.foldl_cons, List.foldl_nil]
    refine ⟨fun d => ?_, ?_⟩
    · rw [mem_addColumn, selects_append hn]
      simp only [hmem]
    · have hfresh : ∀ existing ∈ columns.foldl addColumn [∅], column.1 ∉ existing := by
        intro existing he
        rw [((hmem existing).mp he).names]
        exact hn
      refine List.nodup_flatMap.mpr ⟨?_, ?_⟩
      · intro existing _
        refine (hp.values column (by simp)).map fun v v' h => ?_
        have hl := congrArg (Finmap.lookup column.1) h
        simpa [Finmap.lookup_insert] using hl
      · refine hnd.imp_of_mem ?_
        intro e e' he he' hne
        rw [Function.onFun, List.disjoint_left]
        intro d hd hd'
        obtain ⟨v, -, rfl⟩ := List.mem_map.mp hd
        obtain ⟨v', -, h⟩ := List.mem_map.mp hd'
        refine hne (Finmap.ext_lookup fun name => ?_)
        by_cases hc : name = column.1
        · subst hc
          rw [Finmap.lookup_eq_none.mpr (hfresh e he), Finmap.lookup_eq_none.mpr (hfresh e' he')]
        · have hl := congrArg (Finmap.lookup name) h
          rw [Finmap.lookup_insert_of_ne _ hc, Finmap.lookup_insert_of_ne _ hc] at hl
          exact hl.symm

theorem usedColumn_nonempty {p : DimensionPartition} {column : Column}
    (h : usedColumn p = some column) : column.2 ≠ [] := by
  unfold usedColumn at h
  split at h
  · split_ifs at h with hv
    obtain rfl := Option.some.inj h
    exact hv
  · cases h

theorem foldl_addColumn_ne_nil {columns : List Column} {sets : List DimensionValues}
    (hv : ∀ column ∈ columns, column.2 ≠ []) (hs : sets ≠ []) :
    columns.foldl addColumn sets ≠ [] := by
  induction columns generalizing sets with
  | nil => exact hs
  | cons column columns ih =>
    refine ih (fun c hc => hv c (List.mem_cons_of_mem _ hc)) ?_
    obtain ⟨d, hd⟩ := List.exists_mem_of_ne_nil sets hs
    obtain ⟨v, hmem⟩ := List.exists_mem_of_ne_nil column.2 (hv column (by simp))
    exact List.ne_nil_of_mem (mem_addColumn.mpr ⟨d, hd, v, hmem, rfl⟩)

theorem foldl_extendValueSets_ne_nil (partitions : List DimensionPartition) :
    partitions.foldl extendValueSets [∅] ≠ [] := by
  rw [foldl_extendValueSets]
  refine foldl_addColumn_ne_nil (fun column hc => ?_) (by simp)
  obtain ⟨p, -, hp⟩ := List.mem_filterMap.mp hc
  exact usedColumn_nonempty hp

theorem extractDimensionValueSets_ne_nil (request : AdmitDatasetRequest) :
    extractDimensionValueSets request ≠ [] := by
  unfold extractDimensionValueSets
  split
  · simp
  · exact foldl_extendValueSets_ne_nil _

end Leibrix.EpochGenerator

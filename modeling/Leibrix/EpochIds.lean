import Leibrix.EpochGrid
import Leibrix.FieldCode
import Leibrix.Utf8

/-! What an epoch id says about its epoch. The id shows the start in milliseconds, and a
hash of a text in which the dimension values stand as labelled fields without a separator. -/
namespace Leibrix.EpochGenerator
open Leibrix.Proto Leibrix.GoTime Leibrix.Gregorian Leibrix.Utc Leibrix.FieldCode Leibrix.Loops

section Columns
variable {columns : List Column} {column : Column} {name : String} {d d' : DimensionValues}

def columnValues (columns : List Column) (name : String) : List String :=
  -- the values a name stands for: of several columns with that name the last one counts
  (columns.reverse.lookup name).getD []

theorem columnValues_append (columns : List Column) (column : Column) (name : String) :
    columnValues (columns ++ [column]) name =
      if name = column.1 then column.2 else columnValues columns name := by
  unfold columnValues
  rw [List.reverse_append, List.reverse_singleton, List.singleton_append, List.lookup_cons]
  by_cases h : name = column.1
  · simp [h]
  · simp [h, beq_false_of_ne h]

theorem columnValues_ne_nil (hv : ∀ column ∈ columns, column.2 ≠ [])
    (hn : name ∈ columns.map Prod.fst) : columnValues columns name ≠ [] := by
  induction columns using List.reverseRecOn with
  | nil => simp at hn
  | append_singleton columns column ih =>
    rw [columnValues_append]
    split_ifs with he
    · exact hv column (by simp)
    · refine ih (fun c hc => hv c (by simp [hc])) ?_
      simpa [he] using hn

structure Picks (columns : List Column) (d : DimensionValues) : Prop where
  names : ∀ name, name ∈ d ↔ name ∈ columns.map Prod.fst
  values : ∀ name ∈ columns.map Prod.fst, ∃ value ∈ columnValues columns name,
    d.lookup name = some value

theorem Picks.insert {value : String} (h : Picks columns d) (hv : value ∈ column.2) :
    Picks (columns ++ [column]) (d.insert column.1 value) := by
  refine ⟨fun name => ?_, fun name hn => ?_⟩
  · rw [Finmap.mem_insert, h.names]
    simp [or_comm]
  · rw [columnValues_append]
    by_cases he : name = column.1
    · subst he
      exact ⟨value, by simpa using hv, Finmap.lookup_insert _⟩
    · rw [if_neg he, Finmap.lookup_insert_of_ne _ he]
      exact h.values name (by simpa [he] using hn)

theorem Picks.exists_insert (hne : ∀ c ∈ columns, c.2 ≠ [])
    (h : Picks (columns ++ [column]) d) :
    ∃ existing, Picks columns existing ∧ ∃ value ∈ column.2,
      existing.insert column.1 value = d := by
  -- the set before the last round: without the last name, or with an overwritten value
  obtain ⟨value, hv, hl⟩ := h.values column.1 (by simp)
  rw [columnValues_append, if_pos rfl] at hv
  have hothers : ∀ name ∈ columns.map Prod.fst, name ≠ column.1 →
      ∃ u ∈ columnValues columns name, d.lookup name = some u := by
    intro name hn he
    obtain ⟨u, hu, hl⟩ := h.values name (by simp_all)
    rw [columnValues_append, if_neg he] at hu
    exact ⟨u, hu, hl⟩
  have hback : ∀ existing : DimensionValues,
      (∀ name ≠ column.1, existing.lookup name = d.lookup name) →
      existing.insert column.1 value = d := by
    intro existing he
    refine Finmap.ext_lookup fun name => ?_
    by_cases hn : name = column.1
    · rw [hn, Finmap.lookup_insert, hl]
    · rw [Finmap.lookup_insert_of_ne _ hn, he name hn]
  by_cases hc : column.1 ∈ columns.map Prod.fst
  · obtain ⟨u, hu⟩ := List.exists_mem_of_ne_nil _ (columnValues_ne_nil hne hc)
    refine ⟨d.insert column.1 u, ⟨fun name => ?_, fun name hn => ?_⟩, value, hv,
      hback _ fun name hn => Finmap.lookup_insert_of_ne _ hn⟩
    · rw [Finmap.mem_insert, h.names]
      by_cases he : name = column.1
      · simpa [he] using hc
      · simp [he]
    · by_cases he : name = column.1
      · subst he
        exact ⟨u, hu, Finmap.lookup_insert _⟩
      · rw [Finmap.lookup_insert_of_ne _ he]
        exact hothers name hn he
  · refine ⟨d.erase column.1, ⟨fun name => ?_, fun name hn => ?_⟩, value, hv,
      hback _ fun name hn => Finmap.lookup_erase_ne hn⟩
    · rw [Finmap.mem_erase, h.names]
      by_cases he : name = column.1
      · simpa [he] using hc
      · simp [he]
    · have he : name ≠ column.1 := fun he => hc (he ▸ hn)
      rw [Finmap.lookup_erase_ne he]
      exact hothers name hn he

theorem picks_nil : Picks [] d ↔ d = ∅ := by
  constructor
  · intro h
    apply eq_empty_of_forall_notMem
    simp [h.names]
  · rintro rfl
    exact ⟨fun name => by simp [Finmap.notMem_empty], by simp⟩

theorem mem_foldl_addColumn (hv : ∀ column ∈ columns, column.2 ≠ []) :
    d ∈ columns.foldl addColumn [∅] ↔ Picks columns d := by
  induction columns using List.reverseRecOn generalizing d with
  | nil => simp [picks_nil]
  | append_singleton columns column ih =>
    have hv' : ∀ c ∈ columns, c.2 ≠ [] := fun c hc => hv c (by simp [hc])
    rw [List.foldl_append, List.foldl_cons, List.foldl_nil, mem_addColumn]
    simp only [ih hv']
    constructor
    · rintro ⟨existing, he, value, hm, rfl⟩
      exact he.insert hm
    · exact Picks.exists_insert hv'

end Columns

section Texts
variable {columns : List Column} {d d' : DimensionValues}

def columnNames (columns : List Column) : List String :=
  keyOrder (columns.map Prod.fst).toFinset

def dimensionField (columns : List Column) (name : String) : FieldSpec Char where
  label := name.toList ++ ['=']
  values := (columnValues columns name).map String.toList

def dimensionFields (columns : List Column) : List (FieldSpec Char) :=
  (columnNames columns).map (dimensionField columns)

def writtenValues (columns : List Column) (d : DimensionValues) : List (List Char) :=
  (columnNames columns).map fun name => ((d.lookup name).getD "").toList

theorem mem_columnNames {name : String} :
    name ∈ columnNames columns ↔ name ∈ columns.map Prod.fst := by
  rw [columnNames, keyOrder, Finset.mem_sort, List.mem_toFinset]

theorem columnNames_nodup : (columnNames columns).Nodup := by
  unfold columnNames keyOrder
  exact Finset.sort_nodup _ _

theorem dimensionFields_nonempty (hv : ∀ column ∈ columns, column.2 ≠ []) :
    ∀ f ∈ dimensionFields columns, f.values ≠ [] := by
  intro f hf
  obtain ⟨name, hn, rfl⟩ := List.mem_map.mp hf
  simpa [dimensionField] using columnValues_ne_nil hv (mem_columnNames.mp hn)

theorem toList_foldl_append (f : String → String) (keys : List String) (written : String) :
    (keys.foldl (fun written key => written ++ f key) written).toList =
      written.toList ++ keys.flatMap fun key => (f key).toList := by
  induction keys generalizing written with
  | nil => simp
  | cons key keys ih => rw [List.foldl_cons, ih]; simp

theorem encode_map (names : List String) (value : String → List Char) :
    encode (names.map (dimensionField columns)) (names.map value) =
      names.flatMap fun name => name.toList ++ '=' :: value name := by
  induction names with
  | nil => rfl
  | cons name names ih => simp [ih, dimensionField]

theorem Picks.keys_sort (h : Picks columns d) :
    d.keys.sort (· ≤ ·) = columnNames columns := by
  unfold columnNames keyOrder
  congr 1
  ext name
  rw [Finmap.mem_keys, h.names, List.mem_toFinset]

theorem Picks.toList_hashInput (h : Picks columns d) (start : Time) :
    (hashInput start d).toList = (toString start.unixMilli.toInt).toList ++
      encode (dimensionFields columns) (writtenValues columns d) := by
  rw [hashInput, toList_foldl_append, h.keys_sort, dimensionFields, writtenValues, encode_map]
  simp

theorem Picks.choice (h : Picks columns d) :
    Choice (dimensionFields columns) (writtenValues columns d) := by
  unfold Choice dimensionFields writtenValues
  rw [List.forall₂_map_left_iff, List.forall₂_map_right_iff, List.forall₂_same]
  intro name hn
  obtain ⟨value, hv, hl⟩ := h.values name (mem_columnNames.mp hn)
  rw [hl]
  exact List.mem_map_of_mem hv

theorem Picks.eq_of_writtenValues (h : Picks columns d) (h' : Picks columns d')
    (he : writtenValues columns d = writtenValues columns d') : d = d' := by
  refine Finmap.ext_lookup fun name => ?_
  by_cases hn : name ∈ columns.map Prod.fst
  · obtain ⟨v, -, hv⟩ := h.values name hn
    obtain ⟨v', -, hv'⟩ := h'.values name hn
    have hw := List.map_inj_left.mp he name (mem_columnNames.mpr hn)
    rw [hv, hv'] at hw
    have hvv : v = v' := String.toList_injective hw
    rw [hv, hv', hvv]
  · rw [Finmap.lookup_eq_none.mpr fun hm => hn ((h.names name).mp hm),
      Finmap.lookup_eq_none.mpr fun hm => hn ((h'.names name).mp hm)]

/-- Values of distinct names make up a map. -/
theorem exists_lookup {names : List String} (hn : names.Nodup) {vs : List (List Char)}
    (h : Choice (names.map (dimensionField columns)) vs) :
    ∃ d : DimensionValues, (∀ name, name ∈ d ↔ name ∈ names) ∧
      (∀ name ∈ names, ∃ v ∈ columnValues columns name, d.lookup name = some v) ∧
      names.map (fun name => ((d.lookup name).getD "").toList) = vs := by
  induction names generalizing vs with
  | nil =>
    cases h
    exact ⟨∅, by simp [Finmap.notMem_empty], by simp, rfl⟩
  | cons name names ih =>
    obtain ⟨v, us, hv, hu, rfl⟩ := List.forall₂_cons_left_iff.mp h
    obtain ⟨hfresh, hn⟩ := List.nodup_cons.mp hn
    obtain ⟨d, hnames, hvalues, hmap⟩ := ih hn hu
    obtain ⟨value, hm, rfl⟩ := List.mem_map.mp hv
    have hother : ∀ other ∈ names, (d.insert name value).lookup other = d.lookup other :=
      fun other ho => Finmap.lookup_insert_of_ne _ fun he => hfresh (he ▸ ho)
    refine ⟨d.insert name value, fun other => ?_, fun other ho => ?_, ?_⟩
    · rw [Finmap.mem_insert, hnames, List.mem_cons]
    · cases List.mem_cons.mp ho with
      | inl he =>
        subst he
        exact ⟨value, hm, Finmap.lookup_insert _⟩
      | inr ho =>
        rw [hother other ho]
        exact hvalues other ho
    · rw [List.map_cons, Finmap.lookup_insert, ← hmap]
      refine congrArg₂ List.cons rfl (List.map_congr_left fun other ho => ?_)
      rw [hother other ho]

theorem exists_picks {vs : List (List Char)} (h : Choice (dimensionFields columns) vs) :
    ∃ d, Picks columns d ∧ writtenValues columns d = vs := by
  obtain ⟨d, hnames, hvalues, hw⟩ := exists_lookup columnNames_nodup h
  refine ⟨d, ⟨fun name => ?_, fun name hn => ?_⟩, hw⟩
  · rw [hnames, mem_columnNames]
  · exact hvalues name (mem_columnNames.mpr hn)

end Texts

section Ids

theorem underscore_not_mem_toString (n : Int) : '_' ∉ (toString n).toList := by
  have hnat : ∀ m : Nat, '_' ∉ m.repr.toList := by
    intro m hm
    rw [Nat.toList_repr] at hm
    exact absurd (Nat.isDigit_of_mem_toDigits (by decide) (by decide) hm) (by decide)
  rw [Int.toString_eq_repr, Int.repr_eq_if]
  split_ifs
  · exact hnat _
  · simp

theorem digitChar_ne_underscore {n : Nat} (hn : n < 16) : n.digitChar ≠ '_' := by
  have hall : ∀ n < 16, n.digitChar ≠ '_' := by decide
  exact hall n hn

theorem underscore_not_mem_hexEncode (bytes : List UInt8) : '_' ∉ (hexEncode bytes).toList := by
  rw [hexEncode, String.toList_ofList, List.mem_flatMap]
  rintro ⟨b, -, hb⟩
  have hlt := b.toNat_lt
  have hhigh : (b.toNat / 16).digitChar ≠ '_' := digitChar_ne_underscore (by omega)
  have hlow : (b.toNat % 16).digitChar ≠ '_' := digitChar_ne_underscore (by omega)
  simp [hhigh.symm, hlow.symm] at hb

theorem hexEncode_injective : Function.Injective hexEncode := by
  intro bytes
  induction bytes with
  | nil =>
    intro bytes' h
    cases bytes' with
    | nil => rfl
    | cons b' bytes' => simp [hexEncode] at h
  | cons b bytes ih =>
    intro bytes' h
    cases bytes' with
    | nil => simp [hexEncode] at h
    | cons b' bytes' =>
      have hl := congrArg String.toList h
      simp only [hexEncode, List.flatMap_cons, String.toList_ofList, List.cons_append,
        List.nil_append, List.cons.injEq] at hl
      obtain ⟨hhigh, hlow, hrest⟩ := hl
      have hb := b.toNat_lt
      have hb' := b'.toNat_lt
      have hhigh := Numerals.digitChar_inj (by omega) (by omega) hhigh
      have hlow := Numerals.digitChar_inj (by omega) (by omega) hlow
      have hbyte : b = b' := UInt8.toNat_inj.mp (by omega)
      rw [hbyte, ih (congrArg String.ofList hrest)]

/-- An id is the start in milliseconds and the first bytes of the hash. -/
theorem generateEpochID_eq_iff {sha256 : List UInt8 → List UInt8} {start start' : Time}
    {d d' : DimensionValues} :
    generateEpochID sha256 start d = generateEpochID sha256 start' d' ↔
      start.unixMilli = start'.unixMilli ∧
      (sha256 (hashInput start d).toUTF8.toList).take 3 =
        (sha256 (hashInput start' d').toUTF8.toList).take 3 := by
  constructor
  · intro h
    have hl := congrArg String.toList h
    simp only [generateEpochID, String.toList_append, List.append_assoc] at hl
    have hsep : "_".toList = ['_'] := rfl
    rw [hsep, List.singleton_append, List.singleton_append, List.append_cons_inj_of_notMem
      (underscore_not_mem_toString _) (underscore_not_mem_hexEncode _)] at hl
    obtain ⟨hms, -, hhex⟩ := hl
    have hms := String.toList_injective hms
    rw [Int.toString_eq_repr, Int.toString_eq_repr] at hms
    exact ⟨Int64.toInt_inj.mp (Int.repr_injective hms),
      hexEncode_injective (String.toList_injective hhex)⟩
  · rintro ⟨hms, htake⟩
    simp only [generateEpochID, hms, htake]

end Ids

section Milliseconds

/-- A step of hours wraps around at 64 bits, but it never comes out positive and below
a millisecond: it is a multiple of 2^13 nanoseconds, and modulo 2^51 each of the 122
smallest multiples belongs to one number of hours, which does not fit into 32 bits. -/
theorem hourStep_ge {value : Int32} (h : 0 < hourStep value) : 1000000 ≤ hourStep value := by
  have hlow := value.le_toInt
  have hhigh := value.toInt_lt
  have hstep : hourStep value = (value.toInt * 3600000000000).bmod 18446744073709551616 :=
    hourStep_eq value
  have hfar : ∀ j : Nat, j < 123 → 0 < j →
      2147483648 ≤ (j : Int) * 1450916808208653 % 2251799813685248 ∧
      (j : Int) * 1450916808208653 % 2251799813685248 < 2251797666201600 := by decide
  have hq := Int.bmod_add_bdiv (value.toInt * 3600000000000) 18446744073709551616
  rw [← hstep] at hq
  generalize hourStep value = step at h hq ⊢
  generalize Int.bdiv (value.toInt * 3600000000000) 18446744073709551616 = q at hq
  by_contra hlt
  obtain ⟨j, hj⟩ : ∃ j : Nat, step = 8192 * j := ⟨(step / 8192).toNat, by omega⟩
  have hbounds := hfar j (by omega) (by omega)
  -- 1450916808208653 is the inverse of 3600000000000 / 8192 modulo 2^51
  have hv : (j * 1450916808208653 : Int) =
      value.toInt + 2251799813685248 * (283155688 * value.toInt - 1450916808208653 * q) := by
    omega
  rw [hv, Int.add_mul_emod_self_left] at hbounds
  clear hv hq hj
  omega

variable {granularity : EpochGranularity}

theorem gridPoint_gap (hf : StepsForward granularity) (x : Int) {k m : Int} (hlt : k < m) :
    gridPoint granularity x k + 1000000 ≤ gridPoint granularity x m := by
  obtain ⟨value, unit⟩ := granularity
  cases unit with
  | hour =>
    have hs : 1000000 ≤ hourStep value := hourStep_ge hf
    have := mul_le_mul_of_nonneg_right (Int.add_one_le_of_lt hlt) (by omega : 0 ≤ hourStep value)
    simp only [gridPoint]
    linarith
  | day =>
    have hs : 0 < value.toInt := hf
    have := mul_lt_mul_of_pos_right hlt hs
    simp only [gridPoint, nsPerDay]
    omega
  | week =>
    have hs : 0 < value.toInt * 7 := by
      have : 0 < value.toInt := hf
      omega
    have := mul_lt_mul_of_pos_right hlt hs
    simp only [gridPoint, nsPerDay]
    omega
  | month =>
    have hs : 0 < value.toInt := hf
    have := mul_lt_mul_of_pos_right hlt hs
    have hdays : monthStart (monthOf (dayNumber x) + k * value.toInt) <
        monthStart (monthOf (dayNumber x) + m * value.toInt) := monthStart_strictMono (by omega)
    simp only [gridPoint, midnight, nsPerDay]
    omega
  | unrecognized code => exact hf.elim

theorem unixMilli_of_inEra {t : Time} (h : InEra t) :
    t.unixMilli.toInt = t.instant / 1000000 := by
  have ht := t.nsec.isLt
  have hlow := h.low
  have hhigh := h.high
  have hms : t.instant / 1000000 = (t.sec.toInt - unixToInternal) * 1000 + t.nsec / 1000000 := by
    simp only [Time.instant]
    omega
  rw [hms]
  refine Words.toInt_ofInt_of_mem ?_ ?_ <;> simp only [unixToInternal] <;> omega

theorem unixMilli_ne_of_back {t u : Time} {j : Int} (hj : 1 ≤ j)
    (hsec : u.sec.toInt = t.sec.toInt - 3456 * j) (hnsec : u.nsec = t.nsec) :
    t.unixMilli ≠ u.unixMilli := by
  intro h
  have ht := t.sec.toInt_lt
  have hu := u.sec.le_toInt
  obtain ⟨⟨a, ha⟩, -, -⟩ :=
    Words.toInt_ofInt_spec ((t.sec.toInt - unixToInternal) * 1000 + t.nsec / 1000000)
  obtain ⟨⟨b, hb⟩, -, -⟩ :=
    Words.toInt_ofInt_spec ((u.sec.toInt - unixToInternal) * 1000 + u.nsec / 1000000)
  simp only [Time.unixMilli] at h
  rw [h, hb, hsec, hnsec] at ha
  -- 3456000 j would be a positive multiple of 2^64, with 3456 j below 2^64
  omega

/-- For valid timestamps the turns of a loop start in different milliseconds. -/
theorem turns_unixMilli_ne {filter : TimeRangeFilter} {n j k : Nat} (hv : ValidTimes filter)
    (hp : Progresses granularity) (h : Turns granularity filter n) (hjk : j < k) (hk : k < n) :
    ((next granularity)^[j] (anchor granularity filter)).unixMilli ≠
      ((next granularity)^[k] (anchor granularity filter)).unixMilli := by
  have hfin := hv.inEra.2
  rcases progresses_iff.mp hp with hf | hb
  · have ha := (hv.anchor granularity).1
    have hg := hv.onGrid granularity
    have hpoint : ∀ i < n, InEra ((next granularity)^[i] (anchor granularity filter)) ∧
        ((next granularity)^[i] (anchor granularity filter)).instant =
          gridPoint granularity (anchor granularity filter).instant i := by
      intro i hi
      have hinst := instant_iterate hf ha hg hfin h hi.le
      exact ⟨inEra_of_gridPoint hf ha hg hfin hinst (h.goes i hi), hinst⟩
    obtain ⟨hje, hji⟩ := hpoint j (by omega)
    obtain ⟨hke, hki⟩ := hpoint k hk
    have hgap := gridPoint_gap hf (anchor granularity filter).instant (Int.ofNat_lt.mpr hjk)
    intro he
    have he := congrArg Int64.toInt he
    rw [unixMilli_of_inEra hje, unixMilli_of_inEra hke, hji, hki] at he
    omega
  · obtain ⟨i, hi, hsec, hnsec⟩ := iterate_back hb hfin (h.iterate (by omega : j ≤ n))
      (by omega : k - j < n - j)
    rw [← Function.iterate_add_apply, Nat.sub_add_cancel hjk.le] at hsec hnsec
    exact unixMilli_ne_of_back (by omega) hsec hnsec

end Milliseconds

section Requests
variable {sha256 : List UInt8 → List UInt8} {fuel : Nat} {request : AdmitDatasetRequest}
  {epochs : List EpochInfo} {granularity : EpochGranularity}

def hashedText (e : EpochInfo) : List UInt8 :=
  (hashInput (fieldTime (e.timeRange.bind (·.startInclusive))) e.dimensionValues).toUTF8.toList

def HashSeparates (sha256 : List UInt8 → List UInt8) (epochs : List EpochInfo) : Prop :=
  -- the first three bytes of the hash tell the texts of these epochs apart
  ∀ e ∈ epochs, ∀ e' ∈ epochs,
    (sha256 (hashedText e)).take 3 = (sha256 (hashedText e')).take 3 → hashedText e = hashedText e'

def IdsIdentify (epochs : List EpochInfo) : Prop :=
  ∀ e ∈ epochs, ∀ e' ∈ epochs, e.epochId = e'.epochId →
    e.timeRange.bind (·.startInclusive) = e'.timeRange.bind (·.startInclusive) ∧
      e.dimensionValues = e'.dimensionValues

theorem usedColumns_nonempty (request : AdmitDatasetRequest) :
    ∀ column ∈ usedColumns request, column.2 ≠ [] := by
  intro column hc
  unfold usedColumns at hc
  split at hc
  · simp at hc
  · obtain ⟨p, -, hp⟩ := List.mem_filterMap.mp hc
    exact usedColumn_nonempty hp

theorem mem_extractDimensionValueSets {d : DimensionValues} :
    d ∈ extractDimensionValueSets request ↔ Picks (usedColumns request) d := by
  rw [extractDimensionValueSets_eq, mem_foldl_addColumn (usedColumns_nonempty request)]

@[simp] theorem hashedText_newEpoch (start finish : Time) (d : DimensionValues) :
    hashedText (newEpoch sha256 start finish d) = (hashInput start d).toUTF8.toList := by
  simp [hashedText, newEpoch, fieldTime]

/-- Ambiguous fields: two epochs of the first turn share their id. -/
theorem exists_shared_id (h : generateEpochs sha256 fuel request = .ok epochs)
    (ha : Ambiguous (dimensionFields (usedColumns request))) :
    ∃ e ∈ epochs, ∃ e' ∈ epochs, e.epochId = e'.epochId ∧
      e.dimensionValues ≠ e'.dimensionValues := by
  obtain ⟨filter, granularity, n, -, -, hturns⟩ := generateEpochs_turns h
  obtain ⟨vs, vs', hv, hv', he, hne⟩ :=
    ha.exists_clash (dimensionFields_nonempty (usedColumns_nonempty request))
  obtain ⟨d, hd, rfl⟩ := exists_picks hv
  obtain ⟨d', hd', rfl⟩ := exists_picks hv'
  have hin : ∀ d, Picks (usedColumns request) d →
      turnEpoch sha256 granularity (anchor granularity filter) d 0 ∈ epochs :=
    fun d hd => (hturns.mem _).mpr ⟨d, mem_extractDimensionValueSets.mpr hd, 0, hturns.pos, rfl⟩
  have htext : ∀ start, hashInput start d = hashInput start d' := by
    intro start
    apply String.toList_injective
    rw [hd.toList_hashInput, hd'.toList_hashInput, he]
  refine ⟨_, hin d hd, _, hin d' hd', ?_, ?_⟩
  · exact generateEpochID_eq_iff.mpr ⟨rfl, by rw [htext]⟩
  · intro hdd
    have hdd : d = d' := hdd
    exact hne (by rw [hdd])

/-- Where the timestamps are valid and the hash separates the texts of the epochs, their ids
identify them exactly if the fields of the request's columns can be told apart in the text. -/
theorem idsIdentify_iff (hv : HasValidTimes request)
    (h : generateEpochs sha256 fuel request = .ok epochs) (hsep : HashSeparates sha256 epochs) :
    IdsIdentify epochs ↔ ¬ Ambiguous (dimensionFields (usedColumns request)) := by
  constructor
  · intro hids ha
    obtain ⟨e, he, e', he', hid, hne⟩ := exists_shared_id h ha
    exact hne (hids e he e' he' hid).2
  · intro ha e he e' he' hid
    obtain ⟨filter, hfilter, hvalid⟩ := hv
    obtain ⟨filter', granularity, n, hfilter', hg, hturns⟩ := generateEpochs_turns h
    obtain rfl : filter' = filter := Option.some.inj (hfilter'.symm.trans hfilter)
    have hp := hturns.progresses hvalid
    have hsep := hsep e he e' he'
    obtain ⟨d, hd, k, hk, rfl⟩ := (hturns.mem e).mp he
    obtain ⟨d', hd', m, hm, rfl⟩ := (hturns.mem e').mp he'
    simp only [turnEpoch, hashedText_newEpoch] at hsep
    obtain ⟨hms, htake⟩ := generateEpochID_eq_iff.mp hid
    have hkm : k = m := by
      rcases lt_trichotomy k m with hlt | heq | hlt
      · exact absurd hms (turns_unixMilli_ne hvalid hp hturns.turns hlt hm)
      · exact heq
      · exact absurd hms.symm (turns_unixMilli_ne hvalid hp hturns.turns hlt hk)
    have hd := mem_extractDimensionValueSets.mp hd
    have hd' := mem_extractDimensionValueSets.mp hd'
    -- the hashed texts agree behind the start
    have htext := congrArg String.toList (Utf8.toUTF8_toList_inj.mp (hsep htake))
    rw [hd.toList_hashInput, hd'.toList_hashInput, hms, List.append_right_inj] at htext
    have hdd := hd.eq_of_writtenValues hd'
      (encode_injective_of_not_ambiguous ha hd.choice hd'.choice htext)
    rw [hkm, hdd]
    exact ⟨rfl, rfl⟩

theorem hashSeparates_of_texts {texts : List String}
    (hmem : ∀ e ∈ epochs, ∃ text ∈ texts, hashedText e = text.toUTF8.toList)
    (hsha : ∀ text ∈ texts, ∀ text' ∈ texts,
      (sha256 text.toUTF8.toList).take 3 = (sha256 text'.toUTF8.toList).take 3 → text = text') :
    HashSeparates sha256 epochs := by
  intro e he e' he' h
  obtain ⟨text, ht, hhashed⟩ := hmem e he
  obtain ⟨text', ht', hhashed'⟩ := hmem e' he'
  rw [hhashed, hhashed'] at h ⊢
  rw [hsha text ht text' ht' h]

theorem toUTF8_hashInput {start : Time} {d : DimensionValues} {names : List String}
    (h : d.keys.sort (· ≤ ·) = names) {text : String}
    (ht : names.foldl (fun written key => written ++ (key ++ "=" ++ (d.lookup key).getD ""))
      (toString start.unixMilli.toInt) = text) :
    (hashInput start d).toUTF8.toList = text.toUTF8.toList := by
  rw [hashInput, h, ht]

theorem columnNames_singleton (column : Column) : columnNames [column] = [column.1] := by
  simp [columnNames, keyOrder]

theorem columnNames_pair {column column' : Column} (h : column.1 < column'.1) :
    columnNames [column, column'] = [column.1, column'.1] := by
  rw [columnNames, keyOrder, List.map_cons, List.map_cons, List.map_nil, List.toFinset_cons,
    List.toFinset_cons, List.toFinset_nil, Finset.sort_insert]
  · simp
  · simpa using h.le
  · simpa using h.ne

theorem picks_singleton (name value : String) :
    Picks [(name, [value])] (Finmap.insert name value ∅) := by
  have hmem : value ∈ (name, [value]).2 := List.mem_singleton_self value
  exact (picks_nil.mpr rfl).insert hmem

theorem picks_pair (name value name' value' : String) :
    Picks [(name, [value]), (name', [value'])]
      ((Finmap.insert name value ∅).insert name' value') := by
  have hmem : value' ∈ (name', [value']).2 := List.mem_singleton_self value'
  exact (picks_singleton name value).insert hmem

/-- One column never is ambiguous. -/
theorem idsIdentify_iff_february :
    ∃ epochs, HasValidTimes februaryRequest ∧
      generateEpochs februarySha256 2 februaryRequest = .ok epochs ∧
      HashSeparates februarySha256 epochs ∧ IdsIdentify epochs := by
  obtain ⟨epochs, start, finish, hg, he, hms⟩ : ∃ epochs start finish,
      generateEpochs februarySha256 2 februaryRequest = .ok epochs ∧
      (epochs = ["de", "fr"].map fun value =>
        newEpoch februarySha256 start finish (Finmap.insert "country" value ∅)) ∧
      toString start.unixMilli.toInt = "1706745600000" := ⟨_, _, _, rfl, rfl, by decide +kernel⟩
  have hsep : HashSeparates februarySha256 epochs := by
    have hsha : ∀ text ∈ ["1706745600000country=de", "1706745600000country=fr"],
        ∀ text' ∈ ["1706745600000country=de", "1706745600000country=fr"],
        (februarySha256 text.toUTF8.toList).take 3 = (februarySha256 text'.toUTF8.toList).take 3 →
        text = text' := by
      simp only [februarySha256, Utf8.toUTF8_toList_inj]
      decide
    refine hashSeparates_of_texts (fun e hm => ?_) hsha
    rw [he] at hm
    obtain ⟨value, hv, rfl⟩ := List.mem_map.mp hm
    refine ⟨"1706745600000country=" ++ value, ?_, (hashedText_newEpoch _ _ _).trans
      (toUTF8_hashInput ((picks_singleton "country" value).keys_sort.trans
        (columnNames_singleton _)) ?_)⟩
    · clear hm
      revert value
      decide
    · rw [List.foldl_cons, Finmap.lookup_insert, hms]
      rfl
  have hv : HasValidTimes februaryRequest := ⟨_, rfl, februaryFilter_valid⟩
  refine ⟨epochs, hv, hg, hsep, (idsIdentify_iff hv hg hsep).mpr ?_⟩
  have hfields : dimensionFields (usedColumns februaryRequest) =
      [dimensionField (usedColumns februaryRequest) "country"] := by
    rw [dimensionFields, show usedColumns februaryRequest = [("country", ["de", "fr"])] from rfl,
      columnNames_singleton]
    rfl
  rw [hfields, ambiguous_cons]
  simp [not_clashes_nil]

def marketSha256 (input : List UInt8) : List UInt8 :=
  if input = "1706745600000a=xb=yb=z".toUTF8.toList then
    [85, 173, 204, 89, 182, 44, 73, 9, 198, 55, 94, 131, 35, 217, 207, 149,
      217, 91, 14, 129, 70, 117, 66, 63, 175, 168, 29, 71, 140, 209, 219, 189]
  else if input = "1706745600000a=xb=z".toUTF8.toList then
    [228, 82, 145, 132, 62, 157, 56, 137, 34, 152, 152, 135, 29, 162, 95, 146,
      93, 113, 60, 150, 102, 46, 192, 203, 154, 106, 33, 53, 229, 62, 213, 143]
  else if input = "1706745600000a=xb=yb=yb=z".toUTF8.toList then
    [12, 213, 128, 193, 244, 126, 205, 18, 54, 145, 14, 88, 123, 237, 103, 208,
      174, 186, 206, 138, 74, 71, 137, 197, 64, 109, 211, 99, 185, 76, 237, 92]
  else []

def marketRequest : AdmitDatasetRequest where
  -- two columns; the value `xb=y` of the first one looks like a value and a label
  tenantId := "acme"
  datasetId := "sales"
  source := some ⟨some {
    timePartition := some ⟨some ⟨"dt", some .day⟩,
      some ⟨some ⟨1707523200, 0⟩, some ⟨1708387200, 0⟩⟩⟩
    dimensionPartitions := [⟨some ⟨"a", none⟩, some ⟨["x", "xb=y"]⟩⟩,
      ⟨some ⟨"b", none⟩, some ⟨["yb=z", "z"]⟩⟩] }⟩
  epochGranularity := some ⟨1, .month⟩

/-- The epochs of `a=x`, `b=yb=z` and of `a=xb=y`, `b=z` have one id. -/
theorem ids_clash_market :
    ∃ epochs, HasValidTimes marketRequest ∧
      generateEpochs marketSha256 2 marketRequest = .ok epochs ∧
      HashSeparates marketSha256 epochs ∧ ¬ IdsIdentify epochs := by
  obtain ⟨epochs, start, finish, hg, he, hms⟩ : ∃ epochs start finish,
      generateEpochs marketSha256 2 marketRequest = .ok epochs ∧
      (epochs = [("x", "yb=z"), ("x", "z"), ("xb=y", "yb=z"), ("xb=y", "z")].map fun values =>
        newEpoch marketSha256 start finish
          ((Finmap.insert "a" values.1 ∅).insert "b" values.2)) ∧
      toString start.unixMilli.toInt = "1706745600000" := ⟨_, _, _, rfl, rfl, by decide +kernel⟩
  have hsep : HashSeparates marketSha256 epochs := by
    have hsha : ∀ text ∈ ["1706745600000a=xb=yb=z", "1706745600000a=xb=z",
          "1706745600000a=xb=yb=yb=z"],
        ∀ text' ∈ ["1706745600000a=xb=yb=z", "1706745600000a=xb=z",
          "1706745600000a=xb=yb=yb=z"],
        (marketSha256 text.toUTF8.toList).take 3 = (marketSha256 text'.toUTF8.toList).take 3 →
        text = text' := by
      simp only [marketSha256, Utf8.toUTF8_toList_inj]
      decide
    refine hashSeparates_of_texts (fun e hm => ?_) hsha
    rw [he] at hm
    obtain ⟨values, hv, rfl⟩ := List.mem_map.mp hm
    have hab : "a" < "b" := by decide
    refine ⟨"1706745600000a=" ++ values.1 ++ ("b=" ++ values.2), ?_,
      (hashedText_newEpoch _ _ _).trans (toUTF8_hashInput
        ((picks_pair "a" values.1 "b" values.2).keys_sort.trans (columnNames_pair hab)) ?_)⟩
    · clear hm
      revert values
      decide
    · rw [List.foldl_cons, List.foldl_cons, Finmap.lookup_insert,
        Finmap.lookup_insert_of_ne _ hab.ne, Finmap.lookup_insert, hms]
      rfl
  refine ⟨epochs, ⟨_, rfl, februaryFilter_valid⟩, hg, hsep, fun hids => ?_⟩
  have hfields : dimensionFields (usedColumns marketRequest) =
      [dimensionField (usedColumns marketRequest) "a",
        dimensionField (usedColumns marketRequest) "b"] := by
    rw [dimensionFields, show usedColumns marketRequest =
      [("a", ["x", "xb=y"]), ("b", ["yb=z", "z"])] from rfl, columnNames_pair (by decide)]
    rfl
  have ha : Ambiguous (dimensionFields (usedColumns marketRequest)) := by
    rw [hfields, ambiguous_cons]
    refine .inl ⟨['x'], ['b', '=', 'y'], by decide, by decide, by decide,
      [['y', 'b', '=', 'z']], [['z']], ?_, ?_, by decide⟩
    · exact .cons (by decide) .nil
    · exact .cons (by decide) .nil
  obtain ⟨e, hm, e', hm', hid, hne⟩ := exists_shared_id hg ha
  exact hne (hids e hm e' hm' hid).2

end Requests
end Leibrix.EpochGenerator

import Leibrix.EpochIds

/-! Epoch ids in the order of their bytes. An id begins with the milliseconds of the start,
a decimal numeral without leading zeros and with a sign before 1970, so that where the number
of digits changes, and before 1970, later epochs can have smaller ids. -/
namespace Leibrix.EpochGenerator
open Leibrix.Proto Leibrix.GoTime Leibrix.Numerals Leibrix.Utf8

section Numbers

theorem digit_bounds {n : Nat} {c : Char} (hc : c ∈ Nat.toDigits 10 n) : '0' ≤ c ∧ c ≤ '9' := by
  have hdigit := Nat.isDigit_of_mem_toDigits (by decide) (by decide) hc
  rwa [Char.isDigit, Bool.and_eq_true, decide_eq_true_iff, decide_eq_true_iff] at hdigit

variable {m n : Int} {x y : List Char}

/-- The numeral of an integer: of its absolute value, and after a sign. -/
theorem toList_toString (n : Int) : (toString n).toList =
    if 0 ≤ n then Nat.toDigits 10 n.toNat else '-' :: Nat.toDigits 10 (-n).toNat := by
  rw [Int.toString_eq_repr, Int.repr_eq_if]
  split_ifs
  · rw [Nat.toList_repr]
  · rw [String.toList_append, Nat.toList_repr]
    rfl

theorem ascii_toString (n : Int) : Ascii (toString n) := by
  have hdigits : ∀ m : Nat, ∀ c ∈ Nat.toDigits 10 m, c.toNat ≤ 127 := by
    intro m c hc
    have hle : c.toNat ≤ '9'.toNat := (digit_bounds hc).2
    exact hle.trans (by decide)
  intro c hc
  rw [toList_toString] at hc
  split_ifs at hc
  · exact hdigits _ c hc
  · rcases List.mem_cons.mp hc with rfl | hc
    · decide
    · exact hdigits _ c hc

theorem ascii_hexEncode (bytes : List UInt8) : Ascii (hexEncode bytes) := by
  have hall : ∀ n < 16, n.digitChar.toNat ≤ 127 := by decide
  intro c hc
  rw [hexEncode, String.toList_ofList, List.mem_flatMap] at hc
  obtain ⟨b, -, hc⟩ := hc
  have hlt := b.toNat_lt
  rcases List.mem_pair.mp hc with rfl | rfl
  · exact hall _ (by omega)
  · exact hall _ (by omega)

-- of two numbers, the first one smaller, its text comes first: numbers from 0 on are compared by
-- as many leading digits as the shorter one has, and must differ there; of negative ones the one
-- that is further from 0 has to have more digits
def InOrder (m n : Int) : Prop :=
  if 0 ≤ m then m.toNat < n.toNat / 10 ^ (width n.toNat - width m.toNat)
  else if 0 ≤ n then True
  else (-m).toNat / 10 ^ (width (-m).toNat - width (-n).toNat) ≤ (-n).toNat

instance (m n : Int) : Decidable (InOrder m n) := by
  unfold InOrder
  infer_instance

theorem digit_lt_underscore (n : Nat) : ∀ c ∈ Nat.toDigits 10 n, c < '_' := by
  intro c hc
  exact (digit_bounds hc).2.trans_lt (by decide)

theorem toString_lt_iff (h : m < n) :
    (toString m).toList ++ '_' :: x < (toString n).toList ++ '_' :: y ↔ InOrder m n := by
  rw [toList_toString, toList_toString, InOrder]
  by_cases hm : 0 ≤ m
  · rw [if_pos hm, if_pos hm, if_pos (by omega)]
    exact marked_toDigits_lt_iff (by omega) (digit_lt_underscore _)
  · rw [if_neg hm, if_neg hm]
    by_cases hn : 0 ≤ n
    · rw [if_pos hn, if_pos hn, iff_true]
      cases hd : Nat.toDigits 10 n.toNat with
      | nil => exact absurd hd Nat.toDigits_ne_nil
      | cons c cs =>
        have hmem : c ∈ Nat.toDigits 10 n.toNat := hd ▸ List.mem_cons_self
        have hc : '-' < c := lt_of_lt_of_le (by decide) (digit_bounds hmem).1
        exact List.cons_lt_cons_iff.mpr (.inl hc)
    · rw [if_neg hn, if_neg hn, List.cons_append, List.cons_append, List.cons_lt_cons_iff]
      simp only [lt_irrefl, true_and, false_or]
      exact lt_marked_toDigits_iff (by omega) (digit_lt_underscore _)

end Numbers

-- the same of any two different numbers
def NumeralsInOrder (m n : Int) : Prop := if m < n then InOrder m n else ¬InOrder n m

instance (m n : Int) : Decidable (NumeralsInOrder m n) := by
  unfold NumeralsInOrder
  infer_instance

section Ids
variable {sha256 : List UInt8 → List UInt8}

theorem bytesLt_generateEpochID {start start' : Time} {d d' : DimensionValues} :
    BytesLt (generateEpochID sha256 start d) (generateEpochID sha256 start' d') ↔
      (generateEpochID sha256 start d).toList < (generateEpochID sha256 start' d').toList := by
  have hascii : ∀ start d, Ascii (generateEpochID sha256 start d) := by
    intro start d
    have hmark : Ascii "_" := by
      intro c hc
      rw [List.mem_singleton.mp hc]
      decide
    exact ascii_append (ascii_append (ascii_toString _) hmark) (ascii_hexEncode _)
  exact bytesLt_iff (hascii _ _) (hascii _ _)

/-- What stands behind the numeral has no say in the order. -/
theorem toList_generateEpochID_lt {start start' : Time} (d d' : DimensionValues)
    (h : start.unixMilli.toInt < start'.unixMilli.toInt) :
    (generateEpochID sha256 start d).toList < (generateEpochID sha256 start' d').toList ↔
      InOrder start.unixMilli.toInt start'.unixMilli.toInt := by
  rw [← toString_lt_iff h]
  simp only [generateEpochID, String.toList_append, List.append_assoc]
  rfl

theorem generateEpochID_lt_iff {start start' : Time} (d d' : DimensionValues)
    (h : start.unixMilli ≠ start'.unixMilli) :
    BytesLt (generateEpochID sha256 start d) (generateEpochID sha256 start' d') ↔
      NumeralsInOrder start.unixMilli.toInt start'.unixMilli.toInt := by
  rw [bytesLt_generateEpochID, NumeralsInOrder]
  split_ifs with hlt
  · exact toList_generateEpochID_lt d d' hlt
  · have hne : start.unixMilli.toInt ≠ start'.unixMilli.toInt := mt Int64.toInt_inj.mp h
    have hids : (generateEpochID sha256 start d).toList ≠
        (generateEpochID sha256 start' d').toList :=
      fun he => h (generateEpochID_eq_iff.mp (String.toList_injective he)).1
    rw [← toList_generateEpochID_lt d' d (by omega), not_lt]
    exact ⟨le_of_lt, fun hle => lt_of_le_of_ne hle hids⟩

end Ids

section Requests
variable {sha256 : List UInt8 → List UInt8} {fuel : Nat} {request : AdmitDatasetRequest}
  {epochs : List EpochInfo} {granularity : EpochGranularity} {filter : TimeRangeFilter}

-- the loop comes to a turn that begins at `t`
def TurnsAt (granularity : EpochGranularity) (filter : TimeRangeFilter) (t : Time) : Prop :=
  ∃ k, t = (next granularity)^[k] (anchor granularity filter) ∧
    ∀ j ≤ k, (next granularity)^[j] (anchor granularity filter) < fieldTime filter.endExclusive

/-- For valid timestamps, later epochs of a request have greater ids exactly if the numerals of
the starts of its slices are in order. -/
theorem ids_sorted_iff (hv : HasValidTimes request)
    (h : generateEpochs sha256 fuel request = .ok epochs)
    (hf : timeFilter request = some filter)
    (hg : determineGranularity request = some granularity) :
    (∀ e ∈ epochs, ∀ e' ∈ epochs, epochStart e < epochStart e' →
        BytesLt e.epochId e'.epochId) ↔
      ∀ t t', TurnsAt granularity filter t → TurnsAt granularity filter t' → t < t' →
        NumeralsInOrder t.unixMilli.toInt t'.unixMilli.toInt := by
  obtain ⟨filter', hf', hvalid⟩ := hv
  obtain ⟨filter'', granularity', n, hf'', hg', hturns⟩ := generateEpochs_turns h
  obtain rfl : filter' = filter := Option.some.inj (hf'.symm.trans hf)
  obtain rfl : filter'' = filter' := Option.some.inj (hf''.symm.trans hf)
  obtain rfl : granularity' = granularity := Option.some.inj (hg'.symm.trans hg)
  have hp := hturns.progresses hvalid
  have hms : ∀ j < n, ∀ k < n, (next granularity')^[j] (anchor granularity' filter'') <
      (next granularity')^[k] (anchor granularity' filter'') →
      ((next granularity')^[j] (anchor granularity' filter'')).unixMilli ≠
        ((next granularity')^[k] (anchor granularity' filter'')).unixMilli := by
    intro j hj k hk hlt
    rcases lt_trichotomy j k with hjk | rfl | hkj
    · exact turns_unixMilli_ne hvalid hp hturns.turns hjk hk
    · exact absurd hlt (lt_irrefl _)
    · exact (turns_unixMilli_ne hvalid hp hturns.turns hkj hj).symm
  constructor
  · rintro hsorted t t' ⟨j, rfl, hj⟩ ⟨k, rfl, hk⟩ hlt
    have hj := hturns.turns.lt_iff.mpr hj
    have hk := hturns.turns.lt_iff.mpr hk
    obtain ⟨d, hd⟩ := List.exists_mem_of_ne_nil _ (extractDimensionValueSets_ne_nil request)
    have hid := hsorted _ ((hturns.mem _).mpr ⟨d, hd, j, hj, rfl⟩) _
      ((hturns.mem _).mpr ⟨d, hd, k, hk, rfl⟩)
      (by simpa only [turnEpoch, epochStart_newEpoch] using Time.lt_iff.mp hlt)
    exact (generateEpochID_lt_iff d d (hms j hj k hk hlt)).mp hid
  · intro horder e he e' he' hlt
    obtain ⟨d, -, j, hj, rfl⟩ := (hturns.mem e).mp he
    obtain ⟨d', -, k, hk, rfl⟩ := (hturns.mem e').mp he'
    simp only [turnEpoch, epochStart_newEpoch] at hlt
    exact (generateEpochID_lt_iff d d' (hms j hj k hk hlt)).mpr
      (horder _ _ ⟨j, rfl, hturns.turns.lt_iff.mp hj⟩ ⟨k, rfl, hturns.turns.lt_iff.mp hk⟩ hlt)

-- days from one midnight to another, in seconds, without dimensions
def dailyFilter (start finish : Int64) : TimeRangeFilter :=
  ⟨some ⟨start, 0⟩, some ⟨finish, 0⟩⟩

def dailyRequest (start finish : Int64) : AdmitDatasetRequest where
  tenantId := "acme"
  datasetId := "sales"
  source := some ⟨some {
    timePartition := some ⟨some ⟨"dt", some .day⟩, some (dailyFilter start finish)⟩
    dimensionPartitions := [] }⟩
  epochGranularity := some ⟨1, .day⟩

/-- 10 and 11 February 2024. -/
theorem ids_sorted_february :
    ∃ epochs, HasValidTimes (dailyRequest 1707523200 1707696000) ∧
      generateEpochs februarySha256 3 (dailyRequest 1707523200 1707696000) = .ok epochs ∧
      epochs.length = 2 ∧ ∀ e ∈ epochs, ∀ e' ∈ epochs, epochStart e < epochStart e' →
        BytesLt e.epochId e'.epochId := by
  obtain ⟨epochs, h, hlen⟩ : ∃ epochs, generateEpochs februarySha256 3
      (dailyRequest 1707523200 1707696000) = .ok epochs ∧ epochs.length = 2 := ⟨_, rfl, rfl⟩
  have hv : HasValidTimes (dailyRequest 1707523200 1707696000) :=
    ⟨_, rfl, ⟨_, rfl, by decide⟩, ⟨_, rfl, by decide⟩⟩
  have hturns : Turns ⟨1, .day⟩ (dailyFilter 1707523200 1707696000) 2 := by decide +kernel
  refine ⟨epochs, hv, h, hlen, (ids_sorted_iff hv h rfl rfl).mpr ?_⟩
  rintro t t' ⟨j, rfl, hj⟩ ⟨k, rfl, hk⟩
  have hall : ∀ j < 2, ∀ k < 2,
      (next ⟨1, .day⟩)^[j] (anchor ⟨1, .day⟩ (dailyFilter 1707523200 1707696000)) <
        (next ⟨1, .day⟩)^[k] (anchor ⟨1, .day⟩ (dailyFilter 1707523200 1707696000)) →
      NumeralsInOrder
        ((next ⟨1, .day⟩)^[j] (anchor ⟨1, .day⟩
          (dailyFilter 1707523200 1707696000))).unixMilli.toInt
        ((next ⟨1, .day⟩)^[k] (anchor ⟨1, .day⟩
          (dailyFilter 1707523200 1707696000))).unixMilli.toInt := by
    decide +kernel
  exact hall j (hturns.lt_iff.mpr hj) k (hturns.lt_iff.mpr hk)

/-- 9 and 10 September 2001, with 999993600000 and 1000080000000 milliseconds. -/
theorem ids_unsorted_september :
    ∃ epochs, HasValidTimes (dailyRequest 999993600 1000166400) ∧
      generateEpochs februarySha256 3 (dailyRequest 999993600 1000166400) = .ok epochs ∧
      ∃ e ∈ epochs, ∃ e' ∈ epochs, epochStart e < epochStart e' ∧
        ¬BytesLt e.epochId e'.epochId := by
  refine ⟨_, ⟨_, rfl, ⟨_, rfl, by decide⟩, ⟨_, rfl, by decide⟩⟩, rfl, _, List.mem_cons_self, _,
    List.mem_cons_of_mem _ List.mem_cons_self, ?_, ?_⟩
  · simp only [epochStart_newEpoch]
    decide +kernel
  · refine (generateEpochID_lt_iff ∅ ∅ ?_).not.mpr ?_
    · decide +kernel
    · decide +kernel

end Requests
end Leibrix.EpochGenerator

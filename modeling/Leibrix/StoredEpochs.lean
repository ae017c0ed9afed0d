import Leibrix.EpochGrid
import Leibrix.QuotaRuns

/-! What a sequence of accepted admissions leaves stored for one dataset. Requests of one
granularity are sliced on grids with the same step, each anchored at the request's own
start; epochs of two requests are the same or apart where the two grids are one. -/
namespace Leibrix.Management
open Leibrix.Proto Leibrix.EpochGenerator Leibrix.KeyValue Leibrix.TenantKeys
open Leibrix.Transition Leibrix.GoTime Leibrix.Gregorian

section Grids
variable {granularity : EpochGranularity} {request request' : AdmitDatasetRequest}
  {sha256 : List UInt8 → List UInt8} {sets : List DimensionValues} {e e' : EpochInfo}

def OneGrid (granularity : EpochGranularity) (request request' : AdmitDatasetRequest) : Prop :=
  -- the anchors of two requests lie a whole number of steps apart
  ∃ k, sliceStart granularity request' = gridPoint granularity (sliceStart granularity request) k

def EndsBefore (granularity : EpochGranularity) (request request' : AdmitDatasetRequest) : Prop :=
  ∃ n : Nat, requestEnd request ≤ gridPoint granularity (sliceStart granularity request) n ∧
    gridPoint granularity (sliceStart granularity request) n ≤ sliceStart granularity request'

def Compatible (granularity : EpochGranularity) (request request' : AdmitDatasetRequest) : Prop :=
  OneGrid granularity request request' ∨ EndsBefore granularity request request' ∨
    EndsBefore granularity request' request

def NonOverlapping (epochs : List EpochInfo) : Prop :=
  ∀ e ∈ epochs, ∀ e' ∈ epochs, e.dimensionValues = e'.dimensionValues → e ≠ e' →
    epochEnd e ≤ epochStart e' ∨ epochEnd e' ≤ epochStart e

def Yields (sha256 : List UInt8 → List UInt8) (granularity : EpochGranularity)
    (sets : List DimensionValues) (request : AdmitDatasetRequest) (e : EpochInfo) : Prop :=
  ∃ d ∈ sets, ∃ k : Nat,
    gridPoint granularity (sliceStart granularity request) k < requestEnd request ∧
      e = gridEpoch sha256 granularity (sliceStart granularity request) d k

theorem dimensionValues_gridEpoch (t : Int) (d : DimensionValues) (k : Int) :
    (gridEpoch sha256 granularity t d k).dimensionValues = d := rfl

/-- Cells of one grid are the same or apart. -/
theorem gridEpoch_apart (hf : StepsForward granularity) {t : Int} {d : DimensionValues} {k m : Int}
    (hne : gridEpoch sha256 granularity t d k ≠ gridEpoch sha256 granularity t d m) :
    gridPoint granularity t (k + 1) ≤ gridPoint granularity t m ∨
      gridPoint granularity t (m + 1) ≤ gridPoint granularity t k := by
  have hmono := (gridPoint_strictMono hf t).monotone
  have hkm : k ≠ m := fun he => hne (he ▸ rfl)
  rcases lt_or_gt_of_ne hkm with hlt | hlt
  · exact .inl (hmono hlt)
  · exact .inr (hmono hlt)

theorem EndsBefore.apart (hf : StepsForward granularity)
    (h : EndsBefore granularity request request') {k m : Nat}
    (hk : gridPoint granularity (sliceStart granularity request) k < requestEnd request) :
    gridPoint granularity (sliceStart granularity request) (k + 1) ≤
      gridPoint granularity (sliceStart granularity request') m := by
  obtain ⟨n, hn, hle⟩ := h
  have hmono := gridPoint_strictMono hf (sliceStart granularity request)
  have hkn : (k : Int) < n := hmono.lt_iff_lt.mp (hk.trans_le hn)
  have hfirst := (gridPoint_strictMono hf (sliceStart granularity request')).monotone
    (Int.natCast_nonneg m)
  rw [gridPoint_zero (sliceStart_onGrid _ _)] at hfirst
  exact (hmono.monotone hkn).trans (hle.trans hfirst)

/-- Slices of compatible requests do not overlap. -/
theorem Compatible.apart (hr : Sliceable granularity request)
    (hr' : Sliceable granularity request') (h : Compatible granularity request request')
    (he : Yields sha256 granularity sets request e)
    (he' : Yields sha256 granularity sets request' e')
    (hd : e.dimensionValues = e'.dimensionValues) (hne : e ≠ e') :
    epochEnd e ≤ epochStart e' ∨ epochEnd e' ≤ epochStart e := by
  obtain ⟨d, -, k, hk, rfl⟩ := he
  obtain ⟨d', -, m, hm, rfl⟩ := he'
  rw [dimensionValues_gridEpoch, dimensionValues_gridEpoch] at hd
  subst hd
  rw [epochStart_gridEpoch (hr.fits k hk), epochEnd_gridEpoch (hr.fits k hk),
    epochStart_gridEpoch (hr'.fits m hm), epochEnd_gridEpoch (hr'.fits m hm)]
  rcases h with ⟨j, hj⟩ | h | h
  · rw [hj, gridEpoch_shift] at hne
    rw [hj, gridPoint_add, gridPoint_add, ← add_assoc]
    exact gridEpoch_apart hr.forward hne
  · exact .inl (h.apart hr.forward hk)
  · exact .inr (h.apart hr.forward hm)

/-- The anchor of the later request lies behind the slices of the earlier one or in one
of them. -/
theorem endsBefore_or_cell (hr : Sliceable granularity request)
    (hle : sliceStart granularity request ≤ sliceStart granularity request') :
    EndsBefore granularity request request' ∨ ∃ k : Nat,
      gridPoint granularity (sliceStart granularity request) k < requestEnd request ∧
      gridPoint granularity (sliceStart granularity request) k ≤
        sliceStart granularity request' ∧
      sliceStart granularity request' <
        gridPoint granularity (sliceStart granularity request) (k + 1) := by
  classical
  -- the first point of the grid that is past the request's end
  have hends := hr.ends
  by_cases hb : gridPoint granularity (sliceStart granularity request) (Nat.find hends) ≤
      sliceStart granularity request'
  · exact .inl ⟨_, Nat.find_spec hends, hb⟩
  · have hex : ∃ n : Nat, sliceStart granularity request' <
        gridPoint granularity (sliceStart granularity request) n := ⟨_, not_le.mp hb⟩
    have hfind := Nat.find_spec hex
    cases hn : Nat.find hex with
    | zero =>
      rw [hn] at hfind
      have hz := gridPoint_zero (sliceStart_onGrid granularity request)
      simp only [Nat.cast_zero, hz] at hfind
      omega
    | succ k =>
      rw [hn] at hfind
      have hk : ¬ sliceStart granularity request' <
          gridPoint granularity (sliceStart granularity request) k :=
        Nat.find_min hex (by omega)
      have hkn : k < Nat.find hends := by
        by_contra hge
        have hmono := (gridPoint_strictMono hr.forward
          (sliceStart granularity request)).monotone
          (Int.ofNat_le.mpr (not_lt.mp hge))
        exact hk ((not_le.mp hb).trans_le hmono)
      refine .inr ⟨k, not_le.mp (Nat.find_min hends hkn), not_lt.mp hk, by exact_mod_cast hfind⟩

theorem yields_gridEpoch {d : DimensionValues} (hd : d ∈ sets) {k : Nat}
    (hk : gridPoint granularity (sliceStart granularity request) k < requestEnd request) :
    Yields sha256 granularity sets request
      (gridEpoch sha256 granularity (sliceStart granularity request) d k) :=
  ⟨d, hd, k, hk, rfl⟩

/-- If no slices overlap, the requests are compatible: the anchor of the later one would
lie inside a slice of the earlier one. -/
theorem compatible_of_nonOverlapping {epochs : List EpochInfo} (hs : sets ≠ [])
    (hr : Sliceable granularity request) (hr' : Sliceable granularity request')
    (hle : sliceStart granularity request ≤ sliceStart granularity request')
    (hin : ∀ e, Yields sha256 granularity sets request e → e ∈ epochs)
    (hin' : ∀ e, Yields sha256 granularity sets request' e → e ∈ epochs)
    (hn : NonOverlapping epochs) :
    OneGrid granularity request request' ∨ EndsBefore granularity request request' := by
  obtain ⟨d, hd⟩ := List.exists_mem_of_ne_nil sets hs
  rcases endsBefore_or_cell hr hle with hb | ⟨k, hk, hlo, hhi⟩
  · exact .inr hb
  · have hzero := gridPoint_zero (sliceStart_onGrid granularity request')
    have hfirst : gridPoint granularity (sliceStart granularity request') (0 : Nat) <
        requestEnd request' := by
      rw [Nat.cast_zero, hzero]
      exact (sliceStart_le _ _).trans_lt hr'.proper
    have h₁ := hin _ (yields_gridEpoch hd hk)
    have h₂ := hin' _ (yields_gridEpoch hd hfirst)
    have hlt := gridPoint_strictMono hr'.forward (sliceStart granularity request') zero_lt_one
    rw [hzero] at hlt
    by_cases he : gridEpoch sha256 granularity (sliceStart granularity request) d k =
        gridEpoch sha256 granularity (sliceStart granularity request') d (0 : Nat)
    · have hstart := congrArg epochStart he
      rw [epochStart_gridEpoch (hr.fits k hk), epochStart_gridEpoch (hr'.fits 0 hfirst),
        Nat.cast_zero, hzero] at hstart
      exact .inl ⟨k, hstart.symm⟩
    · have hdis := hn _ h₁ _ h₂
        (by rw [dimensionValues_gridEpoch, dimensionValues_gridEpoch]) he
      rw [epochStart_gridEpoch (hr.fits k hk), epochEnd_gridEpoch (hr.fits k hk),
        epochStart_gridEpoch (hr'.fits 0 hfirst), epochEnd_gridEpoch (hr'.fits 0 hfirst),
        Nat.cast_zero, hzero, zero_add] at hdis
      omega

theorem OneGrid.symm (h : OneGrid granularity request request') :
    OneGrid granularity request' request := by
  obtain ⟨k, hk⟩ := h
  refine ⟨-k, ?_⟩
  rw [hk, gridPoint_add, add_neg_cancel, gridPoint_zero (sliceStart_onGrid _ _)]

/-- With one unit to a step every request is on the same grid. -/
theorem oneGrid_of_value_one (hv : granularity.value = 1) (hf : StepsForward granularity)
    (request request' : AdmitDatasetRequest) : OneGrid granularity request request' :=
  floorTo_on_grid hv hf (requestStart request) (requestStart request')

end Grids

section Sequences
variable {β : Type} {c : Codec β} {sha256 : List UInt8 → List UInt8} {tenant dataset : String}
  {granularity : EpochGranularity} {partitions : List DimensionPartition}
  {st : Store String β} {requests : List AdmitDatasetRequest}

def Accepts (c : Codec β) (sha256 : List UInt8 → List UInt8)
    (s : Store String β × List AdmitDatasetRequest) (call : Call)
    (t : Store String β × List AdmitDatasetRequest) : Prop :=
  -- a lone call that is accepted, in a record of the requests accepted so far
  (∃ resp, (admitDataset call.node c sha256 call.fuel call.request).exec call.env s.1 =
    some (t.1, .ok resp) ∧ resp.status = .accepted) ∧ t.2 = s.2 ++ [call.request]

def dimensionPartitions (request : AdmitDatasetRequest) : List DimensionPartition :=
  (request.source.bind (·.partition)).elim [] (·.dimensionPartitions)

-- the call is for the dataset, with the given granularity and dimension partitions
structure Alike (tenant dataset : String) (granularity : EpochGranularity)
    (partitions : List DimensionPartition) (_ : Store String β × List AdmitDatasetRequest)
    (call : Call) : Prop where
  tenantId : call.request.tenantId = tenant
  datasetId : call.request.datasetId = dataset
  granularity : call.request.epochGranularity = some granularity
  partitions : dimensionPartitions call.request = partitions
  valid : HasValidTimes call.request

theorem extractDimensionValueSets_of_partitions (request : AdmitDatasetRequest) :
    extractDimensionValueSets request =
      (dimensionPartitions request).foldl extendValueSets [∅] := by
  unfold extractDimensionValueSets dimensionPartitions
  cases request.source.bind (·.partition) <;> rfl

structure StoredSlices (c : Codec β) (sha256 : List UInt8 → List UInt8) (key : String)
    (granularity : EpochGranularity) (sets : List DimensionValues)
    (s : Store String β × List AdmitDatasetRequest) : Prop where
  -- the stored list consists of the slices of the accepted requests
  sliceable : ∀ r ∈ s.2, Sliceable granularity r
  stored : ∃ l, listed c s.1 key = some l ∧
    ∀ e, e ∈ l ↔ ∃ r ∈ s.2, Yields sha256 granularity sets r e

theorem mem_of_equal {l : List EpochInfo} {e : EpochInfo}
    (heq : ∀ a b, c.equal a b = true ↔ a = b) : UpTo.Mem c.equal e l ↔ e ∈ l := by
  simp [UpTo.Mem, heq]

/-- An accepted call has united its epochs into the stored list. -/
theorem merged_of_accepted {node : NodeConfig} {fuel : Nat} {request : AdmitDatasetRequest}
    {env : List (Answer × LeaderView)} {st' : Store String β} {resp : AdmitDatasetResponse}
    (hc : c.Lawful) (hacc : resp.status = .accepted)
    (hx : (admitDataset node c sha256 fuel request).exec env st = some (st', .ok resp)) :
    ∃ epochs old new, generateEpochs sha256 fuel request = .ok epochs ∧
      Merged c (etcdTenantDatasetEpochKey request.tenantId request.datasetId)
        old epochs new st st' := by
  have hw : (admitDataset node c sha256 fuel request).wp true
      (AdmitEnd c sha256 fuel request true st) st := admitDataset_wp hc st
  have hend := Prog.wp_sound hw (fun _ _ _ => rfl) hx
  cases hend with
  | rejected context err => cases hacc
  | accepted hg hq hm => exact ⟨_, _, _, hg, hm⟩

theorem StoredSlices.step {s t : Store String β × List AdmitDatasetRequest} {call : Call}
    (hc : c.Lawful) (heq : ∀ a b, c.equal a b = true ↔ a = b)
    (hpos : 0 < granularity.value.toInt)
    (h : StoredSlices c sha256 (etcdTenantDatasetEpochKey tenant dataset) granularity
      (partitions.foldl extendValueSets [∅]) s)
    (ha : Alike tenant dataset granularity partitions s call)
    (hs : Accepts c sha256 s call t) :
    StoredSlices c sha256 (etcdTenantDatasetEpochKey tenant dataset) granularity
      (partitions.foldl extendValueSets [∅]) t := by
  obtain ⟨⟨resp, hx, hacc⟩, hreq⟩ := hs
  obtain ⟨l, hl, hmem⟩ := h.stored
  obtain ⟨epochs, old, new, hg, hm⟩ := merged_of_accepted hc hacc hx
  have hgran : determineGranularity call.request = some granularity := by
    simp only [determineGranularity, ha.granularity]
  have hf := stepsForward_of_value ha.valid hgran hpos hg
  have hcells := generateEpochs_cells ha.valid hgran hf hg
  rw [ha.tenantId, ha.datasetId] at hm
  obtain rfl : l = old := Option.some.inj (hl.symm.trans hm.before)
  have hsets := extractDimensionValueSets_of_partitions call.request
  rw [ha.partitions] at hsets
  refine ⟨?_, new, hm.after, fun e => ?_⟩
  · intro r hr
    rw [hreq, List.mem_append] at hr
    cases hr with
    | inl hr => exact h.sliceable r hr
    | inr hr =>
      obtain rfl := List.mem_singleton.mp hr
      exact hcells.toSliceable
  · have hu := hm.mem e
    rw [mem_of_equal heq, mem_of_equal heq, mem_of_equal heq, hmem, hcells.mem, hsets] at hu
    rw [hu, hreq]
    simp only [List.mem_append, List.mem_singleton, or_and_right, exists_or, exists_eq_left]
    rfl

theorem storedSlices_reach (hc : c.Lawful) (heq : ∀ a b, c.equal a b = true ↔ a = b)
    (hpos : 0 < granularity.value.toInt)
    (hst : st.kvs (etcdTenantDatasetEpochKey tenant dataset) = none)
    {s : Store String β × List AdmitDatasetRequest}
    (h : Reach (Accepts c sha256) (Alike tenant dataset granularity partitions) (st, []) s) :
    StoredSlices c sha256 (etcdTenantDatasetEpochKey tenant dataset) granularity
      (partitions.foldl extendValueSets [∅]) s := by
  refine h.invariant ?_ ?_
  · exact ⟨by simp, [], listed_of_none hst, by simp⟩
  · intro u call v hu ha hs
    exact hu.step hc heq hpos ha hs

/-- After any sequence of accepted admissions of one shape, with valid timestamps and a positive
value, into a fresh dataset, stored epochs overlap nowhere exactly if every two of the requests
are compatible. With a granularity of one unit they always are. -/
theorem nonOverlapping_iff_compatible (hc : c.Lawful) (heq : ∀ a b, c.equal a b = true ↔ a = b)
    (hpos : 0 < granularity.value.toInt)
    (hst : st.kvs (etcdTenantDatasetEpochKey tenant dataset) = none) {st' : Store String β}
    (h : Reach (Accepts c sha256) (Alike tenant dataset granularity partitions)
      (st, []) (st', requests)) :
    ∃ l, listed c st' (etcdTenantDatasetEpochKey tenant dataset) = some l ∧
      (NonOverlapping l ↔ ∀ r ∈ requests, ∀ r' ∈ requests, Compatible granularity r r') ∧
      (granularity.value = 1 → NonOverlapping l) := by
  have hinv := storedSlices_reach hc heq hpos hst h
  obtain ⟨l, hl, hmem⟩ := hinv.stored
  have hin : ∀ r ∈ requests, ∀ e,
      Yields sha256 granularity (partitions.foldl extendValueSets [∅]) r e → e ∈ l :=
    fun r hr e hy => (hmem e).mpr ⟨r, hr, hy⟩
  have hsets := foldl_extendValueSets_ne_nil partitions
  have hback : (∀ r ∈ requests, ∀ r' ∈ requests, Compatible granularity r r') →
      NonOverlapping l := by
    intro hall e he e' he' hd hne
    obtain ⟨r, hr, hy⟩ := (hmem e).mp he
    obtain ⟨r', hr', hy'⟩ := (hmem e').mp he'
    exact (hall r hr r' hr').apart (hinv.sliceable r hr) (hinv.sliceable r' hr') hy hy' hd hne
  refine ⟨l, hl, ⟨fun hn r hr r' hr' => ?_, hback⟩, fun hv => hback fun r hr r' hr' => ?_⟩
  · have hs := hinv.sliceable r hr
    have hs' := hinv.sliceable r' hr'
    rcases le_total (sliceStart granularity r) (sliceStart granularity r') with hle | hle
    · exact (compatible_of_nonOverlapping hsets hs hs' hle (hin r hr) (hin r' hr') hn).imp_right
        .inl
    · rcases compatible_of_nonOverlapping hsets hs' hs hle (hin r' hr') (hin r hr) hn with ho | hb
      · exact .inl ho.symm
      · exact .inr (.inr hb)
  · exact .inl (oneGrid_of_value_one hv (hinv.sliceable r hr).forward r r')

-- days of January 2024 in epochs of `value` days
def groupedCall (value : Int32) (day days : Int64) : Call where
  node := leaderNode
  fuel := 3
  request := { januaryRequest day days with epochGranularity := some ⟨value, .day⟩ }
  env := smoothRun 4

theorem groupedCall_alike {value : Int32} {day days : Int64}
    (hv : HasValidTimes (januaryRequest day days))
    (s : Store String Payload × List AdmitDatasetRequest) :
    Alike "acme" "sales" ⟨value, .day⟩ [] s (groupedCall value day days) :=
  ⟨rfl, rfl, rfl, rfl, hv⟩

theorem january_valid :
    HasValidTimes (januaryRequest 15 1) ∧ HasValidTimes (januaryRequest 16 2) ∧
      HasValidTimes (januaryRequest 16 4) :=
  ⟨⟨_, rfl, ⟨_, rfl, by decide⟩, ⟨_, rfl, by decide⟩⟩,
    ⟨_, rfl, ⟨_, rfl, by decide⟩, ⟨_, rfl, by decide⟩⟩,
    ⟨_, rfl, ⟨_, rfl, by decide⟩, ⟨_, rfl, by decide⟩⟩⟩

theorem payloadCodec_equal (a b : EpochInfo) : payloadCodec.equal a b = true ↔ a = b := by
  simp [payloadCodec]

theorem accepts_groupedCall {value : Int32} {day days : Int64} {st st' : Store String Payload}
    {requests : List AdmitDatasetRequest} {resp : AdmitDatasetResponse}
    (h : (admitDataset leaderNode payloadCodec januarySha256 3
      (groupedCall value day days).request).exec (smoothRun 4) st = some (st', .ok resp))
    (ha : resp.status = .accepted) :
    Accepts payloadCodec januarySha256 (st, requests) (groupedCall value day days)
      (st', requests ++ [(groupedCall value day days).request]) :=
  ⟨⟨resp, h, ha⟩, rfl⟩

/-- 15 January, then 16 and 17 January, in daily epochs. -/
theorem nonOverlapping_iff_compatible_daily :
    ∃ st' requests l, Reach (Accepts payloadCodec januarySha256)
        (Alike "acme" "sales" ⟨1, .day⟩ []) (acmeStore 10, []) (st', requests) ∧
      requests.length = 2 ∧
      listed payloadCodec st' (etcdTenantDatasetEpochKey "acme" "sales") = some l ∧
      NonOverlapping l := by
  obtain ⟨st₁, st₂, resp₁, resp₂, h₁, ha₁, h₂, ha₂⟩ : ∃ st₁ st₂ resp₁ resp₂,
      (admitDataset leaderNode payloadCodec januarySha256 3 (groupedCall 1 15 1).request).exec
        (smoothRun 4) (acmeStore 10) = some (st₁, .ok resp₁) ∧ resp₁.status = .accepted ∧
      (admitDataset leaderNode payloadCodec januarySha256 3 (groupedCall 1 16 2).request).exec
        (smoothRun 4) st₁ = some (st₂, .ok resp₂) ∧ resp₂.status = .accepted :=
    ⟨_, _, _, _, rfl, rfl, rfl, rfl⟩
  have hr : Reach (Accepts payloadCodec januarySha256) (Alike "acme" "sales" ⟨1, .day⟩ [])
      (acmeStore 10, []) (st₂, [(groupedCall 1 15 1).request, (groupedCall 1 16 2).request]) :=
    (Reach.refl.tail (groupedCall_alike january_valid.1 _) (accepts_groupedCall h₁ ha₁)).tail
      (groupedCall_alike january_valid.2.1 _) (accepts_groupedCall h₂ ha₂)
  obtain ⟨l, hl, -, hone⟩ := nonOverlapping_iff_compatible payloadCodec_lawful payloadCodec_equal
    (by decide) rfl hr
  exact ⟨st₂, _, l, hr, rfl, hl, hone rfl⟩

/-- Epochs of three days from 15 January and from 16 January: the first one of each
request covers 16 and 17 January. -/
theorem storedEpochs_overlap :
    ∃ st' requests l, Reach (Accepts payloadCodec januarySha256)
        (Alike "acme" "sales" ⟨3, .day⟩ []) (acmeStore 10, []) (st', requests) ∧
      listed payloadCodec st' (etcdTenantDatasetEpochKey "acme" "sales") = some l ∧
      ¬ NonOverlapping l := by
  obtain ⟨st₁, st₂, resp₁, resp₂, h₁, ha₁, h₂, ha₂⟩ : ∃ st₁ st₂ resp₁ resp₂,
      (admitDataset leaderNode payloadCodec januarySha256 3 (groupedCall 3 15 1).request).exec
        (smoothRun 4) (acmeStore 10) = some (st₁, .ok resp₁) ∧ resp₁.status = .accepted ∧
      (admitDataset leaderNode payloadCodec januarySha256 3 (groupedCall 3 16 4).request).exec
        (smoothRun 4) st₁ = some (st₂, .ok resp₂) ∧ resp₂.status = .accepted :=
    ⟨_, _, _, _, rfl, rfl, rfl, rfl⟩
  have hr : Reach (Accepts payloadCodec januarySha256) (Alike "acme" "sales" ⟨3, .day⟩ [])
      (acmeStore 10, []) (st₂, [(groupedCall 3 15 1).request, (groupedCall 3 16 4).request]) :=
    (Reach.refl.tail (groupedCall_alike january_valid.1 _) (accepts_groupedCall h₁ ha₁)).tail
      (groupedCall_alike january_valid.2.2 _) (accepts_groupedCall h₂ ha₂)
  obtain ⟨hslices, l, hl, hmem⟩ := storedSlices_reach payloadCodec_lawful payloadCodec_equal
    (by decide) rfl hr
  refine ⟨st₂, _, l, hr, hl, fun hn => ?_⟩
  -- the first slice of each request
  have hfirst : ∀ r ∈ [(groupedCall 3 15 1).request, (groupedCall 3 16 4).request],
      gridPoint ⟨3, .day⟩ (sliceStart ⟨3, .day⟩ r) (0 : Nat) < requestEnd r := by decide +kernel
  have hin : ∀ r ∈ [(groupedCall 3 15 1).request, (groupedCall 3 16 4).request],
      gridEpoch januarySha256 ⟨3, .day⟩ (sliceStart ⟨3, .day⟩ r) ∅ (0 : Nat) ∈ l :=
    fun r hr' => (hmem _).mpr ⟨r, hr', yields_gridEpoch (by simp) (hfirst r hr')⟩
  have hfits : ∀ r ∈ [(groupedCall 3 15 1).request, (groupedCall 3 16 4).request],
      CellFits ⟨3, .day⟩ (sliceStart ⟨3, .day⟩ r) (0 : Nat) :=
    fun r hr' => (hslices r hr').fits 0 (hfirst r hr')
  have h15 : (groupedCall 3 15 1).request ∈
      [(groupedCall 3 15 1).request, (groupedCall 3 16 4).request] := by simp
  have h16 : (groupedCall 3 16 4).request ∈
      [(groupedCall 3 15 1).request, (groupedCall 3 16 4).request] := by simp
  have hdis := hn _ (hin _ h15) _ (hin _ h16)
    (by rw [dimensionValues_gridEpoch, dimensionValues_gridEpoch]) fun he => by
      have hs := congrArg epochStart he
      rw [epochStart_gridEpoch (hfits _ h15), epochStart_gridEpoch (hfits _ h16)] at hs
      exact absurd hs (by decide +kernel)
  rw [epochStart_gridEpoch (hfits _ h15), epochStart_gridEpoch (hfits _ h16),
    epochEnd_gridEpoch (hfits _ h15), epochEnd_gridEpoch (hfits _ h16)] at hdis
  exact absurd hdis (by decide +kernel)

end Sequences
end Leibrix.Management

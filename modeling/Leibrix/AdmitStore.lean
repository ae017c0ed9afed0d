import Leibrix.EpochLists

/-! What one call leaves in the store when no other call runs beside it: an accepted
admission is a union on one key, every other answer leaves the store alone. -/
namespace Leibrix.Management
open Leibrix.Proto Leibrix.EpochGenerator Leibrix.KeyValue Leibrix.TenantKeys

variable {β : Type} {c : Codec β} {late : Bool} {st st' : Store String β}
  {key : String} {epochs old new : List EpochInfo}

def listed (c : Codec β) (st : Store String β) (key : String) : Option (List EpochInfo) :=
  -- the epochs kept at a key; an absent key keeps none, a value that does not decode has no list
  match st.kvs key with
  | none => some []
  | some kv => (c.unmarshalEpochs kv.value).toOption

structure Merged (c : Codec β) (key : String) (old epochs new : List EpochInfo)
    (st st' : Store String β) : Prop where
  -- `epochs` was united into the list at `key`, and nothing else was touched
  before : listed c st key = some old
  present : (st'.kvs key).isSome = true
  after : listed c st' key = some new
  mem : ∀ e, UpTo.Mem c.equal e new ↔ UpTo.Mem c.equal e old ∨ UpTo.Mem c.equal e epochs
  distinct : UpTo.Distinct c.equal old → UpTo.Distinct c.equal epochs →
    UpTo.Distinct c.equal new
  length : new.length = (UpTo.union c.equal epochs old).length
  others : ∀ k, k ≠ key → st'.kvs k = st.kvs k

theorem listed_of_none (h : st.kvs key = none) : listed c st key = some [] := by
  simp [listed, h]

theorem listed_of_some {kv : Versioned β} (h : st.kvs key = some kv)
    (hu : c.unmarshalEpochs kv.value = .ok old) : listed c st key = some old := by
  simp [listed, h, hu, Except.toOption]

theorem merged_put (hc : c.Lawful) (epochs : List EpochInfo) (h : listed c st key = some old) :
    ∃ new, Merged c key old epochs new st
      (st.put key (c.bytesOf (mergeEpochs c.equal epochs old))) := by
  obtain ⟨new, hnew, hs⟩ := hc.merge epochs old
  refine ⟨new, h, by simp, listed_of_some (Store.put_kvs_self ..) hnew, fun e => ?_, ?_, ?_,
    fun k hk => st.put_kvs_of_ne _ hk⟩
  · rw [UpTo.Same.mem_iff hc.equal hs, UpTo.mem_union hc.equal, or_comm]
  · intro ho he
    exact (UpTo.Same.distinct_iff hc.equal hs).mpr (UpTo.distinct_union he ho)
  · exact List.Forall₂.length_eq hs

/-- Nothing has to be written for a list that is there already. -/
theorem merged_self (hc : c.Lawful) {kv : Versioned β} (h : st.kvs key = some kv)
    (hu : c.unmarshalEpochs kv.value = .ok old)
    (he : areEpochSlicesEqual c.equal old epochs = true) : Merged c key old epochs old st st := by
  have hl := listed_of_some h hu
  have hp := areEpochSlicesEqual_perm he
  have hcovered : ∀ x ∈ old, UpTo.Mem c.equal x epochs := fun x hx =>
    (hp.mem_iff hc.equal).mp (UpTo.mem_of_mem hc.equal hx)
  refine ⟨hl, by simp [h], hl, fun e => ?_, fun ho _ => ho, ?_, fun _ _ => rfl⟩
  · rw [hp.mem_iff hc.equal, or_self]
  · rw [UpTo.union_eq_left hc.equal hcovered, hp.length_eq]

theorem requireLeader_wp (node : NodeConfig) (st : Store String β) :
    (requireLeader node).wp late (fun st' _ => st' = st) st := by
  unfold requireLeader
  split
  · intro view
    dsimp only
    split
    · rfl
    · intro view'
      dsimp only
      split <;> rfl
  · rfl

def Fetched.From {α : Type} (unmarshal : β → Except String α) (st : Store String β)
    (key : String) : Fetched β α → Prop
  | .failed _ => True
  | .malformed _ => True
  | .absent _ => st.kvs key = none
  | .found msg kv => st.kvs key = some kv ∧ unmarshal kv.value = .ok msg

theorem getProtoMessage_wp {α : Type} (unmarshal : β → Except String α) (key : String)
    (st : Store String β) :
    (getProtoMessage unmarshal key).wp late
      (fun st' r => st' = st ∧ r.From unmarshal st key) st := by
  refine ⟨?_, fun e => ⟨rfl, trivial⟩⟩
  cases hk : st.kvs key with
  | none => exact ⟨rfl, hk⟩
  | some kv =>
    cases hu : unmarshal kv.value with
    | error e =>
      simp only [hu]
      exact ⟨rfl, trivial⟩
    | ok msg =>
      simp only [hu]
      exact ⟨rfl, hk, hu⟩

def SaveEnd (c : Codec β) (key : String) (epochs : List EpochInfo) (late : Bool)
    (st st' : Store String β) : Except SaveError Unit → Prop
  -- how `saveEpochs` ends: with the union stored, or with an error that left the store alone unless
  -- a write was carried out and reported as failed
  | .ok () => ∃ old new, Merged c key old epochs new st st'
  | .error _ => st' = st ∨ late = true ∧ ∃ old new, Merged c key old epochs new st st'

theorem saveEpochs_wp (hc : c.Lawful) (request : AdmitDatasetRequest)
    (epochs : List EpochInfo) (st : Store String β) :
    (saveEpochs c request epochs).wp late
      (SaveEnd c (etcdTenantDatasetEpochKey request.tenantId request.datasetId) epochs late st)
      st := by
  rw [saveEpochs, Prog.bind_eq, Prog.wp_bind]
  refine Prog.wp_mono (getProtoMessage_wp _ _ st) ?_
  rintro st₁ fetched ⟨rfl, hf⟩
  cases fetched with
  | failed err => exact .inl rfl
  | malformed err => exact .inl rfl
  | absent err =>
    obtain ⟨new, hm⟩ := merged_put hc epochs (listed_of_none hf)
    simp only [putProtoMessage, hc.marshalEpochs]
    exact ⟨⟨[], new, hm⟩, fun e => ⟨.inl rfl, fun hl => .inr ⟨hl, [], new, hm⟩⟩⟩
  | found existing kv =>
    obtain ⟨hkv, hu⟩ := hf
    dsimp only
    split
    · rename_i he
      exact ⟨existing, existing, merged_self hc hkv hu he⟩
    · obtain ⟨new, hm⟩ := merged_put hc epochs (listed_of_some hkv hu)
      exact ⟨fun _ => ⟨⟨existing, new, hm⟩, fun e hl => .inr ⟨hl, existing, new, hm⟩⟩,
        fun _ => .inl rfl, fun e => .inl rfl⟩

-- the quota that is stored for the tenant lets the list pass
def PassesQuota (c : Codec β) (st : Store String β) (tenant : String) (epochs : List EpochInfo) :
    Prop :=
  ∃ kv quota, st.kvs (etcdTenantQuotaKey tenant) = some kv ∧
    c.unmarshalQuota kv.value = .ok quota ∧ exceedsQuota quota epochs = false

inductive AdmitEnd (c : Codec β) (sha256 : List UInt8 → List UInt8) (fuel : Nat)
    (request : AdmitDatasetRequest) (late : Bool) (st : Store String β) :
    Store String β → Except RpcError AdmitDatasetResponse → Prop
  | accepted {st' : Store String β} {epochs old new : List EpochInfo}
      (hg : generateEpochs sha256 fuel request = .ok epochs)
      (hq : PassesQuota c st request.tenantId epochs)
      (hm : Merged c (etcdTenantDatasetEpochKey request.tenantId request.datasetId)
        old epochs new st st') :
      AdmitEnd c sha256 fuel request late st st'
        (.ok { status := .accepted, epochs := some epochs })
  | rejected (context err : String) :
      AdmitEnd c sha256 fuel request late st st (.ok (rejected context err))
  | failed (err : RpcError) : AdmitEnd c sha256 fuel request late st st (.error err)
  | late {st' : Store String β} {epochs old new : List EpochInfo} (err : RpcError)
      (hl : late = true) (hg : generateEpochs sha256 fuel request = .ok epochs)
      (hq : PassesQuota c st request.tenantId epochs)
      (hm : Merged c (etcdTenantDatasetEpochKey request.tenantId request.datasetId)
        old epochs new st st') :
      AdmitEnd c sha256 fuel request late st st' (.error err)

variable {node : NodeConfig} {sha256 : List UInt8 → List UInt8} {fuel : Nat}
  {request : AdmitDatasetRequest}

theorem admitWithQuota_wp (hc : c.Lawful) {quota : TenantQuota} {kv : Versioned β}
    (hkv : st.kvs (etcdTenantQuotaKey request.tenantId) = some kv)
    (hu : c.unmarshalQuota kv.value = .ok quota) :
    (admitWithQuota c request quota (generateEpochs sha256 fuel request)).wp late
      (AdmitEnd c sha256 fuel request late st) st := by
  cases hg : generateEpochs sha256 fuel request with
  | hang => trivial
  | panic msg => trivial
  | err msg => exact .rejected _ _
  | ok epochs =>
    simp only [admitWithQuota]
    split
    · exact .rejected _ _
    · rename_i hpass
      have hq : PassesQuota c st request.tenantId epochs :=
        ⟨kv, quota, hkv, hu, by simpa using hpass⟩
      rw [Prog.bind_eq, Prog.wp_bind]
      refine Prog.wp_mono (saveEpochs_wp hc request epochs st) ?_
      intro st' r hr
      cases r with
      | error err =>
        rcases hr with rfl | ⟨hl, old, new, hm⟩
        · exact .failed _
        · exact .late _ hl hg hq hm
      | ok u =>
        obtain ⟨old, new, hm⟩ := hr
        exact .accepted hg hq hm

theorem admitDataset_wp (hc : c.Lawful) (st : Store String β) :
    (admitDataset node c sha256 fuel request).wp late
      (AdmitEnd c sha256 fuel request late st) st := by
  rw [admitDataset, Prog.bind_eq, Prog.wp_bind]
  refine Prog.wp_mono (requireLeader_wp node st) ?_
  rintro st₁ checked rfl
  cases checked with
  | error err => exact .failed err
  | ok u =>
    dsimp only
    split
    · exact .rejected _ _
    · rw [Prog.bind_eq, Prog.wp_bind]
      refine Prog.wp_mono (getProtoMessage_wp _ _ st₁) ?_
      rintro st₂ fetched ⟨rfl, hf⟩
      cases fetched with
      | failed err => exact .rejected _ _
      | absent err => exact .rejected _ _
      | malformed err => exact .rejected _ _
      | found quota kv => exact admitWithQuota_wp hc hf.1 hf.2

/-- A lone admission is all or nothing: accepted, it unites the returned epochs into the
stored list and touches no other key; otherwise it leaves the store as it was. -/
theorem admitDataset_allOrNothing (hc : c.Lawful) {env : List (Answer × LeaderView)}
    (henv : ∀ e ∈ env, e.1.isLate = false) {r : Except RpcError AdmitDatasetResponse}
    (hx : (admitDataset node c sha256 fuel request).exec env st = some (st', r)) :
    (∀ resp, r = .ok resp → resp.status = .accepted →
      ∃ epochs old new, resp.epochs = some epochs ∧
        Merged c (etcdTenantDatasetEpochKey request.tenantId request.datasetId)
          old epochs new st st') ∧
    ((∀ resp, r = .ok resp → resp.status = .rejected) → st' = st) := by
  have hw : (admitDataset node c sha256 fuel request).wp false
      (AdmitEnd c sha256 fuel request false st) st := admitDataset_wp hc st
  cases Prog.wp_sound hw (fun e he h => by simp [henv e he] at h) hx with
  | accepted hg hq hm =>
    refine ⟨?_, fun h => by simpa using h _ rfl⟩
    rintro resp ⟨⟩ -
    exact ⟨_, _, _, rfl, hm⟩
  | rejected context err =>
    refine ⟨?_, fun _ => rfl⟩
    rintro resp ⟨⟩ hs
    simp [rejected] at hs
  | failed err => exact ⟨by rintro resp ⟨⟩, fun _ => rfl⟩
  | late err hl => cases hl

def januarySha256 (input : List UInt8) : List UInt8 :=
  -- the digests of the texts hashed for 15 and 16 January 2024 without dimensions
  if input = "1705276800000".toUTF8.toList then
    [178, 189, 37, 41, 9, 11, 165, 148, 194, 182, 99, 247, 161, 123, 28, 12,
      234, 1, 110, 12, 185, 166, 52, 185, 12, 22, 102, 26, 110, 76, 202, 234]
  else if input = "1705363200000".toUTF8.toList then
    [104, 146, 90, 6, 162, 13, 96, 45, 99, 203, 42, 133, 94, 189, 171, 214,
      245, 136, 170, 149, 16, 126, 165, 113, 83, 43, 62, 235, 248, 226, 182, 52]
  else []

def januaryRequest (day days : Int64) : AdmitDatasetRequest where
  -- `days` daily epochs from midnight of `day` January 2024
  tenantId := "acme"
  datasetId := "sales"
  source := some ⟨some {
    timePartition := some ⟨some ⟨"dt", none⟩, some ⟨some ⟨1703980800 + 86400 * day, 0⟩,
      some ⟨1703980800 + 86400 * (day + days), 0⟩⟩⟩
    dimensionPartitions := [] }⟩
  epochGranularity := some ⟨1, .day⟩

def acmeStore (maxEpochs : Int32) : Store String Payload :=
  Store.empty.put (etcdTenantQuotaKey "acme") (.quota ⟨"acme", 10, maxEpochs, 1024⟩)

def leaderNode : NodeConfig := ⟨"cp-1", true⟩

def smoothRun (n : Nat) : List (Answer × LeaderView) :=
  List.replicate n (.done, ⟨true, "cp-1"⟩)

def januaryStore : Store String Payload :=
  (acmeStore 10).put (etcdTenantDatasetEpochKey "acme" "sales")
    (.epochs [⟨"1705190400000_f5a583", some ⟨some ⟨1705190400, 0⟩, some ⟨1705276800, 0⟩⟩, ∅⟩])

theorem admitDataset_allOrNothing_january :
    ∃ st' resp, (admitDataset leaderNode payloadCodec januarySha256 3 (januaryRequest 15 2)).exec
        (smoothRun 4) januaryStore = some (st', .ok resp) ∧ resp.status = .accepted ∧
      ∃ epochs old new, resp.epochs = some epochs ∧
        Merged payloadCodec (etcdTenantDatasetEpochKey "acme" "sales") old epochs new
          januaryStore st' := by
  obtain ⟨st', resp, hx, hs⟩ : ∃ st' resp, (admitDataset leaderNode payloadCodec januarySha256 3
      (januaryRequest 15 2)).exec (smoothRun 4) januaryStore = some (st', .ok resp) ∧
      resp.status = .accepted := ⟨_, _, rfl, rfl⟩
  refine ⟨st', resp, hx, hs, ?_⟩
  exact (admitDataset_allOrNothing payloadCodec_lawful (by decide) hx).1 resp rfl hs

end Leibrix.Management

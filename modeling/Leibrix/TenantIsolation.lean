import Leibrix.AdmitStore

/-! Which keys the two RPCs can write, and when the keys of two tenants are apart.
Neither RPC looks at the characters of an identifier, so the tenants whose data is
kept apart are those of which neither id continues the other with `/datasets`. -/
namespace Leibrix.Management
open Leibrix.Proto Leibrix.EpochGenerator Leibrix.KeyValue Leibrix.TenantKeys

variable {β : Type} {c : Codec β} {K : String → Prop}

inductive TenantKey (tenant : String) : String → Prop
  | quota : TenantKey tenant (etcdTenantQuotaKey tenant)
  | dataset {dataset : String} (hd : dataset ≠ "") :
      TenantKey tenant (etcdTenantDatasetEpochKey tenant dataset)

theorem requireLeader_writesOnly (node : NodeConfig) :
    (requireLeader node : Rpc β _).WritesOnly K := by
  unfold requireLeader
  split
  · intro view
    dsimp only
    split
    · trivial
    · intro view'
      dsimp only
      split <;> trivial
  · trivial

theorem getProtoMessage_writesOnly {α : Type} (unmarshal : β → Except String α) (key : String) :
    (getProtoMessage unmarshal key).WritesOnly K := by
  intro a
  cases a with
  | error err => trivial
  | ok kv? =>
    cases kv? with
    | none => trivial
    | some kv =>
      dsimp only
      split <;> trivial

theorem putProtoMessage_writesOnly {α : Type} (marshal : α → Except String β) {key : String}
    (msg : α) (hk : K key) : (putProtoMessage marshal key msg).WritesOnly K := by
  unfold putProtoMessage
  split
  · trivial
  · exact ⟨hk, fun _ => trivial⟩

theorem saveEpochs_writesOnly {request : AdmitDatasetRequest} (epochs : List EpochInfo)
    (hk : K (etcdTenantDatasetEpochKey request.tenantId request.datasetId)) :
    (saveEpochs c request epochs).WritesOnly K := by
  refine (getProtoMessage_writesOnly _ _).bind fun fetched => ?_
  cases fetched with
  | failed err => trivial
  | malformed err => trivial
  | absent err =>
    refine (putProtoMessage_writesOnly _ _ hk).bind fun stored => ?_
    cases stored <;> trivial
  | found existing kv =>
    dsimp only
    split
    · trivial
    · refine ⟨hk, fun a => ?_⟩
      rcases a with err | b
      · trivial
      · cases b <;> trivial

theorem admitWithQuota_writesOnly {request : AdmitDatasetRequest} (quota : TenantQuota)
    (generated : Outcome (List EpochInfo))
    (hk : K (etcdTenantDatasetEpochKey request.tenantId request.datasetId)) :
    (admitWithQuota c request quota generated).WritesOnly K := by
  cases generated with
  | hang => trivial
  | panic msg => trivial
  | err msg => trivial
  | ok epochs =>
    simp only [admitWithQuota]
    split
    · trivial
    · refine (saveEpochs_writesOnly epochs hk).bind fun saved => ?_
      cases saved <;> trivial

theorem admitDataset_writesOnly (node : NodeConfig) (sha256 : List UInt8 → List UInt8)
    (fuel : Nat) (request : AdmitDatasetRequest) :
    (admitDataset node c sha256 fuel request).WritesOnly (TenantKey request.tenantId) := by
  refine (requireLeader_writesOnly node).bind fun checked => ?_
  cases checked with
  | error err => trivial
  | ok u =>
    dsimp only
    split
    · trivial
    · rename_i hv
      -- validation has seen the dataset id that the key is made of
      obtain ⟨-, hd, -⟩ := validateAdmitRequest_ok_iff.mp hv
      refine (getProtoMessage_writesOnly _ _).bind fun fetched => ?_
      cases fetched with
      | failed err => trivial
      | absent err => trivial
      | malformed err => trivial
      | found quota kv => exact admitWithQuota_writesOnly quota _ (.dataset hd)

theorem upsertTenantQuota_writesOnly (node : NodeConfig) (request : TenantQuota) :
    (upsertTenantQuota node c request).WritesOnly (TenantKey request.tenantId) := by
  refine (requireLeader_writesOnly node).bind fun checked => ?_
  cases checked with
  | error err => trivial
  | ok u =>
    dsimp only
    split
    · trivial
    · split
      · trivial
      · refine (putProtoMessage_writesOnly _ _ .quota).bind fun stored => ?_
        cases stored <;> trivial

/-- No key of one tenant is a key of the other. -/
theorem tenantKey_disjoint_iff {a b : String} (hab : a ≠ b) :
    (∀ k, TenantKey a k → ¬ TenantKey b k) ↔ ¬ Nested a b ∧ ¬ Nested b a := by
  constructor
  · intro h
    refine ⟨fun hn => ?_, fun hn => ?_⟩
    · obtain ⟨⟨d, hd, hk⟩, -⟩ := hn.collides ""
      exact h _ (hk ▸ .dataset hd) .quota
    · obtain ⟨⟨d, hd, hk⟩, -⟩ := hn.collides ""
      exact h _ .quota (hk ▸ .dataset hd)
  · rintro ⟨h1, h2⟩ k ha hb
    cases ha with
    | quota =>
      generalize he : etcdTenantQuotaKey a = k at hb
      cases hb with
      | quota => exact hab (quotaKey_inj.mp he)
      | dataset hd => exact h2 (nested_of_quotaKey_eq he)
    | @dataset d hd =>
      generalize he : etcdTenantDatasetEpochKey a d = k at hb
      cases hb with
      | quota => exact h1 (nested_of_quotaKey_eq he.symm)
      | dataset => exact (nested_of_datasetKey_eq hab he).elim h1 h2

structure Isolated (c : Codec β) (a b : String) : Prop where
  -- what tenant `a` may do to the data of tenant `b`: nothing, in any store and however etcd
  -- answers; and the keys themselves tell tenants, datasets and quotas apart
  onAdmit : ∀ {node sha256 fuel request env st st' r}, request.tenantId = a →
    (admitDataset node c sha256 fuel request).exec env st = some (st', r) →
    ∀ k, TenantKey b k → st'.kvs k = st.kvs k
  onUpsert : ∀ {node request env st st' r}, request.tenantId = a →
    (upsertTenantQuota node c request).exec env st = some (st', r) →
    ∀ k, TenantKey b k → st'.kvs k = st.kvs k
  apart : ∀ k, TenantKey a k → ¬ TenantKey b k
  datasets : ∀ d e, etcdTenantDatasetEpochKey a d = etcdTenantDatasetEpochKey a e → d = e
  quota : ∀ d, etcdTenantQuotaKey a ≠ etcdTenantDatasetEpochKey a d

/-- Two tenants are isolated exactly when neither id continues the other one with
`/datasets`. -/
theorem isolated_iff {a b : String} (hab : a ≠ b) :
    Isolated c a b ↔ ¬ Nested a b ∧ ¬ Nested b a := by
  rw [← tenantKey_disjoint_iff hab]
  refine ⟨fun h => h.apart, fun h => ⟨?_, ?_, h, fun d e => datasetKey_inj.mp,
    quotaKey_ne_datasetKey a⟩⟩
  · rintro node sha256 fuel request env st st' r rfl hx k hk
    exact (admitDataset_writesOnly node sha256 fuel request).exec hx fun ha => h k ha hk
  · rintro node request env st st' r rfl hx k hk
    exact (upsertTenantQuota_writesOnly node request).exec hx fun ha => h k ha hk

theorem isolated_iff_acme_globex :
    "acme" ≠ "globex" ∧ Isolated payloadCodec "acme" "globex" := by
  have hab : "acme" ≠ "globex" := by decide
  exact ⟨hab, (isolated_iff hab).mpr (by decide)⟩

/-- Setting the quota of tenant `acme/datasets/sales` replaces the epochs of dataset
`sales/quota` of tenant `acme`. -/
theorem upsertTenantQuota_overwrites_dataset :
    "acme/datasets/sales" ≠ "acme" ∧
    ∃ st', (upsertTenantQuota leaderNode payloadCodec ⟨"acme/datasets/sales", 1, 1, 1⟩).exec
        (smoothRun 2) (Store.empty.put (etcdTenantDatasetEpochKey "acme" "sales/quota")
          (.epochs [])) = some (st', .ok { status := .success }) ∧
      TenantKey "acme" (etcdTenantDatasetEpochKey "acme" "sales/quota") ∧
      (st'.kvs (etcdTenantDatasetEpochKey "acme" "sales/quota")).map (·.value) =
        some (.quota ⟨"acme/datasets/sales", 1, 1, 1⟩) :=
  ⟨by decide, _, rfl, .dataset (by decide), rfl⟩

end Leibrix.Management

import Leibrix.TenantIsolation
import Leibrix.Transition
import Mathlib.Algebra.BigOperators.Group.Finset.Basic
import Mathlib.Algebra.Order.BigOperators.Group.Finset

/-! Sequences of admissions of one tenant. `AdmitDataset` compares the epochs of the
request at hand with the quota; what a tenant has stored already is not counted. -/
namespace Leibrix.Management
open Leibrix.Proto Leibrix.EpochGenerator Leibrix.KeyValue Leibrix.TenantKeys
open Leibrix.Transition

variable {β : Type} {c : Codec β} {sha256 : List UInt8 → List UInt8} {tenant : String}
  {quota : TenantQuota} {st st' : Store String β}

structure Call where
  -- one call of `AdmitDataset` with everything that decides how it goes
  node : NodeConfig
  fuel : Nat
  request : AdmitDatasetRequest
  env : List (Answer × LeaderView)

def Admits (c : Codec β) (sha256 : List UInt8 → List UInt8) (st : Store String β) (call : Call)
    (st' : Store String β) : Prop :=
  ∃ r, (admitDataset call.node c sha256 call.fuel call.request).exec call.env st = some (st', r)

def epochCount (c : Codec β) (st : Store String β) (tenant dataset : String) : Nat :=
  ((listed c st (etcdTenantDatasetEpochKey tenant dataset)).getD []).length

def total (c : Codec β) (st : Store String β) (tenant : String) (datasets : Finset String) : Nat :=
  ∑ dataset ∈ datasets, epochCount c st tenant dataset

structure QuotaOnly (c : Codec β) (tenant : String) (quota : TenantQuota)
    (st : Store String β) : Prop where
  -- nothing is stored for the tenant but a quota that limits its epochs
  positive : 0 < quota.maxEpochs
  stored : ∃ kv, st.kvs (etcdTenantQuotaKey tenant) = some kv ∧
    c.unmarshalQuota kv.value = .ok quota
  fresh : ∀ dataset, st.kvs (etcdTenantDatasetEpochKey tenant dataset) = none

def ForTenant (tenant : String) (_ : Store String β) (call : Call) : Prop :=
  call.request.tenantId = tenant

-- the epochs of a request that a stored list does not have yet; a list with repetitions is
-- stored with them
def notYetStored (c : Codec β) (old epochs : List EpochInfo) : Int :=
  epochs.length - (old.filter (containsEpoch c.equal epochs)).length

-- the call is one for the tenant, and it asks for more epochs than the quota allows, or what the
-- tenant has stored leaves room for those that are not stored yet
def HasRoom (c : Codec β) (sha256 : List UInt8 → List UInt8) (tenant : String)
    (quota : TenantQuota) (st : Store String β) (call : Call) : Prop :=
  call.request.tenantId = tenant ∧ ∀ epochs,
    generateEpochs sha256 call.fuel call.request = .ok epochs →
    quota.maxEpochs < Int32.ofNat epochs.length ∨
      ∀ old datasets,
        listed c st (etcdTenantDatasetEpochKey tenant call.request.datasetId) = some old →
        total c st tenant datasets + notYetStored c old epochs ≤ quota.maxEpochs.toInt

theorem total_merged {dataset : String} {old epochs new : List EpochInfo}
    (h : Merged c (etcdTenantDatasetEpochKey tenant dataset) old epochs new st st')
    (datasets : Finset String) :
    total c st' tenant datasets = total c st tenant datasets ∨
      total c st' tenant datasets = total c st tenant datasets + notYetStored c old epochs := by
  have hsame : ∀ d, d ≠ dataset → epochCount c st' tenant d = epochCount c st tenant d := by
    intro d hd
    have hk := h.others _ (fun he => hd (datasetKey_inj.mp he))
    simp only [epochCount, listed, hk]
  have hgrow : (epochCount c st' tenant dataset : Int) =
      epochCount c st tenant dataset + notYetStored c old epochs := by
    have hlen := h.length
    have hunion : (UpTo.union c.equal epochs old).length +
        (old.filter (containsEpoch c.equal epochs)).length = epochs.length + old.length :=
      UpTo.length_union
    simp only [epochCount, h.before, h.after, Option.getD_some, notYetStored]
    omega
  by_cases hd : dataset ∈ datasets
  · have hrest : ∑ d ∈ datasets.erase dataset, epochCount c st' tenant d =
        ∑ d ∈ datasets.erase dataset, epochCount c st tenant d :=
      Finset.sum_congr rfl fun d hm => hsame d (Finset.ne_of_mem_erase hm)
    right
    simp only [total, ← Finset.sum_erase_add datasets _ hd, hrest]
    push_cast
    omega
  · left
    exact Finset.sum_congr rfl fun d hm => hsame d fun he => hd (he ▸ hm)

theorem QuotaOnly.total_eq_zero (h : QuotaOnly c tenant quota st) (datasets : Finset String) :
    total c st tenant datasets = 0 :=
  Finset.sum_eq_zero fun d _ => by simp [epochCount, listed_of_none (h.fresh d)]

/-- However etcd answers, a call leaves the store alone or, if the quota lets them pass, unites
the epochs of its request into the list of its dataset. -/
theorem Admits.merged (hc : c.Lawful) {call : Call} (h : Admits c sha256 st call st') :
    st' = st ∨ ∃ epochs old new, generateEpochs sha256 call.fuel call.request = .ok epochs ∧
      PassesQuota c st call.request.tenantId epochs ∧
      Merged c (etcdTenantDatasetEpochKey call.request.tenantId call.request.datasetId)
        old epochs new st st' := by
  obtain ⟨r, hx⟩ := h
  have hw : (admitDataset call.node c sha256 call.fuel call.request).wp true
      (AdmitEnd c sha256 call.fuel call.request true st) st := admitDataset_wp hc st
  cases Prog.wp_sound hw (fun _ _ _ => rfl) hx with
  | accepted hg hq hm | late _ _ hg hq hm => exact .inr ⟨_, _, _, hg, hq, hm⟩
  | rejected | failed => exact .inl rfl

theorem PassesQuota.not_lt {epochs : List EpochInfo} (h : PassesQuota c st' tenant epochs)
    (hst : QuotaOnly c tenant quota st)
    (hkv : st'.kvs (etcdTenantQuotaKey tenant) = st.kvs (etcdTenantQuotaKey tenant)) :
    ¬quota.maxEpochs < Int32.ofNat epochs.length := by
  -- a list that passes is not longer than the quota, as far as 32 bits show its length
  obtain ⟨kv, quota', hk, hu, hpass⟩ := h
  obtain ⟨kv', hk', hu'⟩ := hst.stored
  obtain rfl : kv' = kv := Option.some.inj (hk'.symm.trans (hkv.symm.trans hk))
  obtain rfl : quota' = quota := Except.ok.inj (hu.symm.trans hu')
  simpa [exceedsQuota, hst.positive] using hpass

/-- In a run of admissions that each are refused for their number of epochs or find room, the
tenant's quota stays as it was and the epochs stored for the tenant never exceed it. -/
theorem total_le_maxEpochs (hc : c.Lawful) (hst : QuotaOnly c tenant quota st)
    (h : Reach (Admits c sha256) (HasRoom c sha256 tenant quota) st st') :
    st'.kvs (etcdTenantQuotaKey tenant) = st.kvs (etcdTenantQuotaKey tenant) ∧
      ∀ datasets, (total c st' tenant datasets : Int) ≤ quota.maxEpochs.toInt := by
  refine h.invariant
    (I := fun st' => st'.kvs (etcdTenantQuotaKey tenant) = st.kvs (etcdTenantQuotaKey tenant) ∧
      ∀ datasets, (total c st' tenant datasets : Int) ≤ quota.maxEpochs.toInt)
    ⟨rfl, fun datasets => ?_⟩ ?_
  · have hpos := Int32.lt_iff_toInt_lt.mp hst.positive
    rw [Int32.toInt_zero] at hpos
    rw [hst.total_eq_zero]
    omega
  · rintro st₁ call st₂ hI ⟨rfl, hroom⟩ hcall
    rcases hcall.merged hc with rfl | ⟨epochs, old, new, hg, hq, hm⟩
    · exact hI
    · refine ⟨(hm.others _ (quotaKey_ne_datasetKey _ _)).trans hI.1, fun datasets => ?_⟩
      have hroom := (hroom epochs hg).resolve_left (hq.not_lt hst hI.1) old datasets hm.before
      rcases total_merged hm datasets with he | he
      · rw [he]
        exact hI.2 datasets
      · rwa [he]

-- daily epochs of `acme` from 15 January on, in the given dataset
def dayCall (dataset : String) (days : Int64) : Call where
  node := leaderNode
  fuel := 3
  request := { januaryRequest 15 days with datasetId := dataset }
  env := smoothRun 4

theorem acmeStore_quotaOnly {maxEpochs : Int32} (h : 0 < maxEpochs) :
    QuotaOnly payloadCodec "acme" ⟨"acme", 10, maxEpochs, 1024⟩ (acmeStore maxEpochs) where
  positive := h
  stored := ⟨_, Store.put_kvs_self .., rfl⟩
  fresh _ := Store.put_kvs_of_ne _ _ (quotaKey_ne_datasetKey _ _).symm

/-- One epoch is admitted, two are too many, and the first one may come again. -/
theorem total_le_maxEpochs_january :
    ∃ st', Reach (Admits payloadCodec januarySha256)
        (HasRoom payloadCodec januarySha256 "acme" ⟨"acme", 10, 1, 1024⟩) (acmeStore 1) st' ∧
      epochCount payloadCodec st' "acme" "sales" = 1 ∧
      ∀ datasets, (total payloadCodec st' "acme" datasets : Int) ≤ 1 := by
  have hq : QuotaOnly payloadCodec "acme" ⟨"acme", 10, 1, 1024⟩ (acmeStore 1) :=
    acmeStore_quotaOnly (by decide)
  obtain ⟨e, st₁, st₂, hg, h₁, h₂, hl, hagain⟩ : ∃ e st₁ st₂,
      generateEpochs januarySha256 3 (dayCall "sales" 1).request = .ok [e] ∧
      Admits payloadCodec januarySha256 (acmeStore 1) (dayCall "sales" 1) st₁ ∧
      Admits payloadCodec januarySha256 st₁ (dayCall "sales" 2) st₂ ∧
      listed payloadCodec st₂ (etcdTenantDatasetEpochKey "acme" "sales") = some [e] ∧
      ((admitDataset leaderNode payloadCodec januarySha256 3 (dayCall "sales" 1).request).exec
        (smoothRun 4) st₂).map (fun p => epochCount payloadCodec p.1 "acme" "sales") = some 1 :=
    ⟨_, _, _, rfl, ⟨_, rfl⟩, ⟨_, rfl⟩, rfl, by decide +kernel⟩
  obtain ⟨⟨st₃, r⟩, hx, hcount⟩ := Option.map_eq_some_iff.mp hagain
  have h₃ : Admits payloadCodec januarySha256 st₂ (dayCall "sales" 1) st₃ := ⟨r, hx⟩
  have hroom₁ : HasRoom payloadCodec januarySha256 "acme" ⟨"acme", 10, 1, 1024⟩ (acmeStore 1)
      (dayCall "sales" 1) := by
    refine ⟨rfl, fun epochs he => .inr fun old datasets hold => ?_⟩
    obtain rfl : [e] = epochs := Outcome.ok.inj (hg.symm.trans he)
    obtain rfl : [] = old := Option.some.inj ((listed_of_none (hq.fresh "sales")).symm.trans hold)
    simp [hq.total_eq_zero, notYetStored]
  have hroom₂ : HasRoom payloadCodec januarySha256 "acme" ⟨"acme", 10, 1, 1024⟩ st₁
      (dayCall "sales" 2) := by
    refine ⟨rfl, fun epochs he => .inl ?_⟩
    obtain rfl : [_, _] = epochs := Outcome.ok.inj he
    decide
  have hr₂ := (Reach.refl.tail hroom₁ h₁).tail hroom₂ h₂
  have hroom₃ : HasRoom payloadCodec januarySha256 "acme" ⟨"acme", 10, 1, 1024⟩ st₂
      (dayCall "sales" 1) := by
    refine ⟨rfl, fun epochs he => .inr fun old datasets hold => ?_⟩
    obtain rfl : [e] = epochs := Outcome.ok.inj (hg.symm.trans he)
    obtain rfl : [e] = old := Option.some.inj (hl.symm.trans hold)
    have hstored := (total_le_maxEpochs payloadCodec_lawful hq hr₂).2 datasets
    simpa [notYetStored, containsEpoch, payloadCodec] using hstored
  have hr := hr₂.tail hroom₃ h₃
  exact ⟨st₃, hr, hcount, (total_le_maxEpochs payloadCodec_lawful hq hr).2⟩

/-- Two admissions of one epoch each pass a quota of one epoch. -/
theorem total_exceeds_maxEpochs :
    QuotaOnly payloadCodec "acme" ⟨"acme", 10, 1, 1024⟩ (acmeStore 1) ∧
    ∃ st', Reach (Admits payloadCodec januarySha256) (ForTenant "acme") (acmeStore 1) st' ∧
      total payloadCodec st' "acme" {"sales", "returns"} = 2 := by
  obtain ⟨st₁, st₂, h₁, h₂, hs, ht⟩ : ∃ st₁ st₂,
      Admits payloadCodec januarySha256 (acmeStore 1) (dayCall "sales" 1) st₁ ∧
      Admits payloadCodec januarySha256 st₁ (dayCall "returns" 1) st₂ ∧
      epochCount payloadCodec st₂ "acme" "sales" = 1 ∧
      epochCount payloadCodec st₂ "acme" "returns" = 1 :=
    ⟨_, _, ⟨_, rfl⟩, ⟨_, rfl⟩, rfl, rfl⟩
  have hfor : ∀ (st : Store String Payload) dataset,
      ForTenant "acme" st (dayCall dataset 1) := fun _ _ => rfl
  refine ⟨acmeStore_quotaOnly (by decide), st₂,
    (Reach.refl.tail (hfor _ "sales") h₁).tail (hfor _ "returns") h₂, ?_⟩
  rw [total, Finset.sum_pair (by decide), hs, ht]

end Leibrix.Management

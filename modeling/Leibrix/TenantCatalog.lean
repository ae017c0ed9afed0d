import Leibrix.AdmitRetry
import Leibrix.TenantIsolation
import Leibrix.Transition
import Mathlib.Data.Set.Basic

/-! What the two management RPCs are for: a catalog with a quota per tenant and a set of
epochs per dataset. Calls made one after the other behave as the catalog does, whatever lies
between: keys, encodings, the comparison that saves a write. Only a call that loses an answer
or its leadership may do less than it should, or more than it reports. -/
namespace Leibrix.TenantCatalog
open Leibrix.Proto Leibrix.EpochGenerator Leibrix.KeyValue Leibrix.TenantKeys Leibrix.Management
open Leibrix.Transition

structure Catalog where
  quota : String → Option TenantQuota
  epochs : String → String → Set EpochInfo

def Catalog.empty : Catalog := ⟨fun _ => none, fun _ _ => ∅⟩

def Catalog.setQuota (cat : Catalog) (quota : TenantQuota) : Catalog :=
  { cat with quota := Function.update cat.quota quota.tenantId (some quota) }

def Catalog.unite (equal : EpochInfo → EpochInfo → Bool) (cat : Catalog) (tenant dataset : String)
    (epochs : List EpochInfo) : Catalog :=
  -- epochs enter a set up to the equality of messages
  { cat with epochs := fun t d => { e | e ∈ cat.epochs t d ∨
      (t = tenant ∧ d = dataset) ∧ UpTo.Mem equal e epochs } }

inductive Request where
  | admission (request : AdmitDatasetRequest)
  | upsert (request : TenantQuota)

inductive Reply where
  | admission (r : Except RpcError AdmitDatasetResponse)
  | upsert (r : Except RpcError CommonResponse)

def Request.tenantId : Request → String
  | .admission request => request.tenantId
  | .upsert request => request.tenantId

def Request.error (err : RpcError) : Request → Reply
  | .admission _ => .admission (.error err)
  | .upsert _ => .upsert (.error err)

def Reply.Failed : Reply → Prop
  | .admission r => ∀ resp, r = .ok resp → resp.status = .rejected
  | .upsert r => ∀ resp, r = .ok resp → resp.status = .error

def Catalog.decision (cat : Catalog) (sha256 : List UInt8 → List UInt8) (fuel : Nat)
    (request : AdmitDatasetRequest) : Decision :=
  match validateAdmitRequest request with
  | .error err => .answer (.ok (rejected "validation failed: " err))
  | .ok () =>
    match cat.quota request.tenantId with
    | none => .answer (.ok (rejected "failed to retrieve tenant quota: "
        (notFoundText (etcdTenantQuotaKey request.tenantId))))
    | some tenantQuota => quotaDecision tenantQuota (generateEpochs sha256 fuel request)

def quotaFault (request : TenantQuota) : Option String :=
  if request.tenantId = "" then some "tenant_id cannot be empty"
  else if request.maxDatasets < 0 ∨ request.maxEpochs < 0 ∨ request.maxStorageMb < 0 then
    some "quota values cannot be negative"
  else none

def Catalog.serve (equal : EpochInfo → EpochInfo → Bool) (sha256 : List UInt8 → List UInt8)
    (fuel : Nat) (cat : Catalog) : Request → Option (Catalog × Reply)
  -- the catalog's own step; it gives none where the epoch generator does not return
  | .admission request =>
    match cat.decision sha256 fuel request with
    | .stuck => none
    | .answer r => some (cat, .admission r)
    | .save epochs => some (cat.unite equal request.tenantId request.datasetId epochs,
        .admission (.ok { status := .accepted, epochs := some epochs }))
  | .upsert request =>
    match quotaFault request with
    | some message => some (cat, .upsert (.ok { status := .error, message := message }))
    | none => some (cat.setQuota request, .upsert (.ok { status := .success }))

variable {β : Type} {c : Codec β} {sha256 : List UInt8 → List UInt8} {T : Set String}
  {st st' : Store String β} {cat cat' : Catalog} {node : NodeConfig} {view : LeaderView}
  {fuel : Nat}

def Request.prog (node : NodeConfig) (c : Codec β) (sha256 : List UInt8 → List UInt8)
    (fuel : Nat) : Request → Rpc β Reply
  | .admission request => do return .admission (← admitDataset node c sha256 fuel request)
  | .upsert request => do return .upsert (← upsertTenantQuota node c request)

structure Call where
  node : NodeConfig
  fuel : Nat
  request : Request
  env : List (Answer × LeaderView)

def Call.Smooth (call : Call) : Prop :=
  -- etcd carries out and reports whatever the call asks it for, and the node leads
  ∃ view, leaderAnswer call.node view = .ok () ∧ ∀ e ∈ call.env, e = (.done, view)

def Runs (c : Codec β) (sha256 : List UInt8 → List UInt8) (st : Store String β)
    (l : Call × Reply) (st' : Store String β) : Prop :=
  (l.1.request.prog l.1.node c sha256 l.1.fuel).exec l.1.env st = some (st', l.2)

inductive Serves (equal : EpochInfo → EpochInfo → Bool) (sha256 : List UInt8 → List UInt8)
    (cat : Catalog) : Call × Reply → Catalog → Prop
  -- A call on the catalog. A call that is not smooth may fail without effect, and may report an
  -- error for what was done.
  | served {call : Call} {r : Reply} {cat' : Catalog}
      (h : cat.serve equal sha256 call.fuel call.request = some (cat', r)) :
      Serves equal sha256 cat (call, r) cat'
  | failed {call : Call} {r : Reply} (hs : ¬call.Smooth) (hr : r.Failed) :
      Serves equal sha256 cat (call, r) cat
  | late {call : Call} {r : Reply} {cat' : Catalog} (hs : ¬call.Smooth)
      (h : cat.serve equal sha256 call.fuel call.request = some (cat', r)) (err : RpcError) :
      Serves equal sha256 cat (call, call.request.error err) cat'

structure Shows (c : Codec β) (T : Set String) (st : Store String β) (cat : Catalog) : Prop where
  -- the store holds the catalog's data of the tenants in `T`
  quota : ∀ t ∈ T, (st.kvs (etcdTenantQuotaKey t)).map (fun kv => c.unmarshalQuota kv.value) =
    (cat.quota t).map .ok
  epochs : ∀ t ∈ T, ∀ d, ∃ l, listed c st (etcdTenantDatasetEpochKey t d) = some l ∧
    ∀ e, e ∈ cat.epochs t d ↔ UpTo.Mem c.equal e l

theorem shows_empty : Shows c T Store.empty Catalog.empty := by
  refine ⟨fun t _ => rfl, fun t _ d => ⟨[], rfl, fun e => ?_⟩⟩
  simp [Catalog.empty, UpTo.Mem]

theorem listed_congr {key : String} (h : st'.kvs key = st.kvs key) :
    listed c st' key = listed c st key := by
  simp only [listed, h]

section Writes
variable (hT : ∀ a ∈ T, ∀ b ∈ T, ¬Nested a b)
include hT

theorem datasetKey_eq {t t' d d' : String} (ht : t ∈ T) (ht' : t' ∈ T)
    (h : etcdTenantDatasetEpochKey t d = etcdTenantDatasetEpochKey t' d') : t = t' ∧ d = d' := by
  by_cases he : t = t'
  · subst he
    exact ⟨rfl, datasetKey_inj.mp h⟩
  · rcases nested_of_datasetKey_eq he h with hn | hn
    · exact absurd hn (hT t ht t' ht')
    · exact absurd hn (hT t' ht' t ht)

theorem quotaKey_ne {t t' d : String} (ht : t ∈ T) (ht' : t' ∈ T) :
    etcdTenantQuotaKey t ≠ etcdTenantDatasetEpochKey t' d :=
  fun h => hT t' ht' t ht (nested_of_quotaKey_eq h)

/-- A union in the store is a union in the catalog. -/
theorem Shows.merged {tenant dataset : String} {old epochs new : List EpochInfo}
    (h : Shows c T st cat) (ht : tenant ∈ T)
    (hm : Merged c (etcdTenantDatasetEpochKey tenant dataset) old epochs new st st') :
    Shows c T st' (cat.unite c.equal tenant dataset epochs) := by
  refine ⟨fun t h' => ?_, fun t h' d => ?_⟩
  · rw [hm.others _ (quotaKey_ne hT h' ht)]
    exact h.quota t h'
  · obtain ⟨l, hl, hmem⟩ := h.epochs t h' d
    by_cases he : t = tenant ∧ d = dataset
    · obtain ⟨rfl, rfl⟩ := he
      obtain rfl : l = old := Option.some.inj (hl.symm.trans hm.before)
      refine ⟨new, hm.after, fun e => ?_⟩
      simp [Catalog.unite, hm.mem, hmem]
    · have hk : etcdTenantDatasetEpochKey t d ≠ etcdTenantDatasetEpochKey tenant dataset :=
        fun hk => he (datasetKey_eq hT h' ht hk)
      refine ⟨l, (listed_congr (hm.others _ hk)).trans hl, fun e => ?_⟩
      simp [Catalog.unite, hmem, he]

theorem Shows.put_quota {quota : TenantQuota} {b : β} (h : Shows c T st cat)
    (ht : quota.tenantId ∈ T) (hb : c.unmarshalQuota b = .ok quota) :
    Shows c T (st.put (etcdTenantQuotaKey quota.tenantId) b) (cat.setQuota quota) := by
  refine ⟨fun t h' => ?_, fun t h' d => ?_⟩
  · by_cases he : t = quota.tenantId
    · subst he
      simp [Catalog.setQuota, hb]
    · rw [st.put_kvs_of_ne b fun hk => he (quotaKey_inj.mp hk), h.quota t h']
      simp [Catalog.setQuota, Function.update_of_ne he]
  · obtain ⟨l, hl, hmem⟩ := h.epochs t h' d
    have hk := (quotaKey_ne (d := d) hT ht h').symm
    exact ⟨l, (listed_congr (st.put_kvs_of_ne b hk)).trans hl, hmem⟩

end Writes

/-- An undisturbed save of a list that can be read. -/
theorem saveEpochs_merges (view : LeaderView) (epochs : List EpochInfo) (hc : c.Lawful)
    {request : AdmitDatasetRequest} {old : List EpochInfo}
    (hl : listed c st (etcdTenantDatasetEpochKey request.tenantId request.datasetId) = some old) :
    ∃ st' new, (saveEpochs c request epochs).undisturbed view st = some (st', .ok ()) ∧
      Merged c (etcdTenantDatasetEpochKey request.tenantId request.datasetId)
        old epochs new st st' := by
  obtain ⟨new, hm⟩ := merged_put hc epochs hl
  cases hk : st.kvs (etcdTenantDatasetEpochKey request.tenantId request.datasetId) with
  | none =>
    obtain rfl : old = [] := by simpa [listed, hk] using hl.symm
    exact ⟨_, new, saveEpochs_absent hc hk, hm⟩
  | some kv =>
    have hu : c.unmarshalEpochs kv.value = .ok old := by
      cases hu : c.unmarshalEpochs kv.value with
      | error err => simp [listed, hk, hu, Except.toOption] at hl
      | ok l =>
        obtain rfl : l = old := by simpa [listed, hk, hu, Except.toOption] using hl
        rfl
    by_cases he : areEpochSlicesEqual c.equal old epochs = true
    · refine ⟨st, old, ?_, merged_self hc hk hu he⟩
      rw [saveEpochs_found hk hu, if_pos he]
    · refine ⟨_, new, ?_, hm⟩
      rw [saveEpochs_found hk hu, if_neg he]

theorem Shows.quota_found (h : Shows c T st cat) {tenant : String} {quota : TenantQuota}
    {kv : Versioned β} (ht : tenant ∈ T)
    (hf : st.kvs (etcdTenantQuotaKey tenant) = some kv ∧ c.unmarshalQuota kv.value = .ok quota) :
    cat.quota tenant = some quota := by
  simpa [hf.1, hf.2, eq_comm] using h.quota tenant ht

theorem Shows.admitDecision (h : Shows c T st cat) {request : AdmitDatasetRequest}
    (ht : request.tenantId ∈ T) (hl : leaderAnswer node view = .ok ()) :
    Management.admitDecision node view c.unmarshalQuota sha256 fuel request
      (st.kvs (etcdTenantQuotaKey request.tenantId)) = cat.decision sha256 fuel request := by
  have hq := h.quota _ ht
  unfold Management.admitDecision Catalog.decision
  rw [hl]
  cases validateAdmitRequest request with
  | error err => rfl
  | ok u =>
    cases hk : st.kvs (etcdTenantQuotaKey request.tenantId) with
    | none =>
      have hn : cat.quota request.tenantId = none := by simpa [hk] using hq.symm
      rw [hn]
      rfl
    | some kv =>
      obtain ⟨q, hn, hu⟩ : ∃ q, cat.quota request.tenantId = some q ∧
          c.unmarshalQuota kv.value = .ok q := by
        simpa [hk, Option.map_eq_some_iff, eq_comm] using hq.symm
      simp only [hn, fetched, hu]

section Upsert
variable {request : TenantQuota} (hl : leaderAnswer node view = .ok ())
include hl

theorem upsertTenantQuota_refused {message : String} (hf : quotaFault request = some message) :
    (upsertTenantQuota node c request).undisturbed view st =
      some (st, .ok { status := .error, message := message }) := by
  unfold upsertTenantQuota
  rw [Prog.bind_eq, Prog.undisturbed_bind, requireLeader_undisturbed, Option.bind_some, hl]
  unfold quotaFault at hf
  dsimp only
  split_ifs at hf ⊢
  · cases hf
    rfl
  · cases hf
    rfl

theorem upsertTenantQuota_stored {b : β} (hf : quotaFault request = none)
    (hb : c.marshalQuota request = .ok b) :
    (upsertTenantQuota node c request).undisturbed view st =
      some (st.put (etcdTenantQuotaKey request.tenantId) b, .ok { status := .success }) := by
  unfold upsertTenantQuota
  rw [Prog.bind_eq, Prog.undisturbed_bind, requireLeader_undisturbed, Option.bind_some, hl]
  unfold quotaFault at hf
  dsimp only
  split_ifs at hf ⊢
  simp only [putProtoMessage, hb]
  rfl

end Upsert

def Ended (c : Codec β) (T : Set String) (sha256 : List UInt8 → List UInt8) (fuel : Nat)
    (cat : Catalog) (request : Request) (st : Store String β) (r : Reply) : Prop :=
  (Shows c T st cat ∧ r.Failed) ∨
    ∃ cat' r', cat.serve c.equal sha256 fuel request = some (cat', r') ∧ Shows c T st cat' ∧
      (r = r' ∨ ∃ err, r = request.error err)

theorem failed_rejected (context err : String) :
    (Reply.admission (.ok (rejected context err))).Failed := by
  rintro resp ⟨⟩
  rfl

theorem failed_error (err : RpcError) : (Reply.admission (.error err)).Failed := by
  rintro resp ⟨⟩

section Calls
variable (hc : c.Lawful) (hT : ∀ a ∈ T, ∀ b ∈ T, ¬Nested a b)
include hc hT

/-- A call whose operations are all carried out does what the catalog does. -/
theorem Shows.undisturbed (sha256 : List UInt8 → List UInt8) (fuel : Nat) (h : Shows c T st cat)
    (request : Request) (ht : request.tenantId ∈ T) (hl : leaderAnswer node view = .ok ()) :
    Option.Rel (fun x y => Shows c T x.1 y.1 ∧ x.2 = y.2)
      ((request.prog node c sha256 fuel).undisturbed view st)
      (cat.serve c.equal sha256 fuel request) := by
  cases request with
  | admission request =>
    simp only [Request.prog, Prog.bind_eq, Prog.undisturbed_bind, admitDataset_undisturbed,
      h.admitDecision ht hl, Catalog.serve]
    cases cat.decision sha256 fuel request with
    | stuck => exact .none
    | answer r => exact .some ⟨h, rfl⟩
    | save epochs =>
      obtain ⟨old, hold, -⟩ := h.epochs _ ht request.datasetId
      obtain ⟨st', new, hx, hm⟩ := saveEpochs_merges view epochs hc hold
      simp only [Decision.run, hx]
      exact .some ⟨h.merged hT ht hm, rfl⟩
  | upsert request =>
    simp only [Request.prog, Prog.bind_eq, Prog.undisturbed_bind, Catalog.serve]
    cases hf : quotaFault request with
    | some message =>
      rw [upsertTenantQuota_refused hl hf]
      exact .some ⟨h, rfl⟩
    | none =>
      obtain ⟨b, hb, hu⟩ := hc.quota request
      rw [upsertTenantQuota_stored hl hf hb]
      exact .some ⟨h.put_quota hT ht hu, rfl⟩

theorem Shows.admitWithQuota_wp (h : Shows c T st cat) {request : AdmitDatasetRequest}
    {quota : TenantQuota} (ht : request.tenantId ∈ T)
    (hd : cat.decision sha256 fuel request =
      quotaDecision quota (generateEpochs sha256 fuel request)) :
    (admitWithQuota c request quota (generateEpochs sha256 fuel request)).wp true
      (fun st' r => Ended c T sha256 fuel cat (.admission request) st' (.admission r)) st := by
  cases hg : generateEpochs sha256 fuel request with
  | hang => trivial
  | panic msg => trivial
  | err msg => exact .inl ⟨h, failed_rejected _ _⟩
  | ok epochs =>
    rw [hg] at hd
    simp only [admitWithQuota, quotaDecision] at hd ⊢
    split_ifs at hd ⊢
    · exact .inl ⟨h, failed_rejected _ _⟩
    · have hserve : cat.serve c.equal sha256 fuel (.admission request) =
          some (cat.unite c.equal request.tenantId request.datasetId epochs,
            .admission (.ok { status := .accepted, epochs := some epochs })) := by
        simp only [Catalog.serve, hd]
      rw [Prog.bind_eq, Prog.wp_bind]
      refine Prog.wp_mono (saveEpochs_wp hc request epochs st) ?_
      intro st' saved hs
      cases saved with
      | error err =>
        rcases hs with rfl | ⟨-, old, new, hm⟩
        · exact .inl ⟨h, failed_error _⟩
        · exact .inr ⟨_, _, hserve, h.merged hT ht hm, .inr ⟨_, rfl⟩⟩
      | ok u =>
        obtain ⟨old, new, hm⟩ := hs
        exact .inr ⟨_, _, hserve, h.merged hT ht hm, .inl rfl⟩

theorem Shows.admitDataset_wp (h : Shows c T st cat) {request : AdmitDatasetRequest}
    (ht : request.tenantId ∈ T) :
    (admitDataset node c sha256 fuel request).wp true
      (fun st' r => Ended c T sha256 fuel cat (.admission request) st' (.admission r)) st := by
  rw [admitDataset, Prog.bind_eq, Prog.wp_bind]
  refine Prog.wp_mono (requireLeader_wp node st) ?_
  rintro st₁ checked rfl
  cases checked with
  | error err => exact .inl ⟨h, failed_error _⟩
  | ok u =>
    dsimp only
    split
    · exact .inl ⟨h, failed_rejected _ _⟩
    · rename_i hv
      rw [Prog.bind_eq, Prog.wp_bind]
      refine Prog.wp_mono (getProtoMessage_wp _ _ st₁) ?_
      rintro st₂ fetched ⟨rfl, hf⟩
      cases fetched with
      | failed err | absent err | malformed err => exact .inl ⟨h, failed_rejected _ _⟩
      | found quota kv =>
        refine h.admitWithQuota_wp hc hT ht ?_
        rw [Catalog.decision, hv, h.quota_found ht hf]

theorem Shows.upsertTenantQuota_wp (h : Shows c T st cat) {request : TenantQuota}
    (ht : request.tenantId ∈ T) :
    (upsertTenantQuota node c request).wp true
      (fun st' r => Ended c T sha256 fuel cat (.upsert request) st' (.upsert r)) st := by
  rw [upsertTenantQuota, Prog.bind_eq, Prog.wp_bind]
  refine Prog.wp_mono (requireLeader_wp node st) ?_
  rintro st₁ checked rfl
  cases checked with
  | error err => exact .inl ⟨h, fun resp he => by cases he⟩
  | ok u =>
    obtain ⟨b, hb, hu⟩ := hc.quota request
    dsimp only
    split_ifs with hid hneg
    · exact .inl ⟨h, fun resp he => by cases he; rfl⟩
    · exact .inl ⟨h, fun resp he => by cases he; rfl⟩
    · have hserve : cat.serve c.equal sha256 fuel (.upsert request) =
          some (cat.setQuota request, .upsert (.ok { status := .success })) := by
        simp only [Catalog.serve, quotaFault, if_neg hid, if_neg hneg]
      have hs := h.put_quota hT ht hu
      simp only [putProtoMessage, hb]
      refine ⟨.inr ⟨_, _, hserve, hs, .inl rfl⟩, fun e => ⟨.inl ⟨h, fun resp he => by cases he⟩,
        fun _ => .inr ⟨_, _, hserve, hs, .inr ⟨_, rfl⟩⟩⟩⟩

theorem Shows.wp (h : Shows c T st cat) (request : Request) (ht : request.tenantId ∈ T) :
    (request.prog node c sha256 fuel).wp true (Ended c T sha256 fuel cat request) st := by
  cases request with
  | admission request =>
    rw [Request.prog, Prog.bind_eq, Prog.wp_bind]
    exact h.admitDataset_wp hc hT ht
  | upsert request =>
    rw [Request.prog, Prog.bind_eq, Prog.wp_bind]
    exact h.upsertTenantQuota_wp hc hT ht

/-- One call: what the store shows follows the catalog. -/
theorem Shows.step (h : Shows c T st cat) {l : Call × Reply} (ht : l.1.request.tenantId ∈ T)
    (hx : Runs c sha256 st l st') :
    ∃ cat', Serves c.equal sha256 cat l cat' ∧ Shows c T st' cat' := by
  obtain ⟨call, r⟩ := l
  by_cases hs : call.Smooth
  · obtain ⟨view, hl, henv⟩ := hs
    have hrel := h.undisturbed hc hT sha256 call.fuel call.request ht hl
    rw [Prog.undisturbed_of_exec henv hx] at hrel
    generalize hserve : cat.serve c.equal sha256 call.fuel call.request = y at hrel
    cases hrel with
    | @some x y hy =>
      obtain ⟨hshow, hr⟩ := hy
      obtain rfl : r = y.2 := hr
      exact ⟨y.1, .served hserve, hshow⟩
  · cases Prog.wp_sound (h.wp hc hT call.request ht) (fun _ _ _ => rfl) hx with
    | inl he => exact ⟨cat, .failed hs he.2, he.1⟩
    | inr he =>
      obtain ⟨cat', r', hserve, hshow, rfl | ⟨err, rfl⟩⟩ := he
      · exact ⟨cat', .served hserve, hshow⟩
      · exact ⟨cat', .late hs hserve err, hshow⟩

/-- Calls made one after the other from an empty store, for tenants none of which is nested
in another: some run of the catalog has the same requests and replies, the store shows the
catalog it ends in, and the next call returns what that catalog replies, if it replies,
given a leader and answers enough. -/
theorem rpcs_refine_catalog {log : List (Call × Reply)}
    (hlog : ∀ l ∈ log, l.1.request.tenantId ∈ T)
    (h : Trace (Runs c sha256) Store.empty log st) :
    ∃ cat, Trace (Serves c.equal sha256) Catalog.empty log cat ∧ Shows c T st cat ∧
      ∀ node view fuel request, leaderAnswer node view = .ok () → request.tenantId ∈ T →
        ∃ n, ∀ m, n ≤ m →
          ((request.prog node c sha256 fuel).exec (List.replicate m (.done, view)) st).map (·.2) =
            (cat.serve c.equal sha256 fuel request).map (·.2) := by
  obtain ⟨cat, htrace, hshow⟩ := h.simulated shows_empty fun l hl st st' cat hs hx =>
    hs.step hc hT (hlog l hl) hx
  refine ⟨cat, htrace, hshow, fun node view fuel request hl ht => ?_⟩
  obtain ⟨n, hn⟩ := Prog.exec_undisturbed view (request.prog node c sha256 fuel) st
  refine ⟨n, fun m hm => ?_⟩
  rw [hn m hm]
  have hrel := hshow.undisturbed hc hT sha256 fuel request ht hl
  generalize (request.prog node c sha256 fuel).undisturbed view st = x at hrel ⊢
  generalize cat.serve c.equal sha256 fuel request = y at hrel ⊢
  cases hrel with
  | none => rfl
  | some hy => exact congrArg some hy.2

end Calls

def acmeCalls (resp : AdmitDatasetResponse) : List (Call × Reply) :=
  -- a quota, an admission, and an admission whose write is carried out but reported lost
  [(⟨leaderNode, 0, .upsert ⟨"acme", 10, 10, 1024⟩, smoothRun 2⟩,
      .upsert (.ok { status := .success })),
    (⟨leaderNode, 3, .admission (januaryRequest 15 1), smoothRun 4⟩, .admission (.ok resp)),
    (⟨leaderNode, 3, .admission (januaryRequest 15 2),
        smoothRun 3 ++ [(.late "timeout", ⟨true, "cp-1"⟩)]⟩,
      .admission (.error (.save (.commitFailed "timeout"))))]

theorem rpcs_refine_catalog_acme :
    ∃ resp st cat, resp.status = .accepted ∧
      Trace (Runs payloadCodec januarySha256) Store.empty (acmeCalls resp) st ∧
      Trace (Serves payloadCodec.equal januarySha256) Catalog.empty (acmeCalls resp) cat ∧
      Shows payloadCodec {"acme"} st cat := by
  obtain ⟨resp, st, hresp, htrace⟩ : ∃ resp st, resp.status = .accepted ∧
      Trace (Runs payloadCodec januarySha256) Store.empty (acmeCalls resp) st := by
    refine ⟨?r, ?w, ?d, .snoc (t := ?y) (.snoc (t := ?x) (.snoc .nil ?a) ?b) ?c⟩
    case a => exact rfl
    case b => exact rfl
    case c => exact rfl
    case d => rfl
  have hapart : ∀ a ∈ ({"acme"} : Set String), ∀ b ∈ ({"acme"} : Set String), ¬Nested a b := by
    rintro a rfl b rfl
    decide
  obtain ⟨cat, hcat, hshow, -⟩ := rpcs_refine_catalog payloadCodec_lawful hapart
    (by simp [acmeCalls, Request.tenantId, januaryRequest]) htrace
  exact ⟨resp, st, cat, hresp, htrace, hcat, hshow⟩

end Leibrix.TenantCatalog

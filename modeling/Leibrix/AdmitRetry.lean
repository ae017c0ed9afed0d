import Leibrix.AdmitStore
import Leibrix.MapRanges
import Leibrix.SliceEnds

/-! An admission that is sent twice. Up to `saveEpochs` the answer depends on the leadership,
the request and the tenant's quota only; the save unites lists, and a second union with the
same epochs changes nothing. -/
namespace Leibrix.Management
open Leibrix.Proto Leibrix.EpochGenerator Leibrix.KeyValue Leibrix.TenantKeys

variable {β : Type} {c c' : Codec β} {st st' : Store String β} {key : String}
  {epochs old : List EpochInfo}

structure Codec.Alike (c c' : Codec β) : Prop where
  -- two runs of the protobuf library: `Marshal` writes a map field in any order, so the bytes may
  -- differ, but they decode alike and compare alike
  epochs : c'.unmarshalEpochs = c.unmarshalEpochs
  quota : c'.unmarshalQuota = c.unmarshalQuota
  equal : c'.equal = c.equal

def admitDatasetIn (node : NodeConfig) (c : Codec β) (sha256 : List UInt8 → List UInt8)
    (orders : RunOrders) (fuel : Nat) (request : AdmitDatasetRequest) :
    Rpc β (Except RpcError AdmitDatasetResponse) := do
  match ← requireLeader node with
  | .error err => return .error err
  | .ok () =>
    match validateAdmitRequest request with
    | .error err => return .ok (rejected "validation failed: " err)
    | .ok () =>
      match ← getProtoMessage c.unmarshalQuota (etcdTenantQuotaKey request.tenantId) with
      | .failed err | .absent err | .malformed err =>
        return .ok (rejected "failed to retrieve tenant quota: " err)
      | .found tenantQuota _ =>
        admitWithQuota c request tenantQuota (generateEpochsIn sha256 orders fuel request)

/-- The orders do not show in what the call does. -/
theorem admitDatasetIn_eq (node : NodeConfig) (c : Codec β) (sha256 : List UInt8 → List UInt8)
    (orders : RunOrders) (fuel : Nat) (request : AdmitDatasetRequest) :
    admitDatasetIn node c sha256 orders fuel request =
      admitDataset node c sha256 fuel request := by
  unfold admitDatasetIn
  rw [generateEpochsIn_eq]
  rfl

structure SameList (c : Codec β) (key : String) (st st' : Store String β) : Prop where
  -- the list at `key` is the same epoch by epoch, and the other keys are as they were
  present : (st'.kvs key).isSome = (st.kvs key).isSome
  list : Option.Rel (UpTo.Same c.equal) (listed c st' key) (listed c st key)
  others : ∀ k, k ≠ key → st'.kvs k = st.kvs k

theorem SameList.refl (hc : c.Lawful) (key : String) (st : Store String β) :
    SameList c key st st := by
  refine ⟨rfl, ?_, fun _ _ => rfl⟩
  cases listed c st key with
  | none => exact .none
  | some l => exact .some (UpTo.Same.refl hc.equal l)

section Decision
variable {node : NodeConfig} {view : LeaderView} {sha256 : List UInt8 → List UInt8} {fuel : Nat}
  {request : AdmitDatasetRequest}

def leaderAnswer (node : NodeConfig) (view : LeaderView) : Except RpcError Unit :=
  if node.hasLeadership ∧ view.isLeader = false then
    if view.leaderName = "" then
      .error (.status .unavailable "control plane leader is not ready yet")
    else .error (.status .failedPrecondition (notLeaderText node.nodeName view.leaderName))
  else .ok ()

def fetched {α : Type} (unmarshal : β → Except String α) (key : String) :
    Option (Versioned β) → Fetched β α
  | none => .absent (notFoundText key)
  | some kv =>
    match unmarshal kv.value with
    | .error err => .malformed err
    | .ok msg => .found msg kv

inductive Decision where
  | answer (r : Except RpcError AdmitDatasetResponse)
  | stuck
  | save (epochs : List EpochInfo)

def quotaDecision (tenantQuota : TenantQuota) : Outcome (List EpochInfo) → Decision
  | .hang => .stuck
  | .panic _ => .stuck
  | .err err => .answer (.ok (rejected "epoch generation failed: " err))
  | .ok epochs =>
    if exceedsQuota tenantQuota epochs then
      .answer (.ok (rejected "" (quotaExceededText epochs.length tenantQuota.maxEpochs)))
    else .save epochs

def admitDecision (node : NodeConfig) (view : LeaderView)
    (unmarshalQuota : β → Except String TenantQuota) (sha256 : List UInt8 → List UInt8)
    (fuel : Nat) (request : AdmitDatasetRequest) (quota : Option (Versioned β)) : Decision :=
  match leaderAnswer node view with
  | .error err => .answer (.error err)
  | .ok () =>
    match validateAdmitRequest request with
    | .error err => .answer (.ok (rejected "validation failed: " err))
    | .ok () =>
      match fetched unmarshalQuota (etcdTenantQuotaKey request.tenantId) quota with
      | .failed err | .absent err | .malformed err =>
        .answer (.ok (rejected "failed to retrieve tenant quota: " err))
      | .found tenantQuota _ => quotaDecision tenantQuota (generateEpochs sha256 fuel request)

def saveAnswer (epochs : List EpochInfo) :
    Except SaveError Unit → Except RpcError AdmitDatasetResponse
  | .error err => .error (.save err)
  | .ok () => .ok { status := .accepted, epochs := some epochs }

def Decision.run (c : Codec β) (view : LeaderView) (request : AdmitDatasetRequest)
    (st : Store String β) :
    Decision → Option (Store String β × Except RpcError AdmitDatasetResponse)
  | .answer r => some (st, r)
  | .stuck => none
  | .save epochs => ((saveEpochs c request epochs).undisturbed view st).map
      fun q => (q.1, saveAnswer epochs q.2)

theorem requireLeader_undisturbed :
    (requireLeader node).undisturbed view st = some (st, leaderAnswer node view) := by
  unfold requireLeader leaderAnswer
  cases hl : node.hasLeadership <;> cases hv : view.isLeader <;>
    by_cases hn : view.leaderName = "" <;> simp [Prog.undisturbed, hv, hn]

theorem getProtoMessage_undisturbed {α : Type} (unmarshal : β → Except String α) :
    (getProtoMessage unmarshal key).undisturbed view st =
      some (st, fetched unmarshal key (st.kvs key)) := by
  simp only [getProtoMessage, Prog.undisturbed]
  cases hk : st.kvs key with
  | none => rfl
  | some kv => cases hu : unmarshal kv.value <;> simp [fetched, hu, Prog.undisturbed]

theorem admitWithQuota_undisturbed (tenantQuota : TenantQuota)
    (generated : Outcome (List EpochInfo)) :
    (admitWithQuota c request tenantQuota generated).undisturbed view st =
      (quotaDecision tenantQuota generated).run c view request st := by
  cases generated with
  | hang | panic msg | err msg => rfl
  | ok epochs =>
    simp only [admitWithQuota, quotaDecision]
    split_ifs
    · rfl
    · rw [Prog.bind_eq, Prog.undisturbed_bind, Decision.run]
      cases (saveEpochs c request epochs).undisturbed view st with
      | none => rfl
      | some q =>
        obtain ⟨st', saved⟩ := q
        cases saved <;> rfl

theorem admitDataset_undisturbed :
    (admitDataset node c sha256 fuel request).undisturbed view st =
      (admitDecision node view c.unmarshalQuota sha256 fuel request
        (st.kvs (etcdTenantQuotaKey request.tenantId))).run c view request st := by
  unfold admitDataset admitDecision
  rw [Prog.bind_eq, Prog.undisturbed_bind, requireLeader_undisturbed, Option.bind_some]
  cases leaderAnswer node view with
  | error err => rfl
  | ok u =>
    dsimp only
    cases validateAdmitRequest request with
    | error err => rfl
    | ok u =>
      dsimp only
      rw [Prog.bind_eq, Prog.undisturbed_bind, getProtoMessage_undisturbed, Option.bind_some]
      cases fetched c.unmarshalQuota (etcdTenantQuotaKey request.tenantId)
          (st.kvs (etcdTenantQuotaKey request.tenantId)) with
      | failed err | absent err | malformed err => rfl
      | found tenantQuota kv =>
        exact admitWithQuota_undisturbed tenantQuota _

theorem quotaDecision_stuck {tenantQuota : TenantQuota} {generated : Outcome (List EpochInfo)}
    (h : quotaDecision tenantQuota generated = .stuck) : ¬generated.Returned := by
  cases generated with
  | hang | panic msg => exact id
  | err msg => simp [quotaDecision] at h
  | ok epochs =>
    simp only [quotaDecision] at h
    split_ifs at h

theorem admitDecision_stuck {unmarshalQuota : β → Except String TenantQuota}
    {quota : Option (Versioned β)}
    (h : admitDecision node view unmarshalQuota sha256 fuel request quota = .stuck) :
    ¬(generateEpochs sha256 fuel request).Returned := by
  unfold admitDecision at h
  split at h
  · simp at h
  · split at h
    · simp at h
    · split at h
      · simp at h
      · simp at h
      · simp at h
      · exact quotaDecision_stuck h

end Decision

section Saving
variable {view : LeaderView} {request : AdmitDatasetRequest} {kv : Versioned β}
  {l : List EpochInfo}

theorem saveEpochs_absent (hc : c.Lawful)
    (hk : st.kvs (etcdTenantDatasetEpochKey request.tenantId request.datasetId) = none) :
    (saveEpochs c request epochs).undisturbed view st =
      some (st.put (etcdTenantDatasetEpochKey request.tenantId request.datasetId)
        (c.bytesOf epochs), .ok ()) := by
  rw [saveEpochs, Prog.bind_eq, Prog.undisturbed_bind, getProtoMessage_undisturbed, hk]
  simp only [Option.bind_some, fetched, putProtoMessage, hc.marshalEpochs]
  rfl

theorem saveEpochs_malformed {err : String}
    (hk : st.kvs (etcdTenantDatasetEpochKey request.tenantId request.datasetId) = some kv)
    (hu : c.unmarshalEpochs kv.value = .error err) :
    (saveEpochs c request epochs).undisturbed view st = some (st, .error (.getFailed err)) := by
  rw [saveEpochs, Prog.bind_eq, Prog.undisturbed_bind, getProtoMessage_undisturbed, hk]
  simp only [Option.bind_some, fetched, hu]
  rfl

theorem saveEpochs_found
    (hk : st.kvs (etcdTenantDatasetEpochKey request.tenantId request.datasetId) = some kv)
    (hu : c.unmarshalEpochs kv.value = .ok l) :
    (saveEpochs c request epochs).undisturbed view st =
      some (if areEpochSlicesEqual c.equal l epochs then st
        else st.put (etcdTenantDatasetEpochKey request.tenantId request.datasetId)
          (c.bytesOf (mergeEpochs c.equal epochs l)), .ok ()) := by
  rw [saveEpochs, Prog.bind_eq, Prog.undisturbed_bind, getProtoMessage_undisturbed, hk]
  simp only [Option.bind_some, fetched, hu]
  split_ifs with he
  · rfl
  · simp only [Prog.undisturbed, Store.modRevision_of_some hk, if_true]

/-- A list that holds the union is read back as the union, and united once more it is what
was read. -/
theorem saveEpochs_again (hc : c.Lawful)
    (hk : st.kvs (etcdTenantDatasetEpochKey request.tenantId request.datasetId) = some kv)
    (hu : c.unmarshalEpochs kv.value = .ok l)
    (hs : UpTo.Same c.equal l (UpTo.union c.equal epochs old)) :
    ∃ st', (saveEpochs c request epochs).undisturbed view st = some (st', .ok ()) ∧
      SameList c (etcdTenantDatasetEpochKey request.tenantId request.datasetId) st st' := by
  refine ⟨_, saveEpochs_found hk hu, ?_⟩
  split_ifs
  · exact SameList.refl hc _ st
  · obtain ⟨l', hu', hs'⟩ := hc.merge epochs l
    have hunion := UpTo.Same.union hc.equal epochs hs
    rw [UpTo.union_union hc.equal] at hunion
    have hsame := (hs'.trans hc.equal hunion).trans hc.equal (hs.symm hc.equal)
    refine ⟨by simp [hk], ?_, fun k hne => st.put_kvs_of_ne _ hne⟩
    have hput : listed c (st.put (etcdTenantDatasetEpochKey request.tenantId request.datasetId)
        (c.bytesOf (mergeEpochs c.equal epochs l)))
        (etcdTenantDatasetEpochKey request.tenantId request.datasetId) = some l' :=
      listed_of_some (Store.put_kvs_self ..) hu'
    rw [listed_of_some hk hu, hput]
    exact .some hsame

theorem Codec.Alike.sameList (ha : Codec.Alike c c') (h : SameList c' key st st') :
    SameList c key st st' := by
  obtain ⟨hp, hl, ho⟩ := h
  refine ⟨hp, ?_, ho⟩
  simpa only [listed, ha.epochs, ha.equal] using hl

theorem saveEpochs_put (hc' : c'.Lawful) (ha : Codec.Alike c c') {b : β}
    (hu : c.unmarshalEpochs b = .ok l)
    (hs : UpTo.Same c.equal l (UpTo.union c.equal epochs old)) :
    ∃ st₂, (saveEpochs c' request epochs).undisturbed view
        (st.put (etcdTenantDatasetEpochKey request.tenantId request.datasetId) b) =
          some (st₂, .ok ()) ∧
      SameList c (etcdTenantDatasetEpochKey request.tenantId request.datasetId)
        (st.put (etcdTenantDatasetEpochKey request.tenantId request.datasetId) b) st₂ := by
  rw [← ha.epochs] at hu
  rw [← ha.equal] at hs
  obtain ⟨st₂, hx, hsame⟩ := saveEpochs_again hc' (Store.put_kvs_self ..) hu hs
  exact ⟨st₂, hx, ha.sameList hsame⟩

/-- Whatever path the first save takes, the second one keeps the list. -/
theorem saveEpochs_twice (hc : c.Lawful) (hc' : c'.Lawful) (ha : Codec.Alike c c')
    (view : LeaderView) (request : AdmitDatasetRequest) (epochs : List EpochInfo)
    (st : Store String β) :
    ∃ st₁ st₂ r, (saveEpochs c request epochs).undisturbed view st = some (st₁, r) ∧
      (saveEpochs c' request epochs).undisturbed view st₁ = some (st₂, r) ∧
      (∀ k, k ≠ etcdTenantDatasetEpochKey request.tenantId request.datasetId →
        st₁.kvs k = st.kvs k) ∧
      SameList c (etcdTenantDatasetEpochKey request.tenantId request.datasetId) st₁ st₂ := by
  cases hk : st.kvs (etcdTenantDatasetEpochKey request.tenantId request.datasetId) with
  | none =>
    obtain ⟨l, hu, hs⟩ := hc.bytesOf epochs
    have hunion : UpTo.Same c.equal l (UpTo.union c.equal epochs []) := by
      simpa [UpTo.union] using hs
    obtain ⟨st₂, hx, hsame⟩ := saveEpochs_put hc' ha hu hunion
    exact ⟨_, st₂, _, saveEpochs_absent hc hk, hx, fun k hne => st.put_kvs_of_ne _ hne, hsame⟩
  | some kv =>
    cases hu : c.unmarshalEpochs kv.value with
    | error err =>
      have hu' : c'.unmarshalEpochs kv.value = .error err := by rw [ha.epochs, hu]
      exact ⟨st, st, _, saveEpochs_malformed hk hu, saveEpochs_malformed hk hu',
        fun _ _ => rfl, .refl hc _ st⟩
    | ok l =>
      have hu' : c'.unmarshalEpochs kv.value = .ok l := by rw [ha.epochs, hu]
      by_cases he : areEpochSlicesEqual c.equal l epochs
      · refine ⟨st, st, .ok (), ?_, ?_, fun _ _ => rfl, .refl hc _ st⟩
        · rw [saveEpochs_found hk hu, if_pos he]
        · rw [saveEpochs_found hk hu', ha.equal, if_pos he]
      · obtain ⟨l', hm, hs⟩ := hc.merge epochs l
        obtain ⟨st₂, hx, hsame⟩ := saveEpochs_put hc' ha hm hs
        refine ⟨_, st₂, .ok (), ?_, hx, fun k hne => st.put_kvs_of_ne _ hne, hsame⟩
        rw [saveEpochs_found hk hu, if_neg he]

end Saving

section Calls
variable (node : NodeConfig) (view : LeaderView) (sha256 : List UInt8 → List UInt8)
  (orders orders' : RunOrders) (fuel : Nat) (request : AdmitDatasetRequest)
  (st : Store String β)

theorem admitDataset_twice (hc : c.Lawful) (hc' : c'.Lawful) (ha : Codec.Alike c c') :
    (¬(generateEpochs sha256 fuel request).Returned ∧
      (admitDataset node c sha256 fuel request).undisturbed view st = none ∧
      (admitDataset node c' sha256 fuel request).undisturbed view st = none) ∨
    ∃ st₁ st₂ r,
      (admitDataset node c sha256 fuel request).undisturbed view st = some (st₁, r) ∧
      (admitDataset node c' sha256 fuel request).undisturbed view st₁ = some (st₂, r) ∧
      SameList c (etcdTenantDatasetEpochKey request.tenantId request.datasetId) st₁ st₂ := by
  -- the first call does not touch the quota, so the second comes to the same decision
  simp only [admitDataset_undisturbed, ha.quota]
  cases hd : admitDecision node view c.unmarshalQuota sha256 fuel request
      (st.kvs (etcdTenantQuotaKey request.tenantId)) with
  | stuck => exact .inl ⟨admitDecision_stuck hd, rfl, rfl⟩
  | answer r =>
    refine .inr ⟨st, st, r, rfl, ?_, .refl hc _ st⟩
    rw [hd]
    rfl
  | save epochs =>
    obtain ⟨st₁, st₂, r, hx, hx', hothers, hsame⟩ :=
      saveEpochs_twice hc hc' ha view request epochs st
    refine .inr ⟨st₁, st₂, saveAnswer epochs r, ?_, ?_, hsame⟩
    · rw [Decision.run, hx]
      rfl
    · rw [hothers _ (quotaKey_ne_datasetKey _ _), hd, Decision.run, hx']
      rfl

/-- A request that is admitted twice in a row, with map orders and encodings of its own each
time: the generator returns one list, both calls give one answer, or none because the
generator gives none, and the second leaves the stored list as the first has left it. -/
theorem admitDataset_retry (hc : c.Lawful) (hc' : c'.Lawful) (ha : Codec.Alike c c') :
    generateEpochsIn sha256 orders fuel request = generateEpochsIn sha256 orders' fuel request ∧
    ∃ n, ∀ m, n ≤ m →
      let env := List.replicate m (Answer.done, view)
      let first := (admitDatasetIn node c sha256 orders fuel request).exec env
      let second := (admitDatasetIn node c' sha256 orders' fuel request).exec env
      (¬(generateEpochsIn sha256 orders fuel request).Returned ∧
        first st = none ∧ second st = none) ∨
      ∃ st₁ st₂ r, first st = some (st₁, r) ∧ second st₁ = some (st₂, r) ∧
        SameList c (etcdTenantDatasetEpochKey request.tenantId request.datasetId) st₁ st₂ := by
  simp only [generateEpochsIn_eq, admitDatasetIn_eq, true_and]
  obtain ⟨n, hn⟩ := Prog.exec_undisturbed view (admitDataset node c sha256 fuel request) st
  cases admitDataset_twice node view sha256 fuel request st hc hc' ha with
  | inl h =>
    obtain ⟨hret, hfirst, hsecond⟩ := h
    obtain ⟨n', hn'⟩ := Prog.exec_undisturbed view (admitDataset node c' sha256 fuel request) st
    refine ⟨n + n', fun m hm => .inl ⟨hret, ?_, ?_⟩⟩
    · rw [hn m (by omega), hfirst]
    · rw [hn' m (by omega), hsecond]
  | inr h =>
    obtain ⟨st₁, st₂, r, hfirst, hsecond, hsame⟩ := h
    obtain ⟨n', hn'⟩ := Prog.exec_undisturbed view (admitDataset node c' sha256 fuel request) st₁
    refine ⟨n + n', fun m hm => .inr ⟨st₁, st₂, r, ?_, ?_, hsame⟩⟩
    · rw [hn m (by omega), hfirst]
    · rw [hn' m (by omega), hsecond]

end Calls

def ordersBy (range : MapRange) : RunOrders := ⟨fun _ _ _ => range, fun _ _ => range⟩

def ascending : MapRange where
  keys d := keyOrder d.keys
  nodup d := Finset.sort_nodup _ _
  mem_iff d name := by rw [keyOrder, Finset.mem_sort, Finmap.mem_keys]

def descending : MapRange where
  keys d := (keyOrder d.keys).reverse
  nodup d := List.nodup_reverse.mpr (ascending.nodup d)
  mem_iff d name := by rw [List.mem_reverse]; exact ascending.mem_iff d name

theorem admitDataset_retry_february :
    ∃ m st₁ st₂ r,
      (admitDatasetIn leaderNode payloadCodec februarySha256 (ordersBy ascending) 2
        februaryRequest).exec (smoothRun m) (acmeStore 10) = some (st₁, r) ∧
      (admitDatasetIn leaderNode payloadCodec februarySha256 (ordersBy descending) 2
        februaryRequest).exec (smoothRun m) st₁ = some (st₂, r) ∧
      SameList payloadCodec (etcdTenantDatasetEpochKey "acme" "sales") st₁ st₂ := by
  have hret :
      (generateEpochsIn februarySha256 (ordersBy ascending) 2 februaryRequest).Returned := by
    rw [generateEpochsIn_eq]
    trivial
  obtain ⟨-, n, hn⟩ := admitDataset_retry leaderNode ⟨true, "cp-1"⟩ februarySha256
    (ordersBy ascending) (ordersBy descending) 2 februaryRequest (acmeStore 10)
    payloadCodec_lawful payloadCodec_lawful ⟨rfl, rfl, rfl⟩
  cases hn n le_rfl with
  | inl h => exact absurd hret h.1
  | inr h => exact ⟨n, h⟩

end Leibrix.Management

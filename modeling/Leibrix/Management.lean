import Leibrix.EpochGenerator
import Leibrix.KeyValue
import Leibrix.TenantKeys
import Leibrix.UpTo

/-! `management_service.go`, `proto_serde.go` and `leadership.go`: the two RPCs that
write tenant data, as programs over etcd. Encoding, decoding and `proto.Equal` belong
to the protobuf library and are parameters. -/
namespace Leibrix.Management
open Leibrix.Proto Leibrix.EpochGenerator Leibrix.KeyValue Leibrix.TenantKeys

structure LeaderView where
  isLeader : Bool
  leaderName : String
deriving DecidableEq

structure NodeConfig where
  nodeName : String
  hasLeadership : Bool
deriving DecidableEq

structure Codec (β : Type) where
  -- the protobuf library on the messages stored in etcd; `noBytes` is what `Marshal` hands back
  -- beside an error
  marshalEpochs : List EpochInfo → Except String β
  unmarshalEpochs : β → Except String (List EpochInfo)
  marshalQuota : TenantQuota → Except String β
  unmarshalQuota : β → Except String TenantQuota
  noBytes : β
  equal : EpochInfo → EpochInfo → Bool

structure Codec.Lawful {β : Type} (c : Codec β) : Prop where
  -- what protobuf documents: a message whose strings are valid Unicode can be encoded, decoding
  -- undoes encoding, and `proto.Equal` is an equivalence
  equal : UpTo.Lawful c.equal
  epochs : ∀ l, ∃ b l', c.marshalEpochs l = .ok b ∧ c.unmarshalEpochs b = .ok l' ∧
    UpTo.Same c.equal l' l
  quota : ∀ q, ∃ b, c.marshalQuota q = .ok b ∧ c.unmarshalQuota b = .ok q

inductive Code where
  | unavailable | failedPrecondition
deriving DecidableEq

inductive SaveError where
  -- "failed to get existing epoch list: %w"
  | getFailed (err : String)
  -- the error of the put and that of the commit are returned as they are
  | putFailed (err : String)
  | commitFailed (err : String)
  -- "failed to save epoch list due to concurrent modification"
  | concurrentModification
deriving DecidableEq

inductive RpcError where
  | status (code : Code) (msg : String)
  | save (err : SaveError)
  | put (err : String)
deriving DecidableEq

def notLeaderText (nodeName leaderName : String) : String :=
  "node " ++ nodeName ++ " is not the control plane leader; current leader is " ++ leaderName

def quotaExceededText (count : Nat) (maxEpochs : Int32) : String :=
  "epoch count " ++ toString count ++ " exceeds tenant quota " ++ toString maxEpochs.toInt

def notFoundText (key : String) : String := "not found: " ++ key

def rejected (context err : String) : AdmitDatasetResponse :=
  { status := .rejected, message := context ++ err }

variable {β : Type}

abbrev Rpc (β ρ : Type) := Prog String β LeaderView ρ

def requireLeader (node : NodeConfig) : Rpc β (Except RpcError Unit) :=
  -- `IsLeader()` and `LeaderName()` are two reads of the process's election state
  if node.hasLeadership then
    .sense fun view =>
      if view.isLeader then .ret (.ok ())
      else .sense fun view' =>
        if view'.leaderName = "" then
          .ret (.error (.status .unavailable "control plane leader is not ready yet"))
        else .ret (.error (.status .failedPrecondition
          (notLeaderText node.nodeName view'.leaderName)))
  else .ret (.ok ())

inductive Fetched (β α : Type) where
  -- the results of `GetProtoMessage` by what the caller can tell apart: no response, a response
  -- without the key, a value that does not decode, and a message
  | failed (err : String)
  | absent (err : String)
  | malformed (err : String)
  | found (msg : α) (kv : Versioned β)

def getProtoMessage {α : Type} (unmarshal : β → Except String α) (key : String) :
    Rpc β (Fetched β α) :=
  .get key fun
    | .error err => .ret (.failed err)
    | .ok none => .ret (.absent (notFoundText key))
    | .ok (some kv) =>
      match unmarshal kv.value with
      | .error err => .ret (.malformed err)
      | .ok msg => .ret (.found msg kv)

def putProtoMessage {α : Type} (marshal : α → Except String β) (key : String) (msg : α) :
    Rpc β (Except String Nat) :=
  match marshal msg with
  | .error err => .ret (.error err)
  | .ok data => .put key data .ret

def markFirst (equal : EpochInfo → EpochInfo → Bool) (epochA : EpochInfo) :
    List (EpochInfo × Bool) → Option (List (EpochInfo × Bool))
  -- the inner loop of `areEpochSlicesEqual`: mark the first unmatched equal epoch
  | [] => none
  | (epochB, matched) :: rest =>
    if !matched && equal epochA epochB then some ((epochB, true) :: rest)
    else (markFirst equal epochA rest).map ((epochB, matched) :: ·)

def matchAll (equal : EpochInfo → EpochInfo → Bool) :
    List EpochInfo → List (EpochInfo × Bool) → Bool
  | [], _ => true
  | epochA :: rest, marks =>
    match markFirst equal epochA marks with
    | none => false
    | some marks' => matchAll equal rest marks'

def areEpochSlicesEqual (equal : EpochInfo → EpochInfo → Bool) (a b : List EpochInfo) : Bool :=
  if a.length ≠ b.length then false else matchAll equal a (b.map (·, false))

def containsEpoch (equal : EpochInfo → EpochInfo → Bool) (epochs : List EpochInfo)
    (target : EpochInfo) : Bool :=
  epochs.any fun epoch => equal epoch target

def mergeEpochs (equal : EpochInfo → EpochInfo → Bool) (epochs existing : List EpochInfo) :
    List EpochInfo :=
  existing.foldl (fun merged existEpoch =>
    if !containsEpoch equal epochs existEpoch then merged ++ [existEpoch] else merged) epochs

def Codec.bytesOf (c : Codec β) (epochs : List EpochInfo) : β :=
  -- `bytes, _ := proto.Marshal(..)`: the error is dropped
  match c.marshalEpochs epochs with
  | .ok b => b
  | .error _ => c.noBytes

def saveEpochs (c : Codec β) (request : AdmitDatasetRequest) (epochs : List EpochInfo) :
    Rpc β (Except SaveError Unit) := do
  let epochListKey := etcdTenantDatasetEpochKey request.tenantId request.datasetId
  match ← getProtoMessage c.unmarshalEpochs epochListKey with
  | .failed err => return .error (.getFailed err)
  | .malformed err => return .error (.getFailed err)
  | .absent _ =>
    -- nothing ties this write to the absence just seen
    match ← putProtoMessage c.marshalEpochs epochListKey epochs with
    | .error err => return .error (.putFailed err)
    | .ok _ => return .ok ()
  | .found existing kv =>
    if areEpochSlicesEqual c.equal existing epochs then return .ok ()
    else .txn epochListKey kv.modRevision (c.bytesOf (mergeEpochs c.equal epochs existing)) fun
      | .error err => .ret (.error (.commitFailed err))
      | .ok false => .ret (.error .concurrentModification)
      | .ok true => .ret (.ok ())

def validateAdmitRequest (request : AdmitDatasetRequest) : Except String Unit :=
  if request.tenantId = "" then .error "tenant_id is required"
  else if request.datasetId = "" then .error "dataset_id is required"
  else if request.source = none then .error "source is required"
  else .ok ()

theorem validateAdmitRequest_ok_iff {request : AdmitDatasetRequest} :
    validateAdmitRequest request = .ok () ↔
      request.tenantId ≠ "" ∧ request.datasetId ≠ "" ∧ request.source ≠ none := by
  unfold validateAdmitRequest
  split_ifs <;> simp_all

def exceedsQuota (tenantQuota : TenantQuota) (epochs : List EpochInfo) : Bool :=
  -- `tenantQuota.MaxEpochs > 0 && int32(len(epochs)) > tenantQuota.MaxEpochs`
  0 < tenantQuota.maxEpochs && tenantQuota.maxEpochs < Int32.ofNat epochs.length

def admitWithQuota (c : Codec β) (request : AdmitDatasetRequest) (tenantQuota : TenantQuota) :
    Outcome (List EpochInfo) → Rpc β (Except RpcError AdmitDatasetResponse)
  -- `AdmitDataset` once the tenant's quota has been read. A generator that panics or never ends
  -- gives no answer.
  | .hang => .stuck
  | .panic _ => .stuck
  | .err err => .ret (.ok (rejected "epoch generation failed: " err))
  | .ok epochs =>
    if exceedsQuota tenantQuota epochs then
      .ret (.ok (rejected "" (quotaExceededText epochs.length tenantQuota.maxEpochs)))
    else do
      match ← saveEpochs c request epochs with
      | .error err => return .error (.save err)
      | .ok () => return .ok { status := .accepted, epochs := some epochs }

def admitDataset (node : NodeConfig) (c : Codec β) (sha256 : List UInt8 → List UInt8)
    (fuel : Nat) (request : AdmitDatasetRequest) :
    Rpc β (Except RpcError AdmitDatasetResponse) := do
  match ← requireLeader node with
  | .error err => return .error err
  | .ok () =>
    match validateAdmitRequest request with
    | .error err => return .ok (rejected "validation failed: " err)
    | .ok () =>
      match ← getProtoMessage c.unmarshalQuota (etcdTenantQuotaKey request.tenantId) with
      | .failed err | .absent err | .malformed err =>
        return .ok (rejected "failed to retrieve tenant quota: " err)
      | .found tenantQuota _ =>
        admitWithQuota c request tenantQuota (generateEpochs sha256 fuel request)

def upsertTenantQuota (node : NodeConfig) (c : Codec β) (request : TenantQuota) :
    Rpc β (Except RpcError CommonResponse) := do
  match ← requireLeader node with
  | .error err => return .error err
  | .ok () =>
    if request.tenantId = "" then
      return .ok { status := .error, message := "tenant_id cannot be empty" }
    else if request.maxDatasets < 0 ∨ request.maxEpochs < 0 ∨ request.maxStorageMb < 0 then
      return .ok { status := .error, message := "quota values cannot be negative" }
    else
      match ← putProtoMessage c.marshalQuota (etcdTenantQuotaKey request.tenantId) request with
      | .error err => return .error (.put err)
      | .ok _ => return .ok { status := .success }

end Leibrix.Management

import Mathlib.Data.List.Basic
import Mathlib.Logic.Function.Basic

/-! `internal/api/grpc/events`: the messages of `proto/control_plane.proto` that a worker
sends, the `ControlPlaneStateStore`, and the handlers of `RegisterAllEventHandlers` as
`handleEvent` calls them. A handler does one operation on one map of the store. The
dispatcher gives each handler a payload of its own type, so the errors about other types
never arise. -/
namespace Leibrix.Events

structure Worker where
  nodeId : String
  addr : String
  labels : List (String × String)
deriving DecidableEq

structure RegisterEvent where
  worker : Option Worker
deriving DecidableEq

inductive Status where
  -- `DataPullStatusUpdateEvent.Status`, an open enumeration
  | unknown | inProgress | completed | failed
  | unrecognized (code : Int32)
deriving DecidableEq

def Status.text : Status → String
  | .unknown => "UNKNOWN"
  | .inProgress => "IN_PROGRESS"
  | .completed => "COMPLETED"
  | .failed => "FAILED"
  | .unrecognized code => toString code.toInt

structure DataPullStatusUpdateEvent where
  datasetId : String
  epochId : String
  status : Status
  errorMessage : String
deriving DecidableEq

structure CommonAckEvent where
  serverId : String
  eventType : String
  -- the encoded `Struct`; no handler looks into it
  payload : Option (List UInt8)
deriving DecidableEq

inductive Payload where
  | absent
  | registerEvent (ev : RegisterEvent)
  | heartbeatEvent
  | dataPullStatusUpdate (ev : DataPullStatusUpdateEvent)
  | dataAssignment
  | commonAck (ev : CommonAckEvent)
deriving DecidableEq

structure EventStreamMessage where
  eventId : String
  payload : Payload
deriving DecidableEq

inductive AckValue where
  | bool (b : Bool)
  | text (s : String)
  | int (n : Int)
deriving DecidableEq

structure Ack where
  serverId : String
  eventType : String
  payload : List (String × AckValue)
deriving DecidableEq

structure ControlPlaneStateStore where
  workers : String → Option Worker
  pullStates : String → Option DataPullStatusUpdateEvent
  commonAcks : String → Option CommonAckEvent

def newControlPlaneStateStore : ControlPlaneStateStore :=
  ⟨fun _ => none, fun _ => none, fun _ => none⟩

def pullStatusKey (datasetId epochId : String) : String := datasetId ++ "/" ++ epochId
def commonAckKey (serverId eventType : String) : String := serverId ++ "/" ++ eventType

namespace ControlPlaneStateStore

def upsertWorker (worker : Worker) (st : ControlPlaneStateStore) : ControlPlaneStateStore :=
  { st with workers := Function.update st.workers worker.nodeId (some worker) }

def updatePullStatus (update : DataPullStatusUpdateEvent) (st : ControlPlaneStateStore) :
    ControlPlaneStateStore :=
  { st with
    pullStates := Function.update st.pullStates (pullStatusKey update.datasetId update.epochId)
      (some update) }

def pullStatus (datasetId epochId : String) (st : ControlPlaneStateStore) :
    Option DataPullStatusUpdateEvent :=
  st.pullStates (pullStatusKey datasetId epochId)

def recordCommonAck (ack : CommonAckEvent) (st : ControlPlaneStateStore) :
    ControlPlaneStateStore :=
  { st with
    commonAcks := Function.update st.commonAcks (commonAckKey ack.serverId ack.eventType)
      (some ack) }

def commonAck (serverId eventType : String) (st : ControlPlaneStateStore) :
    Option CommonAckEvent :=
  st.commonAcks (commonAckKey serverId eventType)

end ControlPlaneStateStore

open ControlPlaneStateStore

-- A handler's answer: an error, or an ack and the store it leaves.
abbrev Handled := Except String (Ack × ControlPlaneStateStore)

def onRegister (serverId : String) (ev : RegisterEvent) (st : ControlPlaneStateStore) : Handled :=
  match ev.worker with
  | none => .error "register event is missing worker identity"
  | some worker =>
    if worker.nodeId = "" then .error "register event is missing worker identity"
    else .ok (⟨serverId, "registration_ack",
      [("accepted", .bool true), ("worker_id", .text worker.nodeId)]⟩, st.upsertWorker worker)

def onDataPullState (serverId : String) (ev : DataPullStatusUpdateEvent)
    (st : ControlPlaneStateStore) : Handled :=
  if ev.datasetId = "" ∨ ev.epochId = "" then
    .error "data pull update requires dataset_id and epoch_id"
  else .ok (⟨serverId, "data_pull_status_ack",
    [("dataset_id", .text ev.datasetId), ("epoch_id", .text ev.epochId),
      ("status", .text ev.status.text.toLower)]⟩, st.updatePullStatus ev)

def onCommonAck (serverId : String) (ev : CommonAckEvent) (st : ControlPlaneStateStore) :
    Handled :=
  if ev.serverId = "" then .error "common ack is missing server_id"
  else .ok (⟨serverId, "ack_received",
    [("source_server_id", .text ev.serverId), ("event_type", .text ev.eventType),
      ("recorded", .bool true)]⟩, st.recordCommonAck ev)

def onHeartbeat (serverId : String) (now : Int) (st : ControlPlaneStateStore) : Handled :=
  .ok (⟨serverId, "heartbeat_ack",
    [("ack_timestamp", .int now), ("server_id", .text serverId), ("status", .text "healthy")]⟩, st)

def handleEvent (serverId : String) (now : Int) (msg : EventStreamMessage)
    (st : ControlPlaneStateStore) : Handled :=
  match msg.payload with
  | .registerEvent ev => onRegister serverId ev st
  | .heartbeatEvent => onHeartbeat serverId now st
  | .dataPullStatusUpdate ev => onDataPullState serverId ev st
  | .dataAssignment => .error "no handler for event type: DATA_ASSIGNMENT"
  | .commonAck ev => onCommonAck serverId ev st
  | .absent => .error ("unknown event type in message " ++ msg.eventId)

def handleEventAsync (serverId : String) (now : Int) (msg : EventStreamMessage)
    (st : ControlPlaneStateStore) : Ack × ControlPlaneStateStore :=
  -- `handleEventAsync`: the ack it sends and the store it leaves
  match handleEvent serverId now msg st with
  | .ok result => result
  | .error err => (⟨serverId, "error_ack",
      [("error", .text err), ("original_event_id", .text msg.eventId)]⟩, st)

def acceptedUpdate (msg : EventStreamMessage) : Option DataPullStatusUpdateEvent :=
  match msg.payload with
  | .dataPullStatusUpdate ev => if ev.datasetId = "" ∨ ev.epochId = "" then none else some ev
  | _ => none

def acceptedAck (msg : EventStreamMessage) : Option CommonAckEvent :=
  match msg.payload with
  | .commonAck ev => if ev.serverId = "" then none else some ev
  | _ => none

theorem payload_of_acceptedUpdate {msg : EventStreamMessage} {u : DataPullStatusUpdateEvent}
    (h : acceptedUpdate msg = some u) : msg.payload = .dataPullStatusUpdate u := by
  unfold acceptedUpdate at h
  split at h
  · rename_i ev hp
    split at h
    · cases h
    · cases h
      exact hp
  · cases h

inductive Effect (msg : EventStreamMessage) (st : ControlPlaneStateStore) :
    ControlPlaneStateStore → Prop where
  -- what a message does to the store: one operation on one of its maps, or nothing
  | none (hu : acceptedUpdate msg = .none) (ha : acceptedAck msg = .none) : Effect msg st st
  | worker (worker : Worker) (hu : acceptedUpdate msg = .none) (ha : acceptedAck msg = .none) :
      Effect msg st (st.upsertWorker worker)
  | update {u : DataPullStatusUpdateEvent} (hu : acceptedUpdate msg = some u)
      (ha : acceptedAck msg = .none) : Effect msg st (st.updatePullStatus u)
  | ack {a : CommonAckEvent} (hu : acceptedUpdate msg = .none) (ha : acceptedAck msg = some a) :
      Effect msg st (st.recordCommonAck a)

theorem handleEventAsync_effect (serverId : String) (now : Int) (msg : EventStreamMessage)
    (st : ControlPlaneStateStore) : Effect msg st (handleEventAsync serverId now msg st).2 := by
  obtain ⟨eventId, payload⟩ := msg
  cases payload with
  | absent | heartbeatEvent | dataAssignment => exact .none rfl rfl
  | registerEvent ev =>
    obtain ⟨worker⟩ := ev
    cases worker with
    | none => exact .none rfl rfl
    | some worker =>
      by_cases h : worker.nodeId = ""
      · simpa [handleEventAsync, handleEvent, onRegister, h] using Effect.none rfl rfl
      · simpa [handleEventAsync, handleEvent, onRegister, h] using Effect.worker worker rfl rfl
  | dataPullStatusUpdate ev =>
    by_cases h : ev.datasetId = "" ∨ ev.epochId = ""
    · simpa [handleEventAsync, handleEvent, onDataPullState, h] using
        Effect.none (by simp [acceptedUpdate, h]) rfl
    · simpa [handleEventAsync, handleEvent, onDataPullState, h] using
        Effect.update (by simp [acceptedUpdate, h]) rfl
  | commonAck ev =>
    by_cases h : ev.serverId = ""
    · simpa [handleEventAsync, handleEvent, onCommonAck, h] using
        Effect.none rfl (by simp [acceptedAck, h])
    · simpa [handleEventAsync, handleEvent, onCommonAck, h] using
        Effect.ack rfl (by simp [acceptedAck, h])

theorem pullStates_handleEventAsync (serverId : String) (now : Int) (msg : EventStreamMessage)
    (st : ControlPlaneStateStore) :
    (handleEventAsync serverId now msg st).2.pullStates =
      ((acceptedUpdate msg).elim st fun u => st.updatePullStatus u).pullStates := by
  have heffect := handleEventAsync_effect serverId now msg st
  generalize (handleEventAsync serverId now msg st).2 = st' at heffect ⊢
  cases heffect with
  | none hu | worker _ hu | update hu | ack hu => rw [hu]; rfl

theorem commonAcks_handleEventAsync (serverId : String) (now : Int) (msg : EventStreamMessage)
    (st : ControlPlaneStateStore) :
    (handleEventAsync serverId now msg st).2.commonAcks =
      ((acceptedAck msg).elim st fun a => st.recordCommonAck a).commonAcks := by
  have heffect := handleEventAsync_effect serverId now msg st
  generalize (handleEventAsync serverId now msg st).2 = st' at heffect ⊢
  cases heffect with
  | none _ ha | worker _ _ ha | update _ ha | ack _ ha => rw [ha]; rfl

-- An id that can be read back from a key.
def SlashFree (s : String) : Prop := '/' ∉ s.toList

instance (s : String) : Decidable (SlashFree s) := inferInstanceAs (Decidable (_ ∉ _))

theorem pullStatusKey_inj {d e d' e' : String} (hd : SlashFree d) (he : SlashFree e)
    (h : pullStatusKey d e = pullStatusKey d' e') : d = d' ∧ e = e' := by
  have hl : d.toList ++ '/' :: e.toList = d'.toList ++ '/' :: e'.toList := by
    simpa [pullStatusKey] using congrArg String.toList h
  rw [List.append_cons_inj_of_notMem hd he] at hl
  exact ⟨String.toList_inj.mp hl.1, String.toList_inj.mp hl.2.2⟩

/-- An update under other ids leaves a status as it is. -/
theorem pullStatus_updatePullStatus {d e : String} {u : DataPullStatusUpdateEvent}
    (st : ControlPlaneStateStore) (hd : SlashFree d) (he : SlashFree e) :
    (st.updatePullStatus u).pullStatus d e =
      if u.datasetId = d ∧ u.epochId = e then some u else st.pullStatus d e := by
  by_cases h : u.datasetId = d ∧ u.epochId = e
  · rw [if_pos h]
    simp [pullStatus, updatePullStatus, h]
  · rw [if_neg h]
    have hne : pullStatusKey d e ≠ pullStatusKey u.datasetId u.epochId := by
      intro hkey
      obtain ⟨h₁, h₂⟩ := pullStatusKey_inj hd he hkey
      exact h ⟨h₁.symm, h₂.symm⟩
    simp [pullStatus, updatePullStatus, Function.update_of_ne hne]

end Leibrix.Events

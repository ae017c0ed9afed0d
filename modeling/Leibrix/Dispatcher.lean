import Leibrix.StateHandlers

/-! The `EventDispatcher` and the handlers of `RegisterAllEventHandlers` with Go's pointers
(`events/event_dispatcher.go`, `events/state_handlers.go`). To read a field through a nil
pointer ends the process: such a call has the value `none` here. No decoded message leads
to one, and the answer is then the one of `Events.handleEvent`. -/
namespace Leibrix.Dispatcher
open Leibrix.Events

inductive EventType where
  | heartbeat | register | dataPullState | dataAssigment | commonAck
deriving DecidableEq

def EventType.text : EventType → String
  | .heartbeat => "HEARTBEAT"
  | .register => "REGISTER"
  | .dataPullState => "DATA_PULL_STATE"
  | .dataAssigment => "DATA_ASSIGNMENT"
  | .commonAck => "COMMON_ACK"

inductive ProtoMessage where
  -- a `proto.Message` that `handleEvent` hands on: a pointer, `none` if it is nil
  | registerEvent (p : Option RegisterEvent)
  | heartbeatEvent
  | dataPullStatusUpdate (p : Option DataPullStatusUpdateEvent)
  | dataAssignment
  | commonAck (p : Option CommonAckEvent)

def ProtoMessage.typeName : ProtoMessage → String
  | .registerEvent _ => "*proto.RegisterEvent"
  | .heartbeatEvent => "*proto.HeartbeatEvent"
  | .dataPullStatusUpdate _ => "*proto.DataPullStatusUpdateEvent"
  | .dataAssignment => "*proto.DataAssignmentEvent"
  | .commonAck _ => "*proto.CommonAckEvent"

-- `OnEvent`, with the answer `none` when it reads through a nil pointer.
abbrev EventHandler := ProtoMessage → ControlPlaneStateStore → Option Handled

def registerHandler (serverId : String) : EventHandler
  | .registerEvent p, st => do
    let registerEvent ← p
    -- `||` does not come to the node id of a worker that is nil
    let missing ← if registerEvent.worker.isNone then some true
      else registerEvent.worker.map (·.nodeId = "")
    if missing then
      some (.error "register event is missing worker identity")
    else do
      let worker ← registerEvent.worker
      some (.ok (⟨serverId, "registration_ack",
        [("accepted", .bool true), ("worker_id", .text worker.nodeId)]⟩, st.upsertWorker worker))
  | message, _ => some (.error ("unexpected register payload type: " ++ message.typeName))

def dataPullStateHandler (serverId : String) : EventHandler
  | .dataPullStatusUpdate p, st => p.map fun updateEvent => onDataPullState serverId updateEvent st
  | message, _ => some (.error ("unexpected data pull payload type: " ++ message.typeName))

def commonAckHandler (serverId : String) : EventHandler
  | .commonAck p, st => p.map fun ackEvent => onCommonAck serverId ackEvent st
  | message, _ => some (.error ("unexpected common ack payload type: " ++ message.typeName))

def heartbeatHandler (serverId : String) (now : Int) : EventHandler :=
  fun _ st => some (onHeartbeat serverId now st)

def registerAllEventHandlers (serverId : String) (now : Int) : EventType → Option EventHandler
  | .heartbeat => some (heartbeatHandler serverId now)
  | .register => some (registerHandler serverId)
  | .dataPullState => some (dataPullStateHandler serverId)
  | .commonAck => some (commonAckHandler serverId)
  | .dataAssigment => none

def dispatch (handlers : EventType → Option EventHandler) (eventType : EventType)
    (event : ProtoMessage) (st : ControlPlaneStateStore) : Option Handled :=
  match handlers eventType with
  | none => some (.error ("no handler for event type: " ++ eventType.text))
  | some handler => handler event st

def handleEvent (serverId : String) (now : Int) (msg : EventStreamMessage)
    (st : ControlPlaneStateStore) : Option Handled :=
  -- `ControlPlaneService.handleEvent`. Decoding sets the pointer of the payload it finds.
  let handlers := registerAllEventHandlers serverId now
  match msg.payload with
  | .registerEvent ev => dispatch handlers .register (.registerEvent (some ev)) st
  | .heartbeatEvent => dispatch handlers .heartbeat .heartbeatEvent st
  | .dataPullStatusUpdate ev =>
    dispatch handlers .dataPullState (.dataPullStatusUpdate (some ev)) st
  | .dataAssignment => dispatch handlers .dataAssigment .dataAssignment st
  | .commonAck ev => dispatch handlers .commonAck (.commonAck (some ev)) st
  | .absent => some (.error ("unknown event type in message " ++ msg.eventId))

/-- The nil check of the handler covers its reads. -/
theorem registerHandler_some (serverId : String) (ev : RegisterEvent)
    (st : ControlPlaneStateStore) :
    registerHandler serverId (.registerEvent (some ev)) st = some (onRegister serverId ev st) := by
  obtain ⟨worker⟩ := ev
  cases worker with
  | none => rfl
  | some worker =>
    by_cases h : worker.nodeId = ""
    all_goals simp [registerHandler, onRegister, h]

/-- No handler reads through a nil pointer. -/
theorem handleEvent_eq (serverId : String) (now : Int) (msg : EventStreamMessage)
    (st : ControlPlaneStateStore) :
    handleEvent serverId now msg st = some (Events.handleEvent serverId now msg st) := by
  obtain ⟨eventId, payload⟩ := msg
  cases payload with
  | registerEvent ev => exact registerHandler_some serverId ev st
  | dataAssignment | absent | heartbeatEvent | dataPullStatusUpdate ev | commonAck ev => rfl

end Leibrix.Dispatcher

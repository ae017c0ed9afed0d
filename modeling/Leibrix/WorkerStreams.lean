import Mathlib.Data.Finmap
import Mathlib.Logic.Function.Basic

/-! The `CoordinateWorker` streams of one control-plane node and its `SessionManager`
(`control_plane_service.go`, `events/session_manager.go`, `events/session.go`). A step
is one map operation, one counter operation, one `Session.Close` or one turn of a
receive loop. A stream has one session, so the stream's index stands for both. -/
namespace Leibrix.WorkerStreams

inductive Message where
  -- What the receive loop tells apart: a `RegisterEvent` with its worker's node id, and any other
  -- payload. A `RegisterEvent` without a worker ends the process.
  | register (nodeId : String)
  | other
deriving DecidableEq

inductive Pc (ι : Type) where
  | idle
  -- `requireLeader` has returned an error
  | refused
  -- `requireLeader` has passed, the session is not there yet
  | admitted
  -- at the `select` of the receive loop
  | receiving
  | taken (msg : Message)
  -- `Register` has stored the session in place of another one
  | replaced (old : ι)
  -- `Register` has stored the session of a new worker
  | counting
  -- about to start `handleEventAsync`
  | dispatching
  -- out of the loop, before the deferred cleanup
  | leaving
  | uncounting
  | closing
  | ended
deriving DecidableEq

def Pc.inLoop {ι : Type} : Pc ι → Bool
  | .receiving | .taken _ | .replaced _ | .counting | .dispatching => true
  | _ => false

def Pc.started {ι : Type} : Pc ι → Bool
  | .idle | .refused | .admitted => false
  | _ => true

inductive Closing where
  -- Where a call of `SessionManager.Close` is. `Range` visits no key twice, and visits every key
  -- that is there from its beginning to its end (`must`).
  | resting
  | ranging (must visited : Finset String)
  | cleared
deriving DecidableEq

def Closing.forget (worker : String) : Closing → Closing
  | .ranging must visited => .ranging (must.erase worker) visited
  | c => c

def Closing.forgetAll : Closing → Closing
  | .ranging _ visited => .ranging ∅ visited
  | c => c

def Closing.isRanging : Closing → Bool
  | .ranging _ _ => true
  | _ => false

structure Sys (ι : Type) where
  -- caller 0 of `SessionManager.Close` is `handleLeaderEvent`
  isLeader : Bool
  pc : ι → Pc ι
  workerId : ι → String
  closed : ι → Bool
  hungUp : ι → Bool
  sessions : Finmap fun _ : String => ι
  sessionCnt : Int
  closers : Nat → Closing

def Sys.start (ι : Type) : Sys ι where
  isLeader := true
  pc _ := .idle
  workerId _ := ""
  closed _ := false
  hungUp _ := false
  sessions := ∅
  sessionCnt := 0
  closers _ := .resting

inductive Label (ι : Type) where
  -- the election changes what `IsLeader()` answers
  | leadership (isLeader : Bool)
  -- `handleLeaderEvent` with "this node elected"
  | elected
  | openStream (i : ι)
  | startSession (i : ι)
  | hangUp (i : ι)
  -- the writer's `stream.Send` fails and it closes the session
  | sendFails (i : ι)
  | take (i : ι) (msg : Message)
  | store (i : ι)
  | closeOld (i : ι)
  | count (i : ι)
  | dispatch (i : ι)
  -- end of the client's messages, or a receive error
  | leave (i : ι)
  | seeDone (i : ι)
  | unregister (i : ι)
  | uncount (i : ι)
  | closeOwn (i : ι)
  -- `SessionManager.Close` is called: by caller 0 for any other leader event
  | callClose (k : Nat)
  | visit (k : Nat) (worker : String)
  | clear (k : Nat)
  | reset (k : Nat)
deriving DecidableEq

variable {ι : Type} [DecidableEq ι]

-- `session.Done()` is closed by `Session.Close` and with the stream's context.
def Sys.done (s : Sys ι) (i : ι) : Bool := s.closed i || s.hungUp i

def Sys.get (s : Sys ι) (worker : String) : Option ι := s.sessions.lookup worker

def Sys.goto (s : Sys ι) (i : ι) (pc : Pc ι) : Sys ι := { s with pc := Function.update s.pc i pc }

def Sys.close (s : Sys ι) (i : ι) : Sys ι := { s with closed := Function.update s.closed i true }

def Sys.setCloser (s : Sys ι) (k : Nat) (c : Closing) : Sys ι :=
  { s with closers := Function.update s.closers k c }

def Sys.loadAndStore (s : Sys ι) (i : ι) (worker : String) : Sys ι :=
  { s with
    pc := Function.update s.pc i (match s.sessions.lookup worker with
      | some old => .replaced old
      | none => .counting)
    workerId := Function.update s.workerId i worker
    sessions := s.sessions.insert worker i }

def Sys.loadAndDelete (s : Sys ι) (i : ι) : Sys ι :=
  -- `sm.sessions.LoadAndDelete(workerID)` in `Unregister`, if the stream has come to know a worker
  -- id
  if s.workerId i = "" ∨ s.sessions.lookup (s.workerId i) = none then s.goto i .closing
  else { s with
    pc := Function.update s.pc i .uncounting
    sessions := s.sessions.erase (s.workerId i)
    closers := fun k => (s.closers k).forget (s.workerId i) }

def Sys.clearAll (s : Sys ι) (k : Nat) : Sys ι :=
  { s with
    sessions := ∅
    closers := Function.update (fun k => (s.closers k).forgetAll) k .cleared }

def step (s : Sys ι) : Label ι → Option (Sys ι)
  | .leadership isLeader => some { s with isLeader := isLeader }
  | .elected => if s.closers 0 = .resting then some s else none
  | .openStream i =>
    if s.pc i = .idle then some (s.goto i (if s.isLeader then .admitted else .refused)) else none
  | .startSession i => if s.pc i = .admitted then some (s.goto i .receiving) else none
  | .hangUp i => some { s with hungUp := Function.update s.hungUp i true }
  | .sendFails i => if (s.pc i).started then some (s.close i) else none
  -- `select` chooses freely among the ready cases, so a message may win over `Done`
  | .take i msg => if s.pc i = .receiving then some (s.goto i (.taken msg)) else none
  | .store i =>
    match s.pc i with
    | .taken (.register nodeId) => some (s.loadAndStore i nodeId)
    | _ => none
  | .closeOld i =>
    match s.pc i with
    | .replaced old => some ((s.close old).goto i .dispatching)
    | _ => none
  | .count i =>
    if s.pc i = .counting then
      some ({ s with sessionCnt := s.sessionCnt + 1 }.goto i .dispatching)
    else none
  | .dispatch i =>
    if s.pc i = .dispatching ∨ s.pc i = .taken .other then some (s.goto i .receiving) else none
  | .leave i => if s.pc i = .receiving then some (s.goto i .leaving) else none
  | .seeDone i => if s.pc i = .receiving ∧ s.done i then some (s.goto i .leaving) else none
  | .unregister i => if s.pc i = .leaving then some (s.loadAndDelete i) else none
  | .uncount i =>
    if s.pc i = .uncounting then
      some ({ s with sessionCnt := s.sessionCnt - 1 }.goto i .closing)
    else none
  | .closeOwn i => if s.pc i = .closing then some ((s.close i).goto i .ended) else none
  | .callClose k =>
    if s.closers k = .resting then some (s.setCloser k (.ranging s.sessions.keys ∅)) else none
  | .visit k worker =>
    match s.closers k, s.sessions.lookup worker with
    | .ranging must visited, some i =>
      if worker ∈ visited then none
      else some ((s.close i).setCloser k (.ranging must (insert worker visited)))
    | _, _ => none
  | .clear k =>
    match s.closers k with
    | .ranging must visited => if must ⊆ visited then some (s.clearAll k) else none
    | _ => none
  | .reset k =>
    if s.closers k = .cleared then
      some ({ s with sessionCnt := 0 }.setCloser k .resting)
    else none

inductive Moves (s : Sys ι) : Label ι → Sys ι → Prop
  | leadership (isLeader : Bool) : Moves s (.leadership isLeader) { s with isLeader := isLeader }
  | elected (hk : s.closers 0 = .resting) : Moves s .elected s
  | openStream (i : ι) (hpc : s.pc i = .idle) :
      Moves s (.openStream i) (s.goto i (if s.isLeader then .admitted else .refused))
  | startSession (i : ι) (hpc : s.pc i = .admitted) :
      Moves s (.startSession i) (s.goto i .receiving)
  | hangUp (i : ι) : Moves s (.hangUp i) { s with hungUp := Function.update s.hungUp i true }
  | sendFails (i : ι) (hpc : (s.pc i).started = true) : Moves s (.sendFails i) (s.close i)
  | take (i : ι) (msg : Message) (hpc : s.pc i = .receiving) :
      Moves s (.take i msg) (s.goto i (.taken msg))
  | store (i : ι) (nodeId : String) (hpc : s.pc i = .taken (.register nodeId)) :
      Moves s (.store i) (s.loadAndStore i nodeId)
  | closeOld (i old : ι) (hpc : s.pc i = .replaced old) :
      Moves s (.closeOld i) ((s.close old).goto i .dispatching)
  | count (i : ι) (hpc : s.pc i = .counting) :
      Moves s (.count i) ({ s with sessionCnt := s.sessionCnt + 1 }.goto i .dispatching)
  | dispatch (i : ι) (hpc : s.pc i = .dispatching ∨ s.pc i = .taken .other) :
      Moves s (.dispatch i) (s.goto i .receiving)
  | leave (i : ι) (hpc : s.pc i = .receiving) : Moves s (.leave i) (s.goto i .leaving)
  | seeDone (i : ι) (hpc : s.pc i = .receiving) (hd : s.done i = true) :
      Moves s (.seeDone i) (s.goto i .leaving)
  | unregister (i : ι) (hpc : s.pc i = .leaving) : Moves s (.unregister i) (s.loadAndDelete i)
  | uncount (i : ι) (hpc : s.pc i = .uncounting) :
      Moves s (.uncount i) ({ s with sessionCnt := s.sessionCnt - 1 }.goto i .closing)
  | closeOwn (i : ι) (hpc : s.pc i = .closing) : Moves s (.closeOwn i) ((s.close i).goto i .ended)
  | callClose (k : Nat) (hk : s.closers k = .resting) :
      Moves s (.callClose k) (s.setCloser k (.ranging s.sessions.keys ∅))
  | visit (k : Nat) (worker : String) (i : ι) (must visited : Finset String)
      (hk : s.closers k = .ranging must visited) (hw : s.sessions.lookup worker = some i) :
      Moves s (.visit k worker) ((s.close i).setCloser k (.ranging must (insert worker visited)))
  | clear (k : Nat) (must visited : Finset String) (hk : s.closers k = .ranging must visited)
      (hv : must ⊆ visited) : Moves s (.clear k) (s.clearAll k)
  | reset (k : Nat) (hk : s.closers k = .cleared) :
      Moves s (.reset k) ({ s with sessionCnt := 0 }.setCloser k .resting)

theorem moves_of_step {s t : Sys ι} {l : Label ι} (h : step s l = some t) : Moves s l t := by
  cases l with
  | leadership b =>
    cases h
    exact .leadership b
  | hangUp i =>
    cases h
    exact .hangUp i
  | store i =>
    simp only [step] at h
    split at h
    · rename_i nodeId hpc
      cases h
      exact .store i nodeId hpc
    · cases h
  | closeOld i =>
    simp only [step] at h
    split at h
    · rename_i old hpc
      cases h
      exact .closeOld i old hpc
    · cases h
  | visit k worker =>
    simp only [step] at h
    split at h
    · rename_i must visited i hk hw
      split at h
      · cases h
      · cases h
        exact .visit k worker i must visited hk hw
    · cases h
  | clear k =>
    simp only [step] at h
    split at h
    · rename_i must visited hk
      split at h
      · rename_i hv
        cases h
        exact .clear k must visited hk hv
      · cases h
    · cases h
  | elected | openStream i | startSession i | sendFails i | take i msg | count i | dispatch i
  | leave i | seeDone i | unregister i | uncount i | closeOwn i | callClose k | reset k =>
    simp only [step] at h
    split at h
    · cases h
      constructor <;> simp_all
    · cases h

end Leibrix.WorkerStreams

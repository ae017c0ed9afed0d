import Leibrix.Dispatcher
import Leibrix.Tasks
import Leibrix.Transition
import Leibrix.WorkerStreams

/-! The messages of the `CoordinateWorker` streams, from the receive loops to the handlers
they start. The loop of a stream acts on a `RegisterEvent` before its handler has checked
it: it reads the node id of the worker, and puts the session into the `SessionManager`. -/
namespace Leibrix.RejectedMessages
open Leibrix.Events Leibrix.Transition
open Leibrix.WorkerStreams (Sys Pc Moves moves_of_step)

def loopReads (msg : EventStreamMessage) : Option WorkerStreams.Message :=
  -- what the receive loop reads in a message; `none` if it reads through a nil pointer, at
  -- `reg.RegisterEvent.Worker.NodeId`
  match msg.payload with
  | .registerEvent ev => ev.worker.map fun worker => .register worker.nodeId
  | _ => some .other

structure Node (ι : Type) where
  streams : Sys ι
  -- the message that the loop of a stream has taken last
  message : ι → Option EventStreamMessage
  -- the goroutines of `handleEventAsync`
  tasks : Tasks EventStreamMessage
  store : ControlPlaneStateStore
  -- something was read through a nil pointer, and the process has ended
  crashed : Bool

def Node.start (ι : Type) : Node ι :=
  ⟨Sys.start ι, fun _ => none, Tasks.empty _, newControlPlaneStateStore, false⟩

inductive Label (ι : Type) where
  | receive (i : ι) (msg : EventStreamMessage)
  -- the loop starts `handleEventAsync` for the message it has taken
  | dispatch (i : ι)
  | handle (n : Nat) (now : Int)
  -- any other step of the streams and of the `SessionManager`
  | stream (l : WorkerStreams.Label ι)

def handsOn {ι : Type} : WorkerStreams.Label ι → Bool
  | .take _ _ | .dispatch _ => true
  | _ => false

variable {ι : Type}

def Node.handled (serverId : String) (now : Int) (msg : EventStreamMessage)
    (tasks : Tasks EventStreamMessage) (s : Node ι) : Node ι :=
  match Dispatcher.handleEvent serverId now msg s.store with
  | none => { s with crashed := true }
  | some (.ok (_, store)) => { s with tasks := tasks, store := store }
  | some (.error _) => { s with tasks := tasks }

theorem handled_eq (serverId : String) (now : Int) (msg : EventStreamMessage)
    (tasks : Tasks EventStreamMessage) (s : Node ι) :
    s.handled serverId now msg tasks =
      { s with tasks := tasks, store := (handleEventAsync serverId now msg s.store).2 } := by
  unfold Node.handled handleEventAsync
  rw [Dispatcher.handleEvent_eq]
  cases Events.handleEvent serverId now msg s.store <;> rfl

variable [DecidableEq ι]

def step (serverId : String) (s : Node ι) (l : Label ι) : Option (Node ι) :=
  if s.crashed then none else
  match l with
  | .receive i msg =>
    match loopReads msg with
    | none => if s.streams.pc i = .receiving then some { s with crashed := true } else none
    | some read => (WorkerStreams.step s.streams (.take i read)).map fun streams =>
      { s with streams := streams, message := Function.update s.message i (some msg) }
  | .dispatch i =>
    (s.message i).bind fun msg =>
      (WorkerStreams.step s.streams (.dispatch i)).map fun streams =>
        { s with streams := streams, tasks := s.tasks.start msg }
  | .handle n now =>
    if h : s.tasks.Running n then
      some (s.handled serverId now (s.tasks.task n h) (s.tasks.finish n h))
    else none
  | .stream l =>
    if handsOn l then none
    else (WorkerStreams.step s.streams l).map fun streams => { s with streams := streams }

def Node.worksOn (s : Node ι) : Label ι → Option EventStreamMessage
  -- the message that a step works on: in the loop that has taken it, or in its handler
  | .receive _ msg => some msg
  | .dispatch i | .stream (.store i) | .stream (.closeOld i) | .stream (.count i) => s.message i
  | .handle n _ => if h : s.tasks.Running n then some (s.tasks.task n h) else none
  | .stream _ => none

def identified (msg : EventStreamMessage) : Bool :=
  match msg.payload with
  | .registerEvent ev => ev.worker.any fun worker => worker.nodeId ≠ ""
  | _ => true

def takesIdentified : Label ι → Bool
  | .receive _ msg => identified msg
  | _ => true

def TakesIdentified (_ : Node ι) (l : Label ι) : Prop := takesIdentified l = true

inductive Effect (serverId : String) (s : Node ι) : Label ι → Node ι → Prop
  | crash (i : ι) (msg : EventStreamMessage) (hread : loopReads msg = none) :
      Effect serverId s (.receive i msg) { s with crashed := true }
  | receive (i : ι) (msg : EventStreamMessage) (read : WorkerStreams.Message) (streams : Sys ι)
      (hread : loopReads msg = some read)
      (hs : WorkerStreams.step s.streams (.take i read) = some streams) :
      Effect serverId s (.receive i msg)
        { s with streams := streams, message := Function.update s.message i (some msg) }
  | dispatch (i : ι) (msg : EventStreamMessage) (streams : Sys ι)
      (hs : WorkerStreams.step s.streams (.dispatch i) = some streams) :
      Effect serverId s (.dispatch i)
        { s with streams := streams, tasks := s.tasks.start msg }
  | handle (n : Nat) (now : Int) (h : s.tasks.Running n) :
      Effect serverId s (.handle n now)
        { s with
          tasks := s.tasks.finish n h
          store := (handleEventAsync serverId now (s.tasks.task n h) s.store).2 }
  | stream (l : WorkerStreams.Label ι) (streams : Sys ι) (hl : handsOn l = false)
      (hs : WorkerStreams.step s.streams l = some streams) :
      Effect serverId s (.stream l) { s with streams := streams }

variable {serverId : String} {s t : Node ι} {l : Label ι} {msg : EventStreamMessage}

theorem effect_of_step (h : step serverId s l = some t) : Effect serverId s l t := by
  unfold step at h
  obtain ⟨-, h⟩ := Option.ite_none_left_eq_some.mp h
  cases l with
  | receive i msg =>
    dsimp only at h
    split at h
    · rename_i hread
      obtain ⟨-, ht⟩ := Option.ite_none_right_eq_some.mp h
      cases ht
      exact .crash i msg hread
    · rename_i read hread
      obtain ⟨streams, hs, rfl⟩ := Option.map_eq_some_iff.mp h
      exact .receive i msg read streams hread hs
  | dispatch i =>
    obtain ⟨msg, -, ht⟩ := Option.bind_eq_some_iff.mp h
    obtain ⟨streams, hs, rfl⟩ := Option.map_eq_some_iff.mp ht
    exact .dispatch i msg streams hs
  | handle n now =>
    dsimp only at h
    split at h
    · rename_i hr
      cases h
      rw [handled_eq]
      exact .handle n now hr
    · cases h
  | stream l =>
    obtain ⟨hl, ht⟩ := Option.ite_none_left_eq_some.mp h
    obtain ⟨streams, hs, rfl⟩ := Option.map_eq_some_iff.mp ht
    exact .stream l streams (Bool.eq_false_iff.mpr hl) hs

/-- The streams of a node run as `WorkerStreams` says, whatever the messages are. -/
theorem reach_streams {ok : Node ι → Label ι → Prop}
    (h : Reach (Fires (step serverId)) ok (Node.start ι) s) :
    Reach (Fires WorkerStreams.step) anyStep (Sys.start ι) s.streams := by
  induction h with
  | refl => exact .refl
  | tail _ _ hstep ih =>
    cases effect_of_step hstep with
    | crash | handle => exact ih
    | receive i msg read streams hread hs => exact ih.tail trivial hs
    | dispatch i msg streams hs => exact ih.tail trivial hs
    | stream l streams hl hs => exact ih.tail trivial hs

/-- The handlers do not reject a `RegisterEvent` that says which worker it is from. -/
theorem handleEvent_of_register {now : Int} {st : ControlPlaneStateStore} {nodeId err : String}
    (hread : loopReads msg = some (.register nodeId)) (hid : identified msg = true) :
    Events.handleEvent serverId now msg st ≠ .error err := by
  obtain ⟨eventId, payload⟩ := msg
  cases payload with
  | registerEvent ev =>
    obtain ⟨worker⟩ := ev
    cases worker with
    | none => simp [loopReads] at hread
    | some worker =>
      have hne : worker.nodeId ≠ "" := by simpa [identified] using hid
      simp [Events.handleEvent, onRegister, hne]
  | absent | heartbeatEvent | dataPullStatusUpdate ev | dataAssignment | commonAck ev =>
    simp [loopReads] at hread

theorem loopReads_ne_none (hid : identified msg = true) : loopReads msg ≠ none := by
  obtain ⟨eventId, payload⟩ := msg
  cases payload with
  | registerEvent ev =>
    obtain ⟨worker⟩ := ev
    cases worker with
    | none => simp [identified] at hid
    | some worker => simp [loopReads]
  | absent | heartbeatEvent | dataPullStatusUpdate ev | dataAssignment | commonAck ev =>
    simp [loopReads]

/-- Whether a message is rejected does not depend on the store or on the time. -/
theorem handleEvent_error {now now' : Int} {st st' : ControlPlaneStateStore} {err : String}
    (h : Events.handleEvent serverId now msg st = .error err) :
    Events.handleEvent serverId now' msg st' = .error err := by
  obtain ⟨eventId, payload⟩ := msg
  cases payload with
  | registerEvent ev =>
    obtain ⟨worker⟩ := ev
    cases worker with
    | none => exact h
    | some worker =>
      by_cases hw : worker.nodeId = ""
      all_goals simp_all [Events.handleEvent, onRegister]
  | dataPullStatusUpdate ev =>
    by_cases hu : ev.datasetId = "" ∨ ev.epochId = ""
    all_goals simp_all [Events.handleEvent, onDataPullState]
  | commonAck ev =>
    by_cases ha : ev.serverId = ""
    all_goals simp_all [Events.handleEvent, onCommonAck]
  | heartbeatEvent => cases h
  | absent | dataAssignment => exact h

def registering : Pc ι → Bool
  | .taken (.register _) | .replaced _ | .counting => true
  | _ => false

theorem registering_goto {u : Sys ι} {i j : ι} {pc : Pc ι} (hpc : registering pc = false)
    (hj : registering ((u.goto i pc).pc j) = true) : registering (u.pc j) = true := by
  by_cases he : j = i
  · subst he
    simp [Sys.goto, hpc] at hj
  · simpa [Sys.goto, he] using hj

/-- Only by taking a message does a loop come to register. -/
theorem registering_of_moves {u v : Sys ι} {l : WorkerStreams.Label ι} {j : ι} (hm : Moves u l v)
    (hl : handsOn l = false) (hj : registering (v.pc j) = true) : registering (u.pc j) = true := by
  cases hm with
  | leadership | elected | hangUp | sendFails | callClose | visit | clear | reset => exact hj
  | take | dispatch => cases hl
  | startSession i | leave i | seeDone i => exact registering_goto rfl hj
  | closeOld i | count i | uncount i | closeOwn i => exact registering_goto rfl hj
  | openStream i =>
    refine registering_goto ?_ hj
    cases u.isLeader <;> rfl
  | store i nodeId hpc =>
    by_cases he : j = i
    · rw [he, hpc]
      rfl
    · simpa [Sys.loadAndStore, he] using hj
  | unregister i =>
    unfold Sys.loadAndDelete at hj
    split at hj
    · exact registering_goto rfl hj
    · by_cases he : j = i
      · simp [he, registering] at hj
      · simpa [he] using hj

structure Sound (s : Node ι) : Prop where
  alive : s.crashed = false
  accepted : ∀ i, registering (s.streams.pc i) = true →
    ∃ msg nodeId, s.message i = some msg ∧ loopReads msg = some (.register nodeId) ∧
      identified msg = true

theorem Sound.step (h : Sound s) (hid : TakesIdentified s l) (he : Effect serverId s l t) :
    Sound t := by
  cases he with
  | crash i msg hread => exact absurd hread (loopReads_ne_none hid)
  | receive i msg read streams hread hs =>
    cases moves_of_step hs
    refine ⟨h.alive, fun j hj => ?_⟩
    by_cases hji : j = i
    · subst hji
      cases read with
      | other => simp [Sys.goto, registering] at hj
      | register nodeId => exact ⟨msg, nodeId, Function.update_self .., hread, hid⟩
    · have hpc : registering (s.streams.pc j) = true := by simpa [Sys.goto, hji] using hj
      obtain ⟨msg', nodeId, hmsg, hrest⟩ := h.accepted j hpc
      exact ⟨msg', nodeId, (Function.update_of_ne hji ..).trans hmsg, hrest⟩
  | dispatch i msg streams hs =>
    cases moves_of_step hs
    exact ⟨h.alive, fun j hj => h.accepted j (registering_goto rfl hj)⟩
  | handle n now hr => exact ⟨h.alive, h.accepted⟩
  | stream l streams hl hs =>
    have hm := moves_of_step hs
    exact ⟨h.alive, fun j hj => h.accepted j (registering_of_moves hm hl hj)⟩

theorem sound_of_reach (h : Reach (Fires (step serverId)) TakesIdentified (Node.start ι) s) :
    Sound s := by
  refine h.invariant (I := Sound) ⟨rfl, fun i hi => ?_⟩ fun u l v hu hid hs =>
    hu.step hid (effect_of_step hs)
  simp [Node.start, Sys.start, registering] at hi

structure Untouched (s t : Node ι) : Prop where
  store : t.store = s.store
  sessions : t.streams.sessions = s.streams.sessions
  sessionCnt : t.streams.sessionCnt = s.streams.sessionCnt
  closed : t.streams.closed = s.streams.closed
  closers : t.streams.closers = s.streams.closers

omit [DecidableEq ι] in
/-- A loop that registers does not work on a rejected message. -/
theorem Sound.not_registering {i : ι} {now : Int} {st : ControlPlaneStateStore} {err : String}
    (h : Sound s) (hmsg : s.message i = some msg)
    (herr : Events.handleEvent serverId now msg st = .error err) :
    registering (s.streams.pc i) = false := by
  by_contra hreg
  obtain ⟨msg', nodeId, hmsg', hread, hid⟩ := h.accepted i (Bool.eq_true_of_not_eq_false hreg)
  obtain rfl : msg = msg' := Option.some.inj (hmsg.symm.trans hmsg')
  exact handleEvent_of_register hread hid herr

theorem Sound.untouched {now : Int} {st : ControlPlaneStateStore} {err : String} (h : Sound s)
    (he : Effect serverId s l t) (hon : s.worksOn l = some msg)
    (herr : Events.handleEvent serverId now msg st = .error err) : Untouched s t := by
  cases he with
  | crash => exact ⟨rfl, rfl, rfl, rfl, rfl⟩
  | receive i msg read streams hread hs =>
    cases moves_of_step hs
    exact ⟨rfl, rfl, rfl, rfl, rfl⟩
  | dispatch i msg streams hs =>
    cases moves_of_step hs
    exact ⟨rfl, rfl, rfl, rfl, rfl⟩
  | handle n now' hr =>
    obtain rfl : s.tasks.task n hr = msg := by simpa [Node.worksOn, hr] using hon
    refine ⟨?_, rfl, rfl, rfl, rfl⟩
    simp only [handleEventAsync, handleEvent_error herr]
  | stream l streams hl hs =>
    cases moves_of_step hs with
    | store i nodeId hpc | closeOld i old hpc | count i hpc =>
      have hnot := h.not_registering hon herr
      rw [hpc] at hnot
      cases hnot
    | _ => cases hon

/-- In every run in which each `RegisterEvent` received says which worker it is from, nothing
is read through a nil pointer, and no step that works on a message that the handlers reject
touches the store or the `SessionManager`. -/
theorem rejected_untouched
    (h : Reach (Fires (step serverId)) TakesIdentified (Node.start ι) s) :
    s.crashed = false ∧
    ∀ (l : Label ι) (t : Node ι) (msg : EventStreamMessage) (now : Int)
      (st : ControlPlaneStateStore) (err : String), step serverId s l = some t →
      s.worksOn l = some msg → Events.handleEvent serverId now msg st = .error err →
      Untouched s t := by
  have hs := sound_of_reach h
  refine ⟨hs.alive, fun l t msg now st err hstep hon herr => ?_⟩
  exact hs.untouched (effect_of_step hstep) hon herr

def registration (worker : Option Worker) : EventStreamMessage :=
  ⟨"evt-1", .registerEvent ⟨worker⟩⟩

def untoldUpdate : EventStreamMessage :=
  ⟨"evt-2", .dataPullStatusUpdate ⟨"sales", "", .completed, ""⟩⟩

/-- A worker registers, and then sends an update without an epoch. -/
theorem rejected_untouched_update :
    ∃ s t : Node Unit, Reach (Fires (step "cp-1")) TakesIdentified (Node.start Unit) s ∧
      s.streams.get "worker-1" = some () ∧ step "cp-1" s (.handle 1 9) = some t ∧
      s.worksOn (.handle 1 9) = some untoldUpdate ∧ s.crashed = false ∧ Untouched s t := by
  obtain ⟨s, t, hs, hget, ht, hon⟩ : ∃ s t : Node Unit,
      replay (guarded (fun _ => takesIdentified) (step "cp-1"))
        [.stream (.openStream ()), .stream (.startSession ()),
          .receive () (registration (some ⟨"worker-1", "10.0.0.7:9000", []⟩)),
          .stream (.store ()), .stream (.count ()), .dispatch (), .receive () untoldUpdate,
          .dispatch ()] (Node.start Unit) = some s ∧
      s.streams.get "worker-1" = some () ∧ step "cp-1" s (.handle 1 9) = some t ∧
      s.worksOn (.handle 1 9) = some untoldUpdate := ⟨_, _, rfl, rfl, rfl, rfl⟩
  have hreach : Reach (Fires (step "cp-1")) TakesIdentified (Node.start Unit) s :=
    (reach_of_replay hs).of_guarded fun _ _ hpass => hpass
  obtain ⟨halive, huntouched⟩ := rejected_untouched hreach
  exact ⟨s, t, hreach, hget, ht, hon, halive,
    huntouched _ t untoldUpdate 9 s.store _ ht hon rfl⟩

/-- A `RegisterEvent` without a worker ends the process. One with an empty node id is
rejected, and yet the session stands in the `SessionManager` under that id. -/
theorem unidentified_registered :
    (∃ s : Node Unit, Reach (Fires (step "cp-1")) anyStep (Node.start Unit) s ∧
      s.crashed = true) ∧
    ∃ s t : Node Unit, Reach (Fires (step "cp-1")) anyStep (Node.start Unit) s ∧
      step "cp-1" s (.stream (.store ())) = some t ∧
      s.worksOn (.stream (.store ())) = some (registration (some ⟨"", "", []⟩)) ∧
      Events.handleEvent "cp-1" 9 (registration (some ⟨"", "", []⟩)) s.store =
        .error "register event is missing worker identity" ∧
      s.streams.get "" = none ∧ t.streams.get "" = some () := by
  constructor
  · obtain ⟨s, hs, hcrashed⟩ : ∃ s, replay (step "cp-1")
        [.stream (.openStream ()), .stream (.startSession ()), .receive () (registration none)]
        (Node.start Unit) = some s ∧ s.crashed = true := ⟨_, rfl, rfl⟩
    exact ⟨s, reach_of_replay hs, hcrashed⟩
  · obtain ⟨s, t, hs, ht, hon, herr, hbefore, hafter⟩ : ∃ s t : Node Unit, replay (step "cp-1")
        [.stream (.openStream ()), .stream (.startSession ()),
          .receive () (registration (some ⟨"", "", []⟩))] (Node.start Unit) = some s ∧
        step "cp-1" s (.stream (.store ())) = some t ∧
        s.worksOn (.stream (.store ())) = some (registration (some ⟨"", "", []⟩)) ∧
        Events.handleEvent "cp-1" 9 (registration (some ⟨"", "", []⟩)) s.store =
          .error "register event is missing worker identity" ∧
        s.streams.get "" = none ∧ t.streams.get "" = some () :=
      ⟨_, _, rfl, rfl, rfl, rfl, rfl, rfl⟩
    exact ⟨s, t, reach_of_replay hs, ht, hon, herr, hbefore, hafter⟩

end Leibrix.RejectedMessages

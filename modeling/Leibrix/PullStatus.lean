import Leibrix.StateHandlers
import Leibrix.Tasks
import Leibrix.Transition

/-! The status updates of one `CoordinateWorker` stream. The receive loop starts
`handleEventAsync` for each message and goes on, so messages are handled in any order, and
the store keeps the status that was handled last. Other streams of the node write to the
same store. -/
namespace Leibrix.PullStatus
open Leibrix.Events Leibrix.Transition

structure Sys where
  -- sent by the worker and not received yet
  inbox : List EventStreamMessage
  tasks : Tasks EventStreamMessage
  store : ControlPlaneStateStore

def Sys.start (sent : List EventStreamMessage) : Sys :=
  ⟨sent, Tasks.empty _, newControlPlaneStateStore⟩

inductive Label where
  | receive
  | handle (n : Nat) (now : Int)
  -- a message of another stream is handled
  | elsewhere (msg : EventStreamMessage) (now : Int)

def crashes (msg : EventStreamMessage) : Bool := msg.payload = .registerEvent ⟨none⟩

def step (serverId : String) (s : Sys) : Label → Option Sys
  | .receive =>
    match s.inbox with
    | msg :: rest =>
      if crashes msg then none else some { s with inbox := rest, tasks := s.tasks.start msg }
    | [] => none
  | .handle n now =>
    if h : s.tasks.Running n then
      some { s with
        tasks := s.tasks.finish n h
        store := (handleEventAsync serverId now (s.tasks.task n h) s.store).2 }
    else none
  | .elsewhere msg now => some { s with store := (handleEventAsync serverId now msg s.store).2 }

def updateFor (datasetId epochId : String) (msg : EventStreamMessage) :
    Option DataPullStatusUpdateEvent :=
  (acceptedUpdate msg).filter fun u => u.datasetId = datasetId ∧ u.epochId = epochId

theorem updateFor_eq_some {d e : String} {msg : EventStreamMessage}
    {u : DataPullStatusUpdateEvent} : updateFor d e msg = some u ↔
      acceptedUpdate msg = some u ∧ u.datasetId = d ∧ u.epochId = e := by
  simp [updateFor, Option.filter_eq_some_iff]

structure ProperIds (u : DataPullStatusUpdateEvent) : Prop where
  dataset : u.datasetId ≠ "" ∧ SlashFree u.datasetId
  epoch : u.epochId ≠ "" ∧ SlashFree u.epochId

theorem ProperIds.accepted {msg : EventStreamMessage} {u : DataPullStatusUpdateEvent}
    (h : ProperIds u) (hp : msg.payload = .dataPullStatusUpdate u) :
    acceptedUpdate msg = some u := by
  simp [acceptedUpdate, hp, h.dataset.1, h.epoch.1]

def apart (sent : List EventStreamMessage) : Label → Bool
  -- no other stream updates the ids that this one updates
  | .elsewhere msg _ => (acceptedUpdate msg).all fun u =>
      sent.all fun m => (updateFor u.datasetId u.epochId m).isNone
  | _ => true

def Apart (sent : List EventStreamMessage) (_ : Sys) (l : Label) : Prop := apart sent l = true

variable {serverId : String} {sent : List EventStreamMessage} {s t : Sys} {d e : String}

/-- Handling a message sets the status for the ids of its update. -/
theorem pullStatus_handleEventAsync (now : Int) (msg : EventStreamMessage)
    (st : ControlPlaneStateStore) (hd : SlashFree d) (he : SlashFree e) :
    (handleEventAsync serverId now msg st).2.pullStatus d e =
      (updateFor d e msg).or (st.pullStatus d e) := by
  have hp := pullStates_handleEventAsync serverId now msg st
  cases hu : acceptedUpdate msg with
  | none =>
    rw [hu] at hp
    simp [updateFor, hu, ControlPlaneStateStore.pullStatus, hp]
  | some u =>
    rw [hu] at hp
    have hset := pullStatus_updatePullStatus (u := u) st hd he
    unfold ControlPlaneStateStore.pullStatus at hset ⊢
    rw [hp]
    simp only [Option.elim_some]
    rw [hset]
    by_cases h : u.datasetId = d ∧ u.epochId = e
    all_goals simp [updateFor, hu, h, Option.filter]

/-- What has been received, with what has not been, is what was sent. -/
theorem line_of_reach {ok : Sys → Label → Prop}
    (h : Reach (Fires (step serverId)) ok (Sys.start sent) s) :
    s.tasks.started ++ s.inbox = sent := by
  refine h.invariant (I := fun s => s.tasks.started ++ s.inbox = sent) rfl ?_
  intro s l t hline _ hs
  cases l with
  | receive =>
    simp only [Fires, step] at hs
    split at hs
    · rename_i msg rest hin
      split at hs
      · cases hs
      · cases hs
        simpa [Tasks.start, hin] using hline
    · cases hs
  | handle n now =>
    simp only [Fires, step] at hs
    split at hs
    · cases hs
      exact hline
    · cases hs
  | elsewhere msg now =>
    cases hs
    exact hline

def Latest (d e : String) (s : Sys) : Prop :=
  s.store.pullStatus d e = (s.tasks.inOrder.filterMap (updateFor d e)).getLast?

theorem Latest.step {l : Label} (h : Latest d e s) (hd : SlashFree d) (he : SlashFree e)
    (hsent : ∃ m ∈ sent, updateFor d e m ≠ none) (ho : Apart sent s l)
    (hs : step serverId s l = some t) : Latest d e t := by
  unfold Latest at h ⊢
  cases l with
  | receive =>
    simp only [PullStatus.step] at hs
    split at hs
    · split at hs
      · cases hs
      · cases hs
        rw [Tasks.inOrder_start]
        exact h
    · cases hs
  | handle n now =>
    simp only [PullStatus.step] at hs
    split at hs
    · rename_i hr
      cases hs
      rw [pullStatus_handleEventAsync now _ _ hd he, Tasks.inOrder_finish, h]
      cases hu : updateFor d e (s.tasks.task n hr) <;> simp [hu]
    · cases hs
  | elsewhere msg now =>
    cases hs
    have hnone : updateFor d e msg = none := by
      by_contra hne
      obtain ⟨u, hu⟩ := Option.ne_none_iff_exists'.mp hne
      obtain ⟨hacc, rfl, rfl⟩ := updateFor_eq_some.mp hu
      obtain ⟨m, hm, hfor⟩ := hsent
      have ho : ∀ m ∈ sent, updateFor u.datasetId u.epochId m = none := by
        simpa [Apart, apart, hacc] using ho
      exact hfor (ho m hm)
    rw [pullStatus_handleEventAsync now _ _ hd he, hnone, Option.none_or]
    exact h

theorem latest_of_reach (h : Reach (Fires (step serverId)) (Apart sent) (Sys.start sent) s)
    (hd : SlashFree d) (he : SlashFree e) (hsent : ∃ m ∈ sent, updateFor d e m ≠ none) :
    Latest d e s :=
  h.invariant (I := Latest d e) rfl fun _ _ _ hi ho hs => hi.step hd he hsent ho hs

/-- When every message of a stream has been handled, each of them once, the status for the
ids of an update is the one that was handled last: the last one sent if the others for the
same ids were handled before it. -/
theorem pullStatus_of_handled
    (hids : ∀ msg ∈ sent, ∀ u, msg.payload = .dataPullStatusUpdate u → ProperIds u)
    (h : Reach (Fires (step serverId)) (Apart sent) (Sys.start sent) s)
    (hin : s.inbox = []) (hdone : s.tasks.Done) :
    s.tasks.finished.Perm (List.range sent.length) ∧
    ∀ n msg u, sent[n]? = some msg → msg.payload = .dataPullStatusUpdate u →
      s.store.pullStatus u.datasetId u.epochId =
        ((s.tasks.finished.filterMap (sent[·]?)).filterMap
          (updateFor u.datasetId u.epochId)).getLast? ∧
      ((∀ m msg' u', sent[m]? = some msg' → msg'.payload = .dataPullStatusUpdate u' →
          u'.datasetId = u.datasetId → u'.epochId = u.epochId → m ≠ n →
          Tasks.Before s.tasks.finished m n) →
        s.store.pullStatus u.datasetId u.epochId = some u) := by
  have hline : s.tasks.started = sent := by simpa [hin] using line_of_reach h
  refine ⟨hline ▸ hdone.perm_range, fun n msg u hn hp => ?_⟩
  have hmem := List.mem_of_getElem? hn
  have hu := hids msg hmem u hp
  have hfor : updateFor u.datasetId u.epochId msg = some u :=
    updateFor_eq_some.mpr ⟨hu.accepted hp, rfl, rfl⟩
  have hstatus : Latest u.datasetId u.epochId s :=
    latest_of_reach h hu.dataset.2 hu.epoch.2 ⟨msg, hmem, by simp [hfor]⟩
  rw [Latest, Tasks.inOrder, hline] at hstatus
  refine ⟨hstatus, fun hlast => ?_⟩
  rw [hstatus, List.filterMap_filterMap]
  refine Tasks.getLast?_filterMap_of_before (n := n) ?_ (by simp [hn, hfor]) ?_ s.tasks.nodup
  · exact hdone n (hline ▸ (List.getElem?_eq_some_iff.mp hn).1)
  · intro m _ hmn hne
    obtain ⟨u', hu'⟩ := Option.ne_none_iff_exists'.mp hne
    obtain ⟨msg', hm', hfor'⟩ := Option.bind_eq_some_iff.mp hu'
    obtain ⟨hacc, hds, hep⟩ := updateFor_eq_some.mp hfor'
    exact hlast m msg' u' hm' (payload_of_acceptedUpdate hacc) hds hep hmn

def pulling : DataPullStatusUpdateEvent := ⟨"sales", "epoch-1", .inProgress, ""⟩
def pulled : DataPullStatusUpdateEvent := ⟨"sales", "epoch-1", .completed, ""⟩

def pullMessages : List EventStreamMessage :=
  [⟨"evt-1", .dataPullStatusUpdate pulling⟩, ⟨"evt-2", .dataPullStatusUpdate pulled⟩]

theorem properIds_pullMessages (msg : EventStreamMessage) (hmsg : msg ∈ pullMessages)
    (u : DataPullStatusUpdateEvent) (hp : msg.payload = .dataPullStatusUpdate u) :
    ProperIds u := by
  have hd : SlashFree "sales" := by simp [SlashFree]
  have he : SlashFree "epoch-1" := by simp [SlashFree]
  have hu : u = pulling ∨ u = pulled := by
    rcases List.mem_pair.mp hmsg with rfl | rfl
    · exact .inl (Payload.dataPullStatusUpdate.inj hp).symm
    · exact .inr (Payload.dataPullStatusUpdate.inj hp).symm
  rcases hu with rfl | rfl
  all_goals exact ⟨⟨by decide, hd⟩, by decide, he⟩

/-- Each message is handled before the next is received. -/
theorem pullStatus_of_handled_pair :
    ∃ s, Reach (Fires (step "cp-1")) (Apart pullMessages) (Sys.start pullMessages) s ∧
      s.inbox = [] ∧ s.tasks.Done ∧ s.store.pullStatus "sales" "epoch-1" = some pulled := by
  obtain ⟨s, hs, hin, hf, hst⟩ : ∃ s,
      replay (guarded (fun _ => apart pullMessages) (step "cp-1"))
        [.receive, .handle 0 5, .receive, .handle 1 9] (Sys.start pullMessages) = some s ∧
      s.inbox = [] ∧ s.tasks.finished = [0, 1] ∧ s.tasks.started = pullMessages :=
    ⟨_, rfl, rfl, rfl, rfl⟩
  have hreach : Reach (Fires (step "cp-1")) (Apart pullMessages) (Sys.start pullMessages) s :=
    (reach_of_replay hs).of_guarded fun _ _ hpass => hpass
  have hdone : s.tasks.Done := by
    unfold Tasks.Done
    rw [hf, hst]
    decide
  have hstatus := (pullStatus_of_handled properIds_pullMessages hreach hin hdone).2
  have hlast := (hstatus 1 _ pulled rfl rfl).2
  refine ⟨s, hreach, hin, hdone, hlast fun m msg' u' hm _ _ _ hne => ?_⟩
  have hlt : m < 2 := (List.getElem?_eq_some_iff.mp hm).1
  obtain rfl : m = 0 := by omega
  rw [hf]
  decide

/-- The goroutine of the second message comes first: the pull stays in progress. -/
theorem pullStatus_overwritten :
    ∃ s, Reach (Fires (step "cp-1")) (Apart pullMessages) (Sys.start pullMessages) s ∧
      s.inbox = [] ∧ s.tasks.Done ∧ s.store.pullStatus "sales" "epoch-1" = some pulling ∧
      pulling ≠ pulled := by
  obtain ⟨s, hs, hin, hf, hst, hp⟩ : ∃ s,
      replay (guarded (fun _ => apart pullMessages) (step "cp-1"))
        [.receive, .receive, .handle 1 5, .handle 0 9] (Sys.start pullMessages) = some s ∧
      s.inbox = [] ∧ s.tasks.finished = [1, 0] ∧ s.tasks.started = pullMessages ∧
      s.store.pullStatus "sales" "epoch-1" = some pulling := ⟨_, rfl, rfl, rfl, rfl, rfl⟩
  have hdone : s.tasks.Done := by
    unfold Tasks.Done
    rw [hf, hst]
    decide
  exact ⟨s, (reach_of_replay hs).of_guarded fun _ _ hpass => hpass, hin, hdone, hp,
    by decide⟩

end Leibrix.PullStatus

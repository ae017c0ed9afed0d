import Leibrix.PairedKeys
import Leibrix.StateHandlers

/-! `ControlPlaneStateStore` as maps from pairs. `PullStatus` and `CommonAck` take two ids
and look a joined key up, so an update is also read under every other pair that joins to its
key. -/
namespace Leibrix.Events
open PairedKeys ControlPlaneStateStore

def handleEvents (serverId : String) (msgs : List (EventStreamMessage × Int))
    (st : ControlPlaneStateStore) : ControlPlaneStateStore :=
  -- `handleEventAsync` on one message after another, each with the time it is handled at
  msgs.foldl (fun st msg => (handleEventAsync serverId msg.2 msg.1 st).2) st

def acceptedUpdates (msgs : List (EventStreamMessage × Int)) : List DataPullStatusUpdateEvent :=
  msgs.filterMap fun msg => acceptedUpdate msg.1

def acceptedAcks (msgs : List (EventStreamMessage × Int)) : List CommonAckEvent :=
  msgs.filterMap fun msg => acceptedAck msg.1

section Runs
variable {serverId : String}

theorem pullStates_handleEvents (msgs : List (EventStreamMessage × Int))
    (st : ControlPlaneStateStore) :
    (handleEvents serverId msgs st).pullStates = (acceptedUpdates msgs).foldl
      (fun m u => Function.update m (pullStatusKey u.datasetId u.epochId) (some u))
      st.pullStates := by
  induction msgs generalizing st with
  | nil => rfl
  | cons msg msgs ih =>
    refine (ih _).trans ?_
    rw [pullStates_handleEventAsync, acceptedUpdates, acceptedUpdates, List.filterMap_cons]
    cases acceptedUpdate msg.1 <;> rfl

theorem commonAcks_handleEvents (msgs : List (EventStreamMessage × Int))
    (st : ControlPlaneStateStore) :
    (handleEvents serverId msgs st).commonAcks = (acceptedAcks msgs).foldl
      (fun m a => Function.update m (commonAckKey a.serverId a.eventType) (some a))
      st.commonAcks := by
  induction msgs generalizing st with
  | nil => rfl
  | cons msg msgs ih =>
    refine (ih _).trans ?_
    rw [commonAcks_handleEventAsync, acceptedAcks, acceptedAcks, List.filterMap_cons]
    cases acceptedAck msg.1 <;> rfl

end Runs

theorem ids_of_acceptedUpdate {msg : EventStreamMessage} {u : DataPullStatusUpdateEvent}
    (h : acceptedUpdate msg = some u) : u.datasetId ≠ "" ∧ u.epochId ≠ "" := by
  have hp := payload_of_acceptedUpdate h
  rw [acceptedUpdate, hp] at h
  simp only [Option.ite_none_left_eq_some, not_or] at h
  exact h.1

theorem serverId_of_acceptedAck {msg : EventStreamMessage} {a : CommonAckEvent}
    (h : acceptedAck msg = some a) : a.serverId ≠ "" := by
  unfold acceptedAck at h
  split at h
  · rw [Option.ite_none_left_eq_some] at h
    obtain ⟨hne, heq⟩ := h
    cases heq
    exact hne
  · cases h

/-- When no other admissible pair joins to the key of `d` and `e`. -/
theorem pair_unique_iff {ok : List Char → Prop} {d e : String} (hok : ∀ l, l ≠ [] → ok l)
    (hd : d ≠ "") :
    (∀ a : String × String, a.1 ≠ "" ∧ ok a.2.toList →
        a.1 ++ "/" ++ a.2 = d ++ "/" ++ e → a = (d, e)) ↔
      '/' ∉ d.toList.tail ∧ ∀ p q, e.toList = p ++ '/' :: q → ¬ok q := by
  rw [← joined_unique_iff hok (by simpa using hd)]
  constructor
  · intro h d' e' hd' he' heq
    have hpair := h (String.ofList d', String.ofList e') ⟨by simpa using hd', by simpa using he'⟩
      (String.toList_inj.mp (by simpa using heq))
    obtain ⟨h₁, h₂⟩ := Prod.mk.inj hpair
    rw [← h₁, ← h₂]
    simp
  · intro h a ha heq
    have hlists := h a.1.toList a.2.toList (by simpa using ha.1) ha.2
      (by simpa using congrArg String.toList heq)
    exact Prod.ext (String.toList_inj.mp hlists.1) (String.toList_inj.mp hlists.2)

/-- A map under joined keys answers for every admissible pair as one keyed by pairs would,
exactly if no value's key can be cut elsewhere. -/
theorem joined_reads_iff {β : Type} (first second : β → String) {xs : List β}
    {ok : List Char → Prop} (hok : ∀ l, l ≠ [] → ok l)
    (hxs : ∀ x ∈ xs, first x ≠ "" ∧ ok (second x).toList) :
    (∀ d e, d ≠ "" → ok e.toList →
        xs.foldl (fun m x => Function.update m (first x ++ "/" ++ second x) (some x))
          (fun _ => none) (d ++ "/" ++ e) = last (fun x => first x = d ∧ second x = e) xs) ↔
      ∀ x ∈ xs, '/' ∉ (first x).toList.tail ∧
        ∀ p q, (second x).toList = p ++ '/' :: q → ¬ok q := by
  have hreads := reads_iff (fun x => (first x, second x))
    (fun a => a.1 ++ "/" ++ a.2) (fun a => a.1 ≠ "" ∧ ok a.2.toList) hxs
  have hcut : ∀ x ∈ xs, _ := fun x hx => pair_unique_iff (e := second x) hok (hxs x hx).1
  rw [← forall₂_congr hcut, ← hreads]
  simp only [foldl_update, Option.or_none, Prod.forall, Prod.mk.injEq, and_imp]

section Reads
variable (serverId : String) (msgs : List (EventStreamMessage × Int))

theorem pullStatus_pairs_iff :
    (∀ d e, d ≠ "" → e ≠ "" →
        (handleEvents serverId msgs newControlPlaneStateStore).pullStatus d e =
          last (fun u => u.datasetId = d ∧ u.epochId = e) (acceptedUpdates msgs)) ↔
      ∀ u ∈ acceptedUpdates msgs,
        '/' ∉ u.datasetId.toList.tail ∧ '/' ∉ u.epochId.toList.dropLast := by
  have hok : ∀ u ∈ acceptedUpdates msgs, u.datasetId ≠ "" ∧ u.epochId.toList ≠ [] := by
    intro u hu
    obtain ⟨msg, -, hmsg⟩ := List.mem_filterMap.mp hu
    obtain ⟨hd, he⟩ := ids_of_acceptedUpdate hmsg
    exact ⟨hd, by simpa using he⟩
  have hreads := joined_reads_iff DataPullStatusUpdateEvent.datasetId
    DataPullStatusUpdateEvent.epochId (fun l hl => hl) hok
  simp only [pullStatus, pullStates_handleEvents, notMem_dropLast_iff]
  rw [← hreads]
  simp only [ne_eq, String.toList_eq_nil_iff]
  rfl

theorem commonAck_pairs_iff :
    (∀ s t, s ≠ "" →
        (handleEvents serverId msgs newControlPlaneStateStore).commonAck s t =
          last (fun a => a.serverId = s ∧ a.eventType = t) (acceptedAcks msgs)) ↔
      ∀ a ∈ acceptedAcks msgs, '/' ∉ a.serverId.toList.tail ∧ '/' ∉ a.eventType.toList := by
  have hok : ∀ a ∈ acceptedAcks msgs, a.serverId ≠ "" ∧ True := by
    intro a ha
    obtain ⟨msg, -, hmsg⟩ := List.mem_filterMap.mp ha
    exact ⟨serverId_of_acceptedAck hmsg, trivial⟩
  have hreads := joined_reads_iff CommonAckEvent.serverId CommonAckEvent.eventType
    (fun _ _ => trivial) hok
  simp only [commonAck, commonAcks_handleEvents]
  rw [forall₂_congr fun a _ => and_congr_right fun _ => notMem_iff (e := a.eventType.toList),
    ← hreads]
  simp only [true_implies]
  rfl

/-- The store answers for pairs of ids as if it were keyed by them exactly if no accepted
dataset or server id has a slash behind its first character, no accepted epoch id has one
before its last character, and no accepted event type has one. -/
theorem stateStore_pairs_iff :
    ((∀ d e, d ≠ "" → e ≠ "" →
        (handleEvents serverId msgs newControlPlaneStateStore).pullStatus d e =
          last (fun u => u.datasetId = d ∧ u.epochId = e) (acceptedUpdates msgs)) ∧
      ∀ s t, s ≠ "" →
        (handleEvents serverId msgs newControlPlaneStateStore).commonAck s t =
          last (fun a => a.serverId = s ∧ a.eventType = t) (acceptedAcks msgs)) ↔
    (∀ u ∈ acceptedUpdates msgs,
        '/' ∉ u.datasetId.toList.tail ∧ '/' ∉ u.epochId.toList.dropLast) ∧
      ∀ a ∈ acceptedAcks msgs, '/' ∉ a.serverId.toList.tail ∧ '/' ∉ a.eventType.toList := by
  rw [pullStatus_pairs_iff, commonAck_pairs_iff]

end Reads

def euUpdate : DataPullStatusUpdateEvent := ⟨"sales/eu", "1", .completed, ""⟩

def euMessages : List (EventStreamMessage × Int) :=
  [(⟨"event-1", .dataPullStatusUpdate euUpdate⟩, 0)]

/-- It is also the answer for the epoch `eu/1` of the dataset `sales`. -/
theorem pullStatus_of_other_pair :
    (handleEvents "cp-1" euMessages newControlPlaneStateStore).pullStatus "sales" "eu/1" =
        some euUpdate ∧
      last (fun u => u.datasetId = "sales" ∧ u.epochId = "eu/1") (acceptedUpdates euMessages) =
        none := by
  decide

end Leibrix.Events

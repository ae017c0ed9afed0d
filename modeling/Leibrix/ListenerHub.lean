import Leibrix.Listeners
import Leibrix.Transition
import Mathlib.Data.List.Perm.Basic

/-! `internal/cluster/election.go`: the listeners of one election, any number of them. A
broadcast copies the registered sinks under the lock, in the order in which Go happens to
range over the map, and then enqueues at one after the other; listeners come and go
meanwhile. `Watch` registers the sink and starts its goroutine in two steps, and `Close`
waits for the goroutines of the service before it closes the sinks that are left. -/
namespace Leibrix.ListenerHub
open Leibrix.Election
open Leibrix.Listeners (Producer producer MembershipEvent listenerQueueSize)

inductive Stage where
  -- the `select`s of `enqueueLeader`; `enqueueMembership` has the first two
  | check | send | drain | resend
deriving DecidableEq

structure Cast (ε : Type) where
  -- a call of `broadcastLeaderEvent` or `broadcastMembershipEvent`: the sinks that have not been
  -- served yet, and the `select` that comes next at the first of them
  event : ε
  todo : List Nat
  stage : Stage
deriving DecidableEq

inductive Goroutine where
  | unwatched
  -- `Watch` has registered the sink and not started the goroutine yet
  | unstarted
  -- at the first `select` of the loop, the one with a default
  | polling
  | waiting
  | onLeaderChange (ev : LeaderEvent)
  | onMembershipChange (ev : MembershipEvent)
  | returned
deriving DecidableEq

structure Sink where
  leaderCh : Option LeaderEvent := none
  memberCh : List MembershipEvent := []
  done : Bool := false
  goroutine : Goroutine := .unwatched
deriving DecidableEq

inductive Closing where
  | running
  | cancelled
  -- `serviceWg.Wait` has returned
  | waited
  -- `closeAllListeners` has emptied the map and has these sinks to close
  | closingListeners (todo : List Nat)
  | closed
deriving DecidableEq

structure Hub where
  nextListenerID : Nat := 0
  listeners : List Nat := []
  sinks : Nat → Sink := fun _ => {}
  -- taken out of the map by `removeListener` and not closed yet
  removing : List Nat := []
  leader : Producer → Option (Cast LeaderEvent) := fun _ => none
  member : Option (Cast MembershipEvent) := none
  -- the goroutines that have returned: `campaign`, `observeLeader`, and `observeMembers`
  stopped : Producer → Bool := fun _ => false
  membersStopped : Bool := false
  closing : Closing := .running

def Hub.start : Hub := {}

inductive Label where
  | allocate
  | register (id : Nat)
  | startGoroutine (id : Nat)
  | removeListener (id : Nat)
  | closeRemoved (id : Nat)
  -- `order` is how the map is ranged over
  | broadcastLeader (ev : LeaderEvent) (order : List Nat)
  -- the last `select` may take `done` where it could send
  | enqueueLeader (p : Producer) (takesDone : Bool)
  | returnLeader (p : Producer)
  | broadcastMember (ev : MembershipEvent) (order : List Nat)
  | enqueueMembership (takesDone : Bool)
  | returnMember
  | block (id : Nat)
  | takeLeader (id : Nat)
  | takeMember (id : Nat)
  | seeDone (id : Nat)
  | finish (id : Nat)
  | cancel
  | stopProducer (p : Producer)
  | stopMembers
  | waitServices
  | removeAll
  | closeListener (id : Nat)
  | waitListeners
deriving DecidableEq

def Sink.enqueueLeader (k : Sink) (ev : LeaderEvent) (takesDone : Bool) :
    Stage → Option (Sink × Option Stage)
  -- one `select` of `enqueueLeader`: the sink after it, and the next `select` unless it returns
  | .check => some (k, if k.done then none else some .send)
  | .send =>
    match k.leaderCh with
    | none => some ({ k with leaderCh := some ev }, none)
    | some _ => some (k, some .drain)
  | .drain => some ({ k with leaderCh := none }, some .resend)
  | .resend =>
    match k.leaderCh with
    | none =>
      if takesDone then if k.done then some (k, none) else none
      else some ({ k with leaderCh := some ev }, none)
    | some _ => some (k, none)

def Sink.enqueueMembership (k : Sink) (ev : MembershipEvent) (takesDone : Bool) :
    Stage → Option (Sink × Option Stage)
  | .check => some (k, if k.done then none else some .send)
  | .send =>
    if k.memberCh.length < listenerQueueSize then
      if takesDone then if k.done then some (k, none) else none
      else some ({ k with memberCh := k.memberCh ++ [ev] }, none)
    else some (k, none)
  | .drain | .resend => none

def Cast.next {ε : Type} (c : Cast ε) : Option Stage → Cast ε
  | some stage => { c with stage := stage }
  | none => { c with todo := c.todo.tail, stage := .check }

def Goroutine.selects : Goroutine → Bool
  | .polling | .waiting => true
  | _ => false

def Goroutine.running : Goroutine → Bool
  | .unwatched | .unstarted | .returned => false
  | _ => true

def Goroutine.watched : Goroutine → Bool
  | .unwatched | .unstarted => false
  | _ => true

def Hub.setSink (s : Hub) (id : Nat) (k : Sink) : Hub :=
  { s with sinks := Function.update s.sinks id k }

def Hub.setGoroutine (s : Hub) (id : Nat) (g : Goroutine) : Hub :=
  s.setSink id { s.sinks id with goroutine := g }

def Hub.closeSink (s : Hub) (id : Nat) : Hub := s.setSink id { s.sinks id with done := true }

def Hub.setLeader (s : Hub) (p : Producer) (c : Option (Cast LeaderEvent)) : Hub :=
  { s with leader := Function.update s.leader p c }

def step (s : Hub) : Label → Option Hub
  | .allocate => some { s with nextListenerID := s.nextListenerID + 1 }
  | .register id =>
    if 0 < id ∧ id ≤ s.nextListenerID ∧ (s.sinks id).goroutine = .unwatched then
      some ({ s with listeners := s.listeners ++ [id] }.setGoroutine id .unstarted)
    else none
  | .startGoroutine id =>
    if (s.sinks id).goroutine = .unstarted then some (s.setGoroutine id .polling) else none
  | .removeListener id =>
    if (s.sinks id).goroutine.watched then
      some (if id ∈ s.listeners then
        { s with listeners := s.listeners.erase id, removing := s.removing ++ [id] } else s)
    else none
  | .closeRemoved id =>
    if id ∈ s.removing then some ({ s with removing := s.removing.erase id }.closeSink id) else none
  | .broadcastLeader ev order =>
    if s.leader (producer ev) = none ∧ s.stopped (producer ev) = false ∧
        order.Perm s.listeners then
      some (s.setLeader (producer ev) (some ⟨ev, order, .check⟩))
    else none
  | .enqueueLeader p takesDone =>
    match s.leader p with
    | some c =>
      match c.todo with
      | id :: _ => ((s.sinks id).enqueueLeader c.event takesDone c.stage).map fun r =>
          (s.setSink id r.1).setLeader p (some (c.next r.2))
      | [] => none
    | none => none
  | .returnLeader p =>
    match s.leader p with
    | some c => if c.todo = [] then some (s.setLeader p none) else none
    | none => none
  | .broadcastMember ev order =>
    if s.member = none ∧ s.membersStopped = false ∧ order.Perm s.listeners then
      some { s with member := some ⟨ev, order, .check⟩ }
    else none
  | .enqueueMembership takesDone =>
    match s.member with
    | some c =>
      match c.todo with
      | id :: _ => ((s.sinks id).enqueueMembership c.event takesDone c.stage).map fun r =>
          { s.setSink id r.1 with member := some (c.next r.2) }
      | [] => none
    | none => none
  | .returnMember =>
    match s.member with
    | some c => if c.todo = [] then some { s with member := none } else none
    | none => none
  | .block id =>
    if (s.sinks id).goroutine = .polling ∧ (s.sinks id).leaderCh = none ∧
        (s.sinks id).done = false then some (s.setGoroutine id .waiting)
    else none
  | .takeLeader id =>
    match (s.sinks id).leaderCh with
    | some ev =>
      if (s.sinks id).goroutine.selects then
        some (s.setSink id { s.sinks id with leaderCh := none, goroutine := .onLeaderChange ev })
      else none
    | none => none
  | .takeMember id =>
    match (s.sinks id).memberCh with
    | ev :: rest =>
      if (s.sinks id).goroutine = .waiting then
        some (s.setSink id
          { s.sinks id with memberCh := rest, goroutine := .onMembershipChange ev })
      else none
    | [] => none
  | .seeDone id =>
    if (s.sinks id).goroutine.selects ∧ (s.sinks id).done then
      some (s.setGoroutine id .returned)
    else none
  | .finish id =>
    match (s.sinks id).goroutine with
    | .onLeaderChange _ | .onMembershipChange _ => some (s.setGoroutine id .polling)
    | _ => none
  | .cancel => if s.closing = .running then some { s with closing := .cancelled } else none
  | .stopProducer p =>
    -- `observeLeader` and `observeMembers` return as well when etcd closes their channel
    if s.leader p = none ∧ (p = .campaign → s.closing ≠ .running) then
      some { s with stopped := Function.update s.stopped p true }
    else none
  | .stopMembers => if s.member = none then some { s with membersStopped := true } else none
  | .waitServices =>
    if s.closing = .cancelled ∧ s.stopped .campaign ∧ s.stopped .observeLeader ∧
        s.membersStopped then some { s with closing := .waited }
    else none
  | .removeAll =>
    if s.closing = .waited then
      some { s with closing := .closingListeners s.listeners, listeners := [] }
    else none
  | .closeListener id =>
    match s.closing with
    | .closingListeners todo =>
      if id ∈ todo then some ({ s with closing := .closingListeners (todo.erase id) }.closeSink id)
      else none
    | _ => none
  | .waitListeners =>
    if s.closing = .closingListeners [] ∧
        (List.range (s.nextListenerID + 1)).all (fun id => !(s.sinks id).goroutine.running) then
      some { s with closing := .closed }
    else none

inductive Moves (s : Hub) : Label → Hub → Prop
  | allocate : Moves s .allocate { s with nextListenerID := s.nextListenerID + 1 }
  | register (id : Nat) (hle : id ≤ s.nextListenerID)
      (hg : (s.sinks id).goroutine = .unwatched) :
      Moves s (.register id)
        ({ s with listeners := s.listeners ++ [id] }.setGoroutine id .unstarted)
  | startGoroutine (id : Nat) (hg : (s.sinks id).goroutine = .unstarted) :
      Moves s (.startGoroutine id) (s.setGoroutine id .polling)
  | removeListener (id : Nat) (hg : (s.sinks id).goroutine.watched = true)
      (hm : id ∈ s.listeners) :
      Moves s (.removeListener id)
        { s with listeners := s.listeners.erase id, removing := s.removing ++ [id] }
  | unregistered (id : Nat) (hm : id ∉ s.listeners) : Moves s (.removeListener id) s
  | closeRemoved (id : Nat) (hm : id ∈ s.removing) :
      Moves s (.closeRemoved id) ({ s with removing := s.removing.erase id }.closeSink id)
  | broadcastLeader (ev : LeaderEvent) (order : List Nat) (hp : s.leader (producer ev) = none)
      (hs : s.stopped (producer ev) = false) (ho : order.Perm s.listeners) :
      Moves s (.broadcastLeader ev order) (s.setLeader (producer ev) (some ⟨ev, order, .check⟩))
  | enqueueLeader (p : Producer) (takesDone : Bool) (c : Cast LeaderEvent) (id : Nat)
      (rest : List Nat) (k : Sink) (next : Option Stage) (hc : s.leader p = some c)
      (ht : c.todo = id :: rest)
      (hk : (s.sinks id).enqueueLeader c.event takesDone c.stage = some (k, next)) :
      Moves s (.enqueueLeader p takesDone) ((s.setSink id k).setLeader p (some (c.next next)))
  | returnLeader (p : Producer) (c : Cast LeaderEvent) (hc : s.leader p = some c)
      (ht : c.todo = []) : Moves s (.returnLeader p) (s.setLeader p none)
  | broadcastMember (ev : MembershipEvent) (order : List Nat) (hm : s.member = none)
      (hs : s.membersStopped = false) (ho : order.Perm s.listeners) :
      Moves s (.broadcastMember ev order) { s with member := some ⟨ev, order, .check⟩ }
  | enqueueMembership (takesDone : Bool) (c : Cast MembershipEvent) (id : Nat)
      (rest : List Nat) (k : Sink) (next : Option Stage) (hc : s.member = some c)
      (ht : c.todo = id :: rest)
      (hk : (s.sinks id).enqueueMembership c.event takesDone c.stage = some (k, next)) :
      Moves s (.enqueueMembership takesDone) { s.setSink id k with member := some (c.next next) }
  | returnMember (c : Cast MembershipEvent) (hc : s.member = some c) (ht : c.todo = []) :
      Moves s .returnMember { s with member := none }
  | block (id : Nat) (hg : (s.sinks id).goroutine = .polling)
      (hl : (s.sinks id).leaderCh = none) (hd : (s.sinks id).done = false) :
      Moves s (.block id) (s.setGoroutine id .waiting)
  | takeLeader (id : Nat) (ev : LeaderEvent) (hg : (s.sinks id).goroutine.selects = true)
      (hl : (s.sinks id).leaderCh = some ev) :
      Moves s (.takeLeader id)
        (s.setSink id { s.sinks id with leaderCh := none, goroutine := .onLeaderChange ev })
  | takeMember (id : Nat) (ev : MembershipEvent) (rest : List MembershipEvent)
      (hg : (s.sinks id).goroutine = .waiting) (hl : (s.sinks id).memberCh = ev :: rest) :
      Moves s (.takeMember id)
        (s.setSink id { s.sinks id with memberCh := rest, goroutine := .onMembershipChange ev })
  | seeDone (id : Nat) (hg : (s.sinks id).goroutine.selects = true)
      (hd : (s.sinks id).done = true) : Moves s (.seeDone id) (s.setGoroutine id .returned)
  | finishLeader (id : Nat) (ev : LeaderEvent) (hg : (s.sinks id).goroutine = .onLeaderChange ev) :
      Moves s (.finish id) (s.setGoroutine id .polling)
  | finishMember (id : Nat) (ev : MembershipEvent)
      (hg : (s.sinks id).goroutine = .onMembershipChange ev) :
      Moves s (.finish id) (s.setGoroutine id .polling)
  | cancel (hc : s.closing = .running) : Moves s .cancel { s with closing := .cancelled }
  | stopProducer (p : Producer) (hp : s.leader p = none)
      (hc : p = .campaign → s.closing ≠ .running) :
      Moves s (.stopProducer p) { s with stopped := Function.update s.stopped p true }
  | stopMembers (hm : s.member = none) : Moves s .stopMembers { s with membersStopped := true }
  | waitServices (hc : s.closing = .cancelled) (hp : ∀ p, s.stopped p = true)
      (hm : s.membersStopped = true) : Moves s .waitServices { s with closing := .waited }
  | removeAll (hc : s.closing = .waited) :
      Moves s .removeAll { s with closing := .closingListeners s.listeners, listeners := [] }
  | closeListener (id : Nat) (todo : List Nat) (hc : s.closing = .closingListeners todo)
      (hm : id ∈ todo) :
      Moves s (.closeListener id)
        ({ s with closing := .closingListeners (todo.erase id) }.closeSink id)
  | waitListeners (hc : s.closing = .closingListeners [])
      (hw : ∀ id ≤ s.nextListenerID, (s.sinks id).goroutine.running = false) :
      Moves s .waitListeners { s with closing := .closed }

theorem moves_of_step {s t : Hub} {l : Label} (h : step s l = some t) : Moves s l t := by
  cases l with
  | allocate =>
    cases h
    exact .allocate
  | register id =>
    simp only [step] at h
    split at h
    · rename_i hg
      cases h
      exact .register id hg.2.1 hg.2.2
    · cases h
  | startGoroutine | closeRemoved | cancel | stopMembers | removeAll =>
    simp only [step] at h
    split at h
    · cases h
      constructor
      assumption
    · cases h
  | removeListener id =>
    simp only [step] at h
    split at h
    · rename_i hg
      cases h
      split
      · rename_i hm
        exact .removeListener id hg hm
      · rename_i hm
        exact .unregistered id hm
    · cases h
  | broadcastLeader ev order =>
    simp only [step] at h
    split at h
    · rename_i hp
      cases h
      exact .broadcastLeader ev order hp.1 hp.2.1 hp.2.2
    · cases h
  | enqueueLeader p takesDone =>
    simp only [step] at h
    split at h
    · rename_i c hc
      split at h
      · rename_i id rest ht
        obtain ⟨r, hr, rfl⟩ := Option.map_eq_some_iff.mp h
        exact .enqueueLeader p takesDone c id rest r.1 r.2 hc ht hr
      · cases h
    · cases h
  | returnLeader p =>
    simp only [step] at h
    split at h
    · rename_i c hc
      split at h
      · rename_i ht
        cases h
        exact .returnLeader p c hc ht
      · cases h
    · cases h
  | broadcastMember ev order =>
    simp only [step] at h
    split at h
    · rename_i hm
      cases h
      exact .broadcastMember ev order hm.1 hm.2.1 hm.2.2
    · cases h
  | enqueueMembership takesDone =>
    simp only [step] at h
    split at h
    · rename_i c hc
      split at h
      · rename_i id rest ht
        obtain ⟨r, hr, rfl⟩ := Option.map_eq_some_iff.mp h
        exact .enqueueMembership takesDone c id rest r.1 r.2 hc ht hr
      · cases h
    · cases h
  | returnMember =>
    simp only [step] at h
    split at h
    · rename_i c hc
      split at h
      · rename_i ht
        cases h
        exact .returnMember c hc ht
      · cases h
    · cases h
  | block id =>
    simp only [step] at h
    split at h
    · rename_i hg
      cases h
      exact .block id hg.1 hg.2.1 hg.2.2
    · cases h
  | takeLeader id =>
    simp only [step] at h
    split at h
    · rename_i ev hl
      split at h
      · rename_i hg
        cases h
        exact .takeLeader id ev hg hl
      · cases h
    · cases h
  | takeMember id =>
    simp only [step] at h
    split at h
    · rename_i ev rest hl
      split at h
      · rename_i hg
        cases h
        exact .takeMember id ev rest hg hl
      · cases h
    · cases h
  | seeDone id =>
    simp only [step] at h
    split at h
    · rename_i hg
      cases h
      exact .seeDone id hg.1 hg.2
    · cases h
  | finish id =>
    simp only [step] at h
    split at h
    · rename_i ev hg
      cases h
      exact .finishLeader id ev hg
    · rename_i ev hg
      cases h
      exact .finishMember id ev hg
    · cases h
  | stopProducer p =>
    simp only [step] at h
    split at h
    · rename_i hp
      cases h
      exact .stopProducer p hp.1 hp.2
    · cases h
  | waitServices =>
    simp only [step] at h
    split at h
    · rename_i hc
      cases h
      refine .waitServices hc.1 (fun p => ?_) hc.2.2.2
      cases p with
      | campaign => exact hc.2.1
      | observeLeader => exact hc.2.2.1
    · cases h
  | closeListener id =>
    simp only [step] at h
    split at h
    · rename_i todo hc
      split at h
      · rename_i hm
        cases h
        exact .closeListener id todo hc hm
      · cases h
    · cases h
  | waitListeners =>
    simp only [step] at h
    split at h
    · rename_i hc
      cases h
      refine .waitListeners hc.1 fun id hle => ?_
      simpa using List.all_eq_true.mp hc.2 id (by simpa using Nat.lt_succ_of_le hle)
    · cases h

end Leibrix.ListenerHub

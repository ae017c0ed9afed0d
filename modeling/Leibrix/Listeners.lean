import Leibrix.Election

/-! `internal/cluster/election.go`: from a broadcast to a listener's callback. One
listener with its sink, the two goroutines that broadcast leader events, the one that
broadcasts membership events, and the listener's own goroutine. A step is one `select`,
one section under the lock, or the end of a callback; what a broadcast does to the other
listeners is not seen here. -/
namespace Leibrix.Listeners
open Leibrix.Election

inductive Producer where
  | campaign | observeLeader
deriving DecidableEq

def producer (ev : LeaderEvent) : Producer :=
  -- `loseLeadership` is called by `campaign` alone, and only `observeLeader` announces an election
  match ev.type with
  | .leaderElected => .observeLeader
  | .leaderResigned | .leaderExpired => .campaign

inductive MembershipEventType where
  | memberJoined | memberLeft | memberExpired | memberUpdated
deriving DecidableEq

structure MembershipEvent where
  type : MembershipEventType
  memberName : String
deriving DecidableEq

def listenerQueueSize : Nat := 16

structure Sent where
  -- A leader event in a call of `enqueueLeader`. Calls are counted as they begin; the number is not
  -- part of the event.
  call : Nat
  event : LeaderEvent
deriving DecidableEq

inductive LeaderCall where
  | idle
  -- the listeners copied by `broadcastLeaderEvent` include this one
  | noted (event : LeaderEvent)
  -- before the first, second, third and fourth `select` of `enqueueLeader`
  | checking (ev : Sent)
  | sending (ev : Sent)
  | draining (ev : Sent)
  | resending (ev : Sent)
deriving DecidableEq

def LeaderCall.sent : LeaderCall → Option Sent
  | .idle | .noted _ => none
  | .checking ev | .sending ev | .draining ev | .resending ev => some ev

@[simp] theorem LeaderCall.sent_idle : idle.sent = none := rfl
@[simp] theorem LeaderCall.sent_noted (e : LeaderEvent) : (noted e).sent = none := rfl
@[simp] theorem LeaderCall.sent_checking (ev : Sent) : (checking ev).sent = some ev := rfl
@[simp] theorem LeaderCall.sent_sending (ev : Sent) : (sending ev).sent = some ev := rfl
@[simp] theorem LeaderCall.sent_draining (ev : Sent) : (draining ev).sent = some ev := rfl
@[simp] theorem LeaderCall.sent_resending (ev : Sent) : (resending ev).sent = some ev := rfl

def LeaderCall.event? : LeaderCall → Option LeaderEvent
  | .idle => none
  | .noted event => some event
  | .checking ev | .sending ev | .draining ev | .resending ev => some ev.event

@[simp] theorem LeaderCall.event?_idle : idle.event? = none := rfl
@[simp] theorem LeaderCall.event?_noted (e : LeaderEvent) : (noted e).event? = some e := rfl
@[simp] theorem LeaderCall.event?_checking (ev : Sent) : (checking ev).event? = some ev.event := rfl
@[simp] theorem LeaderCall.event?_sending (ev : Sent) : (sending ev).event? = some ev.event := rfl
@[simp] theorem LeaderCall.event?_draining (ev : Sent) : (draining ev).event? = some ev.event := rfl
@[simp] theorem LeaderCall.event?_resending (ev : Sent) :
    (resending ev).event? = some ev.event := rfl

inductive MemberCall where
  | idle
  | noted (event : MembershipEvent)
  -- before the second `select` of `enqueueMembership`
  | sending (event : MembershipEvent)
deriving DecidableEq

def MemberCall.event? : MemberCall → Option MembershipEvent
  | .idle => none
  | .noted event | .sending event => some event

inductive Consumer where
  | unstarted
  -- at the first `select` of the loop, the one with a default
  | polling
  | waiting
  | onLeaderChange (ev : Sent)
  | onMembershipChange (ev : MembershipEvent)
  | returned
deriving DecidableEq

inductive Registration where
  | unwatched
  | registered
  -- `removeListener` has taken the sink out of the map and not closed it yet
  | removed
  | closed
deriving DecidableEq

structure Sys where
  registration : Registration := .unwatched
  leaderCh : Option Sent := none
  memberCh : List MembershipEvent := []
  calls : Nat := 0
  leader : Producer → LeaderCall := fun _ => .idle
  member : MemberCall := .idle
  consumer : Consumer := .unstarted

def Sys.start : Sys := {}

inductive Label where
  | watch
  | unwatch
  | close
  -- `broadcastLeaderEvent` copies the listeners
  | broadcastLeader (ev : LeaderEvent)
  | callLeader (p : Producer)
  | check (p : Producer)
  | send (p : Producer)
  | drain (p : Producer)
  -- the last `select` may take `done` where it could send
  | resend (p : Producer) (takesDone : Bool)
  | broadcastMember (ev : MembershipEvent)
  | checkMember
  | sendMember (takesDone : Bool)
  -- the listener's goroutine finds nothing at its first `select`
  | block
  | takeLeader
  | takeMember
  | seeDone
  | finish
deriving DecidableEq

def Sys.setLeader (s : Sys) (p : Producer) (c : LeaderCall) : Sys :=
  { s with leader := Function.update s.leader p c }

theorem Sys.forall_setLeader {P : Producer → LeaderCall → Prop} {s : Sys} {p : Producer}
    {c : LeaderCall} (hp : P p c) (h : ∀ q, q ≠ p → P q (s.leader q)) (q : Producer) :
    P q ((s.setLeader p c).leader q) := by
  by_cases hq : q = p
  · subst hq
    simpa [setLeader] using hp
  · simpa [setLeader, Function.update_of_ne hq] using h q hq

def Sys.isClosed (s : Sys) : Bool := s.registration = .closed

def Consumer.selects : Consumer → Bool
  | .polling | .waiting => true
  | _ => false

def step (s : Sys) : Label → Option Sys
  | .watch =>
    if s.registration = .unwatched then
      some { s with registration := .registered, consumer := .polling }
    else none
  | .unwatch =>
    if s.registration = .registered then some { s with registration := .removed } else none
  | .close => if s.registration = .removed then some { s with registration := .closed } else none
  | .broadcastLeader ev =>
    if s.leader (producer ev) = .idle then
      some (if s.registration = .registered then s.setLeader (producer ev) (.noted ev) else s)
    else none
  | .callLeader p =>
    match s.leader p with
    | .noted ev => some ({ s with calls := s.calls + 1 }.setLeader p (.checking ⟨s.calls, ev⟩))
    | _ => none
  | .check p =>
    match s.leader p with
    | .checking ev => some (s.setLeader p (if s.isClosed then .idle else .sending ev))
    | _ => none
  | .send p =>
    match s.leader p, s.leaderCh with
    | .sending ev, none => some ({ s with leaderCh := some ev }.setLeader p .idle)
    | .sending ev, some _ => some (s.setLeader p (.draining ev))
    | _, _ => none
  | .drain p =>
    match s.leader p with
    | .draining ev => some ({ s with leaderCh := none }.setLeader p (.resending ev))
    | _ => none
  | .resend p takesDone =>
    match s.leader p, s.leaderCh with
    | .resending ev, none =>
      if takesDone then if s.isClosed then some (s.setLeader p .idle) else none
      else some ({ s with leaderCh := some ev }.setLeader p .idle)
    | .resending _, some _ => some (s.setLeader p .idle)
    | _, _ => none
  | .broadcastMember ev =>
    if s.member = .idle then
      some (if s.registration = .registered then { s with member := .noted ev } else s)
    else none
  | .checkMember =>
    match s.member with
    | .noted ev => some { s with member := if s.isClosed then .idle else .sending ev }
    | _ => none
  | .sendMember takesDone =>
    match s.member with
    | .sending ev =>
      if s.memberCh.length < listenerQueueSize then
        if takesDone then if s.isClosed then some { s with member := .idle } else none
        else some { s with memberCh := s.memberCh ++ [ev], member := .idle }
      else some { s with member := .idle }
    | _ => none
  | .block =>
    if s.consumer = .polling ∧ s.leaderCh = none ∧ s.isClosed = false then
      some { s with consumer := .waiting }
    else none
  | .takeLeader =>
    match s.leaderCh with
    | some ev =>
      if s.consumer.selects then some { s with leaderCh := none, consumer := .onLeaderChange ev }
      else none
    | none => none
  | .takeMember =>
    match s.memberCh with
    | ev :: rest =>
      if s.consumer = .waiting then
        some { s with memberCh := rest, consumer := .onMembershipChange ev }
      else none
    | [] => none
  | .seeDone =>
    if s.consumer.selects ∧ s.isClosed then some { s with consumer := .returned } else none
  | .finish =>
    match s.consumer with
    | .onLeaderChange _ | .onMembershipChange _ => some { s with consumer := .polling }
    | _ => none

inductive Moves (s : Sys) : Label → Sys → Prop
  | watch (hr : s.registration = .unwatched) :
      Moves s .watch { s with registration := .registered, consumer := .polling }
  | unwatch (hr : s.registration = .registered) :
      Moves s .unwatch { s with registration := .removed }
  | close (hr : s.registration = .removed) : Moves s .close { s with registration := .closed }
  | note (ev : LeaderEvent) (hp : s.leader (producer ev) = .idle)
      (hr : s.registration = .registered) :
      Moves s (.broadcastLeader ev) (s.setLeader (producer ev) (.noted ev))
  | pass (ev : LeaderEvent) (hp : s.leader (producer ev) = .idle)
      (hr : s.registration ≠ .registered) : Moves s (.broadcastLeader ev) s
  | callLeader (p : Producer) (ev : LeaderEvent) (hp : s.leader p = .noted ev) :
      Moves s (.callLeader p)
        ({ s with calls := s.calls + 1 }.setLeader p (.checking ⟨s.calls, ev⟩))
  | refuse (p : Producer) (ev : Sent) (hp : s.leader p = .checking ev)
      (hc : s.isClosed = true) : Moves s (.check p) (s.setLeader p .idle)
  | check (p : Producer) (ev : Sent) (hp : s.leader p = .checking ev)
      (hc : s.isClosed = false) : Moves s (.check p) (s.setLeader p (.sending ev))
  | send (p : Producer) (ev : Sent) (hp : s.leader p = .sending ev) (hl : s.leaderCh = none) :
      Moves s (.send p) ({ s with leaderCh := some ev }.setLeader p .idle)
  | full (p : Producer) (ev : Sent) (hp : s.leader p = .sending ev) :
      Moves s (.send p) (s.setLeader p (.draining ev))
  | drain (p : Producer) (ev : Sent) (hp : s.leader p = .draining ev) :
      Moves s (.drain p) ({ s with leaderCh := none }.setLeader p (.resending ev))
  | resend (p : Producer) (ev : Sent) (hp : s.leader p = .resending ev)
      (hl : s.leaderCh = none) :
      Moves s (.resend p false) ({ s with leaderCh := some ev }.setLeader p .idle)
  | drop (p : Producer) (ev other : Sent) (takesDone : Bool) (hp : s.leader p = .resending ev)
      (hl : s.leaderCh = some other) : Moves s (.resend p takesDone) (s.setLeader p .idle)
  | abandon (p : Producer) (ev : Sent) (hp : s.leader p = .resending ev)
      (hc : s.isClosed = true) : Moves s (.resend p true) (s.setLeader p .idle)
  | noteMember (ev : MembershipEvent) (hm : s.member = .idle)
      (hr : s.registration = .registered) :
      Moves s (.broadcastMember ev) { s with member := .noted ev }
  | passMember (ev : MembershipEvent) (hm : s.member = .idle)
      (hr : s.registration ≠ .registered) : Moves s (.broadcastMember ev) s
  | refuseMember (ev : MembershipEvent) (hm : s.member = .noted ev) (hc : s.isClosed = true) :
      Moves s .checkMember { s with member := .idle }
  | checkMember (ev : MembershipEvent) (hm : s.member = .noted ev) (hc : s.isClosed = false) :
      Moves s .checkMember { s with member := .sending ev }
  | sendMember (ev : MembershipEvent) (hm : s.member = .sending ev)
      (hl : s.memberCh.length < listenerQueueSize) :
      Moves s (.sendMember false) { s with memberCh := s.memberCh ++ [ev], member := .idle }
  | abandonMember (ev : MembershipEvent) (hm : s.member = .sending ev)
      (hl : s.memberCh.length < listenerQueueSize) (hc : s.isClosed = true) :
      Moves s (.sendMember true) { s with member := .idle }
  | dropMember (ev : MembershipEvent) (takesDone : Bool) (hm : s.member = .sending ev)
      (hl : listenerQueueSize ≤ s.memberCh.length) :
      Moves s (.sendMember takesDone) { s with member := .idle }
  | block (hc : s.consumer = .polling) (hl : s.leaderCh = none) :
      Moves s .block { s with consumer := .waiting }
  | takeLeader (ev : Sent) (hc : s.consumer.selects = true) (hl : s.leaderCh = some ev) :
      Moves s .takeLeader { s with leaderCh := none, consumer := .onLeaderChange ev }
  | takeMember (ev : MembershipEvent) (rest : List MembershipEvent)
      (hc : s.consumer = .waiting) (hl : s.memberCh = ev :: rest) :
      Moves s .takeMember { s with memberCh := rest, consumer := .onMembershipChange ev }
  | seeDone (hc : s.consumer.selects = true) (hd : s.isClosed = true) :
      Moves s .seeDone { s with consumer := .returned }
  | finishLeader (ev : Sent) (hc : s.consumer = .onLeaderChange ev) :
      Moves s .finish { s with consumer := .polling }
  | finishMember (ev : MembershipEvent) (hc : s.consumer = .onMembershipChange ev) :
      Moves s .finish { s with consumer := .polling }

theorem moves_of_step {s t : Sys} {l : Label} (h : step s l = some t) : Moves s l t := by
  cases l with
  | watch | unwatch | close =>
    simp only [step] at h
    split at h
    · cases h
      constructor
      assumption
    · cases h
  | broadcastLeader ev =>
    simp only [step] at h
    split at h
    · rename_i hp
      cases h
      split
      · rename_i hr
        exact .note ev hp hr
      · rename_i hr
        exact .pass ev hp hr
    · cases h
  | callLeader p =>
    simp only [step] at h
    split at h
    · rename_i ev hp
      cases h
      exact .callLeader p ev hp
    · cases h
  | check p =>
    simp only [step] at h
    split at h
    · rename_i ev hp
      cases h
      split
      · rename_i hc
        exact .refuse p ev hp hc
      · rename_i hc
        exact .check p ev hp (by simpa using hc)
    · cases h
  | send p =>
    simp only [step] at h
    split at h
    · rename_i ev hp hl
      cases h
      exact .send p ev hp hl
    · rename_i ev other hp hl
      cases h
      exact .full p ev hp
    · cases h
  | drain p =>
    simp only [step] at h
    split at h
    · rename_i ev hp
      cases h
      exact .drain p ev hp
    · cases h
  | resend p takesDone =>
    simp only [step] at h
    split at h
    · rename_i ev hp hl
      split at h
      · rename_i hd
        split at h
        · rename_i hc
          cases h
          cases hd
          exact .abandon p ev hp hc
        · cases h
      · rename_i hd
        cases h
        obtain rfl : takesDone = false := by simpa using hd
        exact .resend p ev hp hl
    · rename_i ev other hp hl
      cases h
      exact .drop p ev other takesDone hp hl
    · cases h
  | broadcastMember ev =>
    simp only [step] at h
    split at h
    · rename_i hm
      cases h
      split
      · rename_i hr
        exact .noteMember ev hm hr
      · rename_i hr
        exact .passMember ev hm hr
    · cases h
  | checkMember =>
    simp only [step] at h
    split at h
    · rename_i ev hm
      cases h
      split
      · rename_i hc
        exact .refuseMember ev hm hc
      · rename_i hc
        exact .checkMember ev hm (by simpa using hc)
    · cases h
  | sendMember takesDone =>
    simp only [step] at h
    split at h
    · rename_i ev hm
      split at h
      · rename_i hl
        split at h
        · rename_i hd
          split at h
          · rename_i hc
            cases h
            cases hd
            exact .abandonMember ev hm hl hc
          · cases h
        · rename_i hd
          cases h
          obtain rfl : takesDone = false := by simpa using hd
          exact .sendMember ev hm hl
      · rename_i hl
        cases h
        exact .dropMember ev takesDone hm (Nat.not_lt.mp hl)
    · cases h
  | block =>
    simp only [step] at h
    split at h
    · rename_i hc
      cases h
      exact .block hc.1 hc.2.1
    · cases h
  | takeLeader =>
    simp only [step] at h
    split at h
    · rename_i ev hl
      split at h
      · rename_i hc
        cases h
        exact .takeLeader ev hc hl
      · cases h
    · cases h
  | takeMember =>
    simp only [step] at h
    split at h
    · rename_i ev rest hl
      split at h
      · rename_i hc
        cases h
        exact .takeMember ev rest hc hl
      · cases h
    · cases h
  | seeDone =>
    simp only [step] at h
    split at h
    · rename_i hc
      cases h
      exact .seeDone hc.1 hc.2
    · cases h
  | finish =>
    simp only [step] at h
    split at h
    · rename_i ev hc
      cases h
      exact .finishLeader ev hc
    · rename_i ev hc
      cases h
      exact .finishMember ev hc
    · cases h

end Leibrix.Listeners

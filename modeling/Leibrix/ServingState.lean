import Leibrix.Listeners

/-! `internal/api/grpc/lanuch_grpc_server.go`: the health status of one node, with the
election it takes part in and its listener. `Start` reads `IsLeader`, sets the two
statuses and only then registers; from there on `handleLeaderEvent` sets them. A goroutine
of the election updates its state in one step and broadcasts in later ones. The end of the
server's life, and what `handleLeaderEvent` does to sessions, are not part of this. -/
namespace Leibrix.Health
open Leibrix.Transition Leibrix.Election Leibrix.Listeners

inductive StartPc where
  | unstarted
  -- `IsLeader()` has answered
  | read (isLeader : Bool)
  -- the status of the first service is set
  | half (isLeader : Bool)
  | set (isLeader : Bool)
  -- the watcher is registered
  | started
deriving DecidableEq

def StartPc.inWindow : StartPc → Bool
  | .read _ | .half _ | .set _ => true
  | _ => false

inductive HandlerPc where
  | entered | half | finished
deriving DecidableEq

structure Node (ν : Type) where
  election : Election.Sys ν
  listener : Listeners.Sys
  -- the goroutine has begun its broadcast and not returned from it
  broadcasting : Producer → Bool
  start : StartPc
  handler : HandlerPc
  -- the statuses of the two services: SERVING or NOT_SERVING
  management : Bool
  controlPlane : Bool

def Node.initial (ν : Type) : Node ν where
  -- `NewGRPCServer` sets both statuses to SERVING
  election := Election.Sys.start ν
  listener := Listeners.Sys.start
  broadcasting _ := false
  start := .unstarted
  handler := .finished
  management := true
  controlPlane := true

inductive Label (ν : Type) where
  | election (q : ν) (a : Action)
  | readLeader
  | setManagement
  | setControlPlane
  | registerWatcher
  | beginBroadcast (prod : Producer)
  | endBroadcast (prod : Producer)
  | listener (l : Listeners.Label)
  | handleManagement
  | handleControlPlane
deriving DecidableEq

def lossEvent (nodeName : String) : Phase → Option LeaderEvent
  | .expiring => some ⟨.leaderExpired, nodeName, 0⟩
  | .withdrawing => some ⟨.leaderResigned, nodeName, 0⟩
  | _ => none

def pending (nodeName : String) (proc : Process) : Producer → Option LeaderEvent
  | .campaign => lossEvent nodeName proc.phase
  | .observeLeader => proc.announcing

@[simp] theorem pending_campaign (nodeName : String) (proc : Process) :
    pending nodeName proc .campaign = lossEvent nodeName proc.phase := rfl

@[simp] theorem pending_observeLeader (nodeName : String) (proc : Process) :
    pending nodeName proc .observeLeader = proc.announcing := rfl

def serves (nodeName : String) (ev : LeaderEvent) : Bool :=
  ev.type = .leaderElected && ev.memberName = nodeName

def broadcastAction : Producer → Action
  -- the action of the election that stands for the whole broadcast
  | .campaign => .broadcastLoss
  | .observeLeader => .broadcastLeader

def internal : Listeners.Label → Bool
  | .watch | .unwatch | .close | .broadcastLeader _ => false
  | _ => true

section Steps
variable {ν : Type} [DecidableEq ν] (name : ν → String) (p : ν)

def Node.proc (s : Node ν) : Process := s.election.procs p

def Node.pending (s : Node ν) : Producer → Option LeaderEvent :=
  Health.pending (name p) (s.proc p)

def Node.mayFinish (s : Node ν) : Bool :=
  match s.listener.consumer with
  | .onLeaderChange _ => s.handler = .finished
  | _ => true

def step (s : Node ν) : Label ν → Option (Node ν)
  | .election q a =>
    if q = p ∧ (a = .broadcastLoss ∨ a = .broadcastLeader) then none
    else (Election.step name s.election (q, a)).map fun e => { s with election := e }
  | .readLeader =>
    if s.start = .unstarted then some { s with start := .read (s.proc p).isLeader } else none
  | .setManagement =>
    match s.start with
    | .read isLeader => some { s with start := .half isLeader, management := isLeader }
    | _ => none
  | .setControlPlane =>
    match s.start with
    | .half isLeader => some { s with start := .set isLeader, controlPlane := isLeader }
    | _ => none
  | .registerWatcher =>
    match s.start with
    | .set _ => (Listeners.step s.listener .watch).map fun t =>
        { s with start := .started, listener := t }
    | _ => none
  | .beginBroadcast prod =>
    match s.pending name p prod, s.broadcasting prod with
    | some ev, false => (Listeners.step s.listener (.broadcastLeader ev)).map fun t =>
        { s with listener := t, broadcasting := Function.update s.broadcasting prod true }
    | _, _ => none
  | .endBroadcast prod =>
    if s.broadcasting prod ∧ s.listener.leader prod = .idle then
      (Election.step name s.election (p, broadcastAction prod)).map fun e =>
        { s with election := e, broadcasting := Function.update s.broadcasting prod false }
    else none
  | .listener l =>
    if internal l ∧ (l = .finish → s.mayFinish) then
      (Listeners.step s.listener l).map fun t =>
        { s with listener := t, handler := if l = .takeLeader then .entered else s.handler }
    else none
  | .handleManagement =>
    match s.listener.consumer, s.handler with
    | .onLeaderChange ev, .entered =>
      some { s with handler := .half, management := serves (name p) ev.event }
    | _, _ => none
  | .handleControlPlane =>
    match s.listener.consumer, s.handler with
    | .onLeaderChange ev, .half =>
      some { s with handler := .finished, controlPlane := serves (name p) ev.event }
    | _, _ => none

structure Quiescent (s : Node ν) : Prop where
  -- the server has started, etcd's values are handled, no broadcast and no callback is going on and
  -- none is due
  started : s.start = .started
  observed : (s.proc p).observed = []
  pending : ∀ prod, s.pending name p prod = none
  broadcasting : ∀ prod, s.broadcasting prod = false
  leaderCh : s.listener.leaderCh = none
  callback : s.listener.consumer.selects = true

end Steps

end Leibrix.Health

import Leibrix.HealthFollows

/-! The end of a server (`Shutdown` in `lanuch_grpc_server.go`): it unregisters the watcher
and then sets both statuses to NOT_SERVING. The unwatch function only closes the sink's
`done`; the listener's goroutine may be in a callback or prefer an event to `done`. -/
namespace Leibrix.Shutdown
open Leibrix.Transition Leibrix.Listeners Leibrix.Health

inductive ShutdownPc where
  | running
  -- the sink is out of the map and not closed yet
  | unwatching
  -- the unwatch function has returned
  | unwatched
  -- the status of the first service is set
  | half
  | set
deriving DecidableEq

def ShutdownPc.hasUnwatched : ShutdownPc → Bool
  | .running | .unwatching => false
  | .unwatched | .half | .set => true

inductive ServePc where
  -- where `Start` is after the registration: it waits for the end of its context and then calls
  -- `initiateShutdown`
  | waiting | half | returned
deriving DecidableEq

structure Server (ν : Type) where
  node : Node ν
  serve : ServePc := .waiting
  shutdown : ShutdownPc := .running

def Server.initial (ν : Type) : Server ν := { node := Node.initial ν }

inductive Label (ν : Type) where
  | node (l : Health.Label ν)
  | initiateManagement
  | initiateControlPlane
  | unwatch
  | close
  | setManagement
  | setControlPlane
deriving DecidableEq

section Steps
variable {ν : Type} [DecidableEq ν] (name : ν → String) (p : ν)

def step (s : Server ν) : Label ν → Option (Server ν)
  | .node l => (Health.step name p s.node l).map fun n => { s with node := n }
  | .initiateManagement =>
    if s.node.start = .started ∧ s.serve = .waiting then
      some { s with node := { s.node with management := false }, serve := .half }
    else none
  | .initiateControlPlane =>
    if s.serve = .half then
      some { s with node := { s.node with controlPlane := false }, serve := .returned }
    else none
  | .unwatch =>
    if s.shutdown = .running ∧ s.node.start = .started then
      (Listeners.step s.node.listener .unwatch).map fun l =>
        { s with node := { s.node with listener := l }, shutdown := .unwatching }
    else none
  | .close =>
    if s.shutdown = .unwatching then
      (Listeners.step s.node.listener .close).map fun l =>
        { s with node := { s.node with listener := l }, shutdown := .unwatched }
    else none
  | .setManagement =>
    if s.shutdown = .unwatched then
      some { s with node := { s.node with management := false }, shutdown := .half }
    else none
  | .setControlPlane =>
    if s.shutdown = .half then
      some { s with node := { s.node with controlPlane := false }, shutdown := .set }
    else none

end Steps

def pastCheck : LeaderCall → Bool
  | .sending _ | .draining _ | .resending _ => true
  | _ => false

def memberPastCheck : MemberCall → Bool
  | .sending _ => true
  | _ => false

structure Quiet (s : Listeners.Sys) : Prop where
  -- The listener's goroutine will come to no event any more once `done` is closed. Where it has to
  -- poll first it does not come to membership events at all.
  leaderCh : s.leaderCh = none
  calls : ∀ prod, pastCheck (s.leader prod) = false
  members : s.consumer = .waiting → s.memberCh = [] ∧ memberPastCheck s.member = false

instance (s : Listeners.Sys) : Decidable (Quiet s) :=
  decidable_of_iff (s.leaderCh = none ∧ (pastCheck (s.leader .campaign) = false ∧
      pastCheck (s.leader .observeLeader) = false) ∧
      (s.consumer = .waiting → s.memberCh = [] ∧ memberPastCheck s.member = false))
    ⟨fun h => ⟨h.1, forall_producer h.2.1.1 h.2.1.2, h.2.2⟩,
      fun h => ⟨h.leaderCh, ⟨h.calls _, h.calls _⟩, h.members⟩⟩

section Listener
variable {s t : Listeners.Sys} {l : Listeners.Label}

theorem Quiet.setLeader {prod : Producer} {c : LeaderCall} (h : Quiet s)
    (hc : pastCheck c = false) : Quiet (s.setLeader prod c) :=
  ⟨h.leaderCh, Sys.forall_setLeader (P := fun _ c => pastCheck c = false) hc
    fun q _ => h.calls q, h.members⟩

/-- Behind a closed sink nothing reaches the channels, and no callback starts. -/
theorem Quiet.step (h : Quiet s) (hclosed : s.registration = .closed)
    (hs : Listeners.step s l = some t) :
    Quiet t ∧ t.registration = .closed ∧ l ≠ .takeLeader ∧
      ∀ ev, t.consumer = .onLeaderChange ev → s.consumer = .onLeaderChange ev := by
  have hisClosed : s.isClosed = true := by simp [Sys.isClosed, hclosed]
  cases moves_of_step hs with
  | watch hr | unwatch hr | close hr | note _ _ hr | noteMember _ _ hr =>
    rw [hclosed] at hr
    cases hr
  | pass | passMember => exact ⟨h, hclosed, by simp, fun _ => id⟩
  | callLeader prod ev =>
    exact ⟨Quiet.setLeader (s := { s with calls := s.calls + 1 }) ⟨h.leaderCh, h.calls,
      h.members⟩ rfl, hclosed, by simp, fun _ => id⟩
  | refuse prod ev => exact ⟨h.setLeader rfl, hclosed, by simp, fun _ => id⟩
  | check prod ev _ hc | checkMember ev _ hc =>
    rw [hisClosed] at hc
    cases hc
  | send prod ev hp | full prod ev hp | drain prod ev hp | resend prod ev hp
    | drop prod ev other takesDone hp | abandon prod ev hp =>
    have hcall := h.calls prod
    rw [hp] at hcall
    cases hcall
  | refuseMember ev =>
    exact ⟨⟨h.leaderCh, h.calls, fun hw => ⟨(h.members hw).1, rfl⟩⟩, hclosed, by simp,
      fun _ => id⟩
  | sendMember ev hm | abandonMember ev hm | dropMember ev takesDone hm =>
    have hwait : s.consumer ≠ .waiting := by
      intro hw
      have hpast := (h.members hw).2
      rw [hm] at hpast
      cases hpast
    exact ⟨⟨h.leaderCh, h.calls, fun hw => absurd hw hwait⟩, hclosed, by simp, fun _ => id⟩
  | block hc hl => simp [Listeners.step, hisClosed] at hs
  | takeLeader ev _ hl =>
    rw [h.leaderCh] at hl
    cases hl
  | takeMember ev rest hc hl =>
    rw [(h.members hc).1] at hl
    cases hl
  | seeDone | finishLeader | finishMember =>
    exact ⟨⟨h.leaderCh, h.calls, by simp⟩, hclosed, by simp, by simp⟩

/-- In particular no callback starts. -/
theorem Quiet.no_take (h : Quiet s) :
    Listeners.step s .takeLeader = none ∧ Listeners.step s .takeMember = none := by
  constructor
  · simp [Listeners.step, h.leaderCh]
  · simp only [Listeners.step]
    split
    · rename_i ev rest hl
      split
      · rename_i hw
        rw [(h.members hw).1] at hl
        cases hl
      · rfl
    · rfl

end Listener

section Node
variable {ν : Type} (nodeName : String)

def willServe (s : Node ν) : Bool :=
  match s.listener.consumer with
  | .onLeaderChange ev => serves nodeName ev.event
  | _ => false

def servesManagement (s : Node ν) : Bool := willServe nodeName s && s.handler = .entered

def servesControlPlane (s : Node ν) : Bool := willServe nodeName s && s.handler ≠ .finished

end Node

section Runs
variable {ν : Type} [DecidableEq ν] (name : ν → String) (p : ν)

def settles (s : Server ν) : Label ν → Bool
  -- when the unwatch function closes the sink, nothing is left that could still be taken; and when
  -- `Shutdown` sets a status, no callback has it still to set to SERVING
  | .close => Quiet s.node.listener
  | .setManagement => !servesManagement (name p) s.node
  | .setControlPlane => !servesControlPlane (name p) s.node
  | _ => true

def Settles (s : Server ν) (l : Label ν) : Prop := settles name p s l = true

inductive Effect (s t : Node ν) : Prop
  | elsewhere (hl : t.listener = s.listener) (hh : t.handler = s.handler)
      (hm : t.management = s.management) (hc : t.controlPlane = s.controlPlane)
  | listener (l : Listeners.Label) (hs : Listeners.step s.listener l = some t.listener)
      (hh : l ≠ .takeLeader → t.handler = s.handler)
      (hm : t.management = s.management) (hc : t.controlPlane = s.controlPlane)
  | management (ev : Sent) (hev : s.listener.consumer = .onLeaderChange ev)
      (hh : s.handler = .entered) (hl : t.listener = s.listener) (hh' : t.handler = .half)
      (hm : t.management = serves (name p) ev.event) (hc : t.controlPlane = s.controlPlane)
  | controlPlane (ev : Sent) (hev : s.listener.consumer = .onLeaderChange ev)
      (hh : s.handler = .half) (hl : t.listener = s.listener) (hh' : t.handler = .finished)
      (hm : t.management = s.management) (hc : t.controlPlane = serves (name p) ev.event)

variable {name p} {s t : Node ν} {l : Health.Label ν}

theorem effect_of_step (hstart : s.start = .started) (hs : Health.step name p s l = some t) :
    t.start = .started ∧ Effect name p s t := by
  cases l with
  | election q a =>
    simp only [Health.step] at hs
    split at hs
    · cases hs
    · obtain ⟨e, -, rfl⟩ := Option.map_eq_some_iff.mp hs
      exact ⟨hstart, .elsewhere rfl rfl rfl rfl⟩
  | readLeader | setManagement | setControlPlane | registerWatcher =>
    simp [Health.step, hstart] at hs
  | beginBroadcast prod =>
    simp only [Health.step] at hs
    split at hs
    · obtain ⟨t, ht, rfl⟩ := Option.map_eq_some_iff.mp hs
      exact ⟨hstart, .listener _ ht (fun _ => rfl) rfl rfl⟩
    · cases hs
  | endBroadcast prod =>
    simp only [Health.step] at hs
    split at hs
    · obtain ⟨e, -, rfl⟩ := Option.map_eq_some_iff.mp hs
      exact ⟨hstart, .elsewhere rfl rfl rfl rfl⟩
    · cases hs
  | listener l =>
    simp only [Health.step] at hs
    split at hs
    · obtain ⟨t, ht, rfl⟩ := Option.map_eq_some_iff.mp hs
      exact ⟨hstart, .listener l ht (fun hne => if_neg hne) rfl rfl⟩
    · cases hs
  | handleManagement =>
    simp only [Health.step] at hs
    split at hs
    · rename_i ev hc hh
      cases hs
      exact ⟨hstart, .management ev hc hh rfl rfl rfl rfl⟩
    · cases hs
  | handleControlPlane =>
    simp only [Health.step] at hs
    split at hs
    · rename_i ev hc hh
      cases hs
      exact ⟨hstart, .controlPlane ev hc hh rfl rfl rfl rfl⟩
    · cases hs

end Runs

section Callbacks
variable {ν : Type} {nodeName : String} {s t : Node ν}

structure NoNewCallback (s t : Node ν) : Prop where
  consumer : ∀ ev, t.listener.consumer = .onLeaderChange ev →
    s.listener.consumer = .onLeaderChange ev
  handler : t.handler = s.handler

theorem NoNewCallback.willServe (h : NoNewCallback s t) (ht : willServe nodeName t = true) :
    willServe nodeName s = true := by
  unfold Shutdown.willServe at ht
  split at ht
  · rename_i ev hc
    rw [Shutdown.willServe, h.consumer ev hc]
    exact ht
  · cases ht

theorem NoNewCallback.management (h : NoNewCallback s t)
    (hs : servesManagement nodeName s = false) : servesManagement nodeName t = false := by
  rw [Bool.eq_false_iff] at hs ⊢
  intro ht
  obtain ⟨hw, hh⟩ := Bool.and_eq_true_iff.mp ht
  exact hs (Bool.and_eq_true_iff.mpr ⟨h.willServe hw, h.handler ▸ hh⟩)

theorem NoNewCallback.controlPlane (h : NoNewCallback s t)
    (hs : servesControlPlane nodeName s = false) : servesControlPlane nodeName t = false := by
  rw [Bool.eq_false_iff] at hs ⊢
  intro ht
  obtain ⟨hw, hh⟩ := Bool.and_eq_true_iff.mp ht
  exact hs (Bool.and_eq_true_iff.mpr ⟨h.willServe hw, h.handler ▸ hh⟩)

theorem noNewCallback_of_eq (hl : t.listener = s.listener) (hh : t.handler = s.handler) :
    NoNewCallback s t :=
  ⟨fun _ hc => hl ▸ hc, hh⟩

theorem serves_of_management {ev : Sent} (hev : s.listener.consumer = .onLeaderChange ev)
    (hh : s.handler = .entered) (hs : servesManagement nodeName s = false) :
    serves nodeName ev.event = false := by
  -- the callback that runs sets no status to SERVING if it is not for this node's election, and a
  -- status it has set already is not set again
  simpa [servesManagement, willServe, hev, hh] using hs

theorem serves_of_controlPlane {ev : Sent} (hev : s.listener.consumer = .onLeaderChange ev)
    (hh : s.handler ≠ .finished) (hs : servesControlPlane nodeName s = false) :
    serves nodeName ev.event = false := by
  simpa [servesControlPlane, willServe, hev, hh] using hs

end Callbacks

section Invariant
variable {ν : Type} (name : ν → String) (p : ν)

structure Closing (s : Server ν) : Prop where
  -- what `Shutdown` has achieved so far
  started : s.shutdown ≠ .running → s.node.start = .started
  closed : s.shutdown.hasUnwatched = true → s.node.listener.registration = .closed ∧
    Quiet s.node.listener
  management : s.shutdown = .half ∨ s.shutdown = .set → s.node.management = false ∧
    servesManagement (name p) s.node = false
  controlPlane : s.shutdown = .set → s.node.controlPlane = false ∧
    servesControlPlane (name p) s.node = false

variable {name p} {s t : Server ν}

theorem closing_initial : Closing name p (Server.initial ν) :=
  ⟨by simp [Server.initial], by simp [Server.initial, ShutdownPc.hasUnwatched],
    by simp [Server.initial], by simp [Server.initial]⟩

theorem hasUnwatched_of_half (h : s.shutdown = .half ∨ s.shutdown = .set) :
    s.shutdown.hasUnwatched = true := by
  cases h with
  | inl h => rw [h]; rfl
  | inr h => rw [h]; rfl

variable [DecidableEq ν]

theorem Closing.node {n : Node ν} {l : Health.Label ν} (h : Closing name p s)
    (hs : Health.step name p s.node l = some n) : Closing name p { s with node := n } := by
  by_cases hrun : s.shutdown = .running
  · exact ⟨fun hne => absurd hrun hne, fun hu => by simp [hrun, ShutdownPc.hasUnwatched] at hu,
      fun hm => by simp [hrun] at hm, fun hc => by simp [hrun] at hc⟩
  obtain ⟨hstart, heff⟩ := effect_of_step (h.started hrun) hs
  cases heff with
  | elsewhere hl hh hm hc =>
    have hsame := noNewCallback_of_eq hl hh
    refine ⟨fun _ => hstart, fun hu => ?_, fun hp => ?_, fun hp => ?_⟩
    · simpa only [hl] using h.closed hu
    · exact ⟨hm.trans (h.management hp).1, hsame.management (h.management hp).2⟩
    · exact ⟨hc.trans (h.controlPlane hp).1, hsame.controlPlane (h.controlPlane hp).2⟩
  | listener l hl hh hm hc =>
    have hclosed : s.shutdown.hasUnwatched = true → (n.listener.registration = .closed ∧
        Quiet n.listener) ∧ NoNewCallback s.node n := by
      intro hu
      obtain ⟨hreg, hquiet⟩ := h.closed hu
      obtain ⟨hquiet', hreg', hne, hcallback⟩ := hquiet.step hreg hl
      exact ⟨⟨hreg', hquiet'⟩, hcallback, hh hne⟩
    refine ⟨fun _ => hstart, fun hu => (hclosed hu).1, fun hp => ?_, fun hp => ?_⟩
    · have hsame := (hclosed (hasUnwatched_of_half hp)).2
      exact ⟨hm.trans (h.management hp).1, hsame.management (h.management hp).2⟩
    · have hsame := (hclosed (hasUnwatched_of_half (.inr hp))).2
      exact ⟨hc.trans (h.controlPlane hp).1, hsame.controlPlane (h.controlPlane hp).2⟩
  | management ev hev hh hl hh' hm hc =>
    refine ⟨fun _ => hstart, fun hu => ?_, fun hp => ⟨?_, ?_⟩, fun hp => ⟨?_, ?_⟩⟩
    · simpa only [hl] using h.closed hu
    · rw [hm]
      exact serves_of_management hev hh (h.management hp).2
    · simp [servesManagement, hh']
    · exact hc.trans (h.controlPlane hp).1
    · have hserves := serves_of_controlPlane hev (by simp [hh]) (h.controlPlane hp).2
      simp [servesControlPlane, willServe, hl, hev, hserves]
  | controlPlane ev hev hh hl hh' hm hc =>
    refine ⟨fun _ => hstart, fun hu => ?_, fun hp => ⟨?_, ?_⟩, fun hp => ⟨?_, ?_⟩⟩
    · simpa only [hl] using h.closed hu
    · exact hm.trans (h.management hp).1
    · simp [servesManagement, hh']
    · rw [hc]
      exact serves_of_controlPlane hev (by simp [hh]) (h.controlPlane hp).2
    · simp [servesControlPlane, hh']

theorem Closing.step {l : Label ν} (h : Closing name p s) (ho : Settles name p s l)
    (hs : step name p s l = some t) : Closing name p t := by
  cases l with
  | node l =>
    obtain ⟨n, hn, rfl⟩ := Option.map_eq_some_iff.mp hs
    exact h.node hn
  | initiateManagement =>
    simp only [Shutdown.step, Option.ite_none_right_eq_some, Option.some.injEq] at hs
    obtain ⟨-, rfl⟩ := hs
    exact ⟨h.started, h.closed, fun hp => ⟨rfl, (h.management hp).2⟩, h.controlPlane⟩
  | initiateControlPlane =>
    simp only [Shutdown.step, Option.ite_none_right_eq_some, Option.some.injEq] at hs
    obtain ⟨-, rfl⟩ := hs
    exact ⟨h.started, h.closed, h.management, fun hp => ⟨rfl, (h.controlPlane hp).2⟩⟩
  | unwatch =>
    simp only [Shutdown.step, Option.ite_none_right_eq_some] at hs
    obtain ⟨⟨-, hstart⟩, hs⟩ := hs
    obtain ⟨l, -, rfl⟩ := Option.map_eq_some_iff.mp hs
    exact ⟨fun _ => hstart, by simp [ShutdownPc.hasUnwatched], by simp, by simp⟩
  | close =>
    simp only [Shutdown.step, Option.ite_none_right_eq_some] at hs
    obtain ⟨hpc, hs⟩ := hs
    obtain ⟨l, hl, rfl⟩ := Option.map_eq_some_iff.mp hs
    have hquiet : Quiet s.node.listener := by simpa [Settles, settles] using ho
    cases Listeners.moves_of_step hl with
    | close =>
      exact ⟨fun _ => h.started (by simp [hpc]),
        fun _ => ⟨rfl, hquiet.leaderCh, hquiet.calls, hquiet.members⟩, by simp, by simp⟩
  | setManagement =>
    simp only [Shutdown.step, Option.ite_none_right_eq_some, Option.some.injEq] at hs
    obtain ⟨hpc, rfl⟩ := hs
    have hserves : servesManagement (name p) s.node = false := by
      simpa [Settles, settles] using ho
    exact ⟨fun _ => h.started (by simp [hpc]),
      fun _ => h.closed (by simp [hpc, ShutdownPc.hasUnwatched]), fun _ => ⟨rfl, hserves⟩,
      by simp⟩
  | setControlPlane =>
    simp only [Shutdown.step, Option.ite_none_right_eq_some, Option.some.injEq] at hs
    obtain ⟨hpc, rfl⟩ := hs
    have hserves : servesControlPlane (name p) s.node = false := by
      simpa [Settles, settles] using ho
    exact ⟨fun _ => h.started (by simp [hpc]),
      fun _ => h.closed (by simp [hpc, ShutdownPc.hasUnwatched]),
      fun _ => h.management (.inl hpc), fun _ => ⟨rfl, hserves⟩⟩

/-- No callback starts once the unwatch function has returned, and neither service is
SERVING once `Shutdown` has set both statuses. -/
theorem shutdown_final (hr : Reach (Fires (step name p)) (Settles name p) (Server.initial ν) s) :
    (s.shutdown.hasUnwatched = true →
      step name p s (.node (.listener .takeLeader)) = none ∧
        step name p s (.node (.listener .takeMember)) = none) ∧
    (s.shutdown = .set → s.node.management = false ∧ s.node.controlPlane = false) := by
  have h : Closing name p s :=
    Reach.invariant (I := Closing name p) hr closing_initial fun _ _ _ hi ho hs => hi.step ho hs
  refine ⟨fun hu => ?_, fun hp => ⟨(h.management (.inr hp)).1, (h.controlPlane hp).1⟩⟩
  obtain ⟨hleader, hmember⟩ := (h.closed hu).2.no_take
  constructor
  · simp [Shutdown.step, Health.step, hleader]
  · simp [Shutdown.step, Health.step, hmember]

end Invariant

def electedServer : List (Label Unit) :=
  (startServer ++ [does .start, does .propose, does .elect, does .emit, does .becomeLeader,
    does .observe]).map .node

def announced : List (Label Unit) :=
  [.node (.beginBroadcast .observeLeader), .node (.listener (.callLeader .observeLeader)),
    .node (.listener (.check .observeLeader)), .node (.listener (.send .observeLeader))]

def handled : List (Label Unit) := [.node .handleManagement, .node .handleControlPlane]

def unwatches : List (Label Unit) := [.unwatch, .close]

def setsStatuses : List (Label Unit) := [.setManagement, .setControlPlane]

theorem shutdown_final_elected :
    ∃ s, Reach (Fires (step soleName ())) (Settles soleName ()) (Server.initial Unit) s ∧
      s.shutdown = .set ∧ s.node.management = false ∧ s.node.controlPlane = false := by
  obtain ⟨s, hs, hset⟩ : ∃ s, replay (guarded (settles soleName ()) (step soleName ()))
      (electedServer ++ announced ++ [.node (.listener .takeLeader)] ++ handled ++ unwatches ++
        setsStatuses) (Server.initial Unit) = some s ∧ s.shutdown = .set := ⟨_, rfl, rfl⟩
  have hr : Reach (Fires (step soleName ())) (Settles soleName ()) (Server.initial Unit) s :=
    (reach_of_replay hs).of_guarded fun _ _ hpass => hpass
  exact ⟨s, hr, hset, (shutdown_final hr).2 hset⟩

/-- The event is still in the channel when the sink is closed: a callback starts after the
unwatch function has returned. And a callback that is running by then, with nothing left in
the channels, sets its statuses after `Shutdown` has. Either way a server that was shut down
is SERVING. -/
theorem shutdown_not_final :
    (∃ s t u, Reach (Fires (step soleName ())) anyStep (Server.initial Unit) s ∧
      s.shutdown.hasUnwatched = true ∧
      step soleName () s (.node (.listener .takeLeader)) = some t ∧
      Reach (Fires (step soleName ())) anyStep t u ∧
      u.shutdown = .set ∧ u.node.management = true ∧ u.node.controlPlane = true) ∧
    ∃ s t u, Reach (Fires (step soleName ())) anyStep (Server.initial Unit) s ∧
      Quiet s.node.listener ∧ step soleName () s .close = some t ∧
      Reach (Fires (step soleName ())) anyStep t u ∧
      u.shutdown = .set ∧ u.node.management = true ∧ u.node.controlPlane = true := by
  constructor
  · obtain ⟨s, t, u, hs, hun, ht, hu, hend⟩ : ∃ s t u, replay (step soleName ())
        (electedServer ++ announced ++ unwatches) (Server.initial Unit) = some s ∧
        s.shutdown.hasUnwatched = true ∧
        step soleName () s (.node (.listener .takeLeader)) = some t ∧
        replay (step soleName ()) (setsStatuses ++ handled) t = some u ∧
        u.shutdown = .set ∧ u.node.management = true ∧ u.node.controlPlane = true :=
      ⟨_, _, _, rfl, rfl, rfl, rfl, rfl, rfl, rfl⟩
    exact ⟨s, t, u, reach_of_replay hs, hun, ht, reach_of_replay hu, hend⟩
  · obtain ⟨s, t, u, hs, hq, ht, hu, hend⟩ : ∃ s t u, replay (step soleName ())
        (electedServer ++ announced ++ [.node (.listener .takeLeader), .unwatch])
        (Server.initial Unit) = some s ∧ decide (Quiet s.node.listener) = true ∧
        step soleName () s .close = some t ∧
        replay (step soleName ()) (setsStatuses ++ handled) t = some u ∧
        u.shutdown = .set ∧ u.node.management = true ∧ u.node.controlPlane = true :=
      ⟨_, _, _, rfl, rfl, rfl, rfl, rfl, rfl, rfl⟩
    exact ⟨s, t, u, reach_of_replay hs, of_decide_eq_true hq, ht,
      reach_of_replay hu, hend⟩

end Leibrix.Shutdown

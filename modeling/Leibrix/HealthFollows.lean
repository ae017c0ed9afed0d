import Leibrix.HealthInvariant

/-! Whether the health status of a quiescent node agrees with `IsLeader()`. Each state
update of the election is followed by a broadcast of its own, so the status follows the
update that was broadcast last; that is the last update if updates wait for the broadcast
of the other goroutine, and if none falls between the server's first reading and its
registration. -/
namespace Leibrix.Health
open Leibrix.Transition Leibrix.Election Leibrix.Listeners

section Runs
variable {ν : Type} [DecidableEq ν] (name : ν → String) (p : ν)

def undisturbed (s : Node ν) : Label ν → Bool
  -- the node's own updates of its role keep out of the window in `Start` and wait for the broadcast
  -- of the other goroutine; one that is not broadcast itself changes nothing, or comes before a
  -- value that etcd has already sent
  | .election q a => q ≠ p || match a with
    | .observe => !s.start.inWindow && (s.pending name p .campaign).isNone
    | .loseLeadership => !s.start.inWindow && (s.pending name p .observeLeader).isNone
    | .becomeLeader =>
      !s.start.inWindow && ((s.proc p).isLeader || !(s.proc p).observed.isEmpty)
    | _ => true
  | _ => true

def Undisturbed (s : Node ν) (l : Label ν) : Prop := undisturbed name p s l = true

variable {name p} {s t : Node ν} {e' : Election.Sys ν}

omit [DecidableEq ν] in
theorem tracks_initial : Tracks name p (Node.initial ν) := by
  refine ⟨fun prod _ _ => .inl ?_, fun prod ev he => ?_, fun _ hb => ?_, fun _ hl => ?_,
    fun _ _ he => ?_, fun _ _ he => ?_, .inr fun prod ev he => ?_, trivial, fun _ => ?_,
    fun hs => ?_, fun _ he => ?_, fun hs => ?_⟩
  · cases prod <;> rfl
  · cases prod <;> cases he
  · cases hb
  · exact absurd rfl hl
  · cases he
  · cases he
  · cases prod <;> cases he
  · exact ⟨rfl, rfl, rfl, fun _ => rfl⟩
  · cases hs
  · cases he
  · cases hs

theorem Tracks.observe (h : Tracks name p s) (hw : s.start.inWindow = false)
    (hc : s.pending name p .campaign = none)
    (he : Election.step name s.election (p, .observe) = some e') :
    Tracks name p { s with election := e' } := by
  cases acts_of_step he with
  | observe v rest ho hann =>
    have hnone : ∀ prod, s.pending name p prod = none := by
      intro prod
      cases prod with
      | campaign => exact hc
      | observeLeader => exact hann
    refine h.update .observeLeader ⟨.leaderElected, v.leaderName, v.createRevision⟩ hw hnone
      (funext fun prod => ?_) rfl ?_
    · cases prod with
      | campaign => simpa [Election.Sys.set, Process.observe, Node.pending, Node.proc] using hc
      | observeLeader => simp [Election.Sys.set, Process.observe]
    · by_cases hv : v.leaderName = name p
      all_goals simp [Election.Sys.set, Process.observe, Process.isLeader, serves, hv]

theorem Tracks.giveUp {phase : Phase} (ev : LeaderEvent) (h : Tracks name p s)
    (hw : s.start.inWindow = false) (ho : s.pending name p .observeLeader = none)
    (hold : lossEvent (name p) (s.proc p).phase = none)
    (hnew : lossEvent (name p) phase = some ev) (ht : ev.type ≠ .leaderElected) :
    Tracks name p { s with
      election := s.election.set p ((s.proc p).loseLeadership.goto phase) } := by
  have hnone : ∀ prod, s.pending name p prod = none := by
    intro prod
    cases prod with
    | campaign => exact hold
    | observeLeader => exact ho
  refine h.update .campaign ev hw hnone (funext fun prod => ?_) ?_ ?_
  · cases prod with
    | campaign => simp [Election.Sys.set, Process.goto, hnew]
    | observeLeader =>
      simpa [Election.Sys.set, Process.goto, Process.loseLeadership, Node.pending] using ho
  · cases htype : ev.type with
    | leaderElected => exact absurd htype ht
    | leaderResigned | leaderExpired => simp [producer, htype]
  · simp [serves, ht, Election.Sys.set, Process.goto, Process.loseLeadership, Process.isLeader]

theorem Tracks.loseLeadership (h : Tracks name p s) (hw : s.start.inWindow = false)
    (ho : s.pending name p .observeLeader = none)
    (he : Election.step name s.election (p, .loseLeadership) = some e') :
    Tracks name p { s with election := e' } := by
  cases acts_of_step he with
  | loseExpired hp =>
    exact h.giveUp ⟨.leaderExpired, name p, 0⟩ hw ho (by simp [Node.proc, hp, lossEvent]) rfl
      (by simp)
  | loseResigned hp =>
    exact h.giveUp ⟨.leaderResigned, name p, 0⟩ hw ho (by simp [Node.proc, hp, lossEvent]) rfl
      (by simp)

theorem Tracks.becomeLeader (h : Tracks name p s) (hw : s.start.inWindow = false)
    (ho : (s.proc p).isLeader = true ∨ (s.proc p).observed ≠ [])
    (he : Election.step name s.election (p, .becomeLeader) = some e') :
    Tracks name p { s with election := e' } := by
  cases acts_of_step he with
  | becomeLeader hp =>
    have hpend : pending (name p)
        (((s.election.procs p).becomeLeader (name p)).goto .leading) = s.pending name p := by
      funext prod
      cases prod with
      | campaign => simp [Process.goto, Node.pending, Node.proc, hp, lossEvent]
      | observeLeader => rfl
    cases ho with
    | inl hlead =>
      refine h.sameView ?_
      simp only [Election.Sys.set, Function.update_self]
      have hrole : (s.proc p).role = .leader := by simpa [Process.isLeader] using hlead
      exact ⟨hrole.symm, hpend, id⟩
    | inr hobs =>
      refine h.overtaken hw ?_ ?_
      all_goals simp only [Election.Sys.set, Function.update_self]
      · exact hpend
      · exact hobs

theorem Tracks.broadcastLoss {phase : Phase} {ev : LeaderEvent} (h : Tracks name p s)
    (hb : s.broadcasting .campaign = true) (hl : s.listener.leader .campaign = .idle)
    (hp : lossEvent (name p) phase = none) :
    Tracks name p { s with
      election := s.election.set p (((s.proc p).broadcast ev).goto phase)
      broadcasting := Function.update s.broadcasting .campaign false } := by
  refine h.endBroadcast hb hl (funext fun prod => ?_) ?_ ?_
  all_goals simp only [Election.Sys.set, Function.update_self]
  · cases prod with
    | campaign => simpa [Process.goto] using hp
    | observeLeader => rfl
  · rfl
  · rfl

theorem Tracks.broadcastLeader {ev : LeaderEvent} (h : Tracks name p s)
    (hb : s.broadcasting .observeLeader = true) (hl : s.listener.leader .observeLeader = .idle) :
    Tracks name p { s with
      election := s.election.set p ({ s.proc p with announcing := none }.broadcast ev)
      broadcasting := Function.update s.broadcasting .observeLeader false } := by
  refine h.endBroadcast hb hl (funext fun prod => ?_) ?_ ?_
  all_goals simp only [Election.Sys.set, Function.update_self]
  · cases prod with
    | campaign => rfl
    | observeLeader => simp [Process.broadcast]
  · rfl
  · rfl

theorem Tracks.broadcastReturns {prod : Producer} (h : Tracks name p s)
    (hb : s.broadcasting prod = true) (hl : s.listener.leader prod = .idle)
    (he : Election.step name s.election (p, broadcastAction prod) = some e') :
    Tracks name p { s with
      election := e', broadcasting := Function.update s.broadcasting prod false } := by
  cases prod with
  | campaign =>
    cases acts_of_step he with
    | broadcastExpired | broadcastResigned => exact h.broadcastLoss hb hl rfl
  | observeLeader =>
    cases acts_of_step he with
    | broadcastLeader ev => exact h.broadcastLeader hb hl

theorem Tracks.election {q : ν} {a : Action} (h : Tracks name p s)
    (hu : Undisturbed name p s (.election q a))
    (hb : ¬(q = p ∧ (a = .broadcastLoss ∨ a = .broadcastLeader)))
    (he : Election.step name s.election (q, a) = some e') :
    Tracks name p { s with election := e' } := by
  by_cases hq : q = p
  · subst hq
    cases hr : updatesRole a with
    | false =>
      refine h.sameView (sameView_of_step he hr ?_)
      cases a <;> simp_all [ownBroadcast]
    | true =>
      cases a with
      | observe =>
        have hu : s.start.inWindow = false ∧ s.pending name q .campaign = none := by
          simpa [Undisturbed, undisturbed] using hu
        exact h.observe hu.1 hu.2 he
      | loseLeadership =>
        have hu : s.start.inWindow = false ∧ s.pending name q .observeLeader = none := by
          simpa [Undisturbed, undisturbed] using hu
        exact h.loseLeadership hu.1 hu.2 he
      | becomeLeader =>
        have hu : s.start.inWindow = false ∧
            ((s.proc q).isLeader = true ∨ (s.proc q).observed ≠ []) := by
          simpa [Undisturbed, undisturbed] using hu
        exact h.becomeLeader hu.1 hu.2 he
      | _ => cases hr
  · exact h.sameView (sameView_of_other he (Ne.symm hq))

theorem Tracks.step {l : Label ν} (h : Tracks name p s) (hu : Undisturbed name p s l)
    (hs : step name p s l = some t) : Tracks name p t := by
  cases l with
  | election q a =>
    simp only [Health.step] at hs
    split at hs
    · cases hs
    · rename_i hb
      obtain ⟨e', he, rfl⟩ := Option.map_eq_some_iff.mp hs
      exact h.election hu hb he
  | readLeader =>
    simp only [Health.step] at hs
    split at hs
    · rename_i hstart
      cases hs
      exact h.readLeader hstart
    · cases hs
  | setManagement =>
    simp only [Health.step] at hs
    split at hs
    · rename_i b hstart
      cases hs
      exact h.setManagement hstart
    · cases hs
  | setControlPlane =>
    simp only [Health.step] at hs
    split at hs
    · rename_i b hstart
      cases hs
      exact h.setControlPlane hstart
    · cases hs
  | registerWatcher =>
    simp only [Health.step] at hs
    split at hs
    · rename_i b hstart
      obtain ⟨l, hl, rfl⟩ := Option.map_eq_some_iff.mp hs
      cases Listeners.moves_of_step hl with
      | watch => exact h.register hstart
    · cases hs
  | beginBroadcast prod =>
    simp only [Health.step] at hs
    split at hs
    · rename_i ev hp _
      obtain rfl := h.types prod ev hp
      obtain ⟨l, hl, rfl⟩ := Option.map_eq_some_iff.mp hs
      cases Listeners.moves_of_step hl with
      | note _ _ hr => exact h.note hp hr
      | pass _ _ hr => exact h.pass (by simp [hp]) hr
    · cases hs
  | endBroadcast prod =>
    simp only [Health.step] at hs
    split at hs
    · rename_i hb
      obtain ⟨e', he, rfl⟩ := Option.map_eq_some_iff.mp hs
      exact h.broadcastReturns hb.1 hb.2 he
    · cases hs
  | listener l =>
    simp only [Health.step] at hs
    split at hs
    · rename_i hl
      obtain ⟨t, ht, rfl⟩ := Option.map_eq_some_iff.mp hs
      exact h.listener hl.1 hl.2 (Listeners.moves_of_step ht)
    · cases hs
  | handleManagement =>
    simp only [Health.step] at hs
    split at hs
    · rename_i ev hc _
      cases hs
      exact h.handle hc (fun _ => rfl) (fun hf => by cases hf)
    · cases hs
  | handleControlPlane =>
    simp only [Health.step] at hs
    split at hs
    · rename_i ev hc hh
      cases hs
      exact h.handle hc (fun hf => by cases hf) (fun _ => ⟨(h.callback ev hc).1 hh, rfl⟩)
    · cases hs

omit [DecidableEq ν] in
/-- With nothing under way any more, the statuses are the role. -/
theorem Tracks.status (h : Tracks name p s) (hq : Quiescent name p s) :
    s.management = (s.proc p).isLeader ∧ s.controlPlane = (s.proc p).isLeader := by
  have hset : Settled name p s := by
    refine ((h.follows hq.started).resolve_left ?_).resolve_left ?_
    · rw [hq.observed]
      exact fun hne => hne rfl
    · intro hund
      obtain ⟨prod, hne, -⟩ := hund
      exact hne (hq.pending prod)
  have hsel := hq.callback
  rw [Settled, hq.leaderCh] at hset
  cases hc : s.listener.consumer with
  | polling | waiting =>
    rw [hc] at hset
    exact hset
  | unstarted | onLeaderChange | onMembershipChange | returned =>
    rw [hc] at hsel
    cases hsel

/-- A quiescent node serves exactly if it takes itself for the leader, in runs in which no
update of its role comes between another update and the end of its broadcast, or between
the server's reading of the role and its registration. -/
theorem serving_iff_isLeader
    (h : Reach (Fires (step name p)) (Undisturbed name p) (Node.initial ν) s)
    (hq : Quiescent name p s) :
    s.management = (s.proc p).isLeader ∧ s.controlPlane = (s.proc p).isLeader := by
  have htracks : Tracks name p s :=
    Reach.invariant (I := Tracks name p) h tracks_initial fun _ _ _ hi hu hs => hi.step hu hs
  exact htracks.status hq

end Runs

def soleName : Unit → String := fun _ => "cp-1"

def does (a : Action) : Label Unit := .election () a

def startServer : List (Label Unit) :=
  [.readLeader, .setManagement, .setControlPlane, .registerWatcher]

def deliver (prod : Producer) : List (Label Unit) :=
  [.beginBroadcast prod, .listener (.callLeader prod), .listener (.check prod),
    .listener (.send prod), .listener .takeLeader, .handleManagement, .handleControlPlane,
    .listener .finish, .endBroadcast prod]

theorem forall_producer {P : Producer → Prop} (hc : P .campaign) (ho : P .observeLeader) :
    ∀ prod, P prod := by
  intro prod
  cases prod with
  | campaign => exact hc
  | observeLeader => exact ho

/-- A server started in a follower serves once the election of its node is announced. -/
theorem serving_iff_isLeader_elected :
    ∃ s, Reach (Fires (step soleName ())) (Undisturbed soleName ()) (Node.initial Unit) s ∧
      Quiescent soleName () s ∧ (s.proc ()).isLeader = true ∧
      s.management = (s.proc ()).isLeader ∧ s.controlPlane = (s.proc ()).isLeader := by
  obtain ⟨s, hs, hq, hlead⟩ : ∃ s, replay (guarded (undisturbed soleName ()) (step soleName ()))
      (startServer ++ [does .start, does .propose, does .elect, does .emit, does .becomeLeader,
        does .observe] ++ deliver .observeLeader) (Node.initial Unit) = some s ∧
      Quiescent soleName () s ∧ (s.proc ()).isLeader = true :=
    ⟨_, rfl, ⟨rfl, rfl, forall_producer rfl rfl, forall_producer rfl rfl, rfl, rfl⟩, rfl⟩
  have hreach : Reach (Fires (step soleName ())) (Undisturbed soleName ()) (Node.initial Unit) s :=
    (reach_of_replay hs).of_guarded fun _ _ hpass => hpass
  exact ⟨s, hreach, hq, hlead, serving_iff_isLeader hreach hq⟩

/-- `observeLeader` has handled the node's own election and not announced it when the
session ends; the loss is broadcast first, and the late announcement makes the former
leader serve. And a leader does not serve whose election was announced while the server
was between its reading of the role and its registration. -/
theorem status_apart_from_role :
    (∃ s, Reach (Fires (step soleName ())) anyStep (Node.initial Unit) s ∧
      Quiescent soleName () s ∧ (s.proc ()).isLeader = false ∧
      s.management = true ∧ s.controlPlane = true) ∧
    ∃ s, Reach (Fires (step soleName ())) anyStep (Node.initial Unit) s ∧
      Quiescent soleName () s ∧ (s.proc ()).isLeader = true ∧
      s.management = false ∧ s.controlPlane = false := by
  obtain ⟨s, hs, hp⟩ : ∃ s, replay (step soleName ())
      ([does .start, does .propose, does .elect, does .emit, does .becomeLeader] ++ startServer ++
        [does .observe, does .expire, does .endSession, does .loseLeadership] ++
        deliver .campaign ++ deliver .observeLeader) (Node.initial Unit) = some s ∧
      Quiescent soleName () s ∧ (s.proc ()).isLeader = false ∧
      s.management = true ∧ s.controlPlane = true :=
    ⟨_, rfl, ⟨rfl, rfl, forall_producer rfl rfl, forall_producer rfl rfl, rfl, rfl⟩, rfl, rfl, rfl⟩
  obtain ⟨t, ht, hq⟩ : ∃ t, replay (step soleName ())
      [does .start, does .propose, .readLeader, .setManagement, .setControlPlane, does .elect,
        does .emit, does .becomeLeader, does .observe, .beginBroadcast .observeLeader,
        .endBroadcast .observeLeader, .registerWatcher] (Node.initial Unit) = some t ∧
      Quiescent soleName () t ∧ (t.proc ()).isLeader = true ∧
      t.management = false ∧ t.controlPlane = false :=
    ⟨_, rfl, ⟨rfl, rfl, forall_producer rfl rfl, forall_producer rfl rfl, rfl, rfl⟩, rfl, rfl, rfl⟩
  exact ⟨⟨s, reach_of_replay hs, hp⟩, t, reach_of_replay ht, hq⟩

end Leibrix.Health

import Leibrix.ServingState

/-! What ties the health status to the role in a run of `ServingState`: each update of the
role leaves an event to broadcast, and an event that has left the broadcast is in the
channel, in the callback or in the statuses. One lemma for each kind of step. -/
namespace Leibrix.Health
open Leibrix.Transition Leibrix.Election Leibrix.Listeners

section View
variable {ν : Type} [DecidableEq ν] {name : ν → String} {p q : ν} {e e' : Election.Sys ν}
  {a : Action}

def updatesRole : Action → Bool
  | .becomeLeader | .loseLeadership | .observe => true
  | _ => false

def ownBroadcast : Action → Bool
  | .broadcastLoss | .broadcastLeader => true
  | _ => false

structure SameView (nodeName : String) (proc proc' : Process) : Prop where
  -- what the rest of the node sees of the election stays as it is; etcd may have sent more
  role : proc'.role = proc.role
  pending : pending nodeName proc' = pending nodeName proc
  observed : proc.observed ≠ [] → proc'.observed ≠ []

theorem SameView.refl (nodeName : String) (proc : Process) : SameView nodeName proc proc :=
  ⟨rfl, rfl, id⟩

theorem isLeader_congr {proc proc' : Process} (h : proc'.role = proc.role) :
    proc'.isLeader = proc.isLeader := by
  rw [Process.isLeader, Process.isLeader, h]

theorem sameView_goto {nodeName : String} {proc : Process} {phase : Phase}
    (h : lossEvent nodeName proc.phase = none) (h' : lossEvent nodeName phase = none) :
    SameView nodeName proc (proc.goto phase) := by
  refine ⟨rfl, funext fun prod => ?_, id⟩
  cases prod with
  | campaign => simp [pending, Process.goto, h, h']
  | observeLeader => rfl

theorem sameView_of_step (h : Election.step name e (p, a) = some e')
    (hr : updatesRole a = false) (hb : ownBroadcast a = false) :
    SameView (name p) (e.procs p) (e'.procs p) := by
  cases acts_of_step h with
  | becomeLeader | loseExpired | loseResigned | observe => cases hr
  | broadcastExpired | broadcastResigned | broadcastLeader => cases hb
  | start hp | retry hp | wake hp | elect hp | resign _ hp =>
    simp only [Election.Sys.set, Function.update_self]
    exact sameView_goto (by simp [hp, lossEvent]) rfl
  | failResigned hp | resigned hp =>
    simp only [Election.Sys.set, Election.Sys.dropKey, Function.update_self]
    exact sameView_goto (by simp [hp, lossEvent]) rfl
  | fail _ hp =>
    simp only [Election.Sys.set, Function.update_self]
    refine sameView_goto ?_ rfl
    cases hp with
    | inl hp => simp [hp, lossEvent]
    | inr hp => simp [hp.1, lossEvent]
  | stop phase hp _ hn =>
    simp only [Election.Sys.set, Function.update_self]
    refine sameView_goto (by simp [hp, lossEvent]) ?_
    cases hn with
    | inl hn => simp [hn, lossEvent]
    | inr hn => simp [hn, lossEvent]
  | propose hp =>
    obtain ⟨leaderRev, hprocs, -⟩ := propose_cases e p
    rw [hprocs, Function.update_self]
    refine ⟨rfl, funext fun prod => ?_, id⟩
    cases prod with
    | campaign => simp [hp, lossEvent]
    | observeLeader => rfl
  | cancel | endSession | expire =>
    simp only [Election.Sys.set, Election.Sys.dropKey, Function.update_self]
    exact ⟨rfl, rfl, id⟩
  | emit k =>
    simp only [Election.Sys.set, Function.update_self]
    exact ⟨rfl, rfl, fun _ => by simp⟩

theorem sameView_of_other (h : Election.step name e (q, a) = some e') (hq : p ≠ q) :
    SameView (name p) (e.procs p) (e'.procs p) := by
  obtain ⟨⟨proc, hp, -⟩, -⟩ := Election.moves_of_step h
  rw [hp, Function.update_of_ne hq]
  exact SameView.refl _ _

end View

section Invariant
variable {ν : Type} (name : ν → String) (p : ν)

def Undelivered (s : Node ν) (prod : Producer) : Prop :=
  s.pending name p prod ≠ none ∧ (s.broadcasting prod = false ∨ s.listener.leader prod ≠ .idle)

def Asks (nodeName : String) (leaderCh : Option Sent) (consumer : Consumer)
    (management controlPlane status : Bool) : Prop :=
  -- what the listener is left with asks for a status: the event in the channel, else that of the
  -- running callback, else the statuses themselves
  match leaderCh, consumer with
  | some ev, _ => serves nodeName ev.event = status
  | none, .onLeaderChange ev => serves nodeName ev.event = status
  | none, _ => management = status ∧ controlPlane = status

def Settled (s : Node ν) : Prop :=
  Asks (name p) s.listener.leaderCh s.listener.consumer s.management s.controlPlane
    (s.proc p).isLeader

def Underway (s : Node ν) : Prop :=
  match s.start with
  | .read b => b = (s.proc p).isLeader
  | .half b => b = (s.proc p).isLeader ∧ s.management = b
  | .set b => b = (s.proc p).isLeader ∧ s.management = b ∧ s.controlPlane = b
  | .unstarted | .started => True

structure Tracks (s : Node ν) : Prop where
  one : ∀ prod prod', prod ≠ prod' →
    s.pending name p prod = none ∨ s.pending name p prod' = none
  types : ∀ prod ev, s.pending name p prod = some ev → producer ev = prod
  due : ∀ prod, s.broadcasting prod = true → s.pending name p prod ≠ none
  calls : ∀ prod, s.listener.leader prod ≠ .idle → s.broadcasting prod = true
  events : ∀ prod ev, (s.listener.leader prod).event? = some ev → s.pending name p prod = some ev
  room : ∀ prod ev, s.listener.leader prod = .resending ev → s.listener.leaderCh = none
  value : (s.proc p).observed ≠ [] ∨
    ∀ prod ev, s.pending name p prod = some ev → serves (name p) ev = (s.proc p).isLeader
  underway : Underway p s
  unwatched : s.start ≠ .started → s.listener.registration = .unwatched ∧
    s.listener.consumer = .unstarted ∧ s.listener.leaderCh = none ∧
    ∀ prod, s.listener.leader prod = .idle
  watched : s.start = .started → s.listener.registration = .registered
  callback : ∀ ev, s.listener.consumer = .onLeaderChange ev →
    (s.handler = .half → s.management = serves (name p) ev.event) ∧
    (s.handler = .finished → s.management = serves (name p) ev.event ∧
      s.controlPlane = serves (name p) ev.event)
  follows : s.start = .started →
    (s.proc p).observed ≠ [] ∨ (∃ prod, Undelivered name p s prod) ∨ Settled name p s

variable {name p} {s : Node ν} {e' : Election.Sys ν} {prod : Producer}

theorem Tracks.isOpen (h : Tracks name p s) : s.listener.isClosed = false := by
  by_cases hs : s.start = .started
  · simp [Listeners.Sys.isClosed, h.watched hs]
  · simp [Listeners.Sys.isClosed, (h.unwatched hs).1]

theorem underway_of_not_inWindow (hw : s.start.inWindow = false) : Underway p s := by
  unfold Underway
  cases hs : s.start with
  | unstarted | started => trivial
  | read b | half b | set b => simp [hs, StartPc.inWindow] at hw

/-- The listener's goroutine, a call or an event in the channel is there only after
`Start`. -/
theorem Tracks.started_of_consumer (h : Tracks name p s)
    (hc : s.listener.consumer ≠ .unstarted) : s.start = .started := by
  by_contra hs
  exact hc (h.unwatched hs).2.1

theorem Tracks.started_of_call (h : Tracks name p s) (hc : s.listener.leader prod ≠ .idle) :
    s.start = .started := by
  by_contra hs
  exact hc ((h.unwatched hs).2.2.2 prod)

theorem Tracks.started_of_leaderCh (h : Tracks name p s) (hl : s.listener.leaderCh ≠ none) :
    s.start = .started := by
  by_contra hs
  exact hl (h.unwatched hs).2.2.1

/-- No broadcast is due, and so none is going on. -/
theorem Tracks.quiet (h : Tracks name p s) (hp : s.pending name p prod = none) :
    s.broadcasting prod = false ∧ s.listener.leader prod = .idle := by
  have hb : s.broadcasting prod = false := by
    by_contra hb
    exact h.due prod (by simpa using hb) hp
  refine ⟨hb, ?_⟩
  by_contra hl
  simp [h.calls prod hl] at hb

theorem Tracks.sameView (h : Tracks name p s)
    (hv : SameView (name p) (s.proc p) (e'.procs p)) :
    Tracks name p { s with election := e' } := by
  have hpend : Node.pending name p { s with election := e' } = s.pending name p := hv.pending
  have hlead : (Node.proc p { s with election := e' }).isLeader = (s.proc p).isLeader :=
    isLeader_congr hv.role
  have hund : ∀ prod, Undelivered name p { s with election := e' } prod ↔
      Undelivered name p s prod := by
    intro prod
    rw [Undelivered, Undelivered, hpend]
  have hset : Settled name p { s with election := e' } ↔ Settled name p s := by
    simp only [Settled, hlead]
  have hway : Underway p { s with election := e' } ↔ Underway p s := by
    simp only [Underway, hlead]
  refine ⟨?_, ?_, ?_, h.calls, ?_, h.room, ?_, hway.mpr h.underway, h.unwatched, h.watched,
    h.callback, fun hs => ?_⟩
  · rw [hpend]
    exact h.one
  · rw [hpend]
    exact h.types
  · rw [hpend]
    exact h.due
  · rw [hpend]
    exact h.events
  · rw [hpend, hlead]
    exact h.value.imp_left hv.observed
  · simp only [hund, hset]
    exact (h.follows hs).imp_left hv.observed

theorem Tracks.update (prod : Producer) (ev : LeaderEvent) (h : Tracks name p s)
    (hw : s.start.inWindow = false) (hnone : ∀ prod, s.pending name p prod = none)
    (hpend : pending (name p) (e'.procs p) = Function.update (fun _ => none) prod (some ev))
    (htype : producer ev = prod) (hserves : serves (name p) ev = (e'.procs p).isLeader) :
    Tracks name p { s with election := e' } := by
  have hpend : Node.pending name p { s with election := e' } =
      Function.update (fun _ => none) prod (some ev) := hpend
  have hother : ∀ prod', prod' ≠ prod →
      Node.pending name p { s with election := e' } prod' = none := by
    intro prod' hne
    rw [hpend, Function.update_of_ne hne]
  have hself : Node.pending name p { s with election := e' } prod = some ev := by
    rw [hpend, Function.update_self]
  have hev : ∀ prod' ev', Node.pending name p { s with election := e' } prod' = some ev' →
      prod' = prod ∧ ev' = ev := by
    intro prod' ev' he
    by_cases hp : prod' = prod
    · subst hp
      rw [hself] at he
      exact ⟨rfl, (Option.some.inj he).symm⟩
    · rw [hother prod' hp] at he
      cases he
  refine ⟨fun a b hab => ?_, fun prod' ev' he => ?_, fun prod' hb => ?_, h.calls,
    fun prod' ev' he => ?_, h.room, .inr fun prod' ev' he => ?_, ?_, h.unwatched, h.watched,
    h.callback, fun _ => .inr (.inl ⟨prod, ?_, .inl (h.quiet (hnone prod)).1⟩)⟩
  · by_cases ha : a = prod
    · exact .inr (hother b fun hb => hab (ha.trans hb.symm))
    · exact .inl (hother a ha)
  · obtain ⟨rfl, rfl⟩ := hev prod' ev' he
    exact htype
  · have hidle := (h.quiet (hnone prod')).1
    rw [hb] at hidle
    cases hidle
  · have hidle := (h.quiet (hnone prod')).2
    rw [show s.listener.leader prod' = .idle from hidle] at he
    cases he
  · obtain ⟨rfl, rfl⟩ := hev prod' ev' he
    exact hserves
  · exact underway_of_not_inWindow hw
  · rw [hself]
    simp

theorem Tracks.overtaken (h : Tracks name p s) (hw : s.start.inWindow = false)
    (hpend : pending (name p) (e'.procs p) = s.pending name p) (ho : (e'.procs p).observed ≠ []) :
    Tracks name p { s with election := e' } := by
  have hpend : Node.pending name p { s with election := e' } = s.pending name p := hpend
  refine ⟨?_, ?_, ?_, h.calls, ?_, h.room, .inl ho, ?_, h.unwatched, h.watched, h.callback,
    fun _ => .inl ho⟩
  · rw [hpend]
    exact h.one
  · rw [hpend]
    exact h.types
  · rw [hpend]
    exact h.due
  · rw [hpend]
    exact h.events
  · exact underway_of_not_inWindow hw

theorem Tracks.endBroadcast (h : Tracks name p s) (hb : s.broadcasting prod = true)
    (hl : s.listener.leader prod = .idle)
    (hpend : pending (name p) (e'.procs p) = Function.update (s.pending name p) prod none)
    (hrole : (e'.procs p).role = (s.proc p).role)
    (hobs : (e'.procs p).observed = (s.proc p).observed) :
    Tracks name p { s with
      election := e', broadcasting := Function.update s.broadcasting prod false } := by
  let t : Node ν := { s with
    election := e', broadcasting := Function.update s.broadcasting prod false }
  have hlead : (t.proc p).isLeader = (s.proc p).isLeader := isLeader_congr hrole
  have hset : Settled name p t ↔ Settled name p s := by
    rw [Settled, Settled, hlead]
  have hway : Underway p t ↔ Underway p s := by
    simp only [Underway, hlead, t]
  have hother : ∀ prod', prod' ≠ prod → s.pending name p prod' = none := by
    intro prod' hne
    exact (h.one prod' prod hne).resolve_right (h.due prod hb)
  have hnone : ∀ prod', t.pending name p prod' = none := by
    intro prod'
    have hpend : t.pending name p = Function.update (s.pending name p) prod none := hpend
    by_cases hp : prod' = prod
    · simp [hpend, hp]
    · rw [hpend, Function.update_of_ne hp, hother prod' hp]
  have hidle : ∀ prod', s.listener.leader prod' = .idle := by
    intro prod'
    by_cases hp : prod' = prod
    · rw [hp, hl]
    · exact (h.quiet (hother prod' hp)).2
  have hcalm : ∀ prod', t.broadcasting prod' = false := by
    intro prod'
    by_cases hp : prod' = prod
    · simp [t, hp]
    · simpa [t, Function.update_of_ne hp] using (h.quiet (hother prod' hp)).1
  refine ⟨fun a _ _ => .inl (hnone a), fun prod' ev he => ?_, fun prod' hb' => ?_,
    fun prod' hl' => absurd (hidle prod') hl', fun prod' ev he => ?_, h.room,
    .inr fun prod' ev he => ?_, hway.mpr h.underway, h.unwatched, h.watched, h.callback,
    fun hs => ?_⟩
  · cases (hnone prod').symm.trans he
  · cases (hcalm prod').symm.trans hb'
  · cases (congrArg LeaderCall.event? (hidle prod')).symm.trans he
  · cases (hnone prod').symm.trans he
  · rcases h.follows hs with ho | ⟨prod', hne, hund⟩ | hset'
    · exact .inl (hobs ▸ ho)
    · have hp : prod' = prod := by
        by_contra hp
        exact hne (hother prod' hp)
      simp [hp, hb, hl] at hund
    · exact .inr (.inr (hset.mpr hset'))

theorem Tracks.note {ev : LeaderEvent} (h : Tracks name p s)
    (hp : s.pending name p prod = some ev) (hr : s.listener.registration = .registered) :
    Tracks name p { s with
      listener := s.listener.setLeader prod (.noted ev)
      broadcasting := Function.update s.broadcasting prod true } := by
  have hsome : s.pending name p prod ≠ none := by simp [hp]
  refine ⟨h.one, h.types, fun prod' hb => ?_, ?_, ?_, ?_, h.value, h.underway, fun hs => ?_,
    h.watched, h.callback,
    fun _ => .inr (.inl ⟨prod, hsome, .inr (by simp [Listeners.Sys.setLeader])⟩)⟩
  · by_cases hpp : prod' = prod
    · rw [hpp]
      exact hsome
    · exact h.due prod' (by simpa [Function.update_of_ne hpp] using hb)
  · apply Listeners.Sys.forall_setLeader
      (P := fun prod' c => c ≠ .idle → Function.update s.broadcasting prod true prod' = true)
    · simp
    · intro prod' hne hl
      simpa [Function.update_of_ne hne] using h.calls prod' hl
  · apply Listeners.Sys.forall_setLeader
      (P := fun prod' c => ∀ ev, c.event? = some ev → s.pending name p prod' = some ev)
    · simp [hp]
    · exact fun prod' _ => h.events prod'
  · apply Listeners.Sys.forall_setLeader
      (P := fun _ c => ∀ ev, c = .resending ev → s.listener.leaderCh = none)
    · simp
    · exact fun prod' _ => h.room prod'
  · have hun := (h.unwatched hs).1
    rw [hr] at hun
    cases hun

theorem Tracks.pass (h : Tracks name p s) (hp : s.pending name p prod ≠ none)
    (hr : s.listener.registration ≠ .registered) :
    Tracks name p { s with broadcasting := Function.update s.broadcasting prod true } := by
  refine ⟨h.one, h.types, fun prod' hb => ?_, fun prod' hl => ?_, h.events, h.room, h.value,
    h.underway, h.unwatched, h.watched, h.callback, fun hs => absurd (h.watched hs) hr⟩
  · by_cases hpp : prod' = prod
    · rw [hpp]
      exact hp
    · exact h.due prod' (by simpa [Function.update_of_ne hpp] using hb)
  · by_cases hpp : prod' = prod
    · simp [hpp]
    · simpa [Function.update_of_ne hpp] using h.calls prod' hl

theorem Tracks.register {b : Bool} (h : Tracks name p s) (hs : s.start = .set b) :
    Tracks name p { s with
      start := .started
      listener := { s.listener with registration := .registered, consumer := .polling } } := by
  have hway := h.underway
  simp only [Underway, hs] at hway
  obtain ⟨-, -, hch, hidle⟩ := h.unwatched (by simp [hs])
  refine ⟨h.one, h.types, h.due, h.calls, h.events, h.room, h.value, trivial, ?_, fun _ => rfl,
    fun ev he => ?_, fun _ => .inr (.inr ?_)⟩
  · intro hne
    exact absurd rfl hne
  · cases he
  · have hset : Asks (name p) none .polling s.management s.controlPlane (s.proc p).isLeader :=
      ⟨hway.2.1.trans hway.1, hway.2.2.trans hway.1⟩
    rw [← hch] at hset
    exact hset

variable {l : Listeners.Sys}

theorem Tracks.advance {c : LeaderCall} (h : Tracks name p s)
    (hp : s.listener.leader prod ≠ .idle) (hc : c ≠ .idle)
    (he : c.event? = (s.listener.leader prod).event?) (hr : ∀ ev, c ≠ .resending ev)
    (hl : l.leader = s.listener.leader) (hch : l.leaderCh = s.listener.leaderCh)
    (hcon : l.consumer = s.listener.consumer)
    (hreg : l.registration = s.listener.registration) :
    Tracks name p { s with listener := l.setLeader prod c } := by
  have hstarted := h.started_of_call hp
  refine ⟨h.one, h.types, h.due, ?_, ?_, ?_, h.value, h.underway, fun hs => absurd hstarted hs,
    fun hs => hreg.trans (h.watched hs), fun ev hcb => h.callback ev (hcon ▸ hcb),
    fun hs => (h.follows hs).imp_right fun hf => ?_⟩
  · apply Listeners.Sys.forall_setLeader
      (P := fun prod' c => c ≠ .idle → s.broadcasting prod' = true)
    · exact fun _ => h.calls prod hp
    · rw [hl]
      exact fun prod' _ => h.calls prod'
  · apply Listeners.Sys.forall_setLeader
      (P := fun prod' c => ∀ ev, c.event? = some ev → s.pending name p prod' = some ev)
    · rw [he]
      exact h.events prod
    · rw [hl]
      exact fun prod' _ => h.events prod'
  · apply Listeners.Sys.forall_setLeader
      (P := fun _ c => ∀ ev, c = .resending ev → l.leaderCh = none)
    · exact fun ev hev => absurd hev (hr ev)
    · rw [hl, hch]
      exact fun prod' _ => h.room prod'
  · rcases hf with ⟨prod', hne, hund⟩ | hset
    · refine .inl ⟨prod', hne, hund.imp_right ?_⟩
      apply Listeners.Sys.forall_setLeader
        (P := fun prod' c => s.listener.leader prod' ≠ .idle → c ≠ .idle)
      · exact fun _ => hc
      · rw [hl]
        exact fun _ _ => id
    · right
      rw [Settled, ← hch, ← hcon] at hset
      exact hset

theorem Tracks.drain {ev : Sent} (h : Tracks name p s)
    (hp : s.listener.leader prod = .draining ev) :
    Tracks name p { s with
      listener := { s.listener with leaderCh := none }.setLeader prod (.resending ev) } := by
  have hcall : s.listener.leader prod ≠ .idle := by simp [hp]
  have hstarted := h.started_of_call hcall
  refine ⟨h.one, h.types, h.due, ?_, ?_, fun _ _ _ => rfl, h.value, h.underway,
    fun hs => absurd hstarted hs, h.watched, h.callback,
    fun _ => .inr (.inl ⟨prod, h.due prod (h.calls prod hcall), .inr ?_⟩)⟩
  · apply Listeners.Sys.forall_setLeader
      (P := fun prod' c => c ≠ .idle → s.broadcasting prod' = true)
    · exact fun _ => h.calls prod hcall
    · exact fun prod' _ => h.calls prod'
  · apply Listeners.Sys.forall_setLeader
      (P := fun prod' c => ∀ ev, c.event? = some ev → s.pending name p prod' = some ev)
    · have hevents := h.events prod
      rw [hp] at hevents
      exact hevents
    · exact fun prod' _ => h.events prod'
  · simp [Listeners.Sys.setLeader]

theorem Tracks.put {ev : Sent} (h : Tracks name p s)
    (hp : (s.listener.leader prod).event? = some ev.event) :
    Tracks name p { s with
      listener := { s.listener with leaderCh := some ev }.setLeader prod .idle } := by
  -- A call puts its event into the channel. The other goroutine is in no call, since its last
  -- update has been broadcast.
  have hpend := h.events prod ev.event hp
  have hcall : s.listener.leader prod ≠ .idle := by
    intro hidle
    simp [hidle] at hp
  have hstarted := h.started_of_call hcall
  have hother : ∀ prod', prod' ≠ prod → s.listener.leader prod' = .idle := by
    intro prod' hne
    refine (h.quiet ((h.one prod' prod hne).resolve_right ?_)).2
    simp [hpend]
  have hidle : ∀ prod', ({ s.listener with leaderCh := some ev }.setLeader prod .idle).leader
      prod' = .idle := by
    intro prod'
    by_cases hpp : prod' = prod
    · simp [Listeners.Sys.setLeader, hpp]
    · simp [Listeners.Sys.setLeader, Function.update_of_ne hpp, hother prod' hpp]
  refine ⟨h.one, h.types, h.due, fun prod' hl => absurd (hidle prod') hl, fun prod' ev' he => ?_,
    fun prod' ev' he => ?_, h.value, h.underway, fun hs => absurd hstarted hs, h.watched,
    h.callback, fun _ => ?_⟩
  · cases (congrArg LeaderCall.event? (hidle prod')).symm.trans he
  · cases (hidle prod').symm.trans he
  · refine h.value.imp_right fun hv => .inr ?_
    exact hv prod ev.event hpend

theorem Tracks.takeLeader {ev : Sent} (h : Tracks name p s) (hl : s.listener.leaderCh = some ev) :
    Tracks name p { s with
      listener := { s.listener with leaderCh := none, consumer := .onLeaderChange ev }
      handler := .entered } := by
  have hstarted := h.started_of_leaderCh (by simp [hl])
  refine ⟨h.one, h.types, h.due, h.calls, h.events, fun _ _ _ => rfl, h.value, h.underway,
    fun hs => absurd hstarted hs, h.watched, fun ev' _ => ?_, fun hs => ?_⟩
  · constructor
    all_goals
      intro hh
      cases hh
  · refine (h.follows hs).imp_right fun hf => hf.imp_right fun hset => ?_
    rw [Settled, hl] at hset
    exact hset

theorem asks_of_move {nodeName : String} {leaderCh : Option Sent} {consumer consumer' : Consumer}
    {management controlPlane status : Bool}
    (hold : ∀ ev, consumer ≠ .onLeaderChange ev) (hnew : ∀ ev, consumer' ≠ .onLeaderChange ev)
    (h : Asks nodeName leaderCh consumer management controlPlane status) :
    Asks nodeName leaderCh consumer' management controlPlane status := by
  cases leaderCh with
  | some ev => exact h
  | none => cases consumer <;> cases consumer' <;> simp_all [Asks]

theorem Tracks.moveConsumer (h : Tracks name p s) (hstarted : s.start = .started)
    (hl : l.leader = s.listener.leader) (hch : l.leaderCh = s.listener.leaderCh)
    (hreg : l.registration = s.listener.registration)
    (hold : ∀ ev, s.listener.consumer ≠ .onLeaderChange ev)
    (hnew : ∀ ev, l.consumer ≠ .onLeaderChange ev) : Tracks name p { s with listener := l } := by
  refine ⟨h.one, h.types, h.due, ?_, ?_, ?_, h.value, h.underway, fun hs => absurd hstarted hs,
    fun hs => hreg.trans (h.watched hs), fun ev he => absurd he (hnew ev), fun hs => ?_⟩
  · rw [hl]
    exact h.calls
  · rw [hl]
    exact h.events
  · rw [hl, hch]
    exact h.room
  · have hf := h.follows hs
    simp only [Undelivered, Settled, ← hl, ← hch] at hf
    exact hf.imp_right fun hf => hf.imp_right fun hset => asks_of_move hold hnew hset

theorem Tracks.finishLeader {ev : Sent} (h : Tracks name p s)
    (hc : s.listener.consumer = .onLeaderChange ev) (hh : s.handler = .finished) :
    Tracks name p { s with listener := { s.listener with consumer := .polling } } := by
  have hstarted := h.started_of_consumer (by simp [hc])
  obtain ⟨hm, hcp⟩ := (h.callback ev hc).2 hh
  refine ⟨h.one, h.types, h.due, h.calls, h.events, h.room, h.value, h.underway,
    fun hs => absurd hstarted hs, h.watched, fun ev' he => ?_, fun hs => ?_⟩
  · cases he
  · refine (h.follows hs).imp_right fun hf => hf.imp_right fun hset => ?_
    rw [Settled, hc] at hset
    have hask : Asks (name p) s.listener.leaderCh .polling s.management s.controlPlane
        (s.proc p).isLeader := by
      cases hl : s.listener.leaderCh with
      | some other =>
        rw [hl] at hset
        exact hset
      | none =>
        rw [hl] at hset
        exact ⟨hm.trans hset, hcp.trans hset⟩
    exact hask

theorem Tracks.sameListener (h : Tracks name p s) (hl : l.leader = s.listener.leader)
    (hch : l.leaderCh = s.listener.leaderCh) (hcon : l.consumer = s.listener.consumer)
    (hreg : l.registration = s.listener.registration) : Tracks name p { s with listener := l } := by
  refine ⟨h.one, h.types, h.due, ?_, ?_, ?_, h.value, h.underway, ?_,
    fun hs => hreg.trans (h.watched hs), ?_, fun hs => ?_⟩
  · rw [hl]
    exact h.calls
  · rw [hl]
    exact h.events
  · rw [hl, hch]
    exact h.room
  · rw [hl, hch, hcon, hreg]
    exact h.unwatched
  · rw [hcon]
    exact h.callback
  · have hf := h.follows hs
    simp only [Undelivered, Settled, ← hl, ← hch, ← hcon] at hf
    exact hf

theorem Tracks.readLeader (h : Tracks name p s) (hs : s.start = .unstarted) :
    Tracks name p { s with start := .read (s.proc p).isLeader } := by
  refine ⟨h.one, h.types, h.due, h.calls, h.events, h.room, h.value, rfl,
    fun _ => h.unwatched (by simp [hs]), fun hs' => ?_, h.callback, fun hs' => ?_⟩
  all_goals cases hs'

theorem Tracks.setManagement {b : Bool} (h : Tracks name p s) (hs : s.start = .read b) :
    Tracks name p { s with start := .half b, management := b } := by
  have hway := h.underway
  simp only [Underway, hs] at hway
  have hun := h.unwatched (by simp [hs])
  refine ⟨h.one, h.types, h.due, h.calls, h.events, h.room, h.value, ⟨hway, rfl⟩, fun _ => hun,
    fun hs' => ?_, fun ev he => ?_, fun hs' => ?_⟩
  · cases hs'
  · cases hun.2.1.symm.trans he
  · cases hs'

theorem Tracks.setControlPlane {b : Bool} (h : Tracks name p s) (hs : s.start = .half b) :
    Tracks name p { s with start := .set b, controlPlane := b } := by
  have hway := h.underway
  simp only [Underway, hs] at hway
  have hun := h.unwatched (by simp [hs])
  refine ⟨h.one, h.types, h.due, h.calls, h.events, h.room, h.value, ⟨hway.1, hway.2, rfl⟩,
    fun _ => hun, fun hs' => ?_, fun ev he => ?_, fun hs' => ?_⟩
  · cases hs'
  · cases hun.2.1.symm.trans he
  · cases hs'

theorem Tracks.handle {ev : Sent} {handler : HandlerPc} {management controlPlane : Bool}
    (h : Tracks name p s) (hc : s.listener.consumer = .onLeaderChange ev)
    (hhalf : handler = .half → management = serves (name p) ev.event)
    (hfin : handler = .finished →
      management = serves (name p) ev.event ∧ controlPlane = serves (name p) ev.event) :
    Tracks name p { s with
      handler := handler, management := management, controlPlane := controlPlane } := by
  have hstarted := h.started_of_consumer (by simp [hc])
  refine ⟨h.one, h.types, h.due, h.calls, h.events, h.room, h.value, ?_,
    fun hs => absurd hstarted hs, h.watched, fun ev' he => ?_, fun hs => ?_⟩
  · simp [Underway, hstarted]
  · obtain rfl : ev = ev' := by simpa using hc.symm.trans he
    exact ⟨hhalf, hfin⟩
  · refine (h.follows hs).imp_right fun hf => hf.imp_right fun hset => ?_
    have hask : Asks (name p) s.listener.leaderCh s.listener.consumer management controlPlane
        (s.proc p).isLeader := by
      rw [Settled, hc] at hset
      rw [hc]
      cases hl : s.listener.leaderCh with
      | some other => rwa [hl] at hset
      | none => rwa [hl] at hset
    exact hask

/-- A step of the listener that nothing else has a share in. A sink that is never closed
refuses no event, and the last `select` of `enqueueLeader` finds the channel empty. -/
theorem Tracks.listener {label : Listeners.Label} (h : Tracks name p s)
    (hi : internal label = true) (hf : label = .finish → s.mayFinish = true)
    (hm : Listeners.Moves s.listener label l) :
    Tracks name p { s with
      listener := l
      handler := if label = .takeLeader then .entered else s.handler } := by
  have hopen := h.isOpen
  cases hm with
  | watch | unwatch | close | note | pass => cases hi
  | refuse _ _ _ hc | abandon _ _ _ hc | seeDone _ hc =>
    rw [hopen] at hc
    cases hc
  | drop prod ev other _ hp hl =>
    rw [h.room prod ev hp] at hl
    cases hl
  | callLeader prod ev hp | check prod ev hp | full prod ev hp =>
    exact h.advance (by simp [hp]) (by simp) (by simp [hp]) (by simp) rfl rfl rfl rfl
  | send prod ev hp | resend prod ev hp => exact h.put (by simp [hp])
  | drain prod ev hp => exact h.drain hp
  | noteMember | passMember | refuseMember | checkMember | sendMember | abandonMember
  | dropMember => exact h.sameListener rfl rfl rfl rfl
  | block hc =>
    exact h.moveConsumer (h.started_of_consumer (by simp [hc])) rfl rfl rfl (by simp [hc]) (by simp)
  | takeLeader ev _ hl => exact h.takeLeader hl
  | takeMember ev rest hc =>
    exact h.moveConsumer (h.started_of_consumer (by simp [hc])) rfl rfl rfl (by simp [hc]) (by simp)
  | finishLeader ev hc =>
    have hh : s.handler = .finished := by simpa [Node.mayFinish, hc] using hf rfl
    exact h.finishLeader hc hh
  | finishMember ev hc =>
    exact h.moveConsumer (h.started_of_consumer (by simp [hc])) rfl rfl rfl (by simp [hc]) (by simp)

end Invariant

end Leibrix.Health

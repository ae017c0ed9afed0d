import Leibrix.FencingTokens
import Leibrix.HubListeners
import Leibrix.ServingState

/-! The processes of one election, each with the listeners registered at it. A goroutine of
the election updates its state in one step, and its broadcast goes from sink to sink in later
ones, while the other processes campaign and the listeners come and go. -/
namespace Leibrix.ClusterEvents
open Leibrix.Transition Leibrix.Election
open Leibrix.Listeners (Producer producer elected Deliveries recordDeliveries)
open Leibrix.ListenerHub (Hub History)

structure Cluster (ν : Type) where
  election : Election.Sys ν
  hubs : ν → Hub

def Cluster.start (ν : Type) : Cluster ν := ⟨Election.Sys.start ν, fun _ => Hub.start⟩

inductive Label (ν : Type) where
  | election (p : ν) (a : Action)
  | beginBroadcast (p : ν) (prod : Producer) (order : List Nat)
  | endBroadcast (p : ν) (prod : Producer)
  | hub (p : ν) (l : ListenerHub.Label)
  -- `Close` cancels the context
  | cancel (p : ν)
deriving DecidableEq

def mayStop (proc : Process) : ListenerHub.Label → Bool
  -- the goroutine whose return a step stands for is not in the middle of an event
  | .stopProducer .campaign => proc.phase = .stopped
  | .stopProducer .observeLeader => proc.announcing = none
  | _ => true

def keepsCasts : ListenerHub.Label → Bool
  | .broadcastLeader _ _ | .returnLeader _ => false
  | _ => true

def internal (l : ListenerHub.Label) : Bool := keepsCasts l && l ≠ .cancel

def separate (hub : Hub) : Action → Bool
  | .broadcastLoss | .broadcastLeader | .cancel => false
  | .observe => !hub.stopped .observeLeader
  | _ => true

section Steps
variable {ν : Type} [DecidableEq ν]

def Cluster.setHub (s : Cluster ν) (p : ν) (hub : Hub) : Cluster ν :=
  { s with hubs := Function.update s.hubs p hub }

def Cluster.pending (name : ν → String) (s : Cluster ν) (p : ν) (prod : Producer) :
    Option LeaderEvent := Health.pending (name p) (s.election.procs p) prod

def step (name : ν → String) (s : Cluster ν) : Label ν → Option (Cluster ν)
  | .election p a =>
    if separate (s.hubs p) a then
      (Election.step name s.election (p, a)).map fun e => { s with election := e }
    else none
  | .beginBroadcast p prod order =>
    (s.pending name p prod).bind fun ev =>
      (ListenerHub.step (s.hubs p) (.broadcastLeader ev order)).map (s.setHub p)
  | .endBroadcast p prod =>
    (ListenerHub.step (s.hubs p) (.returnLeader prod)).bind fun hub =>
      (Election.step name s.election (p, Health.broadcastAction prod)).map fun e =>
        { s.setHub p hub with election := e }
  | .hub p l =>
    if internal l ∧ mayStop (s.election.procs p) l then
      (ListenerHub.step (s.hubs p) l).map (s.setHub p)
    else none
  | .cancel p =>
    (ListenerHub.step (s.hubs p) .cancel).bind fun hub =>
      (Election.step name s.election (p, .cancel)).map fun e =>
        { s.setHub p hub with election := e }

def record (name : ν → String) (s : Cluster ν) (l : Label ν) (h : ν → History) : ν → History :=
  match l with
  | .beginBroadcast p prod order =>
    match s.pending name p prod with
    | some ev => Function.update h p
        (ListenerHub.record (s.hubs p) (.broadcastLeader ev order) (h p))
    | none => h
  | .hub p l => Function.update h p (ListenerHub.record (s.hubs p) l (h p))
  | _ => h

inductive Moves (name : ν → String) (s : Cluster ν) (h : ν → History) :
    Label ν → Cluster ν → (ν → History) → Prop
  | election (p : ν) (a : Action) (e : Election.Sys ν) (ha : separate (s.hubs p) a = true)
      (he : Election.step name s.election (p, a) = some e) :
      Moves name s h (.election p a) { s with election := e } h
  | beginBroadcast (p : ν) (prod : Producer) (order : List Nat) (ev : LeaderEvent) (hub : Hub)
      (hev : s.pending name p prod = some ev)
      (hh : ListenerHub.step (s.hubs p) (.broadcastLeader ev order) = some hub) :
      Moves name s h (.beginBroadcast p prod order) (s.setHub p hub) (Function.update h p
        (ListenerHub.record (s.hubs p) (.broadcastLeader ev order) (h p)))
  | endBroadcast (p : ν) (prod : Producer) (hub : Hub) (e : Election.Sys ν)
      (hh : ListenerHub.step (s.hubs p) (.returnLeader prod) = some hub)
      (he : Election.step name s.election (p, Health.broadcastAction prod) = some e) :
      Moves name s h (.endBroadcast p prod) { s.setHub p hub with election := e } h
  | hub (p : ν) (l : ListenerHub.Label) (hub : Hub) (hl : keepsCasts l = true)
      (hh : ListenerHub.step (s.hubs p) l = some hub) :
      Moves name s h (.hub p l) (s.setHub p hub)
        (Function.update h p (ListenerHub.record (s.hubs p) l (h p)))
  | cancel (p : ν) (hub : Hub) (e : Election.Sys ν)
      (hh : ListenerHub.step (s.hubs p) .cancel = some hub)
      (he : Election.step name s.election (p, .cancel) = some e) :
      Moves name s h (.cancel p) { s.setHub p hub with election := e } h

variable {name : ν → String} {s t : Cluster ν} {h : ν → History} {l : Label ν} {p : ν}

theorem moves_of_step (hs : step name s l = some t) : Moves name s h l t (record name s l h) := by
  cases l with
  | election p a =>
    simp only [step] at hs
    split at hs
    · rename_i ha
      obtain ⟨e, he, rfl⟩ := Option.map_eq_some_iff.mp hs
      exact .election p a e ha he
    · cases hs
  | beginBroadcast p prod order =>
    obtain ⟨ev, hev, hs⟩ := Option.bind_eq_some_iff.mp hs
    obtain ⟨hub, hh, rfl⟩ := Option.map_eq_some_iff.mp hs
    simp only [record, hev]
    exact .beginBroadcast p prod order ev hub hev hh
  | endBroadcast p prod =>
    obtain ⟨hub, hh, hs⟩ := Option.bind_eq_some_iff.mp hs
    obtain ⟨e, he, rfl⟩ := Option.map_eq_some_iff.mp hs
    exact .endBroadcast p prod hub e hh he
  | hub p l =>
    simp only [step] at hs
    split at hs
    · rename_i hl
      obtain ⟨hub, hh, rfl⟩ := Option.map_eq_some_iff.mp hs
      exact .hub p l hub (Bool.and_eq_true_iff.mp hl.1).1 hh
    · cases hs
  | cancel p =>
    obtain ⟨hub, hh, hs⟩ := Option.bind_eq_some_iff.mp hs
    obtain ⟨e, he, rfl⟩ := Option.map_eq_some_iff.mp hs
    exact .cancel p hub e hh he

def casting (hub : Hub) (prod : Producer) : Option LeaderEvent :=
  (hub.leader prod).map ListenerHub.Cast.event

/-- A broadcast keeps its event from its first sink to its last. -/
theorem casting_step {hub hub' : Hub} {l : ListenerHub.Label} (hl : keepsCasts l = true)
    (hh : ListenerHub.step hub l = some hub') (prod : Producer) :
    casting hub' prod = casting hub prod := by
  cases ListenerHub.moves_of_step hh with
  | broadcastLeader | returnLeader => cases hl
  | enqueueLeader q b c id rest k next hc =>
    by_cases hq : prod = q
    · subst hq
      cases next <;> simp [casting, ListenerHub.Hub.setLeader, hc, ListenerHub.Cast.next]
    · simp [casting, ListenerHub.Hub.setLeader, ListenerHub.Hub.setSink, Function.update_of_ne hq]
  | _ => rfl

theorem leaderBroadcasts_record {hub : Hub} {l : ListenerHub.Label} (hl : keepsCasts l = true)
    (h : History) : (ListenerHub.record hub l h).leaderBroadcasts = h.leaderBroadcasts := by
  cases l <;> first | rfl | cases hl

theorem separate_step {e e' : Election.Sys ν} {hub : Hub} {a : Action}
    (ha : separate hub a = true) (he : Election.step name e (p, a) = some e') (q : ν) :
    (e'.procs q).events = (e.procs q).events ∧
      ((e'.procs q).announcing = (e.procs q).announcing ∨
        (e.procs q).announcing = none ∧
          ∃ ev, (e'.procs q).announcing = some ev ∧ elected ev = true) := by
  obtain ⟨proc, hprocs, hm⟩ := (Election.moves_of_step he).1
  by_cases hq : q = p
  · subst hq
    rw [hprocs, Function.update_self]
    cases hm with
    | broadcastLoss | broadcastLeader | cancel => cases ha
    | observe v rest ho =>
      cases Election.acts_of_step he with
      | observe v' rest' ho' hnone => exact ⟨rfl, .inr ⟨hnone, _, rfl, rfl⟩⟩
    | _ => exact ⟨rfl, .inl rfl⟩
  · rw [hprocs, Function.update_of_ne hq]
    exact ⟨rfl, .inl rfl⟩

structure Linked (proc : Process) (hub : Hub) (h : History) : Prop where
  -- what ties the listeners of a process to its part in the election
  run : Reach (Fires (recorded ListenerHub.step ListenerHub.record)) anyStep (Hub.start, {})
    (hub, h)
  ready : ∀ ev, proc.announcing = some ev → elected ev = true
  casts : ∀ ev, casting hub .observeLeader = some ev → proc.announcing = some ev
  announced : h.leaderBroadcasts.filter elected =
    proc.events.filter elected ++ (casting hub .observeLeader).toList

section Linked
variable {proc proc' : Process} {hub hub' : Hub} {h : History} {l : ListenerHub.Label}

theorem linked_start : Linked {} Hub.start {} :=
  ⟨.refl, by simp, by simp [casting, ListenerHub.Hub.start],
    by simp [casting, ListenerHub.Hub.start]⟩

theorem Linked.run_step (hi : Linked proc hub h) (hh : ListenerHub.step hub l = some hub') :
    Reach (Fires (recorded ListenerHub.step ListenerHub.record)) anyStep (Hub.start, {})
      (hub', ListenerHub.record hub l h) := by
  refine hi.run.tail (a := l) trivial ?_
  simp [Fires, recorded, hh]

theorem Linked.separate (hi : Linked proc hub h) (hev : proc'.events = proc.events)
    (ha : proc'.announcing = proc.announcing ∨ proc.announcing = none ∧
      ∃ ev, proc'.announcing = some ev ∧ elected ev = true) : Linked proc' hub h := by
  refine ⟨hi.run, fun ev he => ?_, fun ev he => ?_, ?_⟩
  · obtain ha | ⟨-, ev', ha, hel⟩ := ha
    · exact hi.ready ev (ha ▸ he)
    · obtain rfl : ev' = ev := by simpa [ha] using he
      exact hel
  · obtain ha | ⟨hnone, -⟩ := ha
    · exact ha.trans (hi.casts ev he)
    · rw [hi.casts ev he] at hnone
      cases hnone
  · rw [hev]
    exact hi.announced

theorem Linked.listen (hi : Linked proc hub h) (hl : keepsCasts l = true)
    (hh : ListenerHub.step hub l = some hub') :
    Linked proc hub' (ListenerHub.record hub l h) := by
  have hcast := casting_step hl hh .observeLeader
  refine ⟨hi.run_step hh, hi.ready, fun ev he => hi.casts ev (hcast ▸ he), ?_⟩
  rw [leaderBroadcasts_record hl, hcast]
  exact hi.announced

/-- What `loseLeadership` broadcasts is no announcement. -/
theorem elected_lossEvent {nodeName : String} {phase : Phase} {ev : LeaderEvent}
    (hev : Health.lossEvent nodeName phase = some ev) : elected ev = false := by
  cases phase <;> cases hev <;> rfl

theorem casting_setLeader (hub : Hub) (prod q : Producer)
    (c : Option (ListenerHub.Cast LeaderEvent)) :
    casting (hub.setLeader prod c) q =
      if q = prod then c.map ListenerHub.Cast.event else casting hub q := by
  simp only [casting, ListenerHub.Hub.setLeader, Function.update_apply]
  split <;> rfl

theorem Linked.begin {nodeName : String} {prod : Producer} {order : List Nat} {ev : LeaderEvent}
    (hi : Linked proc hub h) (hev : Health.pending nodeName proc prod = some ev)
    (hh : ListenerHub.step hub (.broadcastLeader ev order) = some hub') :
    Linked proc hub' (ListenerHub.record hub (.broadcastLeader ev order) h) := by
  have hrun := hi.run_step hh
  cases ListenerHub.moves_of_step hh with
  | broadcastLeader _ _ hp =>
    cases prod with
    | campaign =>
      have hel := elected_lossEvent hev
      have hne : .observeLeader ≠ producer ev := by
        intro he
        rw [Listeners.elected_iff.mpr he.symm] at hel
        cases hel
      have hcast : casting (hub.setLeader (producer ev) (some ⟨ev, order, .check⟩)) .observeLeader =
          casting hub .observeLeader := by rw [casting_setLeader, if_neg hne]
      refine ⟨hrun, hi.ready, fun ev' he => hi.casts ev' (hcast ▸ he), ?_⟩
      rw [hcast]
      simpa [ListenerHub.record, hel] using hi.announced
    | observeLeader =>
      have hel := hi.ready ev hev
      have hprod := Listeners.elected_iff.mp hel
      rw [hprod] at hp hrun ⊢
      have hbefore : casting hub .observeLeader = none := by simp [casting, hp]
      refine ⟨hrun, hi.ready, fun ev' he => ?_, ?_⟩
      · obtain rfl : ev = ev' := by simpa [casting_setLeader] using he
        exact hev
      · simpa [ListenerHub.record, hel, casting_setLeader, hbefore] using hi.announced

theorem Linked.endLoss {ev : LeaderEvent} {phase : Phase} (hi : Linked proc hub h)
    (hel : elected ev = false)
    (hh : ListenerHub.step hub (.returnLeader .campaign) = some hub') :
    Linked ((proc.broadcast ev).goto phase) hub' h := by
  have hrun := hi.run_step hh
  cases ListenerHub.moves_of_step hh with
  | returnLeader =>
    have hcast : casting (hub.setLeader .campaign none) .observeLeader =
        casting hub .observeLeader := by simp [casting_setLeader]
    refine ⟨hrun, hi.ready, fun ev' he => hi.casts ev' (hcast ▸ he), ?_⟩
    rw [hcast]
    simpa [Process.broadcast, Process.goto, hel] using hi.announced

theorem Linked.endLeader {ev : LeaderEvent} (hi : Linked proc hub h)
    (ha : proc.announcing = some ev)
    (hh : ListenerHub.step hub (.returnLeader .observeLeader) = some hub') :
    Linked ({ proc with announcing := none }.broadcast ev) hub' h := by
  have hrun := hi.run_step hh
  cases ListenerHub.moves_of_step hh with
  | returnLeader _ c hc =>
    have hcast : casting hub .observeLeader = some c.event := by simp [casting, hc]
    obtain rfl : c.event = ev := by simpa [ha] using (hi.casts _ hcast).symm
    refine ⟨hrun, by simp [Process.broadcast], fun ev' he => ?_, ?_⟩
    · simp [casting_setLeader] at he
    · simpa [Process.broadcast, casting_setLeader, hcast, hi.ready _ ha] using hi.announced

end Linked

structure Consistent (name : ν → String) (s : Cluster ν) (h : ν → History) : Prop where
  -- the tokens of the election, and what each process and its listeners have of them
  terms : ∀ _ : ν, ∃ owner wins, Terms name owner s.election wins
  linked : ∀ p, Linked (s.election.procs p) (s.hubs p) (h p)

omit [DecidableEq ν] in
theorem consistent_start : Consistent name (Cluster.start ν) fun _ => {} :=
  ⟨fun p => ⟨fun _ => p, [], terms_start _⟩, fun _ => linked_start⟩

theorem forall_setHub {e : Election.Sys ν} {hub : Hub} {h' : History}
    {R : Process → Hub → History → Prop} (ho : ∀ q, q ≠ p → e.procs q = s.election.procs q)
    (hp : R (e.procs p) hub h') (hr : ∀ q, R (s.election.procs q) (s.hubs q) (h q)) (q : ν) :
    R (e.procs q) ((s.setHub p hub).hubs q) (Function.update h p h' q) := by
  by_cases hq : q = p
  · subst hq
    simpa [Cluster.setHub] using hp
  · simpa [Cluster.setHub, Function.update_of_ne hq, ho q hq] using hr q

/-- A step of the election leaves the processes that do not take it. -/
theorem procs_step {e e' : Election.Sys ν} {a : Action}
    (he : Election.step name e (p, a) = some e') (q : ν) (hq : q ≠ p) :
    e'.procs q = e.procs q := by
  obtain ⟨proc, hprocs, -⟩ := (Election.moves_of_step he).1
  rw [hprocs, Function.update_of_ne hq]

theorem Linked.endBroadcast {e e' : Election.Sys ν} {hub hub' : Hub} {h : History}
    {prod : Producer} (hi : Linked (e.procs p) hub h)
    (hh : ListenerHub.step hub (.returnLeader prod) = some hub')
    (he : Election.step name e (p, Health.broadcastAction prod) = some e') :
    Linked (e'.procs p) hub' h := by
  cases prod with
  | campaign =>
    have he : Election.step name e (p, .broadcastLoss) = some e' := he
    cases Election.acts_of_step he with
    | broadcastExpired | broadcastResigned =>
      simp only [Sys.set, Function.update_self]
      exact hi.endLoss rfl hh
  | observeLeader =>
    have he : Election.step name e (p, .broadcastLeader) = some e' := he
    cases Election.acts_of_step he with
    | broadcastLeader ev ha =>
      simp only [Sys.set, Function.update_self]
      exact hi.endLeader ha hh

theorem Consistent.step (hi : Consistent name s h) (hs : step name s l = some t) :
    Consistent name t (record name s l h) := by
  have hterms : ∀ {e : Election.Sys ν} {p : ν} {a : Action},
      Election.step name s.election (p, a) = some e →
      ∀ _ : ν, ∃ owner wins, Terms name owner e wins := by
    intro e p a he q
    obtain ⟨owner, wins, ht⟩ := hi.terms q
    obtain ⟨owner', ht'⟩ := ht.step he
    exact ⟨owner', _, ht'⟩
  have hm := moves_of_step (h := h) hs
  generalize record name s l h = h' at hm ⊢
  cases hm with
  | election p a e ha he =>
    refine ⟨hterms he, fun q => ?_⟩
    obtain ⟨hev, hann⟩ := separate_step ha he q
    exact (hi.linked q).separate hev hann
  | beginBroadcast p prod order ev hub hev hh =>
    exact ⟨hi.terms, forall_setHub (fun _ _ => rfl) ((hi.linked p).begin hev hh) hi.linked⟩
  | hub p l hub hl hh =>
    exact ⟨hi.terms, forall_setHub (fun _ _ => rfl) ((hi.linked p).listen hl hh) hi.linked⟩
  | endBroadcast p prod hub e hh he =>
    have hlinked := forall_setHub (procs_step he) ((hi.linked p).endBroadcast hh he) hi.linked
    rw [Function.update_eq_self] at hlinked
    exact ⟨hterms he, hlinked⟩
  | cancel p hub e hh he =>
    have hlinked : Linked (e.procs p) hub (h p) := by
      cases he
      simp only [Sys.set, Function.update_self]
      exact ((hi.linked p).listen rfl hh).separate rfl (.inl rfl)
    have hall := forall_setHub (procs_step he) hlinked hi.linked
    rw [Function.update_eq_self] at hall
    exact ⟨hterms he, hall⟩

theorem consistent_of_reach {ok : Cluster ν × (ν → History) → Label ν → Prop}
    {x : Cluster ν × (ν → History)}
    (hr : Reach (Fires (recorded (ClusterEvents.step name) (record name))) ok
      (Cluster.start ν, fun _ => {}) x) : Consistent name x.1 x.2 := by
  refine hr.invariant (I := fun x => Consistent name x.1 x.2) consistent_start ?_
  intro x l u hx _ hs
  obtain ⟨t, ht, rfl⟩ := Option.map_eq_some_iff.mp hs
  exact hx.step ht

/-- The elections a listener has received were announced by its process, in this order. -/
theorem Linked.received {proc : Process} {hub : Hub} {h : History} (hi : Linked proc hub h)
    (id : Nat) : ((h.received id).filter elected).Sublist proc.announcements := by
  obtain ⟨y, hr, ht⟩ := hi.run.simulated (ListenerHub.tracks_start id)
    fun _ _ _ _ ht _ hs => ht.step hs
  have horder : Listeners.LeaderOrder y.1 y.2 := by
    refine hr.invariant (I := fun y => Listeners.LeaderOrder y.1 y.2) ?_ ?_
    · exact ⟨List.Sublist.refl _, fun p ev he => by simp [Listeners.Sys.start] at he⟩
    · intro u l v hu _ hs
      obtain ⟨t, ht, rfl⟩ := Option.map_eq_some_iff.mp hs
      exact hu.step (Listeners.moves_of_step ht)
  have hsub : (y.2.received.filter elected).Sublist (y.2.leaderBroadcasts.filter elected) :=
    ((List.sublist_append_left _ _).filter _).trans horder.line
  rw [ht.deliveries.received, ht.deliveries.leaderBroadcasts, hi.announced] at hsub
  refine hsub.trans ?_
  -- what is being broadcast is what the process is announcing
  have hcast : (casting hub .observeLeader).toList.Sublist
      (proc.announcing.toList.filter elected) := by
    cases hc : casting hub .observeLeader with
    | none => exact List.nil_sublist _
    | some ev =>
      have ha := hi.casts ev hc
      simp [ha, hi.ready ev ha]
  simp only [Process.announcements, List.filter_append, List.append_assoc]
  exact (hcast.trans (List.sublist_append_left _ _)).append_left _

/-- Two listeners, of one process or of two, that are told of an election with one epoch are
told the same leader; and no listener is told of an election with a smaller epoch than one
it has been told of. -/
theorem leader_events_agree {ok : Cluster ν × (ν → History) → Label ν → Prop}
    {s : Cluster ν} {h : ν → History}
    (hr : Reach (Fires (recorded (step name) (record name))) ok
      (Cluster.start ν, fun _ => {}) (s, h)) :
    (∀ p id, (((h p).received id).filter elected).Pairwise fun e e' => e.epoch ≤ e'.epoch) ∧
      ∀ p id q j, ∀ e ∈ (h p).received id, ∀ e' ∈ (h q).received j,
        elected e = true → elected e' = true → e.epoch = e'.epoch →
          e.memberName = e'.memberName := by
  have hc := consistent_of_reach hr
  constructor
  · intro p id
    obtain ⟨owner, wins, hterms⟩ := hc.terms p
    exact (hterms.announced p).ordered.sublist ((hc.linked p).received id)
  · intro p id q j e he e' he' hel hel' heq
    obtain ⟨owner, wins, hterms⟩ := hc.terms p
    have hnamed : ∀ p id, ∀ e ∈ (h p).received id, elected e = true →
        e.memberName = name (owner e.epoch) := by
      intro p id e he hel
      exact (hterms.announced p).named e
        (((hc.linked p).received id).subset (List.mem_filter.mpr ⟨he, hel⟩))
    rw [hnamed p id e he hel, hnamed q j e' he' hel', heq]

end Steps

def tell (p : Bool) : List (Label Bool) :=
  [.hub p .allocate, .hub p (.register 1), .hub p (.startGoroutine 1), .election p .emit,
    .election p .observe, .beginBroadcast p .observeLeader [1],
    .hub p (.enqueueLeader .observeLeader false), .hub p (.enqueueLeader .observeLeader false),
    .endBroadcast p .observeLeader, .hub p (.takeLeader 1)]

theorem leader_events_agree_both : ∃ (s : Cluster Bool) (h : Bool → History),
    Reach (Fires (recorded (step fun p => if p then "cp-2" else "cp-1")
      (record fun p => if p then "cp-2" else "cp-1"))) anyStep
      (Cluster.start Bool, fun _ => {}) (s, h) ∧
    ∃ e ∈ (h false).received 1, ∃ e' ∈ (h true).received 1,
      e.epoch = 2 ∧ e'.epoch = 2 ∧ e.memberName = e'.memberName := by
  obtain ⟨s, h, hs, hf, ht⟩ : ∃ s h, replay (recorded
      (step fun p : Bool => if p then "cp-2" else "cp-1")
      (record fun p : Bool => if p then "cp-2" else "cp-1"))
      ([.election false .start, .election false .propose, .election false .elect,
        .election true .start] ++ tell false ++ tell true)
      (Cluster.start Bool, fun _ => {}) = some (s, h) ∧
      (h false).received 1 = [⟨.leaderElected, "cp-1", 2⟩] ∧
      (h true).received 1 = [⟨.leaderElected, "cp-1", 2⟩] := ⟨_, _, rfl, rfl, rfl⟩
  have hr := reach_of_replay hs
  refine ⟨s, h, hr, ⟨.leaderElected, "cp-1", 2⟩, by simp [hf], ⟨.leaderElected, "cp-1", 2⟩,
    by simp [ht], rfl, rfl, ?_⟩
  exact (leader_events_agree hr).2 false 1 true 1 _ (by simp [hf]) _ (by simp [ht]) rfl rfl rfl

end Leibrix.ClusterEvents

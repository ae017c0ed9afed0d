import Leibrix.Delivery
import Leibrix.HubMap

/-! Each listener of an election, looked at alone, runs as `Listeners` says: a broadcast on
its way to other sinks is idle for this one, and the sinks still to be served have the event
noted. What is proved of one listener there holds of every listener here. -/
namespace Leibrix.ListenerHub
open Leibrix.Transition Leibrix.Election
open Leibrix.Listeners (Producer producer MembershipEvent listenerQueueSize Registration Sent
  LeaderCall MemberCall Consumer Deliveries recordDeliveries)

structure History where
  leaderBroadcasts : List LeaderEvent := []
  received : Nat → List LeaderEvent := fun _ => []
  memberBroadcasts : List MembershipEvent := []
  receivedMembers : Nat → List MembershipEvent := fun _ => []

def record (s : Hub) (l : Label) (h : History) : History :=
  match l with
  | .broadcastLeader ev _ => { h with leaderBroadcasts := h.leaderBroadcasts ++ [ev] }
  | .takeLeader id => { h with
      received := Function.update h.received id (h.received id ++ (s.sinks id).leaderCh.toList) }
  | .broadcastMember ev _ => { h with memberBroadcasts := h.memberBroadcasts ++ [ev] }
  | .takeMember id => { h with
      receivedMembers := Function.update h.receivedMembers id
        (h.receivedMembers id ++ (s.sinks id).memberCh.head?.toList) }
  | _ => h

def Cast.atListener {ε : Type} (c : Cast ε) (id : Nat) : Option (ε × Stage) :=
  if c.todo.head? = some id then some (c.event, c.stage)
  else if id ∈ c.todo then some (c.event, .check)
  else none

def callStage : LeaderCall → Option (LeaderEvent × Stage)
  | .idle => none
  | .noted ev => some (ev, .check)
  | .checking ev => some (ev.event, .check)
  | .sending ev => some (ev.event, .send)
  | .draining ev => some (ev.event, .drain)
  | .resending ev => some (ev.event, .resend)

def memberStage : MemberCall → Option (MembershipEvent × Stage)
  | .idle => none
  | .noted ev => some (ev, .check)
  | .sending ev => some (ev, .send)

def consumerPoint : Consumer → Goroutine
  | .unstarted => .unwatched
  | .polling => .polling
  | .waiting => .waiting
  | .onLeaderChange ev => .onLeaderChange ev.event
  | .onMembershipChange ev => .onMembershipChange ev
  | .returned => .returned

def Goroutine.point : Goroutine → Goroutine
  -- a goroutine that is to be started finds what it would have found before
  | .unstarted => .polling
  | g => g

def Hub.registration (s : Hub) (id : Nat) : Registration :=
  if (s.sinks id).goroutine = .unwatched then .unwatched
  else if id ∈ s.listeners then .registered
  else if (s.sinks id).done then .closed
  else .removed

structure Shows (s : Hub) (id : Nat) (sys : Listeners.Sys) : Prop where
  -- `sys` is what the election looks like from listener `id`
  registration : sys.registration = s.registration id
  leaderCh : sys.leaderCh.map Sent.event = (s.sinks id).leaderCh
  memberCh : sys.memberCh = (s.sinks id).memberCh
  leader : ∀ p, callStage (sys.leader p) = (s.leader p).bind (·.atListener id)
  calls : ∀ p ev, sys.leader p ≠ .checking ev
  member : memberStage sys.member = s.member.bind (·.atListener id)
  consumer : consumerPoint sys.consumer = (s.sinks id).goroutine.point

structure Matches (h : History) (id : Nat) (d : Deliveries) : Prop where
  leaderBroadcasts : d.leaderBroadcasts = h.leaderBroadcasts
  received : d.received = h.received id
  memberBroadcasts : d.memberBroadcasts = h.memberBroadcasts
  receivedMembers : d.receivedMembers = h.receivedMembers id

section Follow
variable {s t : Hub} {id : Nat} {sys u : Listeners.Sys} {h h' : History} {d : Deliveries}

structure Unseen (s t : Hub) (id : Nat) : Prop where
  registration : t.registration id = s.registration id
  leaderCh : (t.sinks id).leaderCh = (s.sinks id).leaderCh
  memberCh : (t.sinks id).memberCh = (s.sinks id).memberCh
  leader : ∀ p, (t.leader p).bind (·.atListener id) = (s.leader p).bind (·.atListener id)
  member : t.member.bind (·.atListener id) = s.member.bind (·.atListener id)
  consumer : (t.sinks id).goroutine.point = (s.sinks id).goroutine.point

theorem Shows.unseen (hv : Shows s id sys) (hu : Unseen s t id) : Shows t id sys where
  registration := hv.registration.trans hu.registration.symm
  leaderCh := hv.leaderCh.trans hu.leaderCh.symm
  memberCh := hv.memberCh.trans hu.memberCh.symm
  leader p := (hv.leader p).trans (hu.leader p).symm
  calls := hv.calls
  member := hv.member.trans hu.member.symm
  consumer := hv.consumer.trans hu.consumer.symm

theorem Sound.isClosed (hs : Sound s) (hv : Shows s id sys) :
    sys.isClosed = (s.sinks id).done := by
  simp only [Listeners.Sys.isClosed, hv.registration, Hub.registration]
  cases hd : (s.sinks id).done with
  | true =>
    obtain ⟨hw, hl⟩ := hs.closed id hd
    simp [hw, hl]
  | false =>
    split
    · rfl
    · split <;> simp

def Follows (sys : Listeners.Sys) (d : Deliveries) (t : Hub) (id : Nat) (h : History) : Prop :=
  -- the listener alone comes, by steps of its own, to what it looks like in `t`
  ∃ y, Reach (Fires (recorded Listeners.step recordDeliveries)) anyStep (sys, d) y ∧
    Shows t id y.1 ∧ Matches h id y.2

theorem follows_stay (hv : Shows t id sys) (hd : Matches h id d) : Follows sys d t id h :=
  ⟨_, .refl, hv, hd⟩

theorem fires_recorded {l : Listeners.Label} (hs : Listeners.step sys l = some u) :
    Fires (recorded Listeners.step recordDeliveries) (sys, d) l
      (u, recordDeliveries sys l d) := by
  simp [Fires, recorded, hs]

theorem follows_step {l : Listeners.Label} (hs : Listeners.step sys l = some u)
    (hf : Follows u (recordDeliveries sys l d) t id h) : Follows sys d t id h := by
  obtain ⟨y, hr, hv, hd⟩ := hf
  exact ⟨y, (Reach.refl.tail trivial (fires_recorded hs)).trans hr, hv, hd⟩

/-- A step that the listener and its sink have no part in. -/
theorem unseen_of_sink (hk : t.sinks id = s.sinks id) (hl : id ∈ t.listeners ↔ id ∈ s.listeners)
    (hp : ∀ p, (t.leader p).bind (·.atListener id) = (s.leader p).bind (·.atListener id))
    (hm : t.member.bind (·.atListener id) = s.member.bind (·.atListener id)) :
    Unseen s t id := by
  refine ⟨?_, ?_, ?_, hp, hm, ?_⟩
  · simp only [Hub.registration, hk, hl]
  · rw [hk]
  · rw [hk]
  · rw [hk]

theorem unseen_setSink {j : Nat} {k : Sink} (hj : id ≠ j) : Unseen s (s.setSink j k) id :=
  unseen_of_sink (Function.update_of_ne hj _ _) Iff.rfl (fun _ => rfl) rfl

section Cast
variable {ε : Type} {c : Cast ε} {rest : List Nat}

theorem Cast.atListener_next {j : Nat} (ht : c.todo = j :: rest) (hj : id ≠ j)
    (next : Option Stage) : (c.next next).atListener id = c.atListener id := by
  cases next with
  | some st => simp [atListener, Cast.next, ht, hj.symm]
  | none =>
    simp only [atListener, Cast.next, ht, List.tail_cons, List.head?_cons, List.mem_cons,
      hj, false_or, Option.some.injEq, hj.symm, if_false]
    split
    · rename_i hh
      simp [List.mem_of_head? hh]
    · rfl

theorem Cast.atListener_head (ht : c.todo = id :: rest) :
    c.atListener id = some (c.event, c.stage) := by
  simp [atListener, ht]

theorem Cast.atListener_some (ht : c.todo = id :: rest) (st : Stage) :
    (c.next (some st)).atListener id = some (c.event, st) := by
  simp [atListener, Cast.next, ht]

theorem Cast.atListener_none (ht : c.todo = id :: rest) (hn : c.todo.Nodup) :
    (c.next none).atListener id = none := by
  rw [ht] at hn
  have hid : id ∉ rest := (List.nodup_cons.mp hn).1
  have hhead : rest.head? ≠ some id := fun hh => hid (List.mem_of_head? hh)
  simp [atListener, Cast.next, ht, hid, hhead]

theorem Cast.atListener_nil (ht : c.todo = []) : c.atListener id = none := by
  simp [atListener, ht]

end Cast

variable {p : Producer} {call : LeaderCall} {c : Cast LeaderEvent} {rest : List Nat}

theorem Shows.setLeader {c' : Option (Cast LeaderEvent)} (hv : Shows s id sys)
    (hcall : callStage call = c'.bind (·.atListener id)) (hn : ∀ ev, call ≠ .checking ev) :
    Shows (s.setLeader p c') id (sys.setLeader p call) := by
  refine ⟨hv.registration, hv.leaderCh, hv.memberCh, fun q => ?_, fun q ev => ?_, hv.member,
    hv.consumer⟩
  · by_cases hq : q = p
    · subst hq
      simpa [Hub.setLeader, Listeners.Sys.setLeader] using hcall
    · simpa [Hub.setLeader, Listeners.Sys.setLeader, Function.update_of_ne hq] using hv.leader q
  · by_cases hq : q = p
    · subst hq
      simpa [Listeners.Sys.setLeader] using hn ev
    · simpa [Listeners.Sys.setLeader, Function.update_of_ne hq] using hv.calls q ev

theorem Shows.setLeaderCh {ch : Option Sent} {ch' : Option LeaderEvent} (hv : Shows s id sys)
    (n : Nat) (hch : ch.map Sent.event = ch') :
    Shows (s.setSink id { s.sinks id with leaderCh := ch' }) id
      { sys with leaderCh := ch, calls := n } := by
  refine ⟨?_, ?_, ?_, hv.leader, hv.calls, hv.member, ?_⟩
  · simpa [Hub.registration, Hub.setSink] using hv.registration
  · simpa using hch
  · simpa using hv.memberCh
  · simpa using hv.consumer

theorem callStage_cases {ev : LeaderEvent} {st : Stage} (hn : ∀ ev, call ≠ .checking ev)
    (hcall : callStage call = some (ev, st)) :
    (st = .check ∧ call = .noted ev) ∨
      ∃ sent : Sent, sent.event = ev ∧ ((st = .send ∧ call = .sending sent) ∨
        (st = .drain ∧ call = .draining sent) ∨ (st = .resend ∧ call = .resending sent)) := by
  cases call with
  | idle => cases hcall
  | noted ev' =>
    cases hcall
    exact .inl ⟨rfl, rfl⟩
  | checking sent => exact absurd rfl (hn sent)
  | sending sent =>
    cases hcall
    exact .inr ⟨sent, rfl, .inl ⟨rfl, rfl⟩⟩
  | draining sent =>
    cases hcall
    exact .inr ⟨sent, rfl, .inr (.inl ⟨rfl, rfl⟩)⟩
  | resending sent =>
    cases hcall
    exact .inr ⟨sent, rfl, .inr (.inr ⟨rfl, rfl⟩)⟩

theorem follows_check {ev : LeaderEvent} (hev : sys.leader p = .noted ev)
    (hf : Follows ({ sys with calls := sys.calls + 1 }.setLeader p
      (if sys.isClosed then .idle else .sending ⟨sys.calls, ev⟩)) d t id h) :
    Follows sys d t id h := by
  have hbegin : Listeners.step sys (.callLeader p) =
      some ({ sys with calls := sys.calls + 1 }.setLeader p (.checking ⟨sys.calls, ev⟩)) := by
    simp only [Listeners.step, hev]
  refine follows_step hbegin (follows_step (l := .check p) ?_ hf)
  simp only [Listeners.step, Listeners.Sys.setLeader, Function.update_self, Function.update_idem]
  rfl

/-- One `select` of `enqueueLeader` at the listener's own sink. -/
theorem follow_enqueueLeader {b : Bool} {k : Sink} {next : Option Stage} (hs : Sound s)
    (hv : Shows s id sys) (hd : Matches h id d) (hc : s.leader p = some c)
    (ht : c.todo = id :: rest)
    (hk : (s.sinks id).enqueueLeader c.event b c.stage = some (k, next)) :
    Follows sys d ((s.setSink id k).setLeader p (some (c.next next))) id h := by
  have hcall : callStage (sys.leader p) = some (c.event, c.stage) := by
    rw [hv.leader p, hc]
    exact c.atListener_head ht
  have hclosed := hs.isClosed hv
  have hleft := c.atListener_none ht (hs.leader p c hc)
  have hch := hv.leaderCh
  obtain ⟨hst, hev⟩ | ⟨sent, hsent, hev⟩ := callStage_cases (hv.calls p) hcall
  · rw [hst] at hk
    refine follows_check hev (follows_stay ?_ hd)
    cases hdone : (s.sinks id).done with
    | true =>
      obtain ⟨rfl, rfl⟩ : s.sinks id = k ∧ none = next := by
        simpa [Sink.enqueueLeader, hdone] using hk
      simp only [hclosed, hdone, if_true]
      exact Shows.setLeader (hv.setLeaderCh _ hch) hleft.symm (by simp)
    | false =>
      obtain ⟨rfl, rfl⟩ : s.sinks id = k ∧ some .send = next := by
        simpa [Sink.enqueueLeader, hdone] using hk
      simp only [hclosed, hdone, Bool.false_eq_true, if_false]
      exact Shows.setLeader (hv.setLeaderCh _ hch) (c.atListener_some ht _).symm (by simp)
  · have hstay : ∀ st, (c.next (some st)).atListener id = some (sent.event, st) := by
      intro st
      rw [c.atListener_some ht, hsent]
    obtain ⟨hst, hev⟩ | ⟨hst, hev⟩ | ⟨hst, hev⟩ := hev <;> rw [hst] at hk
    · cases hl : sys.leaderCh with
      | none =>
        rw [hl] at hch
        obtain ⟨rfl, rfl⟩ : { s.sinks id with leaderCh := some c.event } = k ∧ none = next := by
          simpa [Sink.enqueueLeader, ← hch] using hk
        refine follows_step (l := .send p)
          (u := { sys with leaderCh := some sent }.setLeader p .idle)
          (by simp only [Listeners.step, hev, hl]) (follows_stay ?_ hd)
        exact Shows.setLeader (hv.setLeaderCh _ (congrArg some hsent)) hleft.symm (by simp)
      | some other =>
        rw [hl] at hch
        obtain ⟨rfl, rfl⟩ : s.sinks id = k ∧ some .drain = next := by
          simpa [Sink.enqueueLeader, ← hch] using hk
        refine follows_step (l := .send p) (u := sys.setLeader p (.draining sent))
          (by simp only [Listeners.step, hev, hl]) (follows_stay ?_ hd)
        exact Shows.setLeader (hv.setLeaderCh _ hv.leaderCh) (hstay _).symm (by simp)
    · obtain ⟨rfl, rfl⟩ : { s.sinks id with leaderCh := none } = k ∧ some .resend = next := by
        simpa [Sink.enqueueLeader] using hk
      refine follows_step (l := .drain p)
        (u := { sys with leaderCh := none }.setLeader p (.resending sent))
        (by simp only [Listeners.step, hev]) (follows_stay ?_ hd)
      exact Shows.setLeader (hv.setLeaderCh _ rfl) (hstay _).symm (by simp)
    · cases hl : sys.leaderCh with
      | none =>
        rw [hl] at hch
        cases b with
        | false =>
          obtain ⟨rfl, rfl⟩ : { s.sinks id with leaderCh := some c.event } = k ∧ none = next := by
            simpa [Sink.enqueueLeader, ← hch] using hk
          refine follows_step (l := .resend p false)
            (u := { sys with leaderCh := some sent }.setLeader p .idle)
            (by simp [Listeners.step, hev, hl]) (follows_stay ?_ hd)
          exact Shows.setLeader (hv.setLeaderCh _ (congrArg some hsent)) hleft.symm (by simp)
        | true =>
          obtain ⟨hdone, rfl, rfl⟩ : (s.sinks id).done = true ∧ s.sinks id = k ∧ none = next := by
            simpa [Sink.enqueueLeader, ← hch] using hk
          refine follows_step (l := .resend p true) (u := sys.setLeader p .idle)
            (by simp [Listeners.step, hev, hl, hclosed, hdone]) (follows_stay ?_ hd)
          exact Shows.setLeader (hv.setLeaderCh _ hv.leaderCh) hleft.symm (by simp)
      | some other =>
        rw [hl] at hch
        obtain ⟨rfl, rfl⟩ : s.sinks id = k ∧ none = next := by
          simpa [Sink.enqueueLeader, ← hch] using hk
        refine follows_step (l := .resend p b) (u := sys.setLeader p .idle)
          (by simp only [Listeners.step, hev, hl]) (follows_stay ?_ hd)
        exact Shows.setLeader (hv.setLeaderCh _ hv.leaderCh) hleft.symm (by simp)

theorem Shows.setMember {c' : Cast MembershipEvent} {call : MemberCall} (hv : Shows s id sys)
    (ch : List MembershipEvent) (hcall : memberStage call = c'.atListener id) :
    Shows { s.setSink id { s.sinks id with memberCh := ch } with member := some c' } id
      { sys with memberCh := ch, member := call } := by
  refine ⟨?_, ?_, ?_, hv.leader, hv.calls, hcall, ?_⟩
  · simpa [Hub.registration, Hub.setSink] using hv.registration
  · simpa [Hub.setSink] using hv.leaderCh
  · simp [Hub.setSink]
  · simpa [Hub.setSink] using hv.consumer

theorem Matches.sendMember (hd : Matches h id d) (b : Bool) :
    Matches h id (recordDeliveries sys (.sendMember b) d) := by
  simp only [recordDeliveries]
  split
  · split
    · exact ⟨hd.leaderBroadcasts, hd.received, hd.memberBroadcasts, hd.receivedMembers⟩
    · exact hd
  · exact hd

/-- One `select` of `enqueueMembership` at the listener's own sink. -/
theorem follow_enqueueMembership {c : Cast MembershipEvent} {b : Bool} {k : Sink}
    {next : Option Stage} (hs : Sound s) (hv : Shows s id sys) (hd : Matches h id d)
    (hc : s.member = some c) (ht : c.todo = id :: rest)
    (hk : (s.sinks id).enqueueMembership c.event b c.stage = some (k, next)) :
    Follows sys d { s.setSink id k with member := some (c.next next) } id h := by
  have hcall : memberStage sys.member = some (c.event, c.stage) := by
    rw [hv.member, hc]
    exact c.atListener_head ht
  have hclosed := hs.isClosed hv
  have hleft := c.atListener_none ht (hs.member c hc)
  have hch := hv.memberCh
  cases hev : sys.member with
  | idle =>
    rw [hev] at hcall
    cases hcall
  | noted ev =>
    rw [hev] at hcall
    obtain ⟨rfl, hst⟩ : ev = c.event ∧ .check = c.stage := by simpa [memberStage] using hcall
    rw [← hst] at hk
    cases hdone : (s.sinks id).done with
    | true =>
      obtain ⟨rfl, rfl⟩ : s.sinks id = k ∧ none = next := by
        simpa [Sink.enqueueMembership, hdone] using hk
      refine follows_step (l := .checkMember) (u := { sys with member := .idle })
        (by simp [Listeners.step, hev, hclosed, hdone]) (follows_stay ?_ hd)
      exact hch ▸ hv.setMember _ hleft.symm
    | false =>
      obtain ⟨rfl, rfl⟩ : s.sinks id = k ∧ some .send = next := by
        simpa [Sink.enqueueMembership, hdone] using hk
      refine follows_step (l := .checkMember) (u := { sys with member := .sending c.event })
        (by simp [Listeners.step, hev, hclosed, hdone]) (follows_stay ?_ hd)
      exact hch ▸ hv.setMember _ (c.atListener_some ht _).symm
  | sending ev =>
    rw [hev] at hcall
    obtain ⟨rfl, hst⟩ : ev = c.event ∧ .send = c.stage := by simpa [memberStage] using hcall
    rw [← hst] at hk
    by_cases hlen : (s.sinks id).memberCh.length < listenerQueueSize
    · cases b with
      | false =>
        obtain ⟨rfl, rfl⟩ : { s.sinks id with
            memberCh := (s.sinks id).memberCh ++ [c.event] } = k ∧ none = next := by
          simpa [Sink.enqueueMembership, hlen] using hk
        refine follows_step (l := .sendMember false)
          (u := { sys with memberCh := sys.memberCh ++ [c.event], member := .idle })
          (by simp [Listeners.step, hev, hch, hlen]) (follows_stay ?_ (hd.sendMember false))
        exact hch ▸ hv.setMember _ hleft.symm
      | true =>
        obtain ⟨hdone, rfl, rfl⟩ : (s.sinks id).done = true ∧ s.sinks id = k ∧ none = next := by
          simpa [Sink.enqueueMembership, hlen] using hk
        refine follows_step (l := .sendMember true) (u := { sys with member := .idle })
          (by simp [Listeners.step, hev, hch, hlen, hclosed, hdone])
          (follows_stay ?_ (hd.sendMember true))
        exact hch ▸ hv.setMember _ hleft.symm
    · obtain ⟨rfl, rfl⟩ : s.sinks id = k ∧ none = next := by
        simpa [Sink.enqueueMembership, hlen] using hk
      refine follows_step (l := .sendMember b) (u := { sys with member := .idle })
        (by simp [Listeners.step, hev, hch, hlen]) (follows_stay ?_ (hd.sendMember b))
      exact hch ▸ hv.setMember _ hleft.symm

theorem Shows.consume {k : Sink} {ch : Option Sent} {queue : List MembershipEvent}
    {consumer : Consumer} (hv : Shows s id sys) (hw : (s.sinks id).goroutine ≠ .unwatched)
    (hk : k.goroutine ≠ .unwatched) (hdone : k.done = (s.sinks id).done)
    (hch : ch.map Sent.event = k.leaderCh) (hq : queue = k.memberCh)
    (hcon : consumerPoint consumer = k.goroutine.point) :
    Shows (s.setSink id k) id { sys with
      leaderCh := ch, memberCh := queue, consumer := consumer } := by
  refine ⟨?_, ?_, ?_, hv.leader, hv.calls, hv.member, ?_⟩
  · simpa [Hub.registration, Hub.setSink, hk, hw, hdone] using hv.registration
  · simpa using hch
  · simpa using hq
  · simpa using hcon

theorem Shows.selects (hv : Shows s id sys) (hg : (s.sinks id).goroutine.selects = true) :
    sys.consumer.selects = true := by
  have hcon := hv.consumer
  cases hgor : (s.sinks id).goroutine <;> rw [hgor] at hg hcon <;> cases hg <;>
    cases hc : sys.consumer <;> rw [hc] at hcon <;> cases hcon <;> rfl

theorem follow_takeLeader {ev : LeaderEvent} (hv : Shows s id sys) (hd : Matches h id d)
    (hg : (s.sinks id).goroutine.selects = true) (hl : (s.sinks id).leaderCh = some ev) :
    Follows sys d
      (s.setSink id { s.sinks id with leaderCh := none, goroutine := .onLeaderChange ev }) id
      (record s (.takeLeader id) h) := by
  obtain ⟨sent, hsent, rfl⟩ := Option.map_eq_some_iff.mp (hv.leaderCh.trans hl)
  refine follows_step (l := .takeLeader)
    (u := { sys with leaderCh := none, consumer := .onLeaderChange sent })
    (by simp [Listeners.step, hsent, hv.selects hg]) (follows_stay ?_ ?_)
  · exact hv.consume (Goroutine.ne_of_selects hg) (by simp) rfl rfl hv.memberCh rfl
  · refine ⟨hd.leaderBroadcasts, ?_, hd.memberBroadcasts, hd.receivedMembers⟩
    simp [record, recordDeliveries, hsent, hl, hd.received]

theorem follow_takeMember {ev : MembershipEvent} {queue : List MembershipEvent}
    (hv : Shows s id sys) (hd : Matches h id d) (hg : (s.sinks id).goroutine = .waiting)
    (hl : (s.sinks id).memberCh = ev :: queue) :
    Follows sys d
      (s.setSink id { s.sinks id with memberCh := queue, goroutine := .onMembershipChange ev }) id
      (record s (.takeMember id) h) := by
  have hcon : sys.consumer = .waiting := by
    have hcon := hv.consumer
    rw [hg] at hcon
    cases hc : sys.consumer <;> rw [hc] at hcon <;> cases hcon
  have hq : sys.memberCh = ev :: queue := hv.memberCh.trans hl
  refine follows_step (l := .takeMember)
    (u := { sys with memberCh := queue, consumer := .onMembershipChange ev })
    (by simp [Listeners.step, hq, hcon]) (follows_stay ?_ ?_)
  · exact hv.consume (by simp [hg]) (by simp) rfl hv.leaderCh rfl rfl
  · refine ⟨hd.leaderBroadcasts, hd.received, hd.memberBroadcasts, ?_⟩
    simp [record, recordDeliveries, hq, hl, hd.receivedMembers]

theorem follow_goroutine {l : Listeners.Label} {g : Goroutine} {r : Consumer}
    (hv : Shows s id sys) (hd : Matches h id d)
    (hl : Listeners.step sys l = some { sys with consumer := r })
    (hrec : recordDeliveries sys l d = d) (hw : (s.sinks id).goroutine ≠ .unwatched)
    (hg : g ≠ .unwatched) (hcon : consumerPoint r = g.point) :
    Follows sys d (s.setGoroutine id g) id h := by
  refine follows_step hl (follows_stay ?_ (hrec.symm ▸ hd))
  exact hv.consume hw hg rfl hv.leaderCh hv.memberCh hcon

theorem Shows.unwatch {listeners removing : List Nat} {closing : Closing} (hs : Sound s)
    (hv : Shows s id sys) (hd : Matches h id d) (hm : id ∈ s.listeners) (hl : id ∉ listeners) :
    Follows sys d { s with listeners := listeners, removing := removing, closing := closing } id
      h := by
  have hw := hs.registered id hm
  have hreg : sys.registration = .registered := by
    simp [hv.registration, Hub.registration, hw, hm]
  have hopen : (s.sinks id).done = false := by
    by_contra hdone
    exact (hs.closed id (by simpa using hdone)).2 hm
  refine follows_step (l := .unwatch) (u := { sys with registration := .removed })
    (by simp [Listeners.step, hreg]) (follows_stay ?_ hd)
  exact ⟨by simp [Hub.registration, hw, hl, hopen], hv.leaderCh, hv.memberCh, hv.leader, hv.calls,
    hv.member, hv.consumer⟩

theorem Shows.close {removing : List Nat} {closing : Closing}
    (hv : Shows s id sys) (hd : Matches h id d)
    (hout : (s.sinks id).goroutine ≠ .unwatched ∧ id ∉ s.listeners) :
    Follows sys d ({ s with removing := removing, closing := closing }.closeSink id) id h := by
  obtain ⟨hw, hl⟩ := hout
  cases hdone : (s.sinks id).done with
  | true =>
    refine follows_stay (hv.unseen ⟨?_, ?_, ?_, fun _ => rfl, rfl, ?_⟩) hd
    · simp [Hub.registration, Hub.closeSink, Hub.setSink, hw, hl, hdone]
    all_goals simp [Hub.closeSink]
  | false =>
    have hreg : sys.registration = .removed := by
      simp [hv.registration, Hub.registration, hw, hl, hdone]
    refine follows_step (l := .close) (u := { sys with registration := .closed })
      (by simp [Listeners.step, hreg]) (follows_stay ?_ hd)
    refine ⟨?_, ?_, ?_, hv.leader, hv.calls, hv.member, ?_⟩
    · simp [Hub.registration, Hub.closeSink, Hub.setSink, hw, hl]
    · simpa [Hub.closeSink] using hv.leaderCh
    · simpa [Hub.closeSink] using hv.memberCh
    · simpa [Hub.closeSink] using hv.consumer

theorem unseen_closeSink {removing : List Nat} {closing : Closing} {j : Nat} (hj : id ≠ j) :
    Unseen s ({ s with removing := removing, closing := closing }.closeSink j) id :=
  unseen_of_sink (Function.update_of_ne hj _ _) Iff.rfl (fun _ => rfl) rfl

theorem Shows.registered_iff (hs : Sound s) (hv : Shows s id sys) :
    sys.registration = .registered ↔ id ∈ s.listeners := by
  rw [hv.registration, Hub.registration]
  by_cases hm : id ∈ s.listeners
  · simp [hs.registered id hm, hm]
  · simp only [hm, if_false, iff_false]
    split
    · simp
    · split <;> simp

theorem Cast.atListener_order {ε : Type} {ev : ε} {order listeners : List Nat}
    (ho : order.Perm listeners) : (⟨ev, order, .check⟩ : Cast ε).atListener id =
      if id ∈ listeners then some (ev, .check) else none := by
  simp only [Cast.atListener, ho.mem_iff]
  split
  · rename_i hh
    simp [ho.mem_iff.mp (List.mem_of_head? hh)]
  · rfl

/-- The map is copied with the listener in it, or not. -/
theorem follow_broadcastLeader {ev : LeaderEvent} {order : List Nat} (hs : Sound s)
    (hv : Shows s id sys) (hd : Matches h id d) (hp : s.leader (producer ev) = none)
    (ho : order.Perm s.listeners) :
    Follows sys d (s.setLeader (producer ev) (some ⟨ev, order, .check⟩)) id
      (record s (.broadcastLeader ev order) h) := by
  have hidle : sys.leader (producer ev) = .idle := by
    have hcall := hv.leader (producer ev)
    rw [hp] at hcall
    cases hc : sys.leader (producer ev) <;> rw [hc] at hcall <;> cases hcall
  have hmatch : Matches (record s (.broadcastLeader ev order) h) id
      (recordDeliveries sys (.broadcastLeader ev) d) :=
    ⟨congrArg (· ++ [ev]) hd.leaderBroadcasts, hd.received, hd.memberBroadcasts,
      hd.receivedMembers⟩
  have hreg := hv.registered_iff hs
  by_cases hm : id ∈ s.listeners
  · refine follows_step (l := .broadcastLeader ev)
      (u := sys.setLeader (producer ev) (.noted ev))
      (by simp [Listeners.step, hidle, hreg.mpr hm]) (follows_stay ?_ hmatch)
    refine hv.setLeader ?_ (by simp)
    simp only [Option.bind_some, Cast.atListener_order ho, hm, if_true]
    rfl
  · refine follows_step (l := .broadcastLeader ev) (u := sys)
      (by simp [Listeners.step, hidle, mt hreg.mp hm]) (follows_stay ?_ hmatch)
    have hsame : sys.setLeader (producer ev) .idle = sys := by
      simp [Listeners.Sys.setLeader, ← hidle]
    rw [← hsame]
    refine hv.setLeader ?_ (by simp)
    simp only [Option.bind_some, Cast.atListener_order ho, hm, if_false]
    rfl

theorem follow_broadcastMember {ev : MembershipEvent} {order : List Nat} (hs : Sound s)
    (hv : Shows s id sys) (hd : Matches h id d) (hp : s.member = none)
    (ho : order.Perm s.listeners) :
    Follows sys d { s with member := some ⟨ev, order, .check⟩ } id
      (record s (.broadcastMember ev order) h) := by
  have hidle : sys.member = .idle := by
    have hcall := hv.member
    rw [hp] at hcall
    cases hc : sys.member <;> rw [hc] at hcall <;> cases hcall
  have hmatch : Matches (record s (.broadcastMember ev order) h) id
      (recordDeliveries sys (.broadcastMember ev) d) :=
    ⟨hd.leaderBroadcasts, hd.received, congrArg (· ++ [ev]) hd.memberBroadcasts,
      hd.receivedMembers⟩
  have hreg := hv.registered_iff hs
  by_cases hm : id ∈ s.listeners
  · refine follows_step (l := .broadcastMember ev) (u := { sys with member := .noted ev })
      (by simp [Listeners.step, hidle, hreg.mpr hm]) (follows_stay ?_ hmatch)
    refine ⟨hv.registration, hv.leaderCh, hv.memberCh, hv.leader, hv.calls, ?_, hv.consumer⟩
    simp only [Option.bind_some, Cast.atListener_order ho, hm, if_true]
    rfl
  · refine follows_step (l := .broadcastMember ev) (u := sys)
      (by simp [Listeners.step, hidle, mt hreg.mp hm]) (follows_stay ?_ hmatch)
    refine ⟨hv.registration, hv.leaderCh, hv.memberCh, hv.leader, hv.calls, ?_, hv.consumer⟩
    simp only [hidle, Option.bind_some, Cast.atListener_order ho, hm, if_false]
    rfl

/-- Each step of the election is a step of the listener, several, or none. -/
theorem follow {l : Label} (hs : Sound s) (hv : Shows s id sys) (hd : Matches h id d)
    (hst : step s l = some t) : Follows sys d t id (record s l h) := by
  cases moves_of_step hst with
  | allocate | cancel | stopProducer | stopMembers | waitServices | waitListeners =>
    exact follows_stay (hv.unseen ⟨rfl, rfl, rfl, fun _ => rfl, rfl, rfl⟩) hd
  | unregistered => exact follows_stay hv hd
  | register j hle hg =>
    by_cases hj : id = j
    · subst hj
      have hreg : sys.registration = .unwatched := by
        simp [hv.registration, Hub.registration, hg]
      refine follows_step (l := .watch)
        (u := { sys with registration := .registered, consumer := .polling })
        (by simp [Listeners.step, hreg]) (follows_stay ?_ hd)
      refine ⟨?_, ?_, ?_, hv.leader, hv.calls, hv.member, ?_⟩
      · simp [Hub.registration, Hub.setGoroutine, Hub.setSink]
      · simpa [Hub.setGoroutine] using hv.leaderCh
      · simpa [Hub.setGoroutine] using hv.memberCh
      · simp [Hub.setGoroutine, consumerPoint, Goroutine.point]
    · refine follows_stay (hv.unseen (unseen_of_sink ?_ ?_ (fun _ => rfl) rfl)) hd
      · simp [Hub.setGoroutine, Function.update_of_ne hj]
      · simp [Hub.setGoroutine, Hub.setSink, hj]
  | startGoroutine j hg =>
    refine follows_stay (hv.unseen ?_) hd
    by_cases hj : id = j
    · subst hj
      refine ⟨?_, ?_, ?_, fun _ => rfl, rfl, ?_⟩
      · simp [Hub.registration, Hub.setGoroutine, Hub.setSink, hg]
      all_goals simp [Hub.setGoroutine, Goroutine.point, hg]
    · exact unseen_setSink hj
  | removeListener j hg hm =>
    by_cases hj : id = j
    · subst hj
      exact hv.unwatch hs hd hm hs.nodup.not_mem_erase
    · exact follows_stay (hv.unseen (unseen_of_sink rfl (List.mem_erase_of_ne hj)
        (fun _ => rfl) rfl)) hd
  | closeRemoved j hm =>
    by_cases hj : id = j
    · subst hj
      exact hv.close hd (hs.removing id hm)
    · exact follows_stay (hv.unseen (unseen_closeSink hj)) hd
  | closeListener j todo hc hm =>
    by_cases hj : id = j
    · subst hj
      exact hv.close hd (hs.closing todo hc id hm)
    · exact follows_stay (hv.unseen (unseen_closeSink hj)) hd
  | removeAll hc =>
    by_cases hm : id ∈ s.listeners
    · exact hv.unwatch hs hd hm (by simp)
    · exact follows_stay (hv.unseen (unseen_of_sink rfl (by simp [hm]) (fun _ => rfl) rfl)) hd
  | broadcastLeader ev order hp _ ho => exact follow_broadcastLeader hs hv hd hp ho
  | enqueueLeader p b c j rest k next hc ht hk =>
    by_cases hj : id = j
    · subst hj
      exact follow_enqueueLeader hs hv hd hc ht hk
    · refine follows_stay (hv.unseen (unseen_of_sink (Function.update_of_ne hj _ _) Iff.rfl ?_
        rfl)) hd
      intro q
      by_cases hq : q = p
      · subst hq
        simp [Hub.setLeader, hc, c.atListener_next ht hj]
      · simp [Hub.setLeader, Hub.setSink, Function.update_of_ne hq]
  | returnLeader p c hc ht =>
    refine follows_stay (hv.unseen (unseen_of_sink rfl Iff.rfl (fun q => ?_) rfl)) hd
    by_cases hq : q = p
    · subst hq
      simp [Hub.setLeader, hc, c.atListener_nil ht]
    · simp [Hub.setLeader, Function.update_of_ne hq]
  | broadcastMember ev order hm _ ho => exact follow_broadcastMember hs hv hd hm ho
  | enqueueMembership b c j rest k next hc ht hk =>
    by_cases hj : id = j
    · subst hj
      exact follow_enqueueMembership hs hv hd hc ht hk
    · refine follows_stay (hv.unseen (unseen_of_sink (Function.update_of_ne hj _ _) Iff.rfl
        (fun _ => rfl) ?_)) hd
      simp [hc, c.atListener_next ht hj]
  | returnMember c hc ht =>
    refine follows_stay (hv.unseen (unseen_of_sink rfl Iff.rfl (fun _ => rfl) ?_)) hd
    simp [hc, c.atListener_nil ht]
  | block j hg hl hdone =>
    by_cases hj : id = j
    · subst hj
      have hcon := hv.consumer
      rw [hg] at hcon
      cases hc : sys.consumer <;> rw [hc] at hcon <;> cases hcon
      have hempty : sys.leaderCh = none := Option.map_eq_none_iff.mp (hv.leaderCh.trans hl)
      exact follow_goroutine (l := .block) (r := .waiting) hv hd
        (by simp [Listeners.step, hc, hempty, hs.isClosed hv, hdone]) rfl (by simp [hg]) (by simp)
        rfl
    · exact follows_stay (hv.unseen (unseen_setSink hj)) hd
  | takeLeader j ev hg hl =>
    by_cases hj : id = j
    · subst hj
      exact follow_takeLeader hv hd hg hl
    · refine follows_stay (hv.unseen (unseen_setSink hj)) ?_
      exact ⟨hd.leaderBroadcasts, by simpa [record, Function.update_of_ne hj] using hd.received,
        hd.memberBroadcasts, hd.receivedMembers⟩
  | takeMember j ev queue hg hl =>
    by_cases hj : id = j
    · subst hj
      exact follow_takeMember hv hd hg hl
    · refine follows_stay (hv.unseen (unseen_setSink hj)) ?_
      exact ⟨hd.leaderBroadcasts, hd.received, hd.memberBroadcasts,
        by simpa [record, Function.update_of_ne hj] using hd.receivedMembers⟩
  | seeDone j hg hdone =>
    by_cases hj : id = j
    · subst hj
      exact follow_goroutine (l := .seeDone) (r := .returned) hv hd
        (by simp [Listeners.step, hv.selects hg, hs.isClosed hv, hdone]) rfl
        (Goroutine.ne_of_selects hg) (by simp) rfl
    · exact follows_stay (hv.unseen (unseen_setSink hj)) hd
  | finishLeader j ev hg =>
    by_cases hj : id = j
    · subst hj
      have hcon := hv.consumer
      rw [hg] at hcon
      cases hc : sys.consumer <;> rw [hc] at hcon <;> cases hcon
      exact follow_goroutine (l := .finish) (r := .polling) hv hd
        (by simp [Listeners.step, hc]) rfl (by simp [hg]) (by simp) rfl
    · exact follows_stay (hv.unseen (unseen_setSink hj)) hd
  | finishMember j ev hg =>
    by_cases hj : id = j
    · subst hj
      have hcon := hv.consumer
      rw [hg] at hcon
      cases hc : sys.consumer <;> rw [hc] at hcon <;> cases hcon
      exact follow_goroutine (l := .finish) (r := .polling) hv hd
        (by simp [Listeners.step, hc]) rfl (by simp [hg]) (by simp) rfl
    · exact follows_stay (hv.unseen (unseen_setSink hj)) hd

end Follow

structure Tracks (id : Nat) (x : Hub × History) (y : Listeners.Sys × Deliveries) : Prop where
  sound : Sound x.1
  view : Shows x.1 id y.1
  deliveries : Matches x.2 id y.2

theorem tracks_start (id : Nat) : Tracks id (Hub.start, {}) (Listeners.Sys.start, {}) :=
  ⟨sound_start, ⟨rfl, rfl, rfl, fun _ => rfl, by simp [Listeners.Sys.start], rfl, rfl⟩,
    ⟨rfl, rfl, rfl, rfl⟩⟩

theorem Tracks.step {id : Nat} {x u : Hub × History} {y : Listeners.Sys × Deliveries} {l : Label}
    (h : Tracks id x y) (hs : Fires (recorded ListenerHub.step record) x l u) :
    ∃ y', Reach (Fires (recorded Listeners.step recordDeliveries)) anyStep y y' ∧
      Tracks id u y' := by
  obtain ⟨t, ht, rfl⟩ := Option.map_eq_some_iff.mp hs
  obtain ⟨y', hr, hv, hd⟩ := follow h.sound h.view h.deliveries ht
  exact ⟨y', hr, h.sound.step ht, hv, hd⟩

/-- Whatever an election with any number of listeners does, each of them sees a run of its
own, with the same broadcasts, in which its callbacks are called with the same events. -/
theorem listener_follows {ok : Hub × History → Label → Prop} {x : Hub × History} (id : Nat)
    (h : Reach (Fires (recorded step record)) ok (Hub.start, {}) x) :
    ∃ y, Reach (Fires (recorded Listeners.step recordDeliveries)) anyStep
      (Listeners.Sys.start, {}) y ∧ Shows x.1 id y.1 ∧ Matches x.2 id y.2 := by
  obtain ⟨y, hr, ht⟩ := h.simulated (tracks_start id) fun _ _ _ _ ht _ hs => ht.step hs
  exact ⟨y, hr, ht.view, ht.deliveries⟩

/-- The first of two listeners has received an election that the second is still to be told of
when the leader resigns: both have the two broadcasts. -/
theorem listener_follows_second : ∃ x : Hub × History,
    Reach (Fires (recorded step record)) anyStep (Hub.start, {}) x ∧
    x.2.received 1 = [⟨.leaderElected, "cp-1", 2⟩] ∧
    (∃ y, Reach (Fires (recorded Listeners.step recordDeliveries)) anyStep
      (Listeners.Sys.start, {}) y ∧ y.2.received = [⟨.leaderElected, "cp-1", 2⟩] ∧
      y.2.leaderBroadcasts = [⟨.leaderElected, "cp-1", 2⟩, ⟨.leaderResigned, "cp-1", 0⟩]) ∧
    ∃ y, Reach (Fires (recorded Listeners.step recordDeliveries)) anyStep
      (Listeners.Sys.start, {}) y ∧
      callStage (y.1.leader .observeLeader) = some (⟨.leaderElected, "cp-1", 2⟩, .check) ∧
      y.2.leaderBroadcasts = [⟨.leaderElected, "cp-1", 2⟩, ⟨.leaderResigned, "cp-1", 0⟩] := by
  obtain ⟨x, hx, h1, h2, hb⟩ : ∃ x, replay (recorded step record)
      [.allocate, .register 1, .startGoroutine 1, .allocate, .register 2, .startGoroutine 2,
        .broadcastLeader ⟨.leaderElected, "cp-1", 2⟩ [1, 2], .enqueueLeader .observeLeader false,
        .enqueueLeader .observeLeader false, .takeLeader 1,
        .broadcastLeader ⟨.leaderResigned, "cp-1", 0⟩ [2, 1]] (Hub.start, {}) = some x ∧
      x.2.received 1 = [⟨.leaderElected, "cp-1", 2⟩] ∧
      (x.1.leader .observeLeader).bind (·.atListener 2) =
        some (⟨.leaderElected, "cp-1", 2⟩, .check) ∧
      x.2.leaderBroadcasts = [⟨.leaderElected, "cp-1", 2⟩, ⟨.leaderResigned, "cp-1", 0⟩] :=
    ⟨_, rfl, rfl, rfl, rfl⟩
  have hr := reach_of_replay hx
  obtain ⟨y, hy, -, hd⟩ := listener_follows 1 hr
  obtain ⟨z, hz, hv, hd'⟩ := listener_follows 2 hr
  exact ⟨x, hr, h1, ⟨y, hy, hd.received.trans h1, hd.leaderBroadcasts.trans hb⟩, z, hz,
    (hv.leader _).trans h2, hd'.leaderBroadcasts.trans hb⟩

end Leibrix.ListenerHub

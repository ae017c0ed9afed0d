import Leibrix.Listeners
import Mathlib.Data.List.Perm.Basic

/-! What a listener receives. Between a broadcast and the callback events are only ever
left out: what has been received, followed by what is on its way, stays a subsequence of
what was broadcast. -/
namespace Leibrix.Listeners
open Leibrix.Transition Leibrix.Election

def elected (ev : LeaderEvent) : Bool := ev.type = .leaderElected

structure Deliveries where
  leaderBroadcasts : List LeaderEvent := []
  received : List LeaderEvent := []
  memberBroadcasts : List MembershipEvent := []
  -- those made while the listener was registered, and those that found the channel full
  offered : List MembershipEvent := []
  overflowed : List MembershipEvent := []
  receivedMembers : List MembershipEvent := []

def recordDeliveries (s : Sys) (l : Label) (d : Deliveries) : Deliveries :=
  match l with
  | .broadcastLeader ev => { d with leaderBroadcasts := d.leaderBroadcasts ++ [ev] }
  | .takeLeader => { d with received := d.received ++ s.leaderCh.toList.map Sent.event }
  | .broadcastMember ev =>
    { d with
      memberBroadcasts := d.memberBroadcasts ++ [ev]
      offered := if s.registration = .registered then d.offered ++ [ev] else d.offered }
  | .sendMember _ =>
    match s.member with
    | .sending ev =>
      if listenerQueueSize ≤ s.memberCh.length then { d with overflowed := d.overflowed ++ [ev] }
      else d
    | _ => d
  | .takeMember => { d with receivedMembers := d.receivedMembers ++ s.memberCh.head?.toList }
  | _ => d

variable {s t : Sys} {l : Label} {d : Deliveries} {p : Producer} {e : LeaderEvent}

theorem elected_iff : elected e = true ↔ producer e = .observeLeader := by
  cases h : e.type <;> simp [elected, producer, h]

def leaderLine (s : Sys) (d : Deliveries) : List LeaderEvent :=
  -- leader events received, in the channel, and in the hands of `observeLeader`
  d.received ++ (s.leaderCh.toList.map Sent.event ++ (s.leader .observeLeader).event?.toList)

structure LeaderOrder (s : Sys) (d : Deliveries) : Prop where
  line : ((leaderLine s d).filter elected).Sublist (d.leaderBroadcasts.filter elected)
  own : ∀ p ev, (s.leader p).event? = some ev → producer ev = p

theorem LeaderOrder.own_setLeader {c : LeaderCall} (h : LeaderOrder s d)
    (hc : ∀ ev, c.event? = some ev → producer ev = p) (q : Producer) :
    ∀ ev, ((s.setLeader p c).leader q).event? = some ev → producer ev = q :=
  Sys.forall_setLeader (P := fun q c => ∀ ev, c.event? = some ev → producer ev = q) hc
    (fun q _ => h.own q) q

theorem LeaderOrder.frame {d' : Deliveries} (h : LeaderOrder s d) (hc : t.leaderCh = s.leaderCh)
    (hl : t.leader = s.leader) (hr : d'.received = d.received)
    (ha : d'.leaderBroadcasts = d.leaderBroadcasts) : LeaderOrder t d' := by
  refine ⟨?_, fun p ev he => h.own p ev (by rwa [hl] at he)⟩
  rw [leaderLine, hc, hl, hr, ha]
  exact h.line

theorem LeaderOrder.pass {ev : LeaderEvent} (h : LeaderOrder s d) :
    LeaderOrder s { d with leaderBroadcasts := d.leaderBroadcasts ++ [ev] } :=
  ⟨h.line.trans ((List.sublist_append_left _ _).filter _), h.own⟩

theorem LeaderOrder.setLeader {c : LeaderCall} (h : LeaderOrder s d)
    (hc : c.event? = (s.leader p).event? ∨ c = .idle) : LeaderOrder (s.setLeader p c) d := by
  have hle : c.event?.toList.Sublist (s.leader p).event?.toList := by
    cases hc with
    | inl he => rw [he]
    | inr he =>
      rw [he]
      exact List.nil_sublist _
  refine ⟨List.Sublist.trans (List.Sublist.filter _ ?_) h.line, h.own_setLeader fun ev he => ?_⟩
  · refine List.Sublist.append_left (List.Sublist.append_left ?_ _) _
    by_cases hp : p = .observeLeader
    · subst hp
      simpa [Sys.setLeader] using hle
    · simp [Sys.setLeader, Function.update_of_ne (Ne.symm hp)]
  · cases hc with
    | inl hsame => exact h.own p ev (hsame ▸ he)
    | inr hidle => simp [hidle] at he

theorem LeaderOrder.drain (h : LeaderOrder s d) : LeaderOrder { s with leaderCh := none } d := by
  refine ⟨List.Sublist.trans (List.Sublist.filter _ ?_) h.line, h.own⟩
  exact List.Sublist.append_left (List.sublist_append_right _ _) _

theorem LeaderOrder.note {ev : LeaderEvent} (h : LeaderOrder s d)
    (hp : s.leader (producer ev) = .idle) :
    LeaderOrder (s.setLeader (producer ev) (.noted ev))
      { d with leaderBroadcasts := d.leaderBroadcasts ++ [ev] } := by
  have hown : ∀ q e, ((s.setLeader (producer ev) (.noted ev)).leader q).event? = some e →
      producer e = q := by
    refine h.own_setLeader fun e he => ?_
    obtain rfl : ev = e := by simpa using he
    rfl
  refine ⟨?_, hown⟩
  by_cases hev : elected ev = true
  · rw [elected_iff.mp hev] at hp ⊢
    have hline := h.line.append_right [ev]
    simpa [leaderLine, hp, Sys.setLeader, hev] using hline
  · have hne : producer ev ≠ .observeLeader := fun he => hev (elected_iff.mpr he)
    have hline := h.line
    simpa [leaderLine, Sys.setLeader, Function.update_of_ne hne.symm, hev] using hline

theorem LeaderOrder.put {ev : Sent} (h : LeaderOrder s d)
    (hp : (s.leader p).event? = some ev.event) (hl : s.leaderCh = none) :
    LeaderOrder ({ s with leaderCh := some ev }.setLeader p .idle) d := by
  have hprod := h.own p ev.event hp
  refine ⟨?_, h.own_setLeader fun e he => ?_⟩
  · have hline := h.line
    by_cases hobs : p = .observeLeader
    · subst hobs
      simpa [leaderLine, Sys.setLeader, hl, hp] using hline
    · have hne : elected ev.event = false := by
        have : ¬ elected ev.event = true := fun he => hobs (hprod ▸ elected_iff.mp he)
        simpa using this
      simpa [leaderLine, Sys.setLeader, Function.update_of_ne (Ne.symm hobs), hl, hne]
        using hline
  · cases he

theorem LeaderOrder.take {ev : Sent} {consumer : Consumer} (h : LeaderOrder s d)
    (hl : s.leaderCh = some ev) : LeaderOrder { s with leaderCh := none, consumer := consumer }
      { d with received := d.received ++ s.leaderCh.toList.map Sent.event } := by
  refine ⟨?_, h.own⟩
  have hline := h.line
  simpa [leaderLine, hl] using hline

theorem LeaderOrder.step (h : LeaderOrder s d) (hm : Moves s l t) :
    LeaderOrder t (recordDeliveries s l d) := by
  cases hm with
  | watch | unwatch | close | noteMember | passMember | refuseMember | checkMember | block
  | takeMember | seeDone | finishLeader | finishMember => exact h.frame rfl rfl rfl rfl
  | sendMember ev hm | abandonMember ev hm | dropMember ev takesDone hm =>
    simp only [recordDeliveries, hm]
    split <;> exact h.frame rfl rfl rfl rfl
  | note ev hp => exact h.note hp
  | pass ev => exact h.pass
  | callLeader p ev hp =>
    exact (h.frame (t := { s with calls := s.calls + 1 }) rfl rfl rfl rfl).setLeader
      (.inl (by simp [hp]))
  | refuse p ev hp | drop p ev other takesDone hp | abandon p ev hp =>
    exact h.setLeader (.inr rfl)
  | check p ev hp | full p ev hp => exact h.setLeader (.inl (by simp [hp]))
  | send p ev hp hl | resend p ev hp hl => exact h.put (by simp [hp]) hl
  | drain p ev hp => exact h.drain.setLeader (.inl (by simp [hp]))
  | takeLeader ev hc hl => exact h.take hl

def memberLine (s : Sys) (d : Deliveries) : List MembershipEvent :=
  -- membership events received, in the channel, and in the hands of `observeMembers`
  d.receivedMembers ++ (s.memberCh ++ s.member.event?.toList)

structure MemberOrder (s : Sys) (d : Deliveries) : Prop where
  line : (memberLine s d).Sublist d.memberBroadcasts
  room : s.memberCh.length ≤ listenerQueueSize
  offered : s.isClosed = false → (memberLine s d ++ d.overflowed).Perm d.offered

theorem MemberOrder.frame {d' : Deliveries} (h : MemberOrder s d) (hc : t.memberCh = s.memberCh)
    (hm : t.member.event? = s.member.event?) (hopen : t.isClosed = false → s.isClosed = false)
    (hr : d'.receivedMembers = d.receivedMembers)
    (hb : d'.memberBroadcasts = d.memberBroadcasts) (ho : d'.offered = d.offered)
    (hv : d'.overflowed = d.overflowed) : MemberOrder t d' := by
  have hline : memberLine t d' = memberLine s d := by rw [memberLine, memberLine, hc, hm, hr]
  refine ⟨?_, hc ▸ h.room, fun hcl => ?_⟩
  · rw [hline, hb]
    exact h.line
  · rw [hline, hv, ho]
    exact h.offered (hopen hcl)

theorem MemberOrder.giveUp (h : MemberOrder s d) (hc : s.isClosed = true) :
    MemberOrder { s with member := .idle } d := by
  refine ⟨List.Sublist.trans ?_ h.line, h.room, fun ho => ?_⟩
  · refine List.Sublist.append_left ?_ _
    simp [MemberCall.event?]
  · have ho : s.isClosed = false := ho
    simp [hc] at ho

theorem MemberOrder.note {ev : MembershipEvent} (h : MemberOrder s d) (hm : s.member = .idle) :
    MemberOrder { s with member := .noted ev }
      { d with memberBroadcasts := d.memberBroadcasts ++ [ev], offered := d.offered ++ [ev] } := by
  have hline : memberLine { s with member := .noted ev }
      { d with memberBroadcasts := d.memberBroadcasts ++ [ev], offered := d.offered ++ [ev] } =
      memberLine s d ++ [ev] := by
    simp [memberLine, hm, MemberCall.event?]
  refine ⟨?_, h.room, fun ho => ?_⟩
  · rw [hline]
    exact h.line.append_right [ev]
  · rw [hline]
    have hp := (h.offered ho).append_right [ev]
    rw [List.append_assoc] at hp ⊢
    exact (List.perm_append_comm.append_left _).trans hp

theorem MemberOrder.send {ev : MembershipEvent} (h : MemberOrder s d) (hm : s.member = .sending ev)
    (hl : s.memberCh.length < listenerQueueSize) :
    MemberOrder { s with memberCh := s.memberCh ++ [ev], member := .idle } d := by
  have hline : memberLine { s with memberCh := s.memberCh ++ [ev], member := .idle } d =
      memberLine s d := by
    simp [memberLine, hm, MemberCall.event?]
  refine ⟨?_, by simpa using Nat.succ_le_of_lt hl, fun ho => ?_⟩
  · rw [hline]
    exact h.line
  · rw [hline]
    exact h.offered ho

theorem MemberOrder.drop {ev : MembershipEvent} (h : MemberOrder s d)
    (hm : s.member = .sending ev) :
    MemberOrder { s with member := .idle } { d with overflowed := d.overflowed ++ [ev] } := by
  have hline : memberLine s d = memberLine { s with member := .idle } d ++ [ev] := by
    simp [memberLine, hm, MemberCall.event?]
  refine ⟨?_, h.room, fun ho => ?_⟩
  · have hsub := h.line
    rw [hline] at hsub
    exact (List.sublist_append_left _ _).trans hsub
  · have hp := h.offered ho
    rw [hline, List.append_assoc] at hp
    exact (List.perm_append_comm.append_left _).trans hp

theorem MemberOrder.take {ev : MembershipEvent} {rest : List MembershipEvent}
    {consumer : Consumer} (h : MemberOrder s d) (hl : s.memberCh = ev :: rest) :
    MemberOrder { s with memberCh := rest, consumer := consumer }
      { d with receivedMembers := d.receivedMembers ++ s.memberCh.head?.toList } := by
  have hline : memberLine { s with memberCh := rest, consumer := consumer }
      { d with receivedMembers := d.receivedMembers ++ s.memberCh.head?.toList } =
      memberLine s d := by
    simp [memberLine, hl]
  refine ⟨?_, ?_, fun ho => ?_⟩
  · rw [hline]
    exact h.line
  · have hroom := h.room
    rw [hl, List.length_cons] at hroom
    exact Nat.le_of_succ_le hroom
  · rw [hline]
    exact h.offered ho

theorem MemberOrder.step (h : MemberOrder s d) (hm : Moves s l t) :
    MemberOrder t (recordDeliveries s l d) := by
  cases hm with
  | watch hr | unwatch hr | close hr =>
    exact h.frame rfl rfl (fun _ => by simp [Sys.isClosed, hr]) rfl rfl rfl rfl
  | note | pass | callLeader | refuse | check | send | full | drain | resend | drop | abandon
  | block | takeLeader | seeDone | finishLeader | finishMember =>
    exact h.frame rfl rfl id rfl rfl rfl rfl
  | noteMember ev hm hr =>
    simp only [recordDeliveries, if_pos hr]
    exact h.note hm
  | passMember ev hm hr =>
    simp only [recordDeliveries, if_neg hr]
    exact ⟨h.line.trans (List.sublist_append_left _ _), h.room, h.offered⟩
  | refuseMember ev hm hc => exact h.giveUp hc
  | checkMember ev hm =>
    exact h.frame rfl (by simp [hm, MemberCall.event?]) id rfl rfl rfl rfl
  | sendMember ev hm hl =>
    simp only [recordDeliveries, hm, if_neg (Nat.not_le.mpr hl)]
    exact h.send hm hl
  | abandonMember ev hm hl hc =>
    simp only [recordDeliveries, hm, if_neg (Nat.not_le.mpr hl)]
    exact h.giveUp hc
  | dropMember ev takesDone hm hl =>
    simp only [recordDeliveries, hm, if_pos hl]
    exact h.drop hm
  | takeMember ev rest hc hl => exact h.take hl

/-- What a listener receives, in any run: of the elections, a subsequence of those that
were broadcast, so that epochs go down only if the broadcast ones do; of the membership
events, a subsequence of those that were broadcast, and with an open sink all that were
offered to it but those that are on their way or met a channel of 16 pending ones. -/
theorem received_in_order {s : Sys × Deliveries}
    (h : Reach (Fires (recorded step recordDeliveries)) anyStep (Sys.start, {}) s) :
    (s.2.received.filter elected).Sublist (s.2.leaderBroadcasts.filter elected) ∧
    (((s.2.leaderBroadcasts.filter elected).map LeaderEvent.epoch).Pairwise (· ≤ ·) →
      ((s.2.received.filter elected).map LeaderEvent.epoch).Pairwise (· ≤ ·)) ∧
    s.2.receivedMembers.Sublist s.2.memberBroadcasts ∧
    s.1.memberCh.length ≤ listenerQueueSize ∧
    (s.1.isClosed = false → (s.2.receivedMembers ++ (s.1.memberCh ++ s.1.member.event?.toList) ++
      s.2.overflowed).Perm s.2.offered) := by
  have hinv : LeaderOrder s.1 s.2 ∧ MemberOrder s.1 s.2 := by
    refine h.invariant (I := fun s => LeaderOrder s.1 s.2 ∧ MemberOrder s.1 s.2) ?_ ?_
    · refine ⟨⟨List.Sublist.refl _, fun p ev he => ?_⟩, List.Sublist.refl _, Nat.zero_le _,
        fun _ => List.Perm.refl _⟩
      simp [Sys.start] at he
    · intro u l v hu _ hs
      obtain ⟨t, ht, rfl⟩ := Option.map_eq_some_iff.mp hs
      have hm := moves_of_step ht
      exact ⟨hu.1.step hm, hu.2.step hm⟩
  obtain ⟨hl, hm⟩ := hinv
  have hsub : (s.2.received.filter elected).Sublist (s.2.leaderBroadcasts.filter elected) :=
    ((List.sublist_append_left _ _).filter _).trans hl.line
  refine ⟨hsub, fun hmono => ?_, ?_, hm.room, hm.offered⟩
  · exact hmono.sublist (hsub.map _)
  · exact (List.sublist_append_left _ _).trans hm.line

/-- Two elections and a member that joins between them. -/
theorem received_in_order_pair :
    ∃ s, Reach (Fires (recorded step recordDeliveries)) anyStep (Sys.start, {}) s ∧
      s.2.received = [⟨.leaderElected, "cp-1", 7⟩, ⟨.leaderElected, "cp-2", 9⟩] ∧
      s.2.receivedMembers = [⟨.memberJoined, "cp-2"⟩] ∧
      ((s.2.received.filter elected).map LeaderEvent.epoch).Pairwise (· ≤ ·) ∧
      s.2.receivedMembers.Sublist s.2.memberBroadcasts := by
  obtain ⟨s, hs, hr, hm, ha⟩ : ∃ s, replay (recorded step recordDeliveries)
      [.watch, .broadcastLeader ⟨.leaderElected, "cp-1", 7⟩, .callLeader .observeLeader,
        .check .observeLeader, .send .observeLeader, .takeLeader, .finish,
        .broadcastMember ⟨.memberJoined, "cp-2"⟩, .checkMember, .sendMember false, .block,
        .takeMember, .finish, .broadcastLeader ⟨.leaderElected, "cp-2", 9⟩,
        .callLeader .observeLeader, .check .observeLeader, .send .observeLeader, .takeLeader]
      (Sys.start, {}) = some s ∧
      s.2.received = [⟨.leaderElected, "cp-1", 7⟩, ⟨.leaderElected, "cp-2", 9⟩] ∧
      s.2.receivedMembers = [⟨.memberJoined, "cp-2"⟩] ∧
      (s.2.leaderBroadcasts.filter elected).map LeaderEvent.epoch = [7, 9] :=
    ⟨_, rfl, rfl, rfl, rfl⟩
  have hreach := reach_of_replay hs
  obtain ⟨-, hmono, hsub, -, -⟩ := received_in_order hreach
  exact ⟨s, hreach, hr, hm, hmono (by rw [ha]; decide), hsub⟩

end Leibrix.Listeners

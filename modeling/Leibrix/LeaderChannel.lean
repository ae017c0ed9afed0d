import Leibrix.Listeners

/-! The one-place channel for leader events. `enqueueLeader` makes room for its event by
taking out whatever is there, in several steps; between two of them the other goroutine
can have put in a newer event. -/
namespace Leibrix.Listeners
open Leibrix.Transition Leibrix.Election

structure CallHistory where
  -- the events of the calls of `enqueueLeader` in the order in which the calls began, and the
  -- events the listener's goroutine has taken
  called : List LeaderEvent := []
  received : List Sent := []

def recordCalls (s : Sys) (l : Label) (h : CallHistory) : CallHistory :=
  match l with
  | .callLeader p =>
    match s.leader p with
    | .noted ev => { h with called := h.called ++ [ev] }
    | _ => h
  | .takeLeader => { h with received := h.received ++ s.leaderCh.toList }
  | _ => h

-- a call of `enqueueLeader` begins only while no other one is going on
def callsApart (s : Sys) : Label → Bool
  | .callLeader _ =>
    (s.leader .campaign).sent.isNone && (s.leader .observeLeader).sent.isNone
  | _ => true

def CallsApart (s : Sys × CallHistory) (l : Label) : Prop := callsApart s.1 l = true

def Present (s : Sys) (h : CallHistory) (ev : Sent) : Prop :=
  -- the event is delivered or pending: in the channel, or in a call that is going on
  ev ∈ h.received ∨ s.leaderCh = some ev ∨ ∃ p, (s.leader p).sent = some ev

variable {s t : Sys} {l : Label} {h h' : CallHistory} {p : Producer} {ev other : Sent}

structure Accounts (s : Sys) (h : CallHistory) : Prop where
  -- calls are numbered by their place in the history, and as long as the sink is open, none of them
  -- is behind all that are delivered or pending
  count : s.calls = h.called.length
  numbered : ∀ ev, Present s h ev → h.called[ev.call]? = some ev.event
  superseded : s.isClosed = false → ∀ k < h.called.length, ∃ ev, k ≤ ev.call ∧ Present s h ev

/-- What is present after a step was present before, and each event that no longer is has
a later one that is. -/
theorem Accounts.keep (ha : Accounts s h) (hc : t.calls = s.calls) (hcall : h'.called = h.called)
    (hopen : t.isClosed = false → s.isClosed = false)
    (hnew : ∀ ev, Present t h' ev → Present s h ev)
    (hold : t.isClosed = false →
      ∀ ev, Present s h ev → ∃ ev', ev.call ≤ ev'.call ∧ Present t h' ev') :
    Accounts t h' := by
  refine ⟨by rw [hc, hcall, ha.count], fun ev he => ?_, fun ho k hk => ?_⟩
  · rw [hcall]
    exact ha.numbered ev (hnew ev he)
  · rw [hcall] at hk
    obtain ⟨ev, hle, he⟩ := ha.superseded (hopen ho) k hk
    obtain ⟨ev', hle', he'⟩ := hold ho ev he
    exact ⟨ev', Nat.le_trans hle hle', he'⟩

theorem present_setLeader {c : LeaderCall} :
    Present (s.setLeader p c) h ev ↔ ev ∈ h.received ∨ s.leaderCh = some ev ∨
      c.sent = some ev ∨ ∃ q, q ≠ p ∧ (s.leader q).sent = some ev := by
  constructor
  · rintro (hr | hl | ⟨q, hq⟩)
    · exact .inl hr
    · exact .inr (.inl hl)
    · by_cases hqp : q = p
      · subst hqp
        exact .inr (.inr (.inl (by simpa [Sys.setLeader] using hq)))
      · exact .inr (.inr (.inr ⟨q, hqp, by simpa [Sys.setLeader, hqp] using hq⟩))
  · rintro (hr | hl | hc | ⟨q, hqp, hq⟩)
    · exact .inl hr
    · exact .inr (.inl hl)
    · exact .inr (.inr ⟨p, by simpa [Sys.setLeader] using hc⟩)
    · exact .inr (.inr ⟨q, by simpa [Sys.setLeader, hqp] using hq⟩)

theorem present_split (p : Producer) : Present s h ev ↔ ev ∈ h.received ∨ s.leaderCh = some ev ∨
    (s.leader p).sent = some ev ∨ ∃ q, q ≠ p ∧ (s.leader q).sent = some ev := by
  have hself : s.setLeader p (s.leader p) = s := by simp [Sys.setLeader]
  rw [← present_setLeader, hself]

theorem present_of_idle (he : Present (s.setLeader p .idle) h ev) : Present s h ev := by
  rw [present_setLeader] at he
  rw [present_split p]
  rcases he with hr | hl | hc | hq
  · exact .inl hr
  · exact .inr (.inl hl)
  · cases hc
  · exact .inr (.inr (.inr hq))

theorem Accounts.same (ha : Accounts s h) (hc : t.calls = s.calls) (hcall : h'.called = h.called)
    (hopen : t.isClosed = false → s.isClosed = false)
    (hiff : ∀ ev, Present t h' ev ↔ Present s h ev) : Accounts t h' :=
  ha.keep hc hcall hopen (fun ev => (hiff ev).mp)
    fun _ ev he => ⟨ev, Nat.le_refl _, (hiff ev).mpr he⟩

theorem Accounts.frame (ha : Accounts s h) (hc : t.calls = s.calls) (hl : t.leader = s.leader)
    (hch : t.leaderCh = s.leaderCh) (hopen : t.isClosed = false → s.isClosed = false) :
    Accounts t h :=
  ha.same hc rfl hopen fun ev => by rw [Present, Present, hl, hch]

theorem Accounts.setLeader {c : LeaderCall} (ha : Accounts s h)
    (hc : c.sent = (s.leader p).sent) : Accounts (s.setLeader p c) h :=
  ha.same rfl rfl id fun ev => by rw [present_setLeader, present_split p, hc]

theorem Accounts.giveUp (ha : Accounts s h) (hc : s.isClosed = true) :
    Accounts (s.setLeader p .idle) h := by
  refine ha.keep rfl rfl id (fun ev => present_of_idle) fun ho => ?_
  have ho : s.isClosed = false := ho
  simp [hc] at ho

theorem Accounts.callLeader {e : LeaderEvent} (ha : Accounts s h) (hp : s.leader p = .noted e) :
    Accounts ({ s with calls := s.calls + 1 }.setLeader p (.checking ⟨s.calls, e⟩))
      { h with called := h.called ++ [e] } := by
  have hpresent : ∀ ev, Present ({ s with calls := s.calls + 1 }.setLeader p
      (.checking ⟨s.calls, e⟩)) { h with called := h.called ++ [e] } ev ↔
      ev = ⟨s.calls, e⟩ ∨ Present s h ev := by
    intro ev
    rw [present_setLeader, present_split p, hp]
    constructor
    · rintro (hr | hl | hc | hq)
      · exact .inr (.inl hr)
      · exact .inr (.inr (.inl hl))
      · exact .inl (Option.some.inj hc).symm
      · exact .inr (.inr (.inr (.inr hq)))
    · rintro (rfl | hr | hl | hc | hq)
      · exact .inr (.inr (.inl rfl))
      · exact .inl hr
      · exact .inr (.inl hl)
      · cases hc
      · exact .inr (.inr (.inr hq))
  refine ⟨by simp [Sys.setLeader, ha.count], fun ev he => ?_, fun ho k hk => ?_⟩
  · cases (hpresent ev).mp he with
    | inl he => simp [he, ha.count]
    | inr he =>
      have hold := ha.numbered ev he
      have hlt := (List.getElem?_eq_some_iff.mp hold).1
      rw [List.getElem?_append_left hlt, hold]
  · by_cases hlast : k = s.calls
    · exact ⟨⟨s.calls, e⟩, Nat.le_of_eq hlast, (hpresent _).mpr (.inl rfl)⟩
    · have hlt : k < h.called.length := by
        have := ha.count
        simp at hk
        omega
      obtain ⟨ev, hle, he⟩ := ha.superseded ho k hlt
      exact ⟨ev, hle, (hpresent ev).mpr (.inr he)⟩

theorem Accounts.put (ha : Accounts s h) (hp : (s.leader p).sent = some ev)
    (hl : s.leaderCh = none) : Accounts ({ s with leaderCh := some ev }.setLeader p .idle) h := by
  refine ha.same rfl rfl id fun ev' => ?_
  rw [present_setLeader, present_split p, hp, hl]
  simp

theorem Accounts.drain (ha : Accounts s h) (hp : s.leader p = .draining ev)
    (hle : ∀ other, s.leaderCh = some other → other.call ≤ ev.call) :
    Accounts ({ s with leaderCh := none }.setLeader p (.resending ev)) h := by
  have hsent : (s.leader p).sent = some ev := by simp [hp]
  refine ha.keep rfl rfl id (fun ev' he => ?_) fun _ ev' he => ?_
  · rw [present_setLeader] at he
    rw [present_split p, hsent]
    rcases he with hr | hl | hc | hq
    · exact .inl hr
    · cases hl
    · exact .inr (.inr (.inl hc))
    · exact .inr (.inr (.inr hq))
  · rw [present_split p, hsent] at he
    simp only [present_setLeader]
    rcases he with hr | hc | hs | hq
    · exact ⟨ev', Nat.le_refl _, .inl hr⟩
    · exact ⟨ev, hle ev' hc, .inr (.inr (.inl rfl))⟩
    · exact ⟨ev', Nat.le_refl _, .inr (.inr (.inl hs))⟩
    · exact ⟨ev', Nat.le_refl _, .inr (.inr (.inr hq))⟩

theorem Accounts.take {consumer : Consumer} (ha : Accounts s h) (hl : s.leaderCh = some ev) :
    Accounts { s with leaderCh := none, consumer := consumer }
      { h with received := h.received ++ [ev] } := by
  refine ha.same rfl rfl id fun ev' => ?_
  simp only [Present, hl, List.mem_append, List.mem_singleton, Option.some.injEq, reduceCtorEq,
    false_or, or_assoc, eq_comm]

-- what holds between two steps of calls that are apart: the one that is going on is the newest,
-- what is in the channel is older, and after the drain nothing is in it
structure Solo (s : Sys) : Prop where
  one : ∀ p q, p ≠ q → (s.leader p).sent = none ∨ (s.leader q).sent = none
  begun : ∀ p ev, (s.leader p).sent = some ev → ev.call < s.calls
  counted : ∀ ev, s.leaderCh = some ev → ev.call < s.calls
  older : ∀ p ev other, (s.leader p).sent = some ev → s.leaderCh = some other →
    other.call < ev.call
  free : ∀ p ev, s.leader p = .resending ev → s.leaderCh = none

theorem Solo.frame (h : Solo s) (hc : t.calls = s.calls) (hl : t.leader = s.leader)
    (hch : t.leaderCh = s.leaderCh ∨ t.leaderCh = none) : Solo t := by
  rcases hch with hch | hch
  · exact ⟨hl ▸ h.one, by rw [hl, hc]; exact h.begun, by rw [hch, hc]; exact h.counted,
      by rw [hl, hch]; exact h.older, by rw [hl, hch]; exact h.free⟩
  · exact ⟨hl ▸ h.one, by rw [hl, hc]; exact h.begun, by simp [hch], by simp [hch],
      fun _ _ _ => hch⟩

theorem sent_setLeader {c : LeaderCall} {q : Producer}
    (h : ((s.setLeader p c).leader q).sent = some ev) :
    q = p ∧ c.sent = some ev ∨ q ≠ p ∧ (s.leader q).sent = some ev := by
  by_cases hq : q = p
  · subst hq
    exact .inl ⟨rfl, by simpa [Sys.setLeader] using h⟩
  · exact .inr ⟨hq, by simpa [Sys.setLeader, hq] using h⟩

theorem Solo.setLeader {c : LeaderCall} (h : Solo s)
    (hc : ∀ ev, c.sent = some ev → (s.leader p).sent = some ev)
    (hfree : ∀ ev, c = .resending ev → s.leaderCh = none) : Solo (s.setLeader p c) := by
  have hback : ∀ q ev, ((s.setLeader p c).leader q).sent = some ev →
      (s.leader q).sent = some ev := by
    intro q ev hq
    rcases sent_setLeader hq with ⟨rfl, he⟩ | ⟨-, he⟩
    · exact hc ev he
    · exact he
  have hnone : ∀ q, (s.leader q).sent = none → ((s.setLeader p c).leader q).sent = none := by
    intro q hq
    rw [Option.eq_none_iff_forall_ne_some] at hq ⊢
    exact fun ev he => hq ev (hback q ev he)
  refine ⟨fun q r hne => ?_, fun q ev hq => h.begun q ev (hback q ev hq), h.counted,
    fun q ev other hq => h.older q ev other (hback q ev hq), fun q ev hq => ?_⟩
  · exact (h.one q r hne).imp (hnone q) (hnone r)
  · by_cases hqp : q = p
    · subst hqp
      exact hfree ev (by simpa [Sys.setLeader] using hq)
    · exact h.free q ev (by simpa [Sys.setLeader, hqp] using hq)

theorem Solo.callLeader {e : LeaderEvent} (h : Solo s) (hidle : ∀ q, (s.leader q).sent = none) :
    Solo ({ s with calls := s.calls + 1 }.setLeader p (.checking ⟨s.calls, e⟩)) := by
  have honly : ∀ q ev, (({ s with calls := s.calls + 1 }.setLeader p
      (.checking ⟨s.calls, e⟩)).leader q).sent = some ev → q = p ∧ ev = ⟨s.calls, e⟩ := by
    intro q ev hq
    rcases sent_setLeader hq with ⟨rfl, he⟩ | ⟨-, he⟩
    · exact ⟨rfl, (Option.some.inj he).symm⟩
    · exact absurd he (by simp [hidle q])
  refine ⟨fun q r hne => ?_, fun q ev hq => ?_, fun ev hl => Nat.lt_succ_of_lt (h.counted ev hl),
    fun q ev other hq hl => ?_, fun q ev hq => ?_⟩
  · by_contra hboth
    obtain ⟨hq, hr⟩ := not_or.mp hboth
    obtain ⟨ev, hq⟩ := Option.ne_none_iff_exists'.mp hq
    obtain ⟨ev', hr⟩ := Option.ne_none_iff_exists'.mp hr
    exact hne ((honly q ev hq).1.trans (honly r ev' hr).1.symm)
  · obtain ⟨-, rfl⟩ := honly q ev hq
    exact Nat.lt_succ_self _
  · obtain ⟨-, rfl⟩ := honly q ev hq
    exact h.counted other hl
  · obtain ⟨rfl, -⟩ := honly q ev (by rw [hq]; rfl)
    simp [Sys.setLeader] at hq

theorem Solo.put (h : Solo s) (hp : (s.leader p).sent = some ev) :
    Solo ({ s with leaderCh := some ev }.setLeader p .idle) := by
  have hnone : ∀ q, (({ s with leaderCh := some ev }.setLeader p .idle).leader q).sent = none := by
    refine Sys.forall_setLeader (P := fun _ c => c.sent = none) rfl fun q hq => ?_
    exact (h.one q p hq).resolve_right (by simp [hp])
  refine ⟨fun q _ _ => .inl (hnone q), fun q ev' hq => ?_, fun ev' hl => ?_, fun q ev' _ hq => ?_,
    fun q ev' hq => ?_⟩
  · exact absurd hq (by simp [hnone q])
  · obtain rfl : ev = ev' := Option.some.inj hl
    exact h.begun p ev hp
  · exact absurd hq (by simp [hnone q])
  · have hsent := hnone q
    rw [hq] at hsent
    cases hsent

theorem Solo.step (h : Solo s) (ho : callsApart s l = true) (hm : Moves s l t) : Solo t := by
  cases hm with
  | watch | unwatch | close | pass | noteMember | passMember | refuseMember | checkMember
  | sendMember | abandonMember | dropMember | block | takeMember | seeDone | finishLeader
  | finishMember => exact h.frame rfl rfl (.inl rfl)
  | takeLeader => exact h.frame rfl rfl (.inr rfl)
  | note | refuse | drop | abandon => exact h.setLeader (by simp) (by simp)
  | check p ev hp | full p ev hp => exact h.setLeader (by simp [hp]) (by simp)
  | callLeader p e hp =>
    refine h.callLeader fun q => ?_
    simp only [callsApart, Bool.and_eq_true, Option.isNone_iff_eq_none] at ho
    cases q with
    | campaign => exact ho.1
    | observeLeader => exact ho.2
  | send p ev hp | resend p ev hp => exact h.put (by rw [hp]; rfl)
  | drain p ev hp =>
    have hempty : Solo { s with leaderCh := none } := h.frame rfl rfl (.inr rfl)
    exact hempty.setLeader (by simp [hp]) fun _ _ => rfl

theorem Accounts.step (ha : Accounts s h) (hsolo : Solo s) (hm : Moves s l t) :
    Accounts t (recordCalls s l h) := by
  cases hm with
  | watch hr | unwatch hr | close hr =>
    exact ha.frame rfl rfl rfl fun _ => by simp [Sys.isClosed, hr]
  | pass | noteMember | passMember | refuseMember | checkMember | sendMember | abandonMember
  | dropMember | block | takeMember | seeDone | finishLeader | finishMember =>
    exact ha.frame rfl rfl rfl id
  | note e hp => exact ha.setLeader (by rw [hp]; rfl)
  | callLeader p e hp =>
    rw [recordCalls, hp]
    exact ha.callLeader hp
  | refuse p ev hp hc | abandon p ev hp hc => exact ha.giveUp hc
  | check p ev hp | full p ev hp => exact ha.setLeader (by rw [hp]; rfl)
  | send p ev hp hl | resend p ev hp hl => exact ha.put (by rw [hp]; rfl) hl
  | drain p ev hp =>
    refine ha.drain hp fun other hl => ?_
    exact Nat.le_of_lt (hsolo.older p ev other (by rw [hp]; rfl) hl)
  | drop p ev other takesDone hp hl =>
    -- the channel was emptied by this call, and nobody else has sent
    exact absurd (hsolo.free p ev hp) (by simp [hl])
  | takeLeader ev hc hl =>
    rw [recordCalls, hl]
    exact ha.take hl

/-- In every run in which the calls of `enqueueLeader` do not overlap, an event that is lost while
the sink is open is superseded by one whose call began no earlier and that is delivered or
pending; and when no call is going on, the event of the last call is delivered or in the
channel. -/
theorem leaderEvent_superseded {s : Sys × CallHistory}
    (h : Reach (Fires (recorded step recordCalls)) CallsApart (Sys.start, {}) s)
    (hopen : s.1.isClosed = false) :
    (∀ k < s.2.called.length, ∃ ev, k ≤ ev.call ∧ s.2.called[ev.call]? = some ev.event ∧
      Present s.1 s.2 ev) ∧
    ((∀ p, (s.1.leader p).sent = none) → ∀ n e, s.2.called.length = n + 1 →
      s.2.called[n]? = some e → ⟨n, e⟩ ∈ s.2.received ∨ s.1.leaderCh = some ⟨n, e⟩) := by
  have hstart : Accounts Sys.start {} := by
    refine ⟨rfl, fun ev he => ?_, fun _ k hk => by simp at hk⟩
    simp [Present, Sys.start] at he
  have hinv : Solo s.1 ∧ Accounts s.1 s.2 := by
    refine h.invariant (I := fun s => Solo s.1 ∧ Accounts s.1 s.2) ⟨?_, hstart⟩ ?_
    · constructor <;> simp [Sys.start]
    · rintro u l v ⟨hsolo, hu⟩ ho hs
      obtain ⟨t, ht, rfl⟩ := Option.map_eq_some_iff.mp hs
      exact ⟨hsolo.step ho (moves_of_step ht), hu.step hsolo (moves_of_step ht)⟩
  replace hinv := hinv.2
  refine ⟨fun k hk => ?_, fun hidle n e hlen he => ?_⟩
  · obtain ⟨ev, hle, hp⟩ := hinv.superseded hopen k hk
    exact ⟨ev, hle, hinv.numbered ev hp, hp⟩
  · obtain ⟨ev, hle, hp⟩ := hinv.superseded hopen n (by omega)
    have hnum := hinv.numbered ev hp
    have hlt := (List.getElem?_eq_some_iff.mp hnum).1
    have hcall : ev.call = n := by omega
    rw [hcall, he] at hnum
    obtain rfl : ev = ⟨n, e⟩ := by
      rw [← hcall, Option.some.inj hnum]
    simpa [Present, hidle] using hp

def ownElection : LeaderEvent := ⟨.leaderElected, "cp-1", 7⟩
def ownExpiry : LeaderEvent := ⟨.leaderExpired, "cp-1", 0⟩

/-- An expiry notice takes the place of the election notice before it. -/
theorem leaderEvent_superseded_expiry :
    ∃ s, Reach (Fires (recorded step recordCalls)) CallsApart (Sys.start, {}) s ∧
      s.1.isClosed = false ∧ (∀ p, (s.1.leader p).sent = none) ∧
      s.2.called = [ownElection, ownExpiry] ∧
      (⟨1, ownExpiry⟩ ∈ s.2.received ∨ s.1.leaderCh = some ⟨1, ownExpiry⟩) := by
  obtain ⟨s, hs, hopen, hcampaign, hobserve, hcalled⟩ : ∃ s,
      replay (guarded (fun s l => callsApart s.1 l) (recorded step recordCalls))
        [.watch, .broadcastLeader ownElection, .callLeader .observeLeader, .check .observeLeader,
          .send .observeLeader, .broadcastLeader ownExpiry, .callLeader .campaign,
          .check .campaign, .send .campaign, .drain .campaign, .resend .campaign false]
        (Sys.start, {}) = some s ∧ s.1.isClosed = false ∧ s.1.leader .campaign = .idle ∧
      s.1.leader .observeLeader = .idle ∧ s.2.called = [ownElection, ownExpiry] :=
    ⟨_, rfl, rfl, rfl, rfl, rfl⟩
  have hreach : Reach (Fires (recorded step recordCalls)) CallsApart (Sys.start, {}) s :=
    (reach_of_replay hs).of_guarded fun _ _ hpass => hpass
  have hidle : ∀ p, (s.1.leader p).sent = none := by
    intro p
    cases p with
    | campaign => rw [hcampaign]; rfl
    | observeLeader => rw [hobserve]; rfl
  exact ⟨s, hreach, hopen, hidle, hcalled, (leaderEvent_superseded hreach hopen).2 hidle 1
    ownExpiry (by rw [hcalled]; rfl) (by rw [hcalled]; rfl)⟩

/-- Both goroutines find the channel full. `campaign` makes room and sends its expiry
notice, the newest event; `observeLeader` then takes it out for its own, older one. -/
theorem newest_leaderEvent_lost :
    ∃ s, Reach (Fires (recorded step recordCalls)) anyStep (Sys.start, {}) s ∧
      s.1.isClosed = false ∧ s.1.leader .campaign = .idle ∧ s.1.leader .observeLeader = .idle ∧
      s.2.called = [ownElection, ownElection, ownExpiry] ∧ s.2.received = [] ∧
      s.1.leaderCh = some ⟨1, ownElection⟩ := by
  obtain ⟨s, hs, hp⟩ : ∃ s, replay (recorded step recordCalls)
      [.watch, .broadcastLeader ownElection, .callLeader .observeLeader, .check .observeLeader,
        .send .observeLeader, .broadcastLeader ownElection, .callLeader .observeLeader,
        .check .observeLeader, .send .observeLeader, .broadcastLeader ownExpiry,
        .callLeader .campaign, .check .campaign, .send .campaign, .drain .campaign,
        .resend .campaign false, .drain .observeLeader, .resend .observeLeader false]
      (Sys.start, {}) = some s ∧ s.1.isClosed = false ∧ s.1.leader .campaign = .idle ∧
      s.1.leader .observeLeader = .idle ∧
      s.2.called = [ownElection, ownElection, ownExpiry] ∧ s.2.received = [] ∧
      s.1.leaderCh = some ⟨1, ownElection⟩ := ⟨_, rfl, rfl, rfl, rfl, rfl, rfl, rfl⟩
  exact ⟨s, reach_of_replay hs, hp⟩

def countMembers (_ : Sys) (l : Label) (n : Nat) : Nat :=
  match l with
  | .takeMember => n + 1
  | _ => n

structure Overtaken (ev : Sent) (s : Sys) (n : Nat) : Prop where
  -- while the event is in the channel, the goroutine does not come back to its second `select`
  -- after a call
  once : n ≤ 1
  back : s.leaderCh = some ev → n = 1 → s.consumer ≠ .waiting

theorem Overtaken.step {ev : Sent} {n : Nat} (h : Overtaken ev s n) (hin : s.leaderCh = some ev)
    (hm : Moves s l t) : Overtaken ev t (countMembers s l n) := by
  have hback := h.back hin
  cases hm with
  | unwatch | close | note | pass | callLeader | refuse | check | full | drop | abandon
  | noteMember | passMember | refuseMember | checkMember | sendMember | abandonMember
  | dropMember => exact ⟨h.once, fun _ => hback⟩
  | watch | seeDone | finishLeader | finishMember => exact ⟨h.once, by simp⟩
  | send p ev' hp hl | resend p ev' hp hl | block hc hl =>
    rw [hin] at hl
    cases hl
  | drain | takeLeader => exact ⟨h.once, fun hl => by cases hl⟩
  | takeMember ev' rest hc =>
    have hzero : n ≠ 1 := fun hn => hback hn hc
    have honce := h.once
    exact ⟨by simp only [countMembers]; omega, by simp⟩

/-- From any state with a leader event in the channel on, until the event has been taken
by the listener's goroutine or by a newer event, at most one call of `OnMembershipChange`
starts, however many membership events are waiting. -/
theorem leaderEvent_overtaken_once {ev : Sent} {s t : Sys} {n : Nat}
    (h : Reach (Fires (recorded step countMembers)) (fun p _ => p.1.leaderCh = some ev) (s, 0)
      (t, n)) : n ≤ 1 := by
  have hinv : Overtaken ev t n := by
    refine h.invariant (I := fun p => Overtaken ev p.1 p.2) ⟨Nat.zero_le 1, by simp⟩ ?_
    intro u l v hu hin hs
    obtain ⟨t, ht, rfl⟩ := Option.map_eq_some_iff.mp hs
    exact hu.step hin (moves_of_step ht)
  exact hinv.once

/-- Two members have joined and the listener's goroutine waits when the election comes: it
may still take one of them, and then takes the election. -/
theorem leaderEvent_overtaken_once_backlog :
    ∃ s t n, Reach (Fires step) anyStep Sys.start s ∧ s.leaderCh = some ⟨0, ownElection⟩ ∧
      s.memberCh.length = 2 ∧
      Reach (Fires (recorded step countMembers))
        (fun p _ => p.1.leaderCh = some ⟨0, ownElection⟩) (s, 0) (t, n) ∧
      t.consumer = .onLeaderChange ⟨0, ownElection⟩ ∧ n = 1 ∧ n ≤ 1 := by
  obtain ⟨s, t, n, hs, hin, hlen, ht, hc, hn⟩ : ∃ s t n, replay step
      [.watch, .block, .broadcastMember ⟨.memberJoined, "cp-2"⟩, .checkMember, .sendMember false,
        .broadcastMember ⟨.memberJoined, "cp-3"⟩, .checkMember, .sendMember false,
        .broadcastLeader ownElection, .callLeader .observeLeader, .check .observeLeader,
        .send .observeLeader] Sys.start = some s ∧
      s.leaderCh = some ⟨0, ownElection⟩ ∧ s.memberCh.length = 2 ∧
      replay (guarded (fun p _ => p.1.leaderCh = some ⟨0, ownElection⟩)
        (recorded step countMembers)) [.takeMember, .finish, .takeLeader] (s, 0) = some (t, n) ∧
      t.consumer = .onLeaderChange ⟨0, ownElection⟩ ∧ n = 1 :=
    ⟨_, _, _, rfl, rfl, rfl, rfl, rfl, rfl⟩
  have hrun : Reach (Fires (recorded step countMembers))
      (fun p _ => p.1.leaderCh = some ⟨0, ownElection⟩) (s, 0) (t, n) :=
    (reach_of_replay ht).of_guarded fun _ _ hpass => of_decide_eq_true hpass
  exact ⟨s, t, n, reach_of_replay hs, hin, hlen, hrun, hc, hn, leaderEvent_overtaken_once hrun⟩

end Leibrix.Listeners

import Leibrix.Delivery
import Leibrix.Membership

/-! A listener that keeps a list of the members: it watches, asks `Members`, and
follows the events it is given. The answer of `Members` may be ahead of the events, so that
some of them are old news by then. -/
namespace Leibrix.MemberView
open Leibrix.Transition Leibrix.Membership Leibrix.LeaseStore
open Leibrix.Listeners (Deliveries recordDeliveries memberLine)

section Replay
variable {α ε : Type} {f : Finset α → ε → Finset α}

def Latches (f : Finset α → ε → Finset α) : Prop :=
  -- an event settles whether `x` is in the set, or leaves that as it is
  ∀ e x, (∃ b : Prop, ∀ s, x ∈ f s e ↔ b) ∨ ∀ s, x ∈ f s e ↔ x ∈ s

theorem Latches.foldl (hf : Latches f) (events : List ε) (x : α) :
    (∃ b : Prop, ∀ s, x ∈ events.foldl f s ↔ b) ∨ ∀ s, x ∈ events.foldl f s ↔ x ∈ s := by
  induction events with
  | nil => exact .inr fun s => Iff.rfl
  | cons e events ih =>
    cases ih with
    | inl h =>
      obtain ⟨b, hb⟩ := h
      exact .inl ⟨b, fun s => hb (f s e)⟩
    | inr h =>
      cases hf e x with
      | inl he =>
        obtain ⟨b, hb⟩ := he
        exact .inl ⟨b, fun s => (h (f s e)).trans (hb s)⟩
      | inr he => exact .inr fun s => (h (f s e)).trans (he s)

/-- Events that were followed already do no harm when they come again, all of them and in
their order. -/
theorem Latches.foldl_replay (hf : Latches f) (s : Finset α) (events : List ε) :
    events.foldl f (events.foldl f s) = events.foldl f s := by
  ext x
  cases hf.foldl events x with
  | inl h =>
    obtain ⟨b, hb⟩ := h
    rw [hb, hb]
  | inr h => exact h _

end Replay

theorem follow_latches : Latches follow := by
  intro ev name
  cases ht : ev.type with
  | memberJoined | memberUpdated =>
    by_cases hn : name = ev.member.name
    · exact .inl ⟨True, fun s => by simp [follow, ht, hn]⟩
    · exact .inr fun s => by simp [follow, ht, hn]
  | memberLeft =>
    by_cases hn : name = ev.member.name
    · exact .inl ⟨False, fun s => by simp [follow, ht, hn]⟩
    · exact .inr fun s => by simp [follow, ht, hn]
  | memberExpired => exact .inr fun s => by simp [follow, ht]

structure Setting where
  json : Json
  -- the operations before the watch begins
  before : List Op
  withPrev : Nat → Bool
  text : Bytes → String

variable (c : Setting)

def Setting.base : EtcdStore := after c.json Store.empty c.before

def Setting.store (ops : List Op) : EtcdStore := after c.json c.base ops

def Setting.events (ops : List Op) : List Membership.MembershipEvent :=
  observeMembers c.json (watch c.json c.base ops c.withPrev)

def Setting.shown (ev : Membership.MembershipEvent) : Listeners.MembershipEvent :=
  ⟨ev.type, c.text ev.member.name⟩

def keepUp (names : Finset String) (ev : Listeners.MembershipEvent) : Finset String :=
  match ev.type with
  | .memberJoined | .memberUpdated => insert ev.memberName names
  | .memberLeft => names.erase ev.memberName
  | .memberExpired => names

structure Sys where
  ops : List Op := []
  -- how many events `observeMembers` has broadcast
  observed : Nat := 0
  listener : Listeners.Sys := Listeners.Sys.start
  -- what `Members` answered last
  answer : Option (Finset Bytes) := none

inductive Label where
  | op (o : Op)
  | broadcast
  | listener (l : Listeners.Label)
  | members

def isBroadcast : Listeners.Label → Bool
  | .broadcastMember _ => true
  | _ => false

def step (s : Sys) : Label → Option Sys
  | .op o => some { s with ops := s.ops ++ [o] }
  | .broadcast =>
    match (c.events s.ops)[s.observed]? with
    | none => none
    | some ev => (Listeners.step s.listener (.broadcastMember (c.shown ev))).map fun l =>
        { s with observed := s.observed + 1, listener := l }
  | .listener l =>
    if isBroadcast l then none
    else (Listeners.step s.listener l).map fun l => { s with listener := l }
  | .members =>
    -- only after `Watch` has returned
    if s.listener.registration = .unwatched then none
    else some { s with answer := some (memberNames c.json (c.store s.ops)) }

def record (s : Sys) (l : Label) (d : Deliveries) : Deliveries :=
  match l with
  | .broadcast => (c.events s.ops)[s.observed]?.elim d fun ev =>
      recordDeliveries s.listener (.broadcastMember (c.shown ev)) d
  | .listener l => recordDeliveries s.listener l d
  | _ => d

section Events
variable {c}

theorem events_append (ops more : List Op) :
    c.events ops <+: c.events (ops ++ more) := by
  simp only [Setting.events, observeMembers, watch, List.filterMap_append, run_append,
    List.filter_append, List.zipIdx_append, List.map_append]
  exact List.prefix_append _ _

/-- Following the events from the beginning gives what `Members` lists. -/
theorem follow_events (hj : c.json.Lawful) (ops : List Op) :
    (c.events ops).foldl follow (memberNames c.json c.base) =
      memberNames c.json (c.store ops) :=
  (watch_follows hj (registered_after hj c.before) ops c.withPrev).2

/-- An answer of `Members`, and then the events from some point before it. -/
theorem follow_answer (hj : c.json.Lawful) {ops more : List Op} {n : Nat}
    (hn : n ≤ (c.events ops).length) :
    ((c.events (ops ++ more)).drop n).foldl follow (memberNames c.json (c.store ops)) =
      memberNames c.json (c.store (ops ++ more)) := by
  obtain ⟨later, hlater⟩ := events_append (c := c) ops more
  have hagain := follow_latches.foldl_replay
    (((c.events ops).take n).foldl follow (memberNames c.json c.base)) ((c.events ops).drop n)
  rw [← List.foldl_append (l := (c.events ops).take n), List.take_append_drop] at hagain
  calc ((c.events (ops ++ more)).drop n).foldl follow (memberNames c.json (c.store ops))
      = later.foldl follow (((c.events ops).drop n).foldl follow
          ((c.events ops).foldl follow (memberNames c.json c.base))) := by
        rw [← hlater, List.drop_append_of_le_length hn, List.foldl_append, follow_events hj]
    _ = later.foldl follow ((c.events ops).foldl follow (memberNames c.json c.base)) := by
        rw [hagain]
    _ = memberNames c.json (c.store (ops ++ more)) := by
        rw [← List.foldl_append, hlater, follow_events hj]

end Events

section Texts
variable {c}

theorem keepUp_shown (ht : Function.Injective c.text) (names : Finset Bytes)
    (ev : Membership.MembershipEvent) :
    keepUp (names.image c.text) (c.shown ev) = (follow names ev).image c.text := by
  cases hty : ev.type with
  | memberJoined | memberUpdated =>
    simp only [keepUp, follow, Setting.shown, hty, Finset.image_insert]
  | memberLeft => simp only [keepUp, follow, Setting.shown, hty, Finset.image_erase ht]
  | memberExpired => simp only [keepUp, follow, Setting.shown, hty]

theorem foldl_keepUp_shown (ht : Function.Injective c.text) (names : Finset Bytes)
    (events : List Membership.MembershipEvent) :
    (events.map c.shown).foldl keepUp (names.image c.text) =
      (events.foldl follow names).image c.text := by
  rw [List.foldl_map]
  exact List.foldl_hom (Finset.image c.text) (keepUp_shown ht)

end Texts

inductive Moves (s : Sys) : Label → Sys → Prop
  | op (o : Op) : Moves s (.op o) { s with ops := s.ops ++ [o] }
  | broadcast (ev : Membership.MembershipEvent) (u : Listeners.Sys)
      (he : (c.events s.ops)[s.observed]? = some ev)
      (hm : Listeners.Moves s.listener (.broadcastMember (c.shown ev)) u) :
      Moves s .broadcast { s with observed := s.observed + 1, listener := u }
  | listener (l : Listeners.Label) (u : Listeners.Sys) (hb : isBroadcast l = false)
      (hm : Listeners.Moves s.listener l u) : Moves s (.listener l) { s with listener := u }
  | members (hr : s.listener.registration ≠ .unwatched) :
      Moves s .members { s with answer := some (memberNames c.json (c.store s.ops)) }

section Runs
variable {c} {s t : Sys} {l : Label} {d : Deliveries} {n : Nat}

theorem moves_of_step (h : step c s l = some t) : Moves c s l t := by
  cases l with
  | op o =>
    cases h
    exact .op o
  | broadcast =>
    simp only [step] at h
    split at h
    · cases h
    · rename_i ev he
      obtain ⟨u, hu, rfl⟩ := Option.map_eq_some_iff.mp h
      exact .broadcast ev u he (Listeners.moves_of_step hu)
  | listener l =>
    simp only [step] at h
    split at h
    · cases h
    · rename_i hb
      obtain ⟨u, hu, rfl⟩ := Option.map_eq_some_iff.mp h
      exact .listener l u (by simpa using hb) (Listeners.moves_of_step hu)
  | members =>
    simp only [step] at h
    split at h
    · cases h
    · rename_i hr
      cases h
      exact .members hr

def InLine (u : Listeners.Sys) (d : Deliveries) : Prop :=
  -- as long as no event was dropped, those that were offered are received, in the channel or in the
  -- hands of `observeMembers`, in their order
  u.isClosed = false → d.overflowed = [] → memberLine u d = d.offered

theorem InLine.frame {u v : Listeners.Sys} {d' : Deliveries} (h : InLine u d)
    (hopen : v.isClosed = false → u.isClosed = false) (hv : d'.overflowed = d.overflowed)
    (hl : memberLine v d' = memberLine u d) (ho : d'.offered = d.offered) : InLine v d' := by
  intro hc hd
  rw [hl, ho]
  exact h (hopen hc) (hv ▸ hd)

theorem InLine.step {u v : Listeners.Sys} {l : Listeners.Label} (h : InLine u d)
    (hm : Listeners.Moves u l v) : InLine v (recordDeliveries u l d) := by
  -- a call that ends with nothing done ends at a closed sink or at a full channel
  cases hm with
  | watch hr | unwatch hr | close hr =>
    exact h.frame (fun _ => by simp [Listeners.Sys.isClosed, hr]) rfl rfl rfl
  | note | pass | callLeader | refuse | check | send | full | drain | resend | drop | abandon
  | block | takeLeader | seeDone | finishLeader | finishMember => exact h.frame id rfl rfl rfl
  | noteMember ev hm hr =>
    simp only [recordDeliveries, if_pos hr]
    intro hc hd
    simp [memberLine, Listeners.MemberCall.event?, ← h hc hd, hm]
  | passMember ev hm hr =>
    simp only [recordDeliveries, if_neg hr]
    exact h.frame id rfl rfl rfl
  | refuseMember ev hm hc | abandonMember ev hm hl hc =>
    intro ho
    have ho : u.isClosed = false := ho
    simp [hc] at ho
  | checkMember ev hm =>
    exact h.frame id rfl
      (by simp [memberLine, recordDeliveries, hm, Listeners.MemberCall.event?]) rfl
  | sendMember ev hm hl =>
    simp only [recordDeliveries, hm, if_neg (Nat.not_le.mpr hl)]
    exact h.frame id rfl (by simp [memberLine, hm, Listeners.MemberCall.event?]) rfl
  | dropMember ev takesDone hm hl =>
    simp only [recordDeliveries, hm, if_pos hl]
    intro _ hd
    simp at hd
  | takeMember ev rest hc hl =>
    exact h.frame id rfl (by simp [memberLine, recordDeliveries, hl]) rfl

theorem InLine.record (h : InLine s.listener d) (hm : Moves c s l t) :
    InLine t.listener (MemberView.record c s l d) := by
  cases hm with
  | op | members => exact h
  | broadcast ev u he hm =>
    simp only [MemberView.record, he, Option.elim_some]
    exact h.step hm
  | listener l u hb hm => exact h.step hm

variable (c) in
structure Viewing (s : Sys) (d : Deliveries) (n : Nat) : Prop where
  -- the first `n` events were broadcast before `Watch`; the listener is offered the others, and an
  -- answer of `Members` knows of the first `n`
  begun : n ≤ s.observed
  seen : s.observed ≤ (c.events s.ops).length
  unwatched : s.listener.registration = .unwatched → n = s.observed ∧ s.answer = none
  offered : s.listener.registration = .unwatched ∨ s.listener.registration = .registered →
    d.offered = (((c.events s.ops).take s.observed).drop n).map c.shown
  answered : ∀ names ∈ s.answer, ∃ ops more, s.ops = ops ++ more ∧ n ≤ (c.events ops).length ∧
    names = memberNames c.json (c.store ops)

theorem take_events_append (ops more : List Op) {k : Nat} (hk : k ≤ (c.events ops).length) :
    (c.events (ops ++ more)).take k = (c.events ops).take k := by
  obtain ⟨later, hlater⟩ := events_append (c := c) ops more
  rw [← hlater, List.take_append_of_le_length hk]

theorem Viewing.op (h : Viewing c s d n) (o : Op) :
    Viewing c { s with ops := s.ops ++ [o] } d n where
  begun := h.begun
  seen := h.seen.trans (events_append s.ops [o]).length_le
  unwatched := h.unwatched
  offered hr := by
    rw [take_events_append _ _ h.seen]
    exact h.offered hr
  answered names hn := by
    obtain ⟨ops, more, ho, hl, hnames⟩ := h.answered names hn
    exact ⟨ops, more ++ [o], by simp [ho], hl, hnames⟩

theorem Viewing.note {ev : Membership.MembershipEvent} (h : Viewing c s d n)
    (he : (c.events s.ops)[s.observed]? = some ev)
    (hr : s.listener.registration = .registered) :
    Viewing c
      { s with
        observed := s.observed + 1
        listener := { s.listener with member := .noted (c.shown ev) } }
      { d with
        memberBroadcasts := d.memberBroadcasts ++ [c.shown ev]
        offered := d.offered ++ [c.shown ev] } n where
  begun := h.begun.trans (Nat.le_succ _)
  seen := (List.getElem?_eq_some_iff.mp he).1
  unwatched hu := absurd (hr.symm.trans hu) (by decide)
  offered _ := by
    have hlen : n ≤ ((c.events s.ops).take s.observed).length := by
      rw [List.length_take]
      exact Nat.le_min.mpr ⟨h.begun, h.begun.trans h.seen⟩
    rw [List.take_add_one, he, Option.toList_some, List.drop_append_of_le_length hlen,
      List.map_append, ← h.offered (.inr hr), List.map_singleton]
  answered := h.answered

theorem Viewing.pass {ev : Membership.MembershipEvent} {d' : Deliveries}
    (h : Viewing c s d n) (he : (c.events s.ops)[s.observed]? = some ev)
    (hr : s.listener.registration ≠ .registered) (hd : d'.offered = d.offered) :
    ∃ n', Viewing c { s with observed := s.observed + 1 } d' n' := by
  have hseen : s.observed + 1 ≤ (c.events s.ops).length := (List.getElem?_eq_some_iff.mp he).1
  by_cases hu : s.listener.registration = .unwatched
  · obtain ⟨rfl, ha⟩ := h.unwatched hu
    refine ⟨s.observed + 1, le_rfl, hseen, fun _ => ⟨rfl, ha⟩, fun _ => ?_, by simp [ha]⟩
    rw [hd, h.offered (.inl hu), List.drop_of_length_le (List.length_take_le _ _),
      List.drop_of_length_le (List.length_take_le _ _)]
  · exact ⟨n, h.begun.trans (Nat.le_succ _), hseen, fun hu' => absurd hu' hu,
      fun ho => absurd ho (not_or.mpr ⟨hu, hr⟩), h.answered⟩

theorem Viewing.listener {u : Listeners.Sys} {d' : Deliveries} (h : Viewing c s d n)
    (hu : u.registration = .unwatched → s.listener.registration = .unwatched)
    (hr : u.registration = .registered →
      s.listener.registration = .unwatched ∨ s.listener.registration = .registered)
    (hd : d'.offered = d.offered) : Viewing c { s with listener := u } d' n where
  begun := h.begun
  seen := h.seen
  unwatched hu' := h.unwatched (hu hu')
  offered ho := by
    rw [hd]
    exact h.offered (ho.elim (fun hu' => .inl (hu hu')) hr)
  answered := h.answered

theorem Viewing.members (h : Viewing c s d n)
    (hr : s.listener.registration ≠ .unwatched) :
    Viewing c { s with answer := some (memberNames c.json (c.store s.ops)) } d n where
  begun := h.begun
  seen := h.seen
  unwatched hu := absurd hu hr
  offered := h.offered
  answered _ hn :=
    ⟨s.ops, [], (List.append_nil _).symm, h.begun.trans h.seen, (Option.mem_some.mp hn).symm⟩

theorem offered_recordDeliveries {u : Listeners.Sys} {l : Listeners.Label}
    (hb : isBroadcast l = false) : (recordDeliveries u l d).offered = d.offered := by
  cases l with
  | broadcastMember ev => cases hb
  | sendMember =>
    simp only [recordDeliveries]
    repeat' split
    all_goals rfl
  | _ => rfl

theorem Viewing.step (h : Viewing c s d n) (hm : Moves c s l t) :
    ∃ n', Viewing c t (record c s l d) n' := by
  cases hm with
  | op o => exact ⟨n, h.op o⟩
  | broadcast ev u he hm =>
    simp only [record, he, Option.elim_some]
    cases hm with
    | noteMember _ hi hr =>
      simp only [recordDeliveries, if_pos hr]
      exact ⟨n, h.note he hr⟩
    | passMember _ hi hr =>
      simp only [recordDeliveries, if_neg hr]
      exact h.pass he hr rfl
  | listener l u hb hm =>
    have ho := offered_recordDeliveries (u := s.listener) (d := d) hb
    refine ⟨n, h.listener ?_ ?_ ho⟩
    · intro hu
      cases hm <;> first | exact hu | assumption | cases hu
    · intro hr
      cases hm <;> first | exact .inr hr | exact .inl (by assumption) | cases hr
  | members hr => exact ⟨n, h.members hr⟩

theorem reach_viewing {s : Sys × Deliveries}
    (h : Reach (Fires (recorded (step c) (record c))) anyStep ({}, {}) s) :
    InLine s.1.listener s.2 ∧ ∃ n, Viewing c s.1 s.2 n := by
  refine h.invariant (I := fun s => InLine s.1.listener s.2 ∧ ∃ n, Viewing c s.1 s.2 n) ?_ ?_
  · refine ⟨fun _ _ => rfl, 0, le_rfl, Nat.zero_le _, fun _ => ⟨rfl, rfl⟩, fun _ => ?_, ?_⟩
    · simp
    · simp
  · rintro s l t ⟨hline, n, hview⟩ _ hs
    obtain ⟨t, ht, rfl⟩ := Option.map_eq_some_iff.mp hs
    have hm := moves_of_step ht
    exact ⟨hline.record hm, hview.step hm⟩

/-- What is in line, and then the events still to be broadcast, are all from `n` on. -/
theorem Viewing.line (h : Viewing c s d n) (hl : InLine s.listener d)
    (hr : s.listener.registration = .registered) (ho : d.overflowed = []) :
    memberLine s.listener d ++ ((c.events s.ops).drop s.observed).map c.shown =
      ((c.events s.ops).drop n).map c.shown := by
  have hlen : n ≤ ((c.events s.ops).take s.observed).length := by
    rw [List.length_take]
    exact Nat.le_min.mpr ⟨h.begun, h.begun.trans h.seen⟩
  rw [hl (by simp [Listeners.Sys.isClosed, hr]) ho, h.offered (.inr hr), ← List.map_append,
    ← List.drop_append_of_le_length hlen, List.take_append_drop]

end Runs

/-- However registrations, ends of leases, broadcasts, the listener and its calls of `Members`
interleave: a registered listener that missed no event starts from an answer of `Members`,
follows all that it is offered, also what the answer knows already, and with what is still on
its way it has the names of the store. When nothing is on its way it has them now. -/
theorem listener_holds_members {c : Setting} (hj : c.json.Lawful)
    (ht : Function.Injective c.text) {s : Sys × Deliveries}
    (h : Reach (Fires (recorded (step c) (record c))) anyStep ({}, {}) s)
    (hr : s.1.listener.registration = .registered) (ho : s.2.overflowed = [])
    {names : Finset Bytes} (ha : s.1.answer = some names) :
    (memberLine s.1.listener s.2 ++
        ((c.events s.1.ops).drop s.1.observed).map c.shown).foldl keepUp (names.image c.text) =
      (memberNames c.json (c.store s.1.ops)).image c.text ∧
    (s.1.listener.memberCh = [] → s.1.listener.member = .idle →
      s.1.observed = (c.events s.1.ops).length →
      s.2.receivedMembers.foldl keepUp (names.image c.text) =
        (memberNames c.json (c.store s.1.ops)).image c.text) := by
  obtain ⟨hline, n, hview⟩ := reach_viewing h
  obtain ⟨ops, more, hops, hn, rfl⟩ := hview.answered names ha
  have hall : (memberLine s.1.listener s.2 ++
        ((c.events s.1.ops).drop s.1.observed).map c.shown).foldl keepUp
        ((memberNames c.json (c.store ops)).image c.text) =
      (memberNames c.json (c.store s.1.ops)).image c.text := by
    rw [hview.line hline hr ho, foldl_keepUp_shown ht, hops, follow_answer hj hn]
  refine ⟨hall, fun hch hm hobs => ?_⟩
  rw [hobs, List.drop_length, memberLine, hch, hm] at hall
  simpa [Listeners.MemberCall.event?] using hall

def latin1 (b : Bytes) : String := String.ofList (b.map fun x => Char.ofNat x.toNat)

theorem latin1_injective : Function.Injective latin1 := by
  intro a b h
  refine List.map_injective_iff.mpr ?_ (String.ofList_inj.mp h)
  intro x y hxy
  have hall : ∀ n < 256, (Char.ofNat n).toNat = n := by decide +kernel
  have hx := hall x.toNat x.toNat_lt
  have hy := hall y.toNat y.toNat_lt
  exact UInt8.toNat_inj.mp (hx.symm.trans ((congrArg Char.toNat hxy).trans hy))

def restartSetting : Setting := ⟨nodeJson, [], fun _ => false, latin1⟩

/-- A node registers, a listener watches and asks, and only then the registration is broadcast.
The node registers again, its lease ends, and the listener is told of both. -/
theorem listener_holds_members_restart :
    ∃ s, Reach (Fires (recorded (step restartSetting) (record restartSetting))) anyStep
        ({}, {}) s ∧
      s.2.receivedMembers = [⟨.memberJoined, "node-1"⟩, ⟨.memberUpdated, "node-1"⟩,
        ⟨.memberLeft, "node-1"⟩] ∧
      s.1.answer = some {bytes "node-1"} ∧
      s.2.receivedMembers.foldl keepUp (Finset.image latin1 {bytes "node-1"}) =
        (memberNames nodeJson (restartSetting.store s.1.ops)).image latin1 := by
  let delivered : List Label := [.broadcast, .listener .checkMember, .listener (.sendMember false),
    .listener .block, .listener .takeMember, .listener .finish]
  have hrun : (replay (recorded (step restartSetting) (record restartSetting))
      ([.op (.registerMember processOne 1), .listener .watch, .members] ++ delivered ++
        [.op (.registerMember processOne 2), .op (.revokeLease 2)] ++ delivered ++ delivered)
      ({}, {})).any (fun s => decide (s.1.listener.registration = .registered ∧
        s.2.overflowed = [] ∧ s.1.answer = some {bytes "node-1"} ∧
        s.1.listener.memberCh = [] ∧ s.1.listener.member = .idle ∧
        s.1.observed = (restartSetting.events s.1.ops).length ∧
        s.2.receivedMembers = [⟨.memberJoined, "node-1"⟩, ⟨.memberUpdated, "node-1"⟩,
          ⟨.memberLeft, "node-1"⟩])) = true := by decide +kernel
  obtain ⟨s, hs, hfacts⟩ := (Option.any_eq_true _ _).mp hrun
  obtain ⟨hr, ho, ha, hch, hm, hobs, hrec⟩ := of_decide_eq_true hfacts
  have hreach := reach_of_replay hs
  exact ⟨s, hreach, hrec, ha,
    (listener_holds_members nodeJson_lawful latin1_injective hreach hr ho ha).2 hch hm hobs⟩

end Leibrix.MemberView

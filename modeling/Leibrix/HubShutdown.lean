import Leibrix.HubMap

/-! What waits for what among the listeners. A broadcast waits for no listener, whatever its
callback does; `Close` waits for all of them, and after it no callback runs. -/
namespace Leibrix.ListenerHub
open Leibrix.Transition Leibrix.Election
open Leibrix.Listeners (Producer producer MembershipEvent)

variable {s t : Hub} {l : Label} {p : Producer}

section Progress

def Stage.left : Stage → Nat
  | .check => 4
  | .send => 3
  | .drain => 2
  | .resend => 1

def Cast.work {ε : Type} (c : Cast ε) : Nat :=
  -- the `select`s that a broadcast has still to make, at most
  match c.todo with
  | [] => 0
  | _ :: rest => c.stage.left + 4 * rest.length

theorem Cast.work_le {ε : Type} (c : Cast ε) : c.work ≤ 4 * c.todo.length := by
  unfold Cast.work
  split
  · exact Nat.zero_le _
  · rename_i id rest ht
    have hleft : c.stage.left ≤ 4 := by cases c.stage <;> decide
    simp only [ht, List.length_cons]
    omega

theorem Cast.work_check {ε : Type} (ev : ε) (todo : List Nat) :
    (⟨ev, todo, .check⟩ : Cast ε).work = 4 * todo.length := by
  cases todo with
  | nil => rfl
  | cons id rest =>
    simp only [Cast.work, Stage.left, List.length_cons]
    omega

def countSelects (p : Producer) (_ : Hub) (l : Label) (n : Nat) : Nat :=
  match l with
  | .enqueueLeader q _ => if q = p then n + 1 else n
  | _ => n

theorem left_next {k k' : Sink} {ev : LeaderEvent} {b : Bool} {st st' : Stage}
    (hk : k.enqueueLeader ev b st = some (k', some st')) : st'.left + 1 ≤ st.left := by
  cases st with
  | check =>
    simp only [Sink.enqueueLeader, Option.some.injEq, Prod.mk.injEq] at hk
    obtain ⟨-, hst⟩ := hk
    split at hst <;> cases hst
    decide
  | send =>
    simp only [Sink.enqueueLeader] at hk
    split at hk <;> cases hk
    decide
  | drain =>
    cases hk
    decide
  | resend =>
    simp only [Sink.enqueueLeader] at hk
    split at hk
    · split at hk
      · split at hk <;> cases hk
      · cases hk
    · cases hk

/-- Each `select` leads on, to a later one or to the next sink. -/
theorem work_next {c : Cast LeaderEvent} {id : Nat} {rest : List Nat} {k k' : Sink} {b : Bool}
    {next : Option Stage} (ht : c.todo = id :: rest)
    (hk : k.enqueueLeader c.event b c.stage = some (k', next)) :
    (c.next next).work + 1 ≤ c.work := by
  have hwork : c.work = c.stage.left + 4 * rest.length := by simp [Cast.work, ht]
  cases next with
  | none =>
    have hnext : (c.next none).work = 4 * rest.length := by
      simpa [Cast.next, ht] using Cast.work_check c.event rest
    have hleft : 1 ≤ c.stage.left := by cases c.stage <;> decide
    omega
  | some st =>
    have hnext : (c.next (some st)).work = st.left + 4 * rest.length := by
      simp [Cast.work, Cast.next, ht]
    have hleft := left_next hk
    omega

/-- What a step does to a broadcast that does not return in it. -/
theorem leader_step {c : Cast LeaderEvent} (hc : s.leader p = some c)
    (hs : step s l = some t) (hl : l ≠ .returnLeader p) :
    ∃ c', t.leader p = some c' ∧ c'.event = c.event ∧
      countSelects p s l 0 + c'.work ≤ c.work := by
  have hkeep : t.leader p = s.leader p → countSelects p s l 0 = 0 →
      ∃ c', t.leader p = some c' ∧ c'.event = c.event ∧
        countSelects p s l 0 + c'.work ≤ c.work := by
    intro ht hn
    exact ⟨c, ht.trans hc, rfl, by omega⟩
  cases moves_of_step hs with
  | broadcastLeader ev order hp =>
    have hq : p ≠ producer ev := by
      rintro rfl
      rw [hp] at hc
      cases hc
    exact hkeep (Function.update_of_ne hq _ _) rfl
  | returnLeader q c' hc' ht =>
    have hq : p ≠ q := by
      rintro rfl
      exact hl rfl
    exact hkeep (Function.update_of_ne hq _ _) rfl
  | enqueueLeader q b c' id rest k next hc' ht hk =>
    by_cases hq : p = q
    · subst hq
      obtain rfl : c' = c := by simpa [hc] using hc'.symm
      refine ⟨c'.next next, Function.update_self _ _ _, ?_, ?_⟩
      · cases next <;> rfl
      · have := work_next ht hk
        simp only [countSelects, if_true]
        omega
    · refine hkeep (Function.update_of_ne hq _ _) ?_
      simp [countSelects, Ne.symm hq]
  | _ => exact hkeep rfl rfl

/-- A broadcast that has sinks left can go on, whatever they are doing. -/
theorem enqueueLeader_enabled {c : Cast LeaderEvent} (hc : s.leader p = some c)
    (ht : c.todo ≠ []) : ∃ u, step s (.enqueueLeader p false) = some u := by
  obtain ⟨id, rest, ht⟩ := List.exists_cons_of_ne_nil ht
  have hk : ∃ r, (s.sinks id).enqueueLeader c.event false c.stage = some r := by
    unfold Sink.enqueueLeader
    split
    · exact ⟨_, rfl⟩
    · split <;> exact ⟨_, rfl⟩
    · exact ⟨_, rfl⟩
    · split <;> exact ⟨_, rfl⟩
  obtain ⟨r, hk⟩ := hk
  simp [step, hc, ht, hk]

/-- A broadcast never waits for a listener: until it has served every sink it can make
another `select`, and it makes four for each of them at most, whatever the listeners, their
callbacks and the other goroutines do. -/
theorem broadcast_never_waits {c : Cast LeaderEvent} {n : Nat} (hc : s.leader p = some c)
    (h : Reach (Fires (recorded step (countSelects p))) (fun _ l => l ≠ .returnLeader p)
      (s, 0) (t, n)) :
    n ≤ 4 * c.todo.length ∧ ∃ c', t.leader p = some c' ∧ c'.event = c.event ∧
      (c'.todo ≠ [] → ∃ u, step t (.enqueueLeader p false) = some u) := by
  have hrun := h.invariant (I := fun x => ∃ c', x.1.leader p = some c' ∧ c'.event = c.event ∧
    x.2 + c'.work ≤ c.work) ⟨c, hc, rfl, by simp⟩ ?_
  · obtain ⟨c', hc', hev, hn⟩ := hrun
    have hle := c.work_le
    exact ⟨by omega, c', hc', hev, enqueueLeader_enabled hc'⟩
  · rintro x l u ⟨c₁, hc₁, hev₁, hn₁⟩ hl hs
    obtain ⟨t, ht, rfl⟩ := Option.map_eq_some_iff.mp hs
    obtain ⟨c₂, hc₂, hev₂, hn₂⟩ := leader_step hc₁ ht hl
    have hcount : countSelects p x.1 l x.2 = x.2 + countSelects p x.1 l 0 := by
      unfold countSelects
      split
      · split <;> rfl
      · rfl
    refine ⟨c₂, hc₂, hev₂.trans hev₁, ?_⟩
    simp only [hcount]
    omega

def busy : Hub where
  nextListenerID := 1
  listeners := [1]
  sinks _ :=
    { leaderCh := some ⟨.leaderElected, "b", 2⟩
      goroutine := .onLeaderChange ⟨.leaderElected, "a", 1⟩ }
  leader _ := some ⟨⟨.leaderElected, "c", 3⟩, [1], .check⟩

theorem busy_never_waits : ∃ t : Hub,
    Reach (Fires (recorded step (countSelects .observeLeader)))
      (fun _ l => l ≠ .returnLeader .observeLeader) (busy, 0) (t, 4) ∧ 4 ≤ 4 * [1].length ∧
    (t.sinks 1).leaderCh = some ⟨.leaderElected, "c", 3⟩ := by
  have hrun : ∃ t, replay (guarded (fun _ l => l ≠ .returnLeader .observeLeader)
      (recorded step (countSelects .observeLeader)))
      (List.replicate 4 (.enqueueLeader .observeLeader false)) (busy, 0) = some (t, 4) ∧
      (t.sinks 1).leaderCh = some ⟨.leaderElected, "c", 3⟩ := by
    refine ⟨_, rfl, ?_⟩
    rfl
  obtain ⟨t, ht, hch⟩ := hrun
  have hreach : Reach (Fires (recorded step (countSelects .observeLeader)))
      (fun _ l => l ≠ .returnLeader .observeLeader) (busy, 0) (t, 4) :=
    Reach.of_guarded (fun _ l hp => by simpa using hp) (reach_of_replay ht)
  exact ⟨t, hreach, (broadcast_never_waits rfl hreach).1, hch⟩

end Progress

section Close

def Goroutine.inCallback : Goroutine → Bool
  | .onLeaderChange _ | .onMembershipChange _ => true
  | _ => false

def Closing.servicesEnded : Closing → Bool
  | .waited | .closingListeners _ | .closed => true
  | _ => false

def Closing.emptied : Closing → Bool
  | .closingListeners _ | .closed => true
  | _ => false

def Sink.Empty (k : Sink) : Prop := k.leaderCh = none ∧ k.memberCh = []

def Settled (s : Hub) (l : Label) : Prop :=
  -- when `closeAllListeners` empties the map, no `Watch` is between its registration and the start
  -- of its goroutine
  l = .removeAll → ∀ id ∈ s.listeners, (s.sinks id).goroutine ≠ .unstarted

structure Ending (s : Hub) : Prop where
  allocated : ∀ id, (s.sinks id).goroutine ≠ .unwatched → id ≤ s.nextListenerID
  watched : ∀ id, (s.sinks id).goroutine = .unwatched → (s.sinks id).Empty
  leader : ∀ p c, s.leader p = some c → s.stopped p = false ∧
    ∀ id ∈ c.todo, (s.sinks id).goroutine ≠ .unwatched
  member : ∀ c, s.member = some c → s.membersStopped = false ∧
    ∀ id ∈ c.todo, (s.sinks id).goroutine ≠ .unwatched
  services : s.closing.servicesEnded = true →
    (∀ p, s.stopped p = true) ∧ s.membersStopped = true
  unstarted : s.closing.emptied = false → ∀ id, (s.sinks id).goroutine = .unstarted →
    id ∈ s.listeners
  settled : s.closing.emptied = true → ∀ id, (s.sinks id).Empty ∨
    (s.sinks id).goroutine.watched = true
  silent : s.closing = .closed → ∀ id, (s.sinks id).goroutine = .returned ∨
    (s.sinks id).Empty ∧ (s.sinks id).goroutine.inCallback = false

theorem ending_start : Ending Hub.start := by
  constructor <;> simp [Hub.start, Sink.Empty, Closing.servicesEnded, Closing.emptied]

theorem Closing.servicesEnded_of_emptied {c : Closing} (h : c.emptied = true) :
    c.servicesEnded = true := by
  cases c <;> first | rfl | cases h

theorem Ending.setSink {id : Nat} {k : Sink} (h : Ending s)
    (hg : (s.sinks id).goroutine ≠ .unwatched → k.goroutine ≠ .unwatched)
    (hle : k.goroutine ≠ .unwatched → id ≤ s.nextListenerID)
    (he : k.goroutine = .unwatched → k.Empty)
    (hu : s.closing.emptied = false → k.goroutine = .unstarted → id ∈ s.listeners)
    (hset : s.closing.emptied = true → k.Empty ∨ k.goroutine.watched = true)
    (hsil : s.closing = .closed → k.goroutine = .returned ∨
      k.Empty ∧ k.goroutine.inCallback = false) :
    Ending (s.setSink id k) := by
  -- a property of the sinks, at this one and at the others
  have hall : ∀ {P : Sink → Prop} (j : Nat), (j = id → P k) → P (s.sinks j) →
      P ((s.setSink id k).sinks j) := by
    intro P j hk hs
    by_cases hj : j = id
    · simpa [hj] using hk hj
    · simpa [Function.update_of_ne hj] using hs
  have hw : ∀ j, (s.sinks j).goroutine ≠ .unwatched →
      ((s.setSink id k).sinks j).goroutine ≠ .unwatched := by
    intro j hj
    refine hall (P := fun k => k.goroutine ≠ .unwatched) j ?_ hj
    rintro rfl
    exact hg hj
  refine ⟨fun j => ?_, fun j => ?_, fun p c hc => ?_, fun c hc => ?_, h.services, fun hc j => ?_,
    fun hc j => ?_, fun hc j => ?_⟩
  · refine hall (P := fun k => k.goroutine ≠ .unwatched → _) j ?_ (h.allocated j)
    rintro rfl
    exact hle
  · exact hall (P := fun k => k.goroutine = .unwatched → k.Empty) j (fun _ => he) (h.watched j)
  · obtain ⟨hs, htodo⟩ := h.leader p c hc
    exact ⟨hs, fun j hj => hw j (htodo j hj)⟩
  · obtain ⟨hs, htodo⟩ := h.member c hc
    exact ⟨hs, fun j hj => hw j (htodo j hj)⟩
  · refine hall (P := fun k => k.goroutine = .unstarted → j ∈ s.listeners) j ?_ (h.unstarted hc j)
    rintro rfl
    exact hu hc
  · exact hall (P := fun k => k.Empty ∨ k.goroutine.watched = true) j (fun _ => hset hc)
      (h.settled hc j)
  · exact hall (P := fun k => k.goroutine = .returned ∨
      k.Empty ∧ k.goroutine.inCallback = false) j (fun _ => hsil hc) (h.silent hc j)

theorem Ending.setGoroutine {id : Nat} {k : Sink} (h : Ending s)
    (hw : (s.sinks id).goroutine ≠ .unwatched) (hk : k.goroutine.watched = true)
    (hsil : s.closing = .closed → k.goroutine = .returned ∨
      k.Empty ∧ k.goroutine.inCallback = false) : Ending (s.setSink id k) := by
  have hne : k.goroutine ≠ .unwatched := by
    intro he
    rw [he] at hk
    cases hk
  refine h.setSink (fun _ => hne) (fun _ => h.allocated id hw) (fun he => absurd he hne) ?_
    (fun _ => .inr hk) hsil
  intro _ hu
  rw [hu] at hk
  cases hk

theorem Ending.goto {id : Nat} {g : Goroutine} (h : Ending s)
    (hw : (s.sinks id).goroutine ≠ .unwatched) (hr : (s.sinks id).goroutine ≠ .returned)
    (hg : g.watched = true) (hc : g.inCallback = false) : Ending (s.setGoroutine id g) := by
  refine h.setGoroutine hw hg fun hclosed => ?_
  obtain hret | ⟨he, -⟩ := h.silent hclosed id
  · exact absurd hret hr
  · exact .inr ⟨he, hc⟩

theorem Ending.closeSink {id : Nat} (h : Ending s) : Ending (s.closeSink id) :=
  h.setSink (fun hw => hw) (h.allocated id) (h.watched id) (fun hc => h.unstarted hc id)
    (fun hc => h.settled hc id) fun hc => h.silent hc id

theorem Ending.enqueue {id : Nat} {k : Sink} (h : Ending s)
    (hw : (s.sinks id).goroutine ≠ .unwatched) (hg : k.goroutine = (s.sinks id).goroutine)
    (hc : s.closing.servicesEnded = false) : Ending (s.setSink id k) := by
  have hne : s.closing.emptied ≠ true := by
    intro he
    rw [Closing.servicesEnded_of_emptied he] at hc
    cases hc
  refine h.setSink ?_ ?_ ?_ ?_ (fun he => absurd he hne) ?_ <;> try rw [hg]
  · exact fun hw => hw
  · exact h.allocated id
  · exact fun he => absurd he hw
  · exact fun hc => h.unstarted hc id
  · intro he
    rw [he] at hne
    exact absurd rfl hne

theorem Ending.setMap {listeners removing : List Nat} {closing : Closing} (h : Ending s)
    (hs : closing.servicesEnded = true → (∀ p, s.stopped p = true) ∧ s.membersStopped = true)
    (hl : closing.emptied = false → ∀ id, (s.sinks id).goroutine = .unstarted → id ∈ listeners)
    (he : closing.emptied = true → ∀ id, (s.sinks id).Empty ∨
      (s.sinks id).goroutine.watched = true)
    (hc : closing = .closed → ∀ id, (s.sinks id).goroutine = .returned ∨
      (s.sinks id).Empty ∧ (s.sinks id).goroutine.inCallback = false) :
    Ending { s with listeners := listeners, removing := removing, closing := closing } :=
  ⟨h.allocated, h.watched, h.leader, h.member, hs, hl, he, hc⟩

theorem Ending.register {id : Nat} (h : Ending s) (hle : id ≤ s.nextListenerID)
    (hg : (s.sinks id).goroutine = .unwatched) :
    Ending ({ s with listeners := s.listeners ++ [id] }.setGoroutine id .unstarted) := by
  have hmap : Ending { s with listeners := s.listeners ++ [id] } :=
    h.setMap h.services (fun hc j hj => List.mem_append_left _ (h.unstarted hc j hj)) h.settled
      h.silent
  have hempty := h.watched id hg
  exact hmap.setSink (fun _ => by simp) (fun _ => hle) (fun he => by cases he) (fun _ _ => by simp)
    (fun _ => .inl hempty) fun _ => .inr ⟨hempty, rfl⟩

theorem Ending.setLeader {c : Option (Cast LeaderEvent)} (h : Ending s)
    (hc : ∀ c', c = some c' → s.stopped p = false ∧
      ∀ id ∈ c'.todo, (s.sinks id).goroutine ≠ .unwatched) : Ending (s.setLeader p c) := by
  refine ⟨h.allocated, h.watched, fun q c' hq => ?_, h.member, h.services, h.unstarted, h.settled,
    h.silent⟩
  by_cases hqp : q = p
  · subst hqp
    exact hc c' (by simpa [Hub.setLeader] using hq)
  · exact h.leader q c' (by simpa [Hub.setLeader, Function.update_of_ne hqp] using hq)

theorem Ending.setMember {c : Option (Cast MembershipEvent)} (h : Ending s)
    (hc : ∀ c', c = some c' → s.membersStopped = false ∧
      ∀ id ∈ c'.todo, (s.sinks id).goroutine ≠ .unwatched) : Ending { s with member := c } :=
  ⟨h.allocated, h.watched, h.leader, hc, h.services, h.unstarted, h.settled, h.silent⟩

/-- A goroutine of the service that has not returned is waited for. -/
theorem Ending.leader_not_ended {c : Cast LeaderEvent} (h : Ending s) (hc : s.leader p = some c) :
    s.closing.servicesEnded = false := by
  by_contra he
  have hstopped := (h.services (by simpa using he)).1 p
  rw [(h.leader p c hc).1] at hstopped
  cases hstopped

theorem Ending.member_not_ended {c : Cast MembershipEvent} (h : Ending s)
    (hc : s.member = some c) : s.closing.servicesEnded = false := by
  by_contra he
  have hstopped := (h.services (by simpa using he)).2
  rw [(h.member c hc).1] at hstopped
  cases hstopped

theorem Ending.step (h : Ending s) (hsound : Sound s) (hst : Settled s l)
    (hs : step s l = some t) : Ending t := by
  cases moves_of_step hs with
  | unregistered => exact h
  | allocate =>
    exact ⟨fun id hid => Nat.le_succ_of_le (h.allocated id hid), h.watched, h.leader, h.member,
      h.services, h.unstarted, h.settled, h.silent⟩
  | register id hle hg => exact h.register hle hg
  | startGoroutine id hg => exact h.goto (by simp [hg]) (by simp [hg]) rfl rfl
  | removeListener id hg hm =>
    refine h.setMap h.services ?_ h.settled h.silent
    intro hc j hj
    have hne : j ≠ id := by
      rintro rfl
      rw [hj] at hg
      cases hg
    exact (List.mem_erase_of_ne hne).mpr (h.unstarted hc j hj)
  | closeRemoved id hm =>
    exact Ending.closeSink (h.setMap h.services h.unstarted h.settled h.silent)
  | closeListener id todo hc hm =>
    refine Ending.closeSink (h.setMap (fun _ => h.services (by rw [hc]; rfl))
      (fun he => by cases he) (fun _ => h.settled (by rw [hc]; rfl)) (fun he => by cases he))
  | broadcastLeader ev order hp hrun ho =>
    refine h.setLeader fun c hc => ?_
    cases hc
    exact ⟨hrun, fun id hid => hsound.registered id (ho.subset hid)⟩
  | enqueueLeader p b c id rest k next hc ht hk =>
    obtain ⟨ch, rfl⟩ := enqueueLeader_frame hk
    obtain ⟨hrun, htodo⟩ := h.leader p c hc
    have hsink := h.enqueue (k := { s.sinks id with leaderCh := ch }) (htodo id (by simp [ht])) rfl
      (h.leader_not_ended hc)
    refine hsink.setLeader fun c' hc' => ?_
    cases hc'
    refine ⟨hrun, fun j hj => ?_⟩
    exact (hsink.leader p c hc).2 j ((c.todo_next_sublist next).subset hj)
  | returnLeader p c hc ht => exact h.setLeader fun c' hc' => by cases hc'
  | broadcastMember ev order hm hrun ho =>
    refine h.setMember fun c hc => ?_
    cases hc
    exact ⟨hrun, fun id hid => hsound.registered id (ho.subset hid)⟩
  | enqueueMembership b c id rest k next hc ht hk =>
    obtain ⟨ch, rfl⟩ := enqueueMembership_frame hk
    obtain ⟨hrun, htodo⟩ := h.member c hc
    have hsink := h.enqueue (k := { s.sinks id with memberCh := ch }) (htodo id (by simp [ht])) rfl
      (h.member_not_ended hc)
    refine hsink.setMember fun c' hc' => ?_
    cases hc'
    refine ⟨hrun, fun j hj => ?_⟩
    exact (hsink.member c hc).2 j ((c.todo_next_sublist next).subset hj)
  | returnMember c hc ht => exact h.setMember fun c' hc' => by cases hc'
  | block id hg hl hd => exact h.goto (by simp [hg]) (by simp [hg]) rfl rfl
  | takeLeader id ev hg hl =>
    refine h.setGoroutine (Goroutine.ne_of_selects hg) rfl fun hc => ?_
    obtain hret | ⟨he, -⟩ := h.silent hc id
    · rw [hret] at hg
      cases hg
    · rw [he.1] at hl
      cases hl
  | takeMember id ev queue hg hl =>
    refine h.setGoroutine (by simp [hg]) rfl fun hc => ?_
    obtain hret | ⟨he, -⟩ := h.silent hc id
    · rw [hret] at hg
      cases hg
    · rw [he.2] at hl
      cases hl
  | seeDone id hg hd =>
    exact h.setGoroutine (Goroutine.ne_of_selects hg) rfl fun _ => .inl rfl
  | finishLeader id ev hg => exact h.goto (by simp [hg]) (by simp [hg]) rfl rfl
  | finishMember id ev hg => exact h.goto (by simp [hg]) (by simp [hg]) rfl rfl
  | cancel hc =>
    refine h.setMap (fun he => by cases he) (fun _ => h.unstarted (by rw [hc]; rfl))
      (fun he => by cases he) fun he => by cases he
  | stopProducer q hp hc =>
    refine ⟨h.allocated, h.watched, fun r c hr => ?_, h.member, fun he => ?_, h.unstarted,
      h.settled, h.silent⟩
    · obtain ⟨hrun, htodo⟩ := h.leader r c hr
      have hne : r ≠ q := by
        rintro rfl
        rw [hp] at hr
        cases hr
      exact ⟨by simpa [Function.update_of_ne hne] using hrun, htodo⟩
    · refine ⟨fun r => ?_, (h.services he).2⟩
      by_cases hr : r = q
      · simp [hr]
      · simpa [Function.update_of_ne hr] using (h.services he).1 r
  | stopMembers hm =>
    refine ⟨h.allocated, h.watched, h.leader, fun c hc => ?_, fun he => ⟨(h.services he).1, rfl⟩,
      h.unstarted, h.settled, h.silent⟩
    rw [hm] at hc
    cases hc
  | waitServices hc hp hm =>
    exact h.setMap (fun _ => ⟨hp, hm⟩) (fun _ => h.unstarted (by rw [hc]; rfl))
      (fun he => by cases he) fun he => by cases he
  | removeAll hc =>
    refine h.setMap (fun _ => h.services (by rw [hc]; rfl)) (fun he => by cases he) ?_
      fun he => by cases he
    -- no `Watch` is half done, so a listener that something waits for has its goroutine
    intro _ id
    cases hg : (s.sinks id).goroutine with
    | unwatched => exact .inl (h.watched id hg)
    | unstarted => exact absurd hg (hst rfl id (h.unstarted (by rw [hc]; rfl) id hg))
    | _ => exact .inr rfl
  | waitListeners hc hw =>
    have hempty : ∀ id, (s.sinks id).Empty ∨ (s.sinks id).goroutine.watched = true :=
      h.settled (by rw [hc]; rfl)
    refine h.setMap (fun _ => h.services (by rw [hc]; rfl)) (fun he => by cases he)
      (fun _ => hempty) fun _ id => ?_
    cases hg : (s.sinks id).goroutine with
    | unwatched => exact .inr ⟨h.watched id hg, rfl⟩
    | unstarted =>
      refine .inr ⟨?_, rfl⟩
      obtain he | hrun := hempty id
      · exact he
      · rw [hg] at hrun
        cases hrun
    | returned => exact .inl rfl
    | _ =>
      have hrun := hw id (h.allocated id (by simp [hg]))
      rw [hg] at hrun
      cases hrun

/-- Once `Close` has returned no callback of any listener is running, and none starts, if no
`Watch` is half done when `closeAllListeners` takes the map. -/
theorem no_callback_after_close (h : Reach (Fires step) Settled Hub.start s)
    (hc : s.closing = .closed) (id : Nat) : (s.sinks id).goroutine.inCallback = false := by
  have hending := h.invariant (I := fun s => Sound s ∧ Ending s) ⟨sound_start, ending_start⟩ ?_
  · obtain hret | ⟨-, hidle⟩ := hending.2.silent hc id
    · rw [hret]
      rfl
    · exact hidle
  · rintro s l t ⟨hsound, hending⟩ hst hs
    exact ⟨hsound.step hs, hending.step hsound hst hs⟩

def watchAndClose : List Label :=
  [.allocate, .register 1, .startGoroutine 1,
    .broadcastLeader ⟨.leaderElected, "a", 2⟩ [1], .enqueueLeader .observeLeader false,
    .enqueueLeader .observeLeader false, .returnLeader .observeLeader, .takeLeader 1, .cancel,
    .stopProducer .campaign, .stopProducer .observeLeader, .stopMembers, .waitServices, .finish 1,
    .removeAll, .closeListener 1, .seeDone 1, .waitListeners]

theorem watchAndClose_silent : ∃ s : Hub, Reach (Fires step) Settled Hub.start s ∧
    s.closing = .closed ∧ (s.sinks 1).goroutine.inCallback = false := by
  have hrun : ∃ s, replay (guarded (fun s l => l ≠ .removeAll ||
      s.listeners.all fun id => (s.sinks id).goroutine ≠ .unstarted) step) watchAndClose
      Hub.start = some s ∧ s.closing = .closed := ⟨_, rfl, rfl⟩
  obtain ⟨s, hs, hc⟩ := hrun
  have hreach : Reach (Fires step) Settled Hub.start s := by
    refine Reach.of_guarded (fun s l hp he => ?_) (reach_of_replay hs)
    simpa [he] using hp
  exact ⟨s, hreach, hc, no_callback_after_close hreach hc 1⟩

-- A `Watch` that is half done then: its goroutine may still take an event that was broadcast, after
-- `Close` has returned.
example : (replay step [.allocate, .register 1,
    .broadcastLeader ⟨.leaderElected, "a", 2⟩ [1], .enqueueLeader .observeLeader false,
    .enqueueLeader .observeLeader false, .returnLeader .observeLeader, .cancel,
    .stopProducer .campaign, .stopProducer .observeLeader, .stopMembers, .waitServices,
    .removeAll, .closeListener 1, .waitListeners, .startGoroutine 1, .takeLeader 1]
    Hub.start).map (fun s => (s.closing, (s.sinks 1).goroutine)) =
      some (.closed, .onLeaderChange ⟨.leaderElected, "a", 2⟩) := rfl

end Close

end Leibrix.ListenerHub

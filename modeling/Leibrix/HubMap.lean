import Leibrix.ListenerHub
import Mathlib.Data.List.Nodup

/-! What the map of listeners and the sinks have in common. A sink is put into the map once,
by `Watch`; only one that has left the map is closed; and a broadcast serves no sink twice. -/
namespace Leibrix.ListenerHub
open Leibrix.Election
open Leibrix.Listeners (Producer MembershipEvent)

structure Sound (s : Hub) : Prop where
  -- what the map and the sinks have in common
  nodup : s.listeners.Nodup
  registered : ∀ id ∈ s.listeners, (s.sinks id).goroutine ≠ .unwatched
  closed : ∀ id, (s.sinks id).done = true →
    (s.sinks id).goroutine ≠ .unwatched ∧ id ∉ s.listeners
  removing : ∀ id ∈ s.removing, (s.sinks id).goroutine ≠ .unwatched ∧ id ∉ s.listeners
  closing : ∀ todo, s.closing = .closingListeners todo → ∀ id ∈ todo,
    (s.sinks id).goroutine ≠ .unwatched ∧ id ∉ s.listeners
  leader : ∀ p c, s.leader p = some c → c.todo.Nodup
  member : ∀ c, s.member = some c → c.todo.Nodup

theorem sound_start : Sound Hub.start := by
  constructor <;> simp [Hub.start]

theorem Goroutine.ne_of_selects {g : Goroutine} (hg : g.selects = true) : g ≠ .unwatched := by
  rintro rfl
  cases hg

section Sound
variable {s t : Hub} {id : Nat} {k : Sink}

@[simp] theorem sinks_setSink (s : Hub) (id : Nat) (k : Sink) :
    (s.setSink id k).sinks = Function.update s.sinks id k := rfl

/-- A sink changes that stays watched, and is closed only if it is out of the map. -/
theorem Sound.setSink (h : Sound s) (hg : (s.sinks id).goroutine ≠ .unwatched →
      k.goroutine ≠ .unwatched)
    (hd : k.done = true → k.goroutine ≠ .unwatched ∧ id ∉ s.listeners) :
    Sound (s.setSink id k) := by
  have hw : ∀ j, (s.sinks j).goroutine ≠ .unwatched →
      ((s.setSink id k).sinks j).goroutine ≠ .unwatched := by
    intro j hj
    by_cases hji : j = id
    · subst hji
      simpa using hg hj
    · simpa [Function.update_of_ne hji] using hj
  refine ⟨h.nodup, fun j hj => hw j (h.registered j hj), fun j hj => ?_,
    fun j hj => ⟨hw j (h.removing j hj).1, (h.removing j hj).2⟩,
    fun todo ht j hj => ⟨hw j (h.closing todo ht j hj).1, (h.closing todo ht j hj).2⟩,
    h.leader, h.member⟩
  by_cases hji : j = id
  · subst hji
    simp only [sinks_setSink, Function.update_self] at hj ⊢
    exact hd hj
  · simp only [sinks_setSink, Function.update_of_ne hji] at hj ⊢
    exact h.closed j hj

theorem Sound.setGoroutine {g : Goroutine} (h : Sound s) (hg : g ≠ .unwatched) :
    Sound (s.setGoroutine id g) :=
  h.setSink (fun _ => hg) fun hd => ⟨hg, (h.closed id hd).2⟩

theorem Sound.closeSink (h : Sound s) (hg : (s.sinks id).goroutine ≠ .unwatched)
    (hl : id ∉ s.listeners) : Sound (s.closeSink id) :=
  h.setSink (fun hw => hw) fun _ => ⟨hg, hl⟩

theorem Sound.setLeader {p : Producer} {c : Option (Cast LeaderEvent)} (h : Sound s)
    (hc : ∀ c', c = some c' → c'.todo.Nodup) : Sound (s.setLeader p c) := by
  refine ⟨h.nodup, h.registered, h.closed, h.removing, h.closing, fun q c' hq => ?_, h.member⟩
  by_cases hqp : q = p
  · subst hqp
    exact hc c' (by simpa [Hub.setLeader] using hq)
  · exact h.leader q c' (by simpa [Hub.setLeader, Function.update_of_ne hqp] using hq)

theorem Sound.sublist {listeners removing : List Nat} {closing : Closing} (h : Sound s)
    (hl : listeners.Sublist s.listeners)
    (hr : ∀ id ∈ removing, (s.sinks id).goroutine ≠ .unwatched ∧ id ∉ listeners)
    (hc : ∀ todo, closing = .closingListeners todo → ∀ id ∈ todo,
      (s.sinks id).goroutine ≠ .unwatched ∧ id ∉ listeners) :
    Sound { s with listeners := listeners, removing := removing, closing := closing } :=
  ⟨h.nodup.sublist hl, fun id hid => h.registered id (hl.subset hid),
    fun id hid => ⟨(h.closed id hid).1, fun hm => (h.closed id hid).2 (hl.subset hm)⟩,
    hr, hc, h.leader, h.member⟩

/-- An `enqueue` works on the channels. -/
theorem enqueueLeader_frame {k k' : Sink} {ev : LeaderEvent} {b : Bool} {st : Stage}
    {next : Option Stage} (h : k.enqueueLeader ev b st = some (k', next)) :
    ∃ ch, k' = { k with leaderCh := ch } := by
  unfold Sink.enqueueLeader at h
  split at h
  · cases h
    exact ⟨_, rfl⟩
  · split at h <;> cases h <;> exact ⟨_, rfl⟩
  · cases h
    exact ⟨_, rfl⟩
  · split at h
    · split at h
      · split at h
        · cases h
          exact ⟨_, rfl⟩
        · cases h
      · cases h
        exact ⟨_, rfl⟩
    · cases h
      exact ⟨_, rfl⟩

theorem enqueueMembership_frame {k k' : Sink} {ev : MembershipEvent} {b : Bool} {st : Stage}
    {next : Option Stage} (h : k.enqueueMembership ev b st = some (k', next)) :
    ∃ ch, k' = { k with memberCh := ch } := by
  unfold Sink.enqueueMembership at h
  split at h
  · cases h
    exact ⟨_, rfl⟩
  · split at h
    · split at h
      · split at h
        · cases h
          exact ⟨_, rfl⟩
        · cases h
      · cases h
        exact ⟨_, rfl⟩
    · cases h
      exact ⟨_, rfl⟩
  · cases h
  · cases h

theorem Cast.todo_next_sublist {ε : Type} (c : Cast ε) (next : Option Stage) :
    (c.next next).todo.Sublist c.todo := by
  cases next with
  | none => exact List.tail_sublist c.todo
  | some st => exact List.Sublist.refl _

/-- `Watch` puts a sink into the map that was never there before. -/
theorem Sound.register (h : Sound s) (hg : (s.sinks id).goroutine = .unwatched) :
    Sound ({ s with listeners := s.listeners ++ [id] }.setGoroutine id .unstarted) := by
  have hnew : id ∉ s.listeners := fun hm => h.registered id hm hg
  -- a sink that has been watched is another one
  have hne : ∀ j, (s.sinks j).goroutine ≠ .unwatched ∧ j ∉ s.listeners →
      j ≠ id ∧ j ∉ s.listeners ++ [id] := by
    intro j hj
    have hji : j ≠ id := by
      rintro rfl
      exact hj.1 hg
    exact ⟨hji, by simp [hj.2, hji]⟩
  have hw : ∀ j, (s.sinks j).goroutine ≠ .unwatched ∧ j ∉ s.listeners →
      ((s.setGoroutine id .unstarted).sinks j).goroutine ≠ .unwatched ∧
        j ∉ s.listeners ++ [id] := by
    intro j hj
    refine ⟨?_, (hne j hj).2⟩
    simpa [Hub.setGoroutine, Function.update_of_ne (hne j hj).1] using hj.1
  refine ⟨?_, fun j hj => ?_, fun j hj => ?_, fun j hj => hw j (h.removing j hj),
    fun todo ht j hj => hw j (h.closing todo ht j hj), h.leader, h.member⟩
  · exact h.nodup.append (List.nodup_singleton id) (by simpa using hnew)
  · by_cases hji : j = id
    · simp [hji, Hub.setGoroutine]
    · have hj : j ∈ s.listeners := by simpa [Hub.setGoroutine, Hub.setSink, hji] using hj
      simpa [Hub.setGoroutine, Function.update_of_ne hji] using h.registered j hj
  · by_cases hji : j = id
    · subst hji
      have hd : (s.sinks j).done = true := by simpa [Hub.setGoroutine] using hj
      exact absurd hg (h.closed j hd).1
    · have hd : (s.sinks j).done = true := by
        simpa [Hub.setGoroutine, Function.update_of_ne hji] using hj
      exact hw j (h.closed j hd)

theorem Sound.step {l : Label} (h : Sound s) (hs : step s l = some t) : Sound t := by
  cases moves_of_step hs with
  | allocate | stopProducer | stopMembers =>
    exact ⟨h.nodup, h.registered, h.closed, h.removing, h.closing, h.leader, h.member⟩
  | cancel | waitServices | waitListeners =>
    exact h.sublist (List.Sublist.refl _) h.removing fun todo ht => by cases ht
  | unregistered => exact h
  | register id hle hg => exact h.register hg
  | startGoroutine | block | seeDone | finishLeader | finishMember =>
    exact h.setGoroutine (by simp)
  | takeLeader id ev hg hl =>
    exact h.setSink (by simp) fun hd => ⟨by simp, (h.closed id hd).2⟩
  | takeMember id ev rest hg hl =>
    exact h.setSink (by simp) fun hd => ⟨by simp, (h.closed id hd).2⟩
  | removeListener id hg hm =>
    have hgone : id ∉ s.listeners.erase id := h.nodup.not_mem_erase
    refine h.sublist List.erase_sublist (fun j hj => ?_) fun todo ht j hj => ?_
    · cases List.mem_append.mp hj with
      | inl hj =>
        obtain ⟨hw, hl⟩ := h.removing j hj
        exact ⟨hw, fun hm' => hl (List.mem_of_mem_erase hm')⟩
      | inr hj =>
        obtain rfl := List.mem_singleton.mp hj
        exact ⟨h.registered j hm, hgone⟩
    · obtain ⟨hw, hl⟩ := h.closing todo ht j hj
      exact ⟨hw, fun hm' => hl (List.mem_of_mem_erase hm')⟩
  | closeRemoved id hm =>
    obtain ⟨hg, hl⟩ := h.removing id hm
    refine Sound.closeSink (h.sublist (List.Sublist.refl _) (fun j hj => ?_) h.closing) hg hl
    exact h.removing j (List.mem_of_mem_erase hj)
  | broadcastLeader ev order hp hs ho =>
    refine h.setLeader fun c hc => ?_
    cases hc
    exact ho.nodup_iff.mpr h.nodup
  | enqueueLeader p b c id rest k next hc ht hk =>
    obtain ⟨ch, rfl⟩ := enqueueLeader_frame hk
    refine Sound.setLeader (h.setSink (fun hw => hw) (h.closed id)) fun c' hc' => ?_
    cases hc'
    exact (h.leader p c hc).sublist (c.todo_next_sublist next)
  | returnLeader => exact h.setLeader fun c hc => by cases hc
  | broadcastMember ev order hm hs ho =>
    refine ⟨h.nodup, h.registered, h.closed, h.removing, h.closing, h.leader, fun c hc => ?_⟩
    cases hc
    exact ho.nodup_iff.mpr h.nodup
  | enqueueMembership b c id rest k next hc ht hk =>
    obtain ⟨ch, rfl⟩ := enqueueMembership_frame hk
    have hsink : Sound (s.setSink id { s.sinks id with memberCh := ch }) :=
      h.setSink (fun hw => hw) (h.closed id)
    refine ⟨hsink.nodup, hsink.registered, hsink.closed, hsink.removing, hsink.closing,
      hsink.leader, fun c' hc' => ?_⟩
    cases hc'
    exact (h.member c hc).sublist (c.todo_next_sublist next)
  | returnMember =>
    refine ⟨h.nodup, h.registered, h.closed, h.removing, h.closing, h.leader, fun c hc => ?_⟩
    cases hc
  | removeAll hc =>
    refine h.sublist (List.nil_sublist _) (fun j hj => ⟨(h.removing j hj).1, by simp⟩) ?_
    intro todo ht j hj
    cases ht
    exact ⟨h.registered j hj, by simp⟩
  | closeListener id todo hc hm =>
    obtain ⟨hg, hl⟩ := h.closing todo hc id hm
    refine Sound.closeSink (h.sublist (List.Sublist.refl _) h.removing ?_) hg hl
    intro todo' ht j hj
    cases ht
    exact h.closing todo hc j (List.mem_of_mem_erase hj)

end Sound

end Leibrix.ListenerHub

import Leibrix.Transition
import Leibrix.WorkerStreams

/-! What `handleLeaderEvent` achieves when the node is no longer the leader. It closes
the sessions that are in the `SessionManager`; a stream that has not registered yet, or
passes `requireLeader` late, is not among them. -/
namespace Leibrix.WorkerStreams
open Leibrix.Transition

variable {ι : Type} [DecidableEq ι]

def Pc.underway {ι : Type} : Pc ι → Bool
  -- between `requireLeader` and the session, or between a `RegisterEvent` and the map
  | .admitted | .taken (.register _) => true
  | _ => false

structure Demotion (ι : Type) where
  -- a record of the leader events that are not "this node elected"
  -- such an event has been handled, and the node has not been elected since
  inForce : Bool := false
  -- the streams opened before the event that is being handled
  marked : ι → Bool := fun _ => false
  -- the streams opened before the last event that has been handled
  old : ι → Bool := fun _ => false
  -- the stream took its message while such an event it was opened before was in force
  takenLate : ι → Bool := fun _ => false
  dispatchedLate : ι → Bool := fun _ => false

def demotion (s : Sys ι) (l : Label ι) (d : Demotion ι) : Demotion ι :=
  match l with
  | .elected => { d with inForce := false }
  | .callClose k => if k = 0 then { d with marked := fun i => s.pc i ≠ .idle } else d
  | .reset k => if k = 0 then { d with inForce := true, old := d.marked } else d
  | .take i _ => { d with takenLate := Function.update d.takenLate i (d.inForce && d.old i) }
  | .dispatch i =>
    { d with dispatchedLate := fun j => d.dispatchedLate j || (j = i && d.takenLate j) }
  | _ => d

def Busy (s : Sys ι × Demotion ι) : Prop := s.2.inForce = true ∨ s.1.closers 0 ≠ .resting

def Orderly (s : Sys ι × Demotion ι) : Label ι → Prop
  -- The conditions under which a leadership loss stops coordination: it strikes when every open
  -- session is in the map and no stream is underway to one; from then to the next election no
  -- stream passes `requireLeader` and no loop takes a message over `Done`; and while the map is
  -- closed, no `RegisterEvent` is taken and no `Unregister` removes an open session. Only
  -- `handleLeaderEvent` calls `SessionManager.Close`.
  | .callClose k => k = 0 ∧ ∀ i, (s.1.pc i).underway = false ∧
    ((s.1.pc i).started = true → s.1.closed i = true ∨ ∃ w, s.1.get w = some i)
  | .openStream _ => Busy s → s.1.isLeader = false
  | .take i msg => Busy s → s.1.closed i = false ∧ (s.1.closers 0 ≠ .resting → msg = .other)
  | .unregister i => s.1.closers 0 ≠ .resting → s.1.workerId i ≠ "" →
    ∀ j, s.1.get (s.1.workerId i) = some j → s.1.closed j = true
  | _ => True

structure Stopping (s : Sys ι) (d : Demotion ι) : Prop where
  alone : ∀ k, k ≠ 0 → s.closers k = .resting
  ranging : ∀ must visited, s.closers 0 = .ranging must visited → ∀ i,
    (s.pc i).underway = false ∧ ((s.pc i).started = true → s.closed i = true ∨
      ∃ w ∈ must, w ∉ visited ∧ s.get w = some i)
  stopped : d.inForce = true ∨ s.closers 0 = .cleared → s.sessions = ∅ ∧ ∀ i,
    (s.pc i).underway = false ∧ ((s.pc i).started = true → s.closed i = true)
  notTaken : ∀ i, d.takenLate i = false
  notDispatched : ∀ i, d.dispatchedLate i = false

variable {s t : Sys ι} {l : Label ι} {d d' : Demotion ι}

theorem Sys.closed_close (s : Sys ι) (i : ι) {j : ι} (h : s.closed j = true) :
    (s.close i).closed j = true := by
  by_cases hji : j = i
  · simp [Sys.close, hji]
  · simpa [Sys.close, Function.update_of_ne hji] using h

omit [DecidableEq ι] in
theorem Stopping.eq_zero (h : Stopping s d) {k : Nat} (hk : s.closers k ≠ .resting) : k = 0 := by
  by_contra hne
  exact hk (h.alone k hne)

omit [DecidableEq ι] in
theorem Stopping.frame (h : Stopping s d) (hsess : t.sessions = s.sessions)
    (hcl : t.closers = s.closers) (hclosed : ∀ i, s.closed i = true → t.closed i = true)
    (hpc : ∀ i, ((s.pc i).underway = false → (t.pc i).underway = false) ∧
      ((t.pc i).started = true → (s.pc i).started = true)) : Stopping t d where
  alone k hk := by rw [hcl, h.alone k hk]
  ranging must visited hr i := by
    rw [hcl] at hr
    obtain ⟨hu, hs⟩ := h.ranging must visited hr i
    refine ⟨(hpc i).1 hu, fun ht => ?_⟩
    cases hs ((hpc i).2 ht) with
    | inl hc => exact .inl (hclosed i hc)
    | inr hw => exact .inr (by simpa only [Sys.get, hsess] using hw)
  stopped hd := by
    rw [hcl] at hd
    obtain ⟨he, hall⟩ := h.stopped hd
    exact ⟨hsess.trans he, fun i => ⟨(hpc i).1 (hall i).1,
      fun ht => hclosed i ((hall i).2 ((hpc i).2 ht))⟩⟩
  notTaken := h.notTaken
  notDispatched := h.notDispatched

theorem Stopping.goto {u : Sys ι} {i : ι} {pc : Pc ι} (h : Stopping s d)
    (hsess : u.sessions = s.sessions) (hcl : u.closers = s.closers) (hp : u.pc = s.pc)
    (hclosed : ∀ i, s.closed i = true → u.closed i = true)
    (hu : pc.underway = false) (hs : pc.started = true → (s.pc i).started = true) :
    Stopping (u.goto i pc) d := by
  refine h.frame hsess hcl hclosed fun j => ?_
  by_cases hji : j = i
  · subst hji
    simpa [Sys.goto] using ⟨fun _ => hu, hs⟩
  · simp [Sys.goto, Function.update_of_ne hji, hp]

omit [DecidableEq ι] in
theorem Stopping.calm (h : Stopping s d) (hcl : t.closers = s.closers)
    (hb : ¬ Busy (s, d)) : Stopping t d := by
  have hk : s.closers 0 = .resting := by
    by_contra hne
    exact hb (.inr hne)
  refine ⟨fun k hk' => by rw [hcl, h.alone k hk'], fun must visited hr => ?_, fun hd => ?_,
    h.notTaken, h.notDispatched⟩
  · simp [hcl, hk] at hr
  · cases hd with
    | inl hd => exact absurd (.inl hd) hb
    | inr hd => simp [hcl, hk] at hd

omit [DecidableEq ι] in
/-- No stream is underway while an event is being handled or in force. -/
theorem Stopping.underway_of_busy (h : Stopping s d) (hb : Busy (s, d)) (i : ι) :
    (s.pc i).underway = false := by
  cases hk : s.closers 0 with
  | ranging must visited => exact (h.ranging must visited hk i).1
  | cleared => exact ((h.stopped (.inr hk)).2 i).1
  | resting =>
    cases hb with
    | inl hd => exact ((h.stopped (.inl hd)).2 i).1
    | inr hne => exact absurd hk hne

theorem Stopping.take {i : ι} {msg : Message} (h : Stopping s d)
    (hpc : s.pc i = .receiving)
    (hc : Busy (s, d) → s.closed i = false ∧ (s.closers 0 ≠ .resting → msg = .other)) :
    Stopping (s.goto i (.taken msg)) (demotion s (.take i msg) d) := by
  have hlate : d.inForce = false := by
    by_contra hd
    have hd : d.inForce = true := by simpa using hd
    -- a stream that is still in its loop would have an open session
    have hopen := (hc (.inl hd)).1
    have hclosed := ((h.stopped (.inl hd)).2 i).2 (by rw [hpc]; rfl)
    simp [hopen] at hclosed
  have hgoto : Stopping (s.goto i (.taken msg)) d := by
    by_cases hk : s.closers 0 = .resting
    · exact h.calm rfl (by simp [Busy, hlate, hk])
    · obtain rfl : msg = .other := (hc (.inr hk)).2 hk
      exact h.goto rfl rfl rfl (fun _ h => h) rfl fun _ => by rw [hpc]; rfl
  refine ⟨hgoto.alone, hgoto.ranging, hgoto.stopped, fun j => ?_, hgoto.notDispatched⟩
  by_cases hji : j = i
  · simp [demotion, hji, hlate]
  · simpa [demotion, Function.update_of_ne hji] using h.notTaken j

theorem Stopping.unregister {i : ι} (h : Stopping s d)
    (hpc : s.pc i = .leaving)
    (hc : s.closers 0 ≠ .resting → s.workerId i ≠ "" →
      ∀ j, s.get (s.workerId i) = some j → s.closed j = true) :
    Stopping (s.loadAndDelete i) d := by
  by_cases hskip : s.workerId i = "" ∨ s.sessions.lookup (s.workerId i) = none
  · rw [Sys.loadAndDelete, if_pos hskip]
    exact h.goto rfl rfl rfl (fun _ h => h) rfl fun _ => by rw [hpc]; rfl
  · rw [Sys.loadAndDelete, if_neg hskip]
    have hid : s.workerId i ≠ "" := fun he => hskip (.inl he)
    have hpcs : ∀ j, ((s.pc j).underway = false →
          (Function.update s.pc i .uncounting j).underway = false) ∧
        ((Function.update s.pc i .uncounting j).started = true → (s.pc j).started = true) := by
      intro j
      by_cases hji : j = i
      · subst hji
        simp [hpc, Pc.underway, Pc.started]
      · simp [Function.update_of_ne hji]
    refine ⟨fun k hk => by simp [h.alone k hk, Closing.forget], fun must visited hr j => ?_,
      fun hd => ?_, h.notTaken, h.notDispatched⟩
    · cases hk : s.closers 0 with
      | resting | cleared => simp [hk, Closing.forget] at hr
      | ranging must₀ visited₀ =>
        obtain ⟨rfl, rfl⟩ : must₀.erase (s.workerId i) = must ∧ visited₀ = visited := by
          simpa [hk, Closing.forget] using hr
        obtain ⟨hu, hs⟩ := h.ranging must₀ visited₀ hk j
        refine ⟨(hpcs j).1 hu, fun ht => ?_⟩
        cases hs ((hpcs j).2 ht) with
        | inl hcl => exact .inl hcl
        | inr hw =>
          obtain ⟨w, hm, hv, hget⟩ := hw
          by_cases hwid : w = s.workerId i
          · subst hwid
            exact .inl (hc (by simp [hk]) hid j hget)
          · exact .inr ⟨w, Finset.mem_erase.mpr ⟨hwid, hm⟩, hv,
              by simpa [Sys.get, Finmap.lookup_erase_ne hwid] using hget⟩
    · -- an entry was found, so the map has not been cleared
      have hd' : d.inForce = true ∨ s.closers 0 = .cleared := by
        refine hd.imp_right fun hk => ?_
        cases hk' : s.closers 0 <;> simp [hk', Closing.forget] at hk ⊢
      have he := (h.stopped hd').1
      exact absurd (.inr (by simp [he])) hskip

/-- The event strikes: all that is open is what `Range` must come to. -/
theorem Stopping.begin (h : Stopping s d) (hc : Orderly (s, d) (.callClose 0)) :
    Stopping (s.setCloser 0 (.ranging s.sessions.keys ∅)) (demotion s (.callClose 0) d) := by
  refine ⟨fun k hk => by simpa [Sys.setCloser, Function.update_of_ne hk] using h.alone k hk,
    fun must visited hr i => ?_, fun hd => ?_, h.notTaken, h.notDispatched⟩
  · obtain ⟨rfl, rfl⟩ : s.sessions.keys = must ∧ ∅ = visited := by
      simpa [Sys.setCloser] using hr
    obtain ⟨hu, hs⟩ := hc.2 i
    refine ⟨hu, fun ht => (hs ht).imp_right fun ⟨w, hget⟩ => ⟨w, ?_, by simp, hget⟩⟩
    exact Finmap.mem_keys.mpr (Finmap.mem_of_lookup_eq_some hget)
  · exact h.stopped (.inl (by simpa [Sys.setCloser, demotion] using hd))

theorem Stopping.visit {w : String} {i : ι} {must visited : Finset String} (h : Stopping s d)
    (hk : s.closers 0 = .ranging must visited) (hw : s.sessions.lookup w = some i) :
    Stopping ((s.close i).setCloser 0 (.ranging must (insert w visited))) d := by
  refine ⟨fun k hk => by
      simpa [Sys.setCloser, Sys.close, Function.update_of_ne hk] using h.alone k hk,
    fun must' visited' hr j => ?_, fun hd => ?_, h.notTaken, h.notDispatched⟩
  · obtain ⟨rfl, rfl⟩ : must = must' ∧ insert w visited = visited' := by
      simpa [Sys.setCloser] using hr
    obtain ⟨hu, hs⟩ := h.ranging must visited hk j
    refine ⟨hu, fun ht => ?_⟩
    cases hs ht with
    | inl hcl => exact .inl (s.closed_close i hcl)
    | inr hex =>
      obtain ⟨w', hm, hv, hget⟩ := hex
      by_cases hww : w' = w
      · -- the session just visited is closed
        subst hww
        obtain rfl : i = j := Option.some.inj (hw.symm.trans hget)
        exact .inl (by simp [Sys.setCloser, Sys.close])
      · exact .inr ⟨w', hm, by simp [hww, hv], hget⟩
  · have hd' : d.inForce = true := by simpa [Sys.setCloser] using hd
    simp [(h.stopped (.inl hd')).1] at hw

omit [DecidableEq ι] in
/-- `Range` has been everywhere, so every session is closed when the map is cleared. -/
theorem Stopping.clear {must visited : Finset String} (h : Stopping s d)
    (hk : s.closers 0 = .ranging must visited) (hv : must ⊆ visited) :
    Stopping (s.clearAll 0) d := by
  refine ⟨fun k hk' => ?_, fun must' visited' hr => ?_, fun _ => ⟨rfl, fun i => ?_⟩,
    h.notTaken, h.notDispatched⟩
  · simp [Sys.clearAll, Function.update_of_ne hk', h.alone k hk', Closing.forgetAll]
  · simp [Sys.clearAll] at hr
  · obtain ⟨hu, hs⟩ := h.ranging must visited hk i
    refine ⟨hu, fun ht => (hs ht).elim id fun ⟨w, hm, hn, _⟩ => absurd (hv hm) hn⟩

theorem Stopping.finish (h : Stopping s d) (hk : s.closers 0 = .cleared) :
    Stopping ({ s with sessionCnt := 0 }.setCloser 0 .resting) (demotion s (.reset 0) d) := by
  refine ⟨fun k hk' => by simpa [Sys.setCloser, Function.update_of_ne hk'] using h.alone k hk',
    fun must visited hr => ?_, fun _ => h.stopped (.inr hk), h.notTaken, h.notDispatched⟩
  simp [Sys.setCloser] at hr

theorem Stopping.step (h : Stopping s d) (hc : Orderly (s, d) l) (hm : Moves s l t) :
    Stopping t (demotion s l d) := by
  cases hm with
  | leadership | hangUp => exact h.frame rfl rfl (fun _ h => h) fun _ => ⟨id, id⟩
  | sendFails i => exact h.frame rfl rfl (fun _ => s.closed_close i) fun _ => ⟨id, id⟩
  | elected hk =>
    exact ⟨h.alone, h.ranging, fun hd => by simp [demotion, hk] at hd, h.notTaken,
      h.notDispatched⟩
  | openStream i hpc =>
    by_cases hb : Busy (s, d)
    · have hl : s.isLeader = false := hc hb
      simp only [hl]
      exact h.goto rfl rfl rfl (fun _ h => h) rfl fun hs => by cases hs
    · exact h.calm rfl hb
  | startSession i hpc =>
    refine h.calm rfl fun hb => ?_
    have hu := h.underway_of_busy hb i
    simp [hpc, Pc.underway] at hu
  | store i nodeId hpc =>
    refine h.calm rfl fun hb => ?_
    have hu := h.underway_of_busy hb i
    simp [hpc, Pc.underway] at hu
  | take i msg hpc => exact h.take hpc hc
  | unregister i hpc => exact h.unregister hpc hc
  | closeOld i old hpc =>
    exact h.goto rfl rfl rfl (fun _ => s.closed_close old) rfl fun _ => by rw [hpc]; rfl
  | count i hpc | leave i hpc | seeDone i hpc | uncount i hpc =>
    exact h.goto rfl rfl rfl (fun _ h => h) rfl fun _ => by rw [hpc]; rfl
  | closeOwn i hpc =>
    exact h.goto rfl rfl rfl (fun _ => s.closed_close i) rfl fun _ => by rw [hpc]; rfl
  | dispatch i hpc =>
    have hg : Stopping (s.goto i .receiving) d := by
      refine h.goto rfl rfl rfl (fun _ h => h) rfl fun _ => ?_
      cases hpc with
      | inl hpc | inr hpc =>
        rw [hpc]
        rfl
    exact ⟨hg.alone, hg.ranging, hg.stopped, hg.notTaken,
      fun j => by simp [demotion, h.notTaken j, h.notDispatched j]⟩
  | callClose k =>
    obtain rfl : k = 0 := hc.1
    exact h.begin hc
  | visit k w i must visited hk hw =>
    obtain rfl := h.eq_zero (k := k) (by simp [hk])
    exact h.visit hk hw
  | clear k must visited hk hv =>
    obtain rfl := h.eq_zero (k := k) (by simp [hk])
    exact h.clear hk hv
  | reset k hk =>
    obtain rfl := h.eq_zero (k := k) (by simp [hk])
    exact h.finish hk

/-- In every orderly run, from the end of the handling of a leadership loss to the next
election of this node: the session of every stream opened before is closed, no message
taken since is dispatched, and the `SessionManager` is empty. -/
theorem leadershipLoss_stops {s : Sys ι × Demotion ι}
    (h : Reach (Fires (recorded step demotion)) Orderly (Sys.start ι, {}) s)
    (hd : s.2.inForce = true) :
    (∀ i, s.2.old i = true → ((s.1.pc i).started = true → s.1.closed i = true) ∧
      s.2.dispatchedLate i = false) ∧ s.1.sessions = ∅ := by
  have hinv : Stopping s.1 s.2 := by
    refine h.invariant (I := fun s => Stopping s.1 s.2) ?_ ?_
    · exact ⟨fun _ _ => rfl, fun _ _ hr => (by cases hr), fun hd => (by simp [Sys.start] at hd),
        fun _ => rfl, fun _ => rfl⟩
    · intro u l v hu hc hs
      obtain ⟨t, ht, rfl⟩ := Option.map_eq_some_iff.mp hs
      exact hu.step hc (moves_of_step ht)
  obtain ⟨he, hall⟩ := hinv.stopped (.inl hd)
  exact ⟨fun i _ => ⟨(hall i).2, hinv.notDispatched i⟩, he⟩

def orderlySingle (s : Sys Unit × Demotion Unit) : Label Unit → Bool
  -- a test for orderly steps of one stream: a leadership loss strikes it registered, and it makes
  -- no conditional step while that is being handled or in force
  | .callClose k => k = 0 && !(s.1.pc ()).underway && (s.1.get "worker-1").isSome
  | .openStream _ | .take _ _ | .unregister _ => !s.2.inForce && s.1.closers 0 = .resting
  | _ => true

theorem orderly_of_orderlySingle (s : Sys Unit × Demotion Unit) (l : Label Unit)
    (h : orderlySingle s l = true) : Orderly s l := by
  cases l with
  | callClose k =>
    obtain ⟨⟨hk, hu⟩, hw⟩ : (k = 0 ∧ (s.1.pc ()).underway = false) ∧
        (s.1.get "worker-1").isSome = true := by simpa [orderlySingle] using h
    obtain ⟨i, hi⟩ := Option.isSome_iff_exists.mp hw
    exact ⟨hk, fun _ => ⟨hu, fun _ => .inr ⟨"worker-1", hi⟩⟩⟩
  | openStream i | take i msg | unregister i =>
    simp_all [orderlySingle, Orderly, Busy]
  | _ => trivial

theorem leadershipLoss_stops_registered :
    ∃ s : Sys Unit × Demotion Unit,
      Reach (Fires (recorded step demotion)) Orderly (Sys.start Unit, {}) s ∧
      s.2.inForce = true ∧ s.2.old () = true ∧ (s.1.pc ()).started = true ∧
      s.1.closed () = true ∧ s.1.sessions = ∅ := by
  obtain ⟨s, hs, hd, ho, hst⟩ : ∃ s, replay (guarded orderlySingle (recorded step demotion))
      [.openStream (), .startSession (), .take () (.register "worker-1"), .store (), .count (),
        .dispatch (), .leadership false, .callClose 0, .visit 0 "worker-1", .clear 0, .reset 0]
      (Sys.start Unit, {}) = some s ∧ s.2.inForce = true ∧ s.2.old () = true ∧
      (s.1.pc ()).started = true := ⟨_, rfl, rfl, rfl, rfl⟩
  have hreach := (reach_of_replay hs).of_guarded orderly_of_orderlySingle
  obtain ⟨hall, he⟩ := leadershipLoss_stops hreach hd
  exact ⟨s, hreach, hd, ho, hst, (hall () ho).1 hst, he⟩

/-- A stream that has passed `requireLeader` and has not registered outlives the event:
its session stays open, it dispatches what it receives, and it enters the manager. -/
theorem leadershipLoss_misses_unregistered :
    ∃ s : Sys Unit × Demotion Unit,
      Reach (Fires (recorded step demotion)) anyStep (Sys.start Unit, {}) s ∧
      s.2.inForce = true ∧ s.2.old () = true ∧ (s.1.pc ()).started = true ∧
      s.1.closed () = false ∧ s.2.dispatchedLate () = true ∧
      s.1.get "worker-1" = some () := by
  obtain ⟨s, hs, hp⟩ : ∃ s, replay (recorded step demotion)
      [.openStream (), .startSession (), .leadership false, .callClose 0, .clear 0, .reset 0,
        .take () (.register "worker-1"), .store (), .count (), .dispatch ()]
      (Sys.start Unit, {}) = some s ∧ s.2.inForce = true ∧ s.2.old () = true ∧
      (s.1.pc ()).started = true ∧ s.1.closed () = false ∧ s.2.dispatchedLate () = true ∧
      s.1.get "worker-1" = some () := ⟨_, rfl, rfl, rfl, rfl, rfl, rfl, rfl⟩
  exact ⟨s, reach_of_replay hs, hp⟩

end Leibrix.WorkerStreams

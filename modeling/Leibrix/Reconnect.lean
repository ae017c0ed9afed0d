import Leibrix.Transition
import Leibrix.WorkerStreams

/-! Reconnection of a worker. `Unregister` is keyed by the worker id alone, so the
cleanup of an old stream can remove the entry of the stream that took its place; and a
`SessionManager.Close` clears whatever was stored while it ran. -/
namespace Leibrix.WorkerStreams
open Leibrix.Transition

variable {ι : Type} [DecidableEq ι] {s t : Sys ι} {l : Label ι} {last : String → Option ι}

def lastRegister (s : Sys ι) (l : Label ι) (last : String → Option ι) : String → Option ι :=
  -- the stream of each worker's latest `Register`, forgotten when `Close` is called
  match l with
  | .store i =>
    match s.pc i with
    | .taken (.register nodeId) => Function.update last nodeId (some i)
    | _ => last
  | .callClose _ => fun _ => none
  | _ => last

def CleanHandover (s : Sys ι × (String → Option ι)) : Label ι → Prop
  -- a deferred `Unregister` finds no entry, or that of a stream that has left its loop (its own
  -- stream has); and `Register` stores nothing while a `Close` goes over the map
  | .store _ => ∀ k, (s.1.closers k).isRanging = false
  | .unregister i => s.1.workerId i ≠ "" →
    ∀ j, s.1.get (s.1.workerId i) = some j → (s.1.pc j).inLoop = false
  | _ => True

structure Routed (s : Sys ι) (last : String → Option ι) : Prop where
  -- the latest stream of a worker is the one in the map as long as it is in its loop
  held : ∀ w i, last w = some i → (s.pc i).inLoop = true → s.get w = some i
  started : ∀ w i, last w = some i → (s.pc i).started = true
  undisturbed : ∀ k w, (s.closers k).isRanging = true → last w = none

structure Quiet (s t : Sys ι) : Prop where
  sessions : t.sessions = s.sessions
  loop : ∀ i, (s.pc i).started = true → (t.pc i).inLoop = true → (s.pc i).inLoop = true
  started : ∀ i, (s.pc i).started = true → (t.pc i).started = true
  ranging : ∀ k, (t.closers k).isRanging = true → (s.closers k).isRanging = true

omit [DecidableEq ι] in
theorem Routed.quiet (h : Routed s last) (hq : Quiet s t) : Routed t last where
  held w i hw hl := by
    rw [Sys.get, hq.sessions]
    exact h.held w i hw (hq.loop i (h.started w i hw) hl)
  started w i hw := hq.started i (h.started w i hw)
  undisturbed k w hk := h.undisturbed k w (hq.ranging k hk)

omit [DecidableEq ι] in
theorem quiet_of_pc_eq (hs : t.sessions = s.sessions) (hp : t.pc = s.pc)
    (hr : ∀ k, (t.closers k).isRanging = true → (s.closers k).isRanging = true) : Quiet s t :=
  ⟨hs, fun _ _ h => hp ▸ h, fun _ h => hp ▸ h, hr⟩

theorem quiet_goto {u : Sys ι} {i : ι} {pc : Pc ι} (hs : u.sessions = s.sessions)
    (hp : u.pc = s.pc) (hc : u.closers = s.closers)
    (hl : (s.pc i).started = true → pc.inLoop = true → (s.pc i).inLoop = true)
    (hst : (s.pc i).started = true → pc.started = true) : Quiet s (u.goto i pc) := by
  refine ⟨hs, fun j hj h => ?_, fun j h => ?_, fun k h => by simpa [Sys.goto, hc] using h⟩
  · by_cases hji : j = i
    · subst hji
      exact hl hj (by simpa [Sys.goto] using h)
    · simpa [Sys.goto, Function.update_of_ne hji, hp] using h
  · by_cases hji : j = i
    · subst hji
      simpa [Sys.goto] using hst h
    · simpa [Sys.goto, Function.update_of_ne hji, hp] using h

omit [DecidableEq ι] in
theorem isRanging_setCloser {k : Nat} {c : Closing} (hc : c.isRanging = (s.closers k).isRanging ∨
    c.isRanging = false) (k' : Nat) (h : ((s.setCloser k c).closers k').isRanging = true) :
    (s.closers k').isRanging = true := by
  by_cases hk : k' = k
  · subst hk
    have h' : c.isRanging = true := by simpa [Sys.setCloser] using h
    cases hc with
    | inl he => rwa [← he]
    | inr he => simp [he] at h'
  · simpa [Sys.setCloser, Function.update_of_ne hk] using h

/-- Storing makes the storing stream both the latest one and the one in the map. -/
theorem Routed.loadAndStore {i : ι} {nodeId : String} (h : Routed s last)
    (hpc : s.pc i = .taken (.register nodeId)) (hk : ∀ k, (s.closers k).isRanging = false) :
    Routed (s.loadAndStore i nodeId) (Function.update last nodeId (some i)) := by
  have hstarted : ((s.loadAndStore i nodeId).pc i).started = true := by
    cases hm : s.sessions.lookup nodeId <;> simp [Sys.loadAndStore, hm, Pc.started]
  have hother : ∀ j, j ≠ i → (s.loadAndStore i nodeId).pc j = s.pc j := by
    intro j hj
    simp [Sys.loadAndStore, Function.update_of_ne hj]
  refine ⟨fun w j hw hl => ?_, fun w j hw => ?_, fun k w hr => ?_⟩
  · by_cases hwn : w = nodeId
    · subst hwn
      obtain rfl : i = j := by simpa using hw
      exact Finmap.lookup_insert _
    · rw [Function.update_of_ne hwn] at hw
      have hget : s.get w = some j := by
        by_cases hji : j = i
        · exact h.held w j hw (by simp [hji, hpc, Pc.inLoop])
        · exact h.held w j hw (by rwa [hother j hji] at hl)
      simpa [Sys.get, Sys.loadAndStore, Finmap.lookup_insert_of_ne _ hwn] using hget
  · by_cases hji : j = i
    · rwa [hji]
    · by_cases hwn : w = nodeId
      · subst hwn
        exact absurd (by simpa using hw.symm) hji
      · rw [Function.update_of_ne hwn] at hw
        rw [hother j hji]
        exact h.started w j hw
  · simp [Sys.loadAndStore, hk k] at hr

/-- A deferred `Unregister` takes away the entry of no stream in its loop. -/
theorem Routed.loadAndDelete {i : ι} (h : Routed s last)
    (hc : s.workerId i ≠ "" → ∀ j, s.get (s.workerId i) = some j → (s.pc j).inLoop = false) :
    Routed (s.loadAndDelete i) last := by
  by_cases hskip : s.workerId i = "" ∨ s.sessions.lookup (s.workerId i) = none
  · rw [Sys.loadAndDelete, if_pos hskip]
    exact h.quiet (quiet_goto rfl rfl rfl (by simp [Pc.inLoop]) (by simp [Pc.started]))
  · rw [Sys.loadAndDelete, if_neg hskip]
    have hid : s.workerId i ≠ "" := fun he => hskip (.inl he)
    have hloop : ∀ j, (Function.update s.pc i .uncounting j).inLoop = true →
        (s.pc j).inLoop = true := by
      intro j hj
      by_cases hji : j = i
      · simp [hji, Pc.inLoop] at hj
      · simpa [Function.update_of_ne hji] using hj
    refine ⟨fun w j hw hl => ?_, fun w j hw => ?_, fun k w hr => h.undisturbed k w ?_⟩
    · have hget := h.held w j hw (hloop j hl)
      by_cases hwid : w = s.workerId i
      · subst hwid
        have hout := hc hid j hget
        simp [hloop j hl] at hout
      · simpa [Sys.get, Finmap.lookup_erase_ne hwid] using hget
    · by_cases hji : j = i
      · simp [hji, Pc.started]
      · simpa [Function.update_of_ne hji] using h.started w j hw
    · cases hk : s.closers k <;> simp [hk, Closing.forget, Closing.isRanging] at hr ⊢

omit [DecidableEq ι] in
/-- Nothing has been registered since the `Close` that clears the map was called. -/
theorem Routed.clearAll {k : Nat} (h : Routed s last) (hk : (s.closers k).isRanging = true) :
    Routed (s.clearAll k) last := by
  have hnone := fun w => h.undisturbed k w hk
  exact ⟨fun w i hw => by simp [hnone] at hw, fun w i hw => by simp [hnone] at hw,
    fun _ w _ => hnone w⟩

omit [DecidableEq ι] in
theorem Routed.forget (s : Sys ι) : Routed s fun _ => none :=
  ⟨fun _ _ hw => by simp at hw, fun _ _ hw => by simp at hw, fun _ _ _ => rfl⟩

theorem Routed.step (h : Routed s last) (hc : CleanHandover (s, last) l) (hm : Moves s l t) :
    Routed t (lastRegister s l last) := by
  cases hm with
  | leadership | elected | hangUp | sendFails =>
    exact h.quiet (quiet_of_pc_eq rfl rfl fun _ hr => hr)
  | openStream i hpc =>
    refine h.quiet (quiet_goto rfl rfl rfl (fun hs => ?_) fun hs => ?_) <;>
      simp [hpc, Pc.started] at hs
  | startSession i hpc =>
    refine h.quiet (quiet_goto rfl rfl rfl (fun hs => ?_) fun _ => rfl)
    simp [hpc, Pc.started] at hs
  | take i msg hpc | closeOld i old hpc | count i hpc =>
    exact h.quiet (quiet_goto rfl rfl rfl (fun _ _ => by rw [hpc]; rfl) fun _ => rfl)
  | dispatch i hpc =>
    refine h.quiet (quiet_goto rfl rfl rfl (fun _ _ => ?_) fun _ => rfl)
    cases hpc with
    | inl hpc | inr hpc =>
      rw [hpc]
      rfl
  | leave i | seeDone i | uncount i | closeOwn i =>
    exact h.quiet (quiet_goto rfl rfl rfl (fun _ hl => by cases hl) fun _ => rfl)
  | visit k worker i must visited hk =>
    refine h.quiet (quiet_of_pc_eq rfl rfl fun k' hr => ?_)
    exact isRanging_setCloser (s := s.close i) (.inl (by simp [Sys.close, hk, Closing.isRanging]))
      k' hr
  | reset k =>
    exact h.quiet (quiet_of_pc_eq rfl rfl fun k' hr =>
      isRanging_setCloser (s := { s with sessionCnt := 0 }) (.inr rfl) k' hr)
  | store i nodeId hpc =>
    have hlast : lastRegister s (.store i) last = Function.update last nodeId (some i) := by
      simp [lastRegister, hpc]
    rw [hlast]
    exact h.loadAndStore hpc hc
  | unregister i => exact h.loadAndDelete hc
  | callClose k => exact Routed.forget _
  | clear k must visited hk => exact h.clearAll (by simp [hk, Closing.isRanging])

/-- In a run of clean handovers a worker that has registered stays reachable: while its
latest stream is in its loop and no `Close` was called since, `Get` returns its session. -/
theorem get_of_lastRegister {s : Sys ι × (String → Option ι)} {w : String} {i : ι}
    (h : Reach (Fires (recorded step lastRegister)) CleanHandover (Sys.start ι, fun _ => none) s)
    (hw : s.2 w = some i) (hi : (s.1.pc i).inLoop = true) : s.1.get w = some i := by
  have hinv : Routed s.1 s.2 := by
    refine h.invariant (I := fun s => Routed s.1 s.2) (Routed.forget _) ?_
    intro u l v hu hc hs
    obtain ⟨t, ht, rfl⟩ := Option.map_eq_some_iff.mp hs
    exact hu.step hc (moves_of_step ht)
  exact hinv.held w i hw hi

def Label.unconditional : Label ι → Bool
  | .store _ | .unregister _ => false
  | _ => true

omit [DecidableEq ι] in
theorem cleanHandover_of_unconditional (s : Sys ι × (String → Option ι)) (l : Label ι)
    (h : l.unconditional = true) : CleanHandover s l := by
  cases l <;> simp_all [Label.unconditional, CleanHandover]

omit [DecidableEq ι] in
theorem cleanHandover_store {s : Sys ι × (String → Option ι)}
    (h : s.1.closers = fun _ => .resting) (i : ι) : CleanHandover s (.store i) := by
  intro k
  rw [h]
  rfl

omit [DecidableEq ι] in
theorem cleanHandover_unregister {s : Sys ι × (String → Option ι)} {i j : ι}
    (hget : s.1.get (s.1.workerId i) = some j) (hj : (s.1.pc j).inLoop = false) :
    CleanHandover s (.unregister i) := by
  intro _ j' hj'
  obtain rfl : j = j' := Option.some.inj (hget.symm.trans hj')
  exact hj

/-- A worker registers on a first stream, which ends and cleans up, and then on a second. -/
theorem get_of_lastRegister_reconnected :
    ∃ s : Sys Bool × (String → Option Bool),
      Reach (Fires (recorded step lastRegister)) CleanHandover (Sys.start Bool, fun _ => none) s ∧
      s.1.pc false = .ended ∧ s.2 "worker-1" = some true ∧ (s.1.pc true).inLoop = true ∧
      s.1.get "worker-1" = some true := by
  obtain ⟨s₁, t₁, s₂, t₂, s₃, t₃, s, h₁, hk₁, hs₁, h₂, hget, hout, hs₂, h₃, hk₃, hs₃, h₄, hended,
      hlast, hloop⟩ : ∃ s₁ t₁ s₂ t₂ s₃ t₃ s,
      replay (guarded (fun _ l => l.unconditional) (recorded step lastRegister))
        [.openStream false, .startSession false, .take false (.register "worker-1")]
        (Sys.start Bool, fun _ => none) = some s₁ ∧ s₁.1.closers = (fun _ => .resting) ∧
      recorded step lastRegister s₁ (.store false) = some t₁ ∧
      replay (guarded (fun _ l => l.unconditional) (recorded step lastRegister))
        [.count false, .dispatch false, .leave false] t₁ = some s₂ ∧
      s₂.1.get (s₂.1.workerId false) = some false ∧ (s₂.1.pc false).inLoop = false ∧
      recorded step lastRegister s₂ (.unregister false) = some t₂ ∧
      replay (guarded (fun _ l => l.unconditional) (recorded step lastRegister))
        [.uncount false, .closeOwn false, .openStream true, .startSession true,
          .take true (.register "worker-1")] t₂ = some s₃ ∧
      s₃.1.closers = (fun _ => .resting) ∧
      recorded step lastRegister s₃ (.store true) = some t₃ ∧
      replay (guarded (fun _ l => l.unconditional) (recorded step lastRegister))
        [.count true, .dispatch true] t₃ = some s ∧
      s.1.pc false = .ended ∧ s.2 "worker-1" = some true ∧ (s.1.pc true).inLoop = true :=
    ⟨_, _, _, _, _, _, _, rfl, rfl, rfl, rfl, rfl, rfl, rfl, rfl, rfl, rfl, rfl, rfl, rfl, rfl⟩
  have hpart : ∀ {as : List (Label Bool)} {u v : Sys Bool × (String → Option Bool)},
      replay (guarded (fun _ l => l.unconditional) (recorded step lastRegister)) as u = some v →
        Reach (Fires (recorded step lastRegister)) CleanHandover u v :=
    fun h => (reach_of_replay h).of_guarded cleanHandover_of_unconditional
  have hfirst := (hpart h₁).tail (cleanHandover_store hk₁ false) hs₁
  have hcleaned := (hfirst.trans (hpart h₂)).tail (cleanHandover_unregister hget hout) hs₂
  have hsecond := (hcleaned.trans (hpart h₃)).tail (cleanHandover_store hk₃ true) hs₃
  have hreach := hsecond.trans (hpart h₄)
  exact ⟨s, hreach, hended, hlast, hloop, get_of_lastRegister hreach hlast hloop⟩

/-- A worker reconnects on a second stream; the cleanup of the first one, which ends
because its session was replaced, removes the entry of the second. -/
theorem reconnected_worker_lost :
    ∃ s : Sys Bool × (String → Option Bool),
      Reach (Fires (recorded step lastRegister)) anyStep (Sys.start Bool, fun _ => none) s ∧
      s.2 "worker-1" = some true ∧ (s.1.pc true).inLoop = true ∧
      s.1.get "worker-1" = none := by
  obtain ⟨s, hs, hlast, hloop, hget⟩ : ∃ s, replay (recorded step lastRegister)
      [.openStream false, .startSession false, .take false (.register "worker-1"), .store false,
        .count false, .dispatch false, .openStream true, .startSession true,
        .take true (.register "worker-1"), .store true, .closeOld true, .dispatch true,
        .seeDone false, .unregister false] (Sys.start Bool, fun _ => none) = some s ∧
      s.2 "worker-1" = some true ∧ (s.1.pc true).inLoop = true ∧ s.1.get "worker-1" = none :=
    ⟨_, rfl, rfl, rfl, rfl⟩
  exact ⟨s, reach_of_replay hs, hlast, hloop, hget⟩

end Leibrix.WorkerStreams

import Leibrix.Transition
import Leibrix.WorkerStreams

/-! What a stream leaves in the session manager when it ends. The manager has an entry for
every id a stream registered under; the deferred cleanup knows the last one, and skips it
if it is empty. -/
namespace Leibrix.WorkerStreams
open Leibrix.Transition

variable {ι : Type} [DecidableEq ι] {s t : Sys ι} {l : Label ι} {i : ι}

def OneId (s : Sys ι) : Label ι → Prop
  -- a stream registers under a nonempty id, and under one id at a time
  | .store i => ∀ nodeId, s.pc i = .taken (.register nodeId) →
    nodeId ≠ "" ∧ ∀ w, s.get w = some i → w = nodeId
  | _ => True

def Pc.mayOwn {ι : Type} : Pc ι → Bool
  | .leaving => true
  | pc => pc.inLoop

def Owned (s : Sys ι) : Prop :=
  -- an entry belongs to a stream that has not come to its cleanup and that will find it there
  ∀ w i, s.get w = some i → s.workerId i = w ∧ w ≠ "" ∧ (s.pc i).mayOwn = true

omit [DecidableEq ι] in
theorem Owned.frame (h : Owned s) (hs : t.sessions = s.sessions) (hw : t.workerId = s.workerId)
    (hp : t.pc = s.pc) : Owned t := by
  intro w i hget
  rw [hw, hp]
  exact h w i (by rwa [Sys.get, hs] at hget)

/-- The stream's counter moves on; where it owns an entry it stays before the cleanup. -/
theorem Owned.goto {u : Sys ι} {pc : Pc ι} (h : Owned s) (hs : u.sessions = s.sessions)
    (hw : u.workerId = s.workerId) (hp : u.pc = s.pc)
    (hkeep : (s.pc i).mayOwn = true → pc.mayOwn = true) : Owned (u.goto i pc) := by
  intro w j hget
  obtain ⟨hid, hne, hown⟩ := h w j (by rwa [Sys.get, Sys.goto, hs] at hget)
  refine ⟨by simpa [Sys.goto, hw] using hid, hne, ?_⟩
  by_cases hji : j = i
  · subst hji
    simpa [Sys.goto] using hkeep hown
  · simpa [Sys.goto, Function.update_of_ne hji, hp] using hown

theorem Owned.loadAndStore {nodeId : String} (h : Owned s) (hne : nodeId ≠ "")
    (hone : ∀ w, s.get w = some i → w = nodeId) : Owned (s.loadAndStore i nodeId) := by
  have hpc : ((s.loadAndStore i nodeId).pc i).mayOwn = true := by
    cases hm : s.sessions.lookup nodeId <;>
      simp [Sys.loadAndStore, hm, Pc.mayOwn, Pc.inLoop]
  intro w j hget
  by_cases hw : w = nodeId
  · subst hw
    obtain rfl : i = j := by simpa [Sys.get, Sys.loadAndStore, Finmap.lookup_insert] using hget
    exact ⟨by simp [Sys.loadAndStore], hne, hpc⟩
  · have hold : s.get w = some j := by
      simpa [Sys.get, Sys.loadAndStore, Finmap.lookup_insert_of_ne _ hw] using hget
    have hji : j ≠ i := by
      intro he
      exact hw (hone w (he ▸ hold))
    simpa [Sys.loadAndStore, Function.update_of_ne hji] using h w j hold

/-- After `Unregister` nothing is left of the stream. -/
theorem Owned.loadAndDelete (h : Owned s) : Owned (s.loadAndDelete i) := by
  by_cases hskip : s.workerId i = "" ∨ s.sessions.lookup (s.workerId i) = none
  · rw [Sys.loadAndDelete, if_pos hskip]
    intro w j hget
    have hold : s.get w = some j := hget
    obtain ⟨hid, hne, hown⟩ := h w j hold
    have hji : j ≠ i := by
      intro he
      subst he
      cases hskip with
      | inl hempty => exact hne (hid ▸ hempty)
      | inr hnone =>
        rw [hid] at hnone
        exact absurd (hnone.symm.trans hold) (by simp)
    exact ⟨hid, hne, by simpa [Sys.goto, Function.update_of_ne hji] using hown⟩
  · rw [Sys.loadAndDelete, if_neg hskip]
    intro w j hget
    have hw : w ≠ s.workerId i := by
      intro he
      subst he
      simp [Sys.get, Finmap.lookup_erase] at hget
    have hold : s.get w = some j := by
      simpa [Sys.get, Finmap.lookup_erase_ne hw] using hget
    obtain ⟨hid, hne, hown⟩ := h w j hold
    have hji : j ≠ i := by
      intro he
      exact hw (by rw [← hid, he])
    exact ⟨hid, hne, by simpa [Function.update_of_ne hji] using hown⟩

theorem Owned.step (h : Owned s) (hc : OneId s l) (hm : Moves s l t) : Owned t := by
  cases hm with
  | leadership | elected | hangUp | sendFails | callClose | visit | reset =>
    exact h.frame rfl rfl rfl
  | openStream i hpc | startSession i hpc | uncount i hpc | closeOwn i hpc =>
    refine h.goto rfl rfl rfl fun hown => ?_
    simp [hpc, Pc.mayOwn, Pc.inLoop] at hown
  | take | closeOld | count | dispatch | leave | seeDone =>
    exact h.goto rfl rfl rfl fun _ => rfl
  | store i nodeId hpc =>
    obtain ⟨hne, hone⟩ := hc nodeId hpc
    exact h.loadAndStore hne hone
  | unregister i => exact h.loadAndDelete
  | clear k =>
    intro w j hget
    simp [Sys.get, Sys.clearAll] at hget

/-- In every run in which streams register under a nonempty id and under one id at a time,
no worker id leads to the session of a stream whose cleanup has run. -/
theorem no_entry_of_ended (h : Reach (Fires step) OneId (Sys.start ι) s)
    (hi : s.pc i = .ended) (w : String) : s.get w ≠ some i := by
  have hinv : Owned s := by
    refine h.invariant (fun w i hget => ?_) fun u l v hu hc hs => hu.step hc (moves_of_step hs)
    simp [Sys.get, Sys.start] at hget
  intro hget
  have hown := (hinv w i hget).2.2
  simp [hi, Pc.mayOwn, Pc.inLoop] at hown

def Label.storesNothing : Label ι → Bool
  | .store _ => false
  | _ => true

omit [DecidableEq ι] in
theorem oneId_of_storesNothing (s : Sys ι) (l : Label ι) (h : l.storesNothing = true) :
    OneId s l := by
  cases l <;> simp_all [Label.storesNothing, OneId]

omit [DecidableEq ι] in
theorem oneId_store {nodeId : String} (hpc : s.pc i = .taken (.register nodeId))
    (hne : nodeId ≠ "") (h : ∀ w, s.get w = some i → w = nodeId) : OneId s (.store i) := by
  intro nodeId' hn
  obtain rfl : nodeId = nodeId' := by simpa [hpc] using hn
  exact ⟨hne, h⟩

/-- A stream registers the same id twice while another one is registered beside it. -/
theorem no_entry_of_ended_beside :
    ∃ s : Sys Bool, Reach (Fires step) OneId (Sys.start Bool) s ∧ s.pc false = .ended ∧
      s.get "worker-2" = some true ∧ ∀ w, s.get w ≠ some false := by
  obtain ⟨s₁, t₁, s₂, t₂, s₃, t₃, s, h₁, hpc₁, hm₁, hs₁, h₂, hpc₂, hm₂, hs₂, h₃, hpc₃, hm₃, hs₃,
      h₄, hended, hother⟩ : ∃ s₁ t₁ s₂ t₂ s₃ t₃ s,
      replay (guarded (fun _ l => l.storesNothing) step)
        [.openStream false, .startSession false, .take false (.register "worker-1")]
        (Sys.start Bool) = some s₁ ∧
      s₁.pc false = .taken (.register "worker-1") ∧ s₁.sessions = ∅ ∧
      step s₁ (.store false) = some t₁ ∧
      replay (guarded (fun _ l => l.storesNothing) step)
        [.count false, .dispatch false, .openStream true, .startSession true,
          .take true (.register "worker-2")] t₁ = some s₂ ∧
      s₂.pc true = .taken (.register "worker-2") ∧
      s₂.sessions = Finmap.insert "worker-1" false ∅ ∧
      step s₂ (.store true) = some t₂ ∧
      replay (guarded (fun _ l => l.storesNothing) step)
        [.count true, .dispatch true, .take false (.register "worker-1")] t₂ = some s₃ ∧
      s₃.pc false = .taken (.register "worker-1") ∧
      s₃.sessions = (Finmap.insert "worker-1" false ∅).insert "worker-2" true ∧
      step s₃ (.store false) = some t₃ ∧
      replay (guarded (fun _ l => l.storesNothing) step)
        [.closeOld false, .dispatch false, .seeDone false, .unregister false, .uncount false,
          .closeOwn false] t₃ = some s ∧
      s.pc false = .ended ∧ s.get "worker-2" = some true :=
    ⟨_, _, _, _, _, _, _, rfl, rfl, rfl, rfl, rfl, rfl, rfl, rfl, rfl, rfl, rfl, rfl, rfl, rfl,
      rfl⟩
  have hpart : ∀ {as : List (Label Bool)} {u v : Sys Bool},
      replay (guarded (fun _ l => l.storesNothing) step) as u = some v →
        Reach (Fires step) OneId u v :=
    fun h => (reach_of_replay h).of_guarded oneId_of_storesNothing
  have hone₁ : OneId s₁ (.store false) :=
    oneId_store hpc₁ (by decide) fun w hw => by simp [Sys.get, hm₁] at hw
  have hone₂ : OneId s₂ (.store true) := by
    refine oneId_store hpc₂ (by decide) fun w hw => ?_
    by_cases hw1 : w = "worker-1"
    · rw [Sys.get, hm₂, hw1, Finmap.lookup_insert] at hw
      cases hw
    · simp [Sys.get, hm₂, Finmap.lookup_insert_of_ne _ hw1] at hw
  -- its own entry is the only one that leads to the stream
  have hone₃ : OneId s₃ (.store false) := by
    refine oneId_store hpc₃ (by decide) fun w hw => ?_
    by_contra hw1
    by_cases hw2 : w = "worker-2"
    · rw [Sys.get, hm₃, hw2, Finmap.lookup_insert] at hw
      cases hw
    · simp [Sys.get, hm₃, Finmap.lookup_insert_of_ne _ hw1, Finmap.lookup_insert_of_ne _ hw2]
        at hw
  have hreach := (((((hpart h₁).tail hone₁ hs₁).trans (hpart h₂)).tail hone₂ hs₂).trans
    (hpart h₃)).tail hone₃ hs₃ |>.trans (hpart h₄)
  exact ⟨s, hreach, hended, hother, no_entry_of_ended hreach hended⟩

/-- A stream that registers two workers leaves the first one behind; one that registers
the empty id leaves that. -/
theorem ended_stream_left_behind :
    (∃ s : Sys Unit, Reach (Fires step) anyStep (Sys.start Unit) s ∧ s.pc () = .ended ∧
      s.get "worker-1" = some ()) ∧
    ∃ s : Sys Unit, Reach (Fires step) anyStep (Sys.start Unit) s ∧ s.pc () = .ended ∧
      s.get "" = some () := by
  constructor
  · obtain ⟨s, hs, hend, hget⟩ : ∃ s, replay step
        [.openStream (), .startSession (), .take () (.register "worker-1"), .store (), .count (),
          .dispatch (), .take () (.register "worker-2"), .store (), .count (), .dispatch (),
          .leave (), .unregister (), .uncount (), .closeOwn ()] (Sys.start Unit) = some s ∧
        s.pc () = .ended ∧ s.get "worker-1" = some () := ⟨_, rfl, rfl, rfl⟩
    exact ⟨s, reach_of_replay hs, hend, hget⟩
  · obtain ⟨s, hs, hend, hget⟩ : ∃ s, replay step
        [.openStream (), .startSession (), .take () (.register ""), .store (), .count (),
          .dispatch (), .leave (), .unregister (), .closeOwn ()] (Sys.start Unit) = some s ∧
        s.pc () = .ended ∧ s.get "" = some () := ⟨_, rfl, rfl, rfl⟩
    exact ⟨s, reach_of_replay hs, hend, hget⟩

end Leibrix.WorkerStreams

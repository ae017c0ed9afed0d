import Leibrix.SessionAccounting

/-! The handlers of the streams are callers of the `SessionManager`: a run of the streams
is a run of its calls, with the same map, counter and closed sessions. -/
namespace Leibrix.WorkerStreams
open Leibrix.Transition
open Leibrix.SessionManager (Pending counting uncounting)

section Lists
variable {ι α : Type*}

def Lists (f : ι → Option α) (values : List α) : Prop :=
  ∃ places : List ι, places.Nodup ∧ (∀ i, i ∈ places ↔ f i ≠ none) ∧
    values.Perm (places.filterMap f)

variable {f : ι → Option α} {values : List α} {i : ι} {a : α}

theorem Lists.mem_iff (h : Lists f values) : a ∈ values ↔ ∃ i, f i = some a := by
  obtain ⟨places, -, hplaces, hperm⟩ := h
  rw [hperm.mem_iff, List.mem_filterMap]
  constructor
  · rintro ⟨i, -, hi⟩
    exact ⟨i, hi⟩
  · rintro ⟨i, hi⟩
    exact ⟨i, (hplaces i).mpr (by simp [hi]), hi⟩

variable [DecidableEq ι]

theorem filterMap_update_of_notMem {places : List ι} (hi : i ∉ places) (b : Option α) :
    places.filterMap (Function.update f i b) = places.filterMap f := by
  apply List.filterMap_congr
  intro j hj
  have hne : j ≠ i := fun he => hi (he ▸ hj)
  exact Function.update_of_ne hne _ _

theorem Lists.add (h : Lists f values) (hi : f i = none) :
    Lists (Function.update f i (some a)) (a :: values) := by
  obtain ⟨places, hnodup, hplaces, hperm⟩ := h
  have hnot : i ∉ places := fun hm => (hplaces i).mp hm hi
  refine ⟨i :: places, List.nodup_cons.mpr ⟨hnot, hnodup⟩, fun j => ?_, ?_⟩
  · by_cases he : j = i
    · simp [he]
    · simp [he, hplaces j]
  · rw [List.filterMap_cons_some (Function.update_self ..), filterMap_update_of_notMem hnot]
    exact hperm.cons a

theorem Lists.remove [DecidableEq α] (h : Lists f values) (hi : f i = some a) :
    Lists (Function.update f i none) (values.erase a) := by
  obtain ⟨places, hnodup, hplaces, hperm⟩ := h
  have hmem : i ∈ places := (hplaces i).mpr (by simp [hi])
  have hnot : i ∉ places.erase i := hnodup.not_mem_erase
  refine ⟨places.erase i, hnodup.erase i, fun j => ?_, ?_⟩
  · by_cases he : j = i
    · simp [he, hnot]
    · simp [he, hplaces j]
  · rw [filterMap_update_of_notMem hnot]
    have hcons := hperm.trans ((List.perm_cons_erase hmem).filterMap f)
    rw [List.filterMap_cons_some hi] at hcons
    simpa using hcons.erase a

end Lists

variable {ι : Type}

def Pc.owes (worker : String) : Pc ι → Option (Pending ι)
  -- what the call that a handler is in has still to do
  | .replaced old => some (.closeOld old)
  | .counting => some (.count worker)
  | .uncounting => some (.uncount worker)
  | _ => none

def Sys.owes (s : Sys ι) (i : ι) : Option (Pending ι) := (s.pc i).owes (s.workerId i)

def call (s : Sys ι) : Label ι → Option (SessionManager.Label ι Nat)
  | .sendFails i | .closeOwn i => some (.closeSession i)
  | .store i =>
    match s.pc i with
    | .taken (.register nodeId) => some (.register nodeId i)
    | _ => none
  | .closeOld i | .count i | .uncount i => (s.owes i).map .finish
  | .unregister i => if s.workerId i = "" then none else some (.unregister (s.workerId i))
  | .callClose k => some (.callClose k)
  | .visit k worker => some (.visit k worker)
  | .clear k => some (.clear k)
  | .reset k => some (.reset k)
  | _ => none

structure Calls (s : Sys ι) (m : SessionManager.Sys ι Nat) : Prop where
  sessions : m.sessions = s.sessions
  sessionCnt : m.sessionCnt = s.sessionCnt
  closed : m.closed = s.closed
  closers : m.closers = s.closers
  pending : Lists s.owes m.pending

theorem calls_start : Calls (Sys.start ι) (SessionManager.Sys.start ι Nat) := by
  refine ⟨rfl, rfl, rfl, rfl, [], List.nodup_nil, fun i => ?_, List.Perm.nil⟩
  simp [Sys.owes, Sys.start, Pc.owes]

variable [DecidableEq ι] {s t : Sys ι} {m : SessionManager.Sys ι Nat} {l : Label ι} {i : ι}

theorem owes_goto (s : Sys ι) (i : ι) (pc : Pc ι) :
    (s.goto i pc).owes = Function.update s.owes i (pc.owes (s.workerId i)) := by
  funext j
  by_cases he : j = i
  · subst he
    simp [Sys.owes, Sys.goto]
  · simp [Sys.owes, Sys.goto, he]

theorem Calls.goto {pc : Pc ι} (h : Calls s m) (hi : s.owes i = none)
    (hpc : pc.owes (s.workerId i) = none) : Calls (s.goto i pc) m := by
  refine ⟨h.sessions, h.sessionCnt, h.closed, h.closers, ?_⟩
  rw [owes_goto, hpc, ← hi, Function.update_eq_self]
  exact h.pending

theorem Calls.close (h : Calls s m) (i : ι) : Calls (s.close i) (m.close i) := by
  refine ⟨h.sessions, h.sessionCnt, ?_, h.closers, h.pending⟩
  simp only [SessionManager.Sys.close, Sys.close, h.closed]

omit [DecidableEq ι] in
theorem Calls.setCloser (h : Calls s m) (k : Nat) (c : Closing) :
    Calls (s.setCloser k c) (m.setCloser k c) := by
  refine ⟨h.sessions, h.sessionCnt, h.closed, ?_, h.pending⟩
  simp only [SessionManager.Sys.setCloser, Sys.setCloser, h.closers]

omit [DecidableEq ι] in
theorem Calls.addCnt (h : Calls s m) (n : Int) :
    Calls { s with sessionCnt := s.sessionCnt + n } { m with sessionCnt := m.sessionCnt + n } := by
  refine ⟨h.sessions, ?_, h.closed, h.closers, h.pending⟩
  simp only [h.sessionCnt]

theorem Calls.ends {op : Pending ι} (h : Calls s m) (hi : s.owes i = some op) (pc : Pc ι)
    (hpc : pc.owes (s.workerId i) = none) :
    Calls (s.goto i pc) { m with pending := m.pending.erase op } := by
  refine ⟨h.sessions, h.sessionCnt, h.closed, h.closers, ?_⟩
  rw [owes_goto, hpc]
  exact h.pending.remove hi

theorem Calls.finishes {op : Pending ι} (h : Calls s m) (hi : s.owes i = some op)
    (ht : Calls t ({ m with pending := m.pending.erase op }.perform op)) :
    ∃ c m', (s.owes i).map .finish = some c ∧ SessionManager.step m c = some m' ∧ Calls t m' := by
  have hop : op ∈ m.pending := h.pending.mem_iff.mpr ⟨i, hi⟩
  exact ⟨.finish op, _, by rw [hi, Option.map_some], if_pos hop, ht⟩

theorem owes_loadAndStore (s : Sys ι) (i : ι) (worker : String) :
    (s.loadAndStore i worker).owes = Function.update s.owes i
      (some ((s.sessions.lookup worker).elim (.count worker) .closeOld)) := by
  funext j
  by_cases he : j = i
  · subst he
    cases hw : s.sessions.lookup worker <;> simp [Sys.owes, Sys.loadAndStore, hw, Pc.owes]
  · simp [Sys.owes, Sys.loadAndStore, he]

theorem Calls.store {worker : String} (h : Calls s m) (hi : s.owes i = none) :
    Calls (s.loadAndStore i worker) (m.loadAndStore worker i) := by
  have hpending : (m.loadAndStore worker i).pending =
      (s.sessions.lookup worker).elim (.count worker) .closeOld :: m.pending := by
    rw [SessionManager.Sys.loadAndStore, h.sessions]
    cases s.sessions.lookup worker <;> rfl
  refine ⟨?_, h.sessionCnt, h.closed, h.closers, ?_⟩
  · simp only [SessionManager.Sys.loadAndStore, Sys.loadAndStore, h.sessions]
  · rw [owes_loadAndStore, hpending]
    exact h.pending.add hi

theorem Calls.delete (h : Calls s m) (hi : s.owes i = none) (hw : s.workerId i ≠ "") :
    Calls (s.loadAndDelete i) (m.loadAndDelete (s.workerId i)) := by
  unfold Sys.loadAndDelete SessionManager.Sys.loadAndDelete
  rw [h.sessions]
  cases hl : s.sessions.lookup (s.workerId i) with
  | none =>
    rw [if_pos (.inr rfl)]
    exact h.goto hi rfl
  | some old =>
    rw [if_neg (by simp [hw])]
    refine ⟨rfl, h.sessionCnt, h.closed, ?_, ?_⟩
    · simp only [h.closers]
    · have hadd := h.pending.add (a := .uncount (s.workerId i)) hi
      exact (owes_goto s i .uncounting).symm ▸ hadd

theorem notMem_visited_of_step {k : Nat} {worker : String} {must visited : Finset String}
    (hs : step s (.visit k worker) = some t) (hk : s.closers k = .ranging must visited) :
    worker ∉ visited := by
  intro hmem
  cases hw : s.sessions.lookup worker <;> simp [step, hk, hw, hmem] at hs

/-- A step of the node is the step of the `SessionManager` that `call` names, or none. -/
theorem Calls.step (h : Calls s m) (hs : step s l = some t) :
    (call s l = none ∧ Calls t m) ∨
      ∃ c m', call s l = some c ∧ SessionManager.step m c = some m' ∧ Calls t m' := by
  cases moves_of_step hs with
  | leadership isLeader =>
    exact .inl ⟨rfl, h.sessions, h.sessionCnt, h.closed, h.closers, h.pending⟩
  | elected => exact .inl ⟨rfl, h⟩
  | hangUp i => exact .inl ⟨rfl, h.sessions, h.sessionCnt, h.closed, h.closers, h.pending⟩
  | openStream i hpc =>
    refine .inl ⟨rfl, h.goto (by simp [Sys.owes, hpc, Pc.owes]) ?_⟩
    cases s.isLeader <;> rfl
  | startSession i hpc => exact .inl ⟨rfl, h.goto (by simp [Sys.owes, hpc, Pc.owes]) rfl⟩
  | take i msg hpc => exact .inl ⟨rfl, h.goto (by simp [Sys.owes, hpc, Pc.owes]) rfl⟩
  | leave i hpc => exact .inl ⟨rfl, h.goto (by simp [Sys.owes, hpc, Pc.owes]) rfl⟩
  | seeDone i hpc => exact .inl ⟨rfl, h.goto (by simp [Sys.owes, hpc, Pc.owes]) rfl⟩
  | dispatch i hpc =>
    refine .inl ⟨rfl, h.goto ?_ rfl⟩
    rcases hpc with hpc | hpc <;> simp [Sys.owes, hpc, Pc.owes]
  | sendFails i => exact .inr ⟨_, _, rfl, rfl, h.close i⟩
  | closeOwn i hpc =>
    exact .inr ⟨_, _, rfl, rfl, (h.close i).goto (by simp [Sys.owes, Sys.close, hpc, Pc.owes]) rfl⟩
  | store i nodeId hpc =>
    exact .inr ⟨.register nodeId i, _, by simp only [call, hpc], rfl,
      h.store (by simp [Sys.owes, hpc, Pc.owes])⟩
  | unregister i hpc =>
    have hi : s.owes i = none := by simp [Sys.owes, hpc, Pc.owes]
    by_cases hw : s.workerId i = ""
    · refine .inl ⟨by simp [call, hw], ?_⟩
      rw [Sys.loadAndDelete, if_pos (.inl hw)]
      exact h.goto hi rfl
    · exact .inr ⟨.unregister (s.workerId i), _, by simp [call, hw], rfl, h.delete hi hw⟩
  | closeOld i old hpc =>
    have hi : s.owes i = some (.closeOld old) := by simp [Sys.owes, hpc, Pc.owes]
    exact .inr (h.finishes hi ((h.ends hi .dispatching rfl).close old))
  | count i hpc =>
    have hi : s.owes i = some (.count (s.workerId i)) := by simp [Sys.owes, hpc, Pc.owes]
    exact .inr (h.finishes hi ((h.ends hi .dispatching rfl).addCnt 1))
  | uncount i hpc =>
    have hi : s.owes i = some (.uncount (s.workerId i)) := by simp [Sys.owes, hpc, Pc.owes]
    exact .inr (h.finishes hi ((h.ends hi .closing rfl).addCnt (-1)))
  | callClose k hk =>
    refine .inr ⟨_, m.setCloser k (.ranging s.sessions.keys ∅), rfl, ?_, h.setCloser k _⟩
    simp [SessionManager.step, h.closers, h.sessions, hk]
  | visit k worker i must visited hk hw =>
    have hnot := notMem_visited_of_step hs hk
    refine .inr ⟨_, (m.close i).setCloser k (.ranging must (insert worker visited)), rfl, ?_,
      (h.close i).setCloser k _⟩
    simp [SessionManager.step, h.closers, h.sessions, hk, hw, hnot]
  | clear k must visited hk hv =>
    refine .inr ⟨_, m.clearAll k, rfl, ?_, rfl, h.sessionCnt, h.closed, ?_, h.pending⟩
    · simp [SessionManager.step, h.closers, hk, hv]
    · simp only [SessionManager.Sys.clearAll, Sys.clearAll, h.closers]
  | reset k hk =>
    have hzero : Calls { s with sessionCnt := 0 } { m with sessionCnt := 0 } :=
      ⟨h.sessions, rfl, h.closed, h.closers, h.pending⟩
    refine .inr ⟨_, { m with sessionCnt := 0 }.setCloser k .resting, rfl, ?_,
      hzero.setCloser k _⟩
    simp [SessionManager.step, h.closers, hk]

/-- Every run of the node is a run of the calls its handlers make. -/
theorem reach_calls {waits : Sys ι → Label ι → Prop}
    {waits' : SessionManager.Sys ι Nat → SessionManager.Label ι Nat → Prop}
    (h : Reach (Fires step) waits (Sys.start ι) s)
    (hw : ∀ s m l c, Calls s m → waits s l → call s l = some c → waits' m c) :
    ∃ m, Reach (Fires SessionManager.step) waits' (SessionManager.Sys.start ι Nat) m ∧
      Calls s m := by
  refine h.simulated calls_start fun s l t m hm ho hst => ?_
  rcases hm.step hst with ⟨-, ht⟩ | ⟨c, m', hc, hc', ht⟩
  · exact ⟨m, .refl, ht⟩
  · exact ⟨m', .tail .refl (hw s m l c hm ho hc) hc', ht⟩

def Waits (s : Sys ι) : Label ι → Prop
  -- what the handlers have to wait for so that their calls are orderly
  | .store _ => ∀ k, s.closers k = .resting
  | .unregister i => ∀ j, s.pc j = .counting → s.workerId j ≠ s.workerId i
  | .reset _ => ∀ j, s.pc j ≠ .counting ∧ s.pc j ≠ .uncounting
  | _ => True

omit [DecidableEq ι] in
theorem owes_count {worker : String} :
    s.owes i = some (.count worker) ↔ s.pc i = .counting ∧ s.workerId i = worker := by
  unfold Sys.owes
  cases s.pc i <;> simp [Pc.owes]

omit [DecidableEq ι] in
theorem owes_uncount {worker : String} :
    s.owes i = some (.uncount worker) ↔ s.pc i = .uncounting ∧ s.workerId i = worker := by
  unfold Sys.owes
  cases s.pc i <;> simp [Pc.owes]

omit [DecidableEq ι] in
theorem Calls.mem_counting {worker : String} (h : Calls s m) :
    worker ∈ counting m.pending ↔ ∃ j, s.pc j = .counting ∧ s.workerId j = worker := by
  rw [SessionManager.mem_counting, h.pending.mem_iff]
  simp only [owes_count]

omit [DecidableEq ι] in
theorem Calls.mem_uncounting {worker : String} (h : Calls s m) :
    worker ∈ uncounting m.pending ↔ ∃ j, s.pc j = .uncounting ∧ s.workerId j = worker := by
  rw [SessionManager.mem_uncounting, h.pending.mem_iff]
  simp only [owes_uncount]

omit [DecidableEq ι] in
theorem Calls.orderly {c : SessionManager.Label ι Nat} (h : Calls s m) (hw : Waits s l)
    (hc : call s l = some c) : SessionManager.Orderly m c := by
  cases l with
  | store i =>
    simp only [call] at hc
    split at hc
    · cases hc
      intro k
      rw [h.closers]
      exact hw k
    · cases hc
  | unregister i =>
    simp only [call] at hc
    split at hc
    · cases hc
    · cases hc
      intro hmem
      obtain ⟨j, hpc, hj⟩ := h.mem_counting.mp hmem
      exact hw j hpc hj
  | reset k =>
    cases hc
    constructor <;> refine List.eq_nil_iff_forall_not_mem.mpr fun worker hmem => ?_
    · obtain ⟨j, hpc, -⟩ := h.mem_counting.mp hmem
      exact (hw j).1 hpc
    · obtain ⟨j, hpc, -⟩ := h.mem_uncounting.mp hmem
      exact (hw j).2 hpc
  | closeOld i | count i | uncount i =>
    obtain ⟨op, -, rfl⟩ := Option.map_eq_some_iff.mp hc
    trivial
  | sendFails | closeOwn | callClose | visit | clear =>
    cases hc
    trivial
  | leadership | elected | openStream | startSession | hangUp | take | dispatch | leave
  | seeDone => cases hc

/-- In every run of the node whose handlers wait as in `Waits`, the counter is never
negative, and it is the number of registered workers when no call is under way. -/
theorem stream_accounting (h : Reach (Fires step) Waits (Sys.start ι) s) :
    0 ≤ s.sessionCnt ∧
    ((∀ i, s.owes i = none) → (∀ k, s.closers k = .resting) →
      s.sessionCnt = s.sessions.keys.card) := by
  obtain ⟨m, hm, hcalls⟩ := reach_calls h fun _ _ _ _ hc => hc.orderly
  have hcounted := SessionManager.counted_of_reach hm
  refine ⟨?_, fun howes hk => ?_⟩
  · rw [← hcalls.sessionCnt]
    exact hcounted.nonneg_sessionCnt
  · have hpending : m.pending = [] := by
      refine List.eq_nil_iff_forall_not_mem.mpr fun op hop => ?_
      obtain ⟨i, hi⟩ := hcalls.pending.mem_iff.mp hop
      simp [howes i] at hi
    rw [← hcalls.sessionCnt, ← hcalls.sessions]
    exact hcounted.eq_card hpending fun k => by rw [hcalls.closers, hk k]

/-- Two streams of one worker: the second replaces the first and goes, before the first has
come to its `Add(1)`. -/
theorem stream_miscount :
    ∃ s, Reach (Fires step) anyStep (Sys.start Bool) s ∧ s.sessionCnt = -1 := by
  obtain ⟨s, hs, hcnt⟩ : ∃ s, replay step
      [.openStream true, .startSession true, .take true (.register "worker-1"), .store true,
        .openStream false, .startSession false, .take false (.register "worker-1"),
        .store false, .closeOld false, .dispatch false, .leave false, .unregister false,
        .uncount false] (Sys.start Bool) = some s ∧ s.sessionCnt = -1 := ⟨_, rfl, rfl⟩
  exact ⟨s, reach_of_replay hs, hcnt⟩

end Leibrix.WorkerStreams

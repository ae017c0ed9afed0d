import Leibrix.SessionCalls
import Mathlib.Data.Fintype.Basic

/-! When the counter of the `SessionManager` agrees with its map, and when `Close` closes
what it removes. The counter stays right if no deletion overtakes the `Add(1)` for the same
worker, no registration comes during a `Close`, and `Store(0)` waits for the counter steps
under way. -/
namespace Leibrix.SessionManager
open Leibrix.Transition
open Leibrix.WorkerStreams (Closing)

variable {ι κ : Type}

def counting (pending : List (Pending ι)) : List String :=
  pending.filterMap fun
    | .count worker => some worker
    | _ => none

def uncounting (pending : List (Pending ι)) : List String :=
  pending.filterMap fun
    | .uncount worker => some worker
    | _ => none

@[simp] theorem counting_count (w : String) (ops : List (Pending ι)) :
    counting (.count w :: ops) = w :: counting ops := rfl
@[simp] theorem counting_uncount (w : String) (ops : List (Pending ι)) :
    counting (.uncount w :: ops) = counting ops := rfl
@[simp] theorem uncounting_count (w : String) (ops : List (Pending ι)) :
    uncounting (.count w :: ops) = uncounting ops := rfl
@[simp] theorem uncounting_uncount (w : String) (ops : List (Pending ι)) :
    uncounting (.uncount w :: ops) = w :: uncounting ops := rfl

theorem mem_counting {w : String} {ops : List (Pending ι)} : w ∈ counting ops ↔ .count w ∈ ops := by
  refine List.mem_filterMap.trans ⟨?_, fun h => ⟨_, h, rfl⟩⟩
  rintro ⟨op, hop, hw⟩
  cases op <;> cases hw
  exact hop

theorem mem_uncounting {w : String} {ops : List (Pending ι)} :
    w ∈ uncounting ops ↔ .uncount w ∈ ops := by
  refine List.mem_filterMap.trans ⟨?_, fun h => ⟨_, h, rfl⟩⟩
  rintro ⟨op, hop, hw⟩
  cases op <;> cases hw
  exact hop

def Orderly (s : Sys ι κ) : Label ι κ → Prop
  -- what the steps of a run have to wait for
  | .register _ _ => ∀ k, s.closers k = .resting
  | .unregister worker => worker ∉ counting s.pending
  | .reset _ => counting s.pending = [] ∧ uncounting s.pending = []
  | _ => True

instance [Fintype κ] (s : Sys ι κ) (l : Label ι κ) : Decidable (Orderly s l) :=
  match l with
  | .register _ _ => inferInstanceAs (Decidable (∀ k, s.closers k = .resting))
  | .unregister worker => inferInstanceAs (Decidable (worker ∉ counting s.pending))
  | .reset _ => inferInstanceAs (Decidable (_ = [] ∧ _ = []))
  | .finish _ | .closeSession _ | .callClose _ | .visit _ _ | .clear _ =>
    inferInstanceAs (Decidable True)

def recordRemoved [DecidableEq κ] (s : Sys ι κ) (l : Label ι κ)
    (removed : κ → Finmap fun _ : String => ι) : κ → Finmap fun _ : String => ι :=
  -- the entries that the last `Clear` of each caller of `Close` has removed
  match l with
  | .clear k => Function.update removed k s.sessions
  | _ => removed

structure Counted (s : Sys ι κ) : Prop where
  -- the counter lacks what is still to be counted, and has what is still to be uncounted
  nodup : (counting s.pending).Nodup
  nonneg : ((uncounting s.pending).length : Int) ≤ s.sessionCnt
  cleared : ∀ k, s.closers k = .cleared → s.sessions = ∅
  present : (∀ k, s.closers k ≠ .cleared) → ∀ w ∈ counting s.pending, w ∈ s.sessions
  exact : (∀ k, s.closers k ≠ .cleared) →
    s.sessionCnt + (counting s.pending).length =
      s.sessions.keys.card + (uncounting s.pending).length

theorem counted_start : Counted (Sys.start ι κ) := by
  refine ⟨List.nodup_nil, le_refl _, fun _ _ => rfl, fun _ w hw => ?_, fun _ => rfl⟩
  cases hw

variable {s t : Sys ι κ}

theorem keys_insert (m : Finmap fun _ : String => ι) (w : String) (i : ι) :
    (m.insert w i).keys = insert w m.keys := by
  ext w'
  simp [Finmap.mem_keys, Finmap.mem_insert]

theorem Counted.nonneg_sessionCnt (h : Counted s) : 0 ≤ s.sessionCnt := by
  have hnonneg := h.nonneg
  omega

/-- With no call under way the counter is the number of entries. -/
theorem Counted.eq_card (h : Counted s) (hp : s.pending = []) (hk : ∀ k, s.closers k = .resting) :
    s.sessionCnt = s.sessions.keys.card := by
  have hexact := h.exact fun k => by simp [hk k]
  simpa [hp, counting, uncounting] using hexact

theorem Counted.replace {worker : String} {session old : ι} (h : Counted s)
    (hw : s.sessions.lookup worker = some old) (ho : ∀ k, s.closers k = .resting) :
    Counted { s with
      sessions := s.sessions.insert worker session, pending := .closeOld old :: s.pending } := by
  have hnc : ∀ k, s.closers k ≠ .cleared := fun k => by simp [ho k]
  have hmem : worker ∈ s.sessions.keys :=
    Finmap.mem_keys.mpr (Finmap.mem_of_lookup_eq_some hw)
  refine ⟨h.nodup, h.nonneg, fun k hk => absurd hk (hnc k), fun _ w hcw => ?_, fun _ => ?_⟩
  · exact Finmap.mem_insert.mpr (.inr (h.present hnc w hcw))
  · rw [keys_insert, Finset.insert_eq_of_mem hmem]
    exact h.exact hnc

theorem Counted.add {worker : String} {session : ι} (h : Counted s)
    (hw : s.sessions.lookup worker = none) (ho : ∀ k, s.closers k = .resting) :
    Counted { s with
      sessions := s.sessions.insert worker session, pending := .count worker :: s.pending } := by
  have hnc : ∀ k, s.closers k ≠ .cleared := fun k => by simp [ho k]
  have hnot : worker ∉ s.sessions := Finmap.lookup_eq_none.mp hw
  have hkeys : worker ∉ s.sessions.keys := fun hm => hnot (Finmap.mem_keys.mp hm)
  have hexact := h.exact hnc
  refine ⟨?_, h.nonneg, fun k hk => absurd hk (hnc k), fun _ w hcw => ?_, fun _ => ?_⟩
  · exact List.nodup_cons.mpr ⟨fun hm => hnot (h.present hnc worker hm), h.nodup⟩
  · rcases List.mem_cons.mp hcw with rfl | hcw
    · exact Finmap.mem_insert.mpr (.inl rfl)
    · exact Finmap.mem_insert.mpr (.inr (h.present hnc w hcw))
  · rw [keys_insert, Finset.card_insert_of_notMem hkeys]
    simp only [counting_count, uncounting_count, List.length_cons]
    omega

theorem forget_eq_cleared {c : Closing} {worker : String} :
    c.forget worker = .cleared ↔ c = .cleared := by
  cases c <;> simp [Closing.forget]

theorem Counted.delete {worker : String} {session : ι} (h : Counted s)
    (hw : s.sessions.lookup worker = some session) (ho : worker ∉ counting s.pending) :
    Counted { s with
      sessions := s.sessions.erase worker
      pending := .uncount worker :: s.pending
      closers := fun k => (s.closers k).forget worker } := by
  have hmem : worker ∈ s.sessions.keys :=
    Finmap.mem_keys.mpr (Finmap.mem_of_lookup_eq_some hw)
  have hnc : ∀ k, s.closers k ≠ .cleared := by
    intro k hk
    simp [h.cleared k hk] at hw
  have hexact := h.exact hnc
  -- the workers still to be counted are in the map, and this one is not among them
  have hle : (counting s.pending).length + 1 ≤ s.sessions.keys.card := by
    rw [← List.length_cons (a := worker),
      ← List.toFinset_card_of_nodup (List.nodup_cons.mpr ⟨ho, h.nodup⟩)]
    refine Finset.card_le_card fun w hcw => ?_
    rcases List.mem_cons.mp (List.mem_toFinset.mp hcw) with rfl | hcw
    · exact hmem
    · exact Finmap.mem_keys.mpr (h.present hnc w hcw)
  have hcard := Finset.card_erase_of_mem hmem
  refine ⟨h.nodup, ?_, fun k hk => absurd (forget_eq_cleared.mp hk) (hnc k), fun _ w hcw => ?_,
    fun _ => ?_⟩
  · simp only [uncounting_uncount, List.length_cons]
    omega
  · have hne : w ≠ worker := fun he => ho (he ▸ hcw)
    exact Finmap.mem_erase.mpr ⟨hne, h.present hnc w hcw⟩
  · rw [Finmap.keys_erase, hcard]
    simp only [counting_uncount, uncounting_uncount, List.length_cons]
    omega

theorem Counted.reorder {ops : List (Pending ι)} (h : Counted s) (hp : s.pending.Perm ops) :
    Counted { s with pending := ops } := by
  have hc : (counting s.pending).Perm (counting ops) := hp.filterMap _
  have hu : (uncounting s.pending).Perm (uncounting ops) := hp.filterMap _
  refine ⟨hc.nodup_iff.mp h.nodup, ?_, h.cleared, fun hnc w hw => ?_, fun hnc => ?_⟩
  · rw [← hu.length_eq]
    exact h.nonneg
  · exact h.present hnc w (hc.mem_iff.mpr hw)
  · rw [← hc.length_eq, ← hu.length_eq]
    exact h.exact hnc

theorem Counted.perform [DecidableEq ι] {op : Pending ι} {ops : List (Pending ι)}
    (h : Counted { s with pending := op :: ops }) :
    Counted ({ s with pending := ops }.perform op) := by
  have hnodup := h.nodup
  have hnonneg := h.nonneg
  have hpresent := h.present
  have hexact := h.exact
  cases op with
  | closeOld old => exact ⟨h.nodup, h.nonneg, h.cleared, h.present, h.exact⟩
  | count worker =>
    simp only [counting_count, uncounting_count, List.length_cons] at hnodup hnonneg hexact
    refine ⟨(List.nodup_cons.mp hnodup).2, ?_, h.cleared,
      fun hnc w hw => hpresent hnc w (List.mem_cons_of_mem _ hw), fun hnc => ?_⟩
    · simp only [Sys.perform]
      omega
    · have := hexact hnc
      simp only [Sys.perform]
      omega
  | uncount worker =>
    simp only [counting_uncount, uncounting_uncount, List.length_cons] at hnodup hnonneg hexact
    refine ⟨hnodup, ?_, h.cleared, hpresent, fun hnc => ?_⟩
    · simp only [Sys.perform]
      omega
    · have := hexact hnc
      simp only [Sys.perform]
      omega

theorem Counted.range {closed : ι → Bool} {closers : κ → Closing} (h : Counted s)
    (hc : ∀ k, closers k = .cleared ↔ s.closers k = .cleared) :
    Counted { s with closed := closed, closers := closers } := by
  have hnc : (∀ k, closers k ≠ .cleared) → ∀ k, s.closers k ≠ .cleared := by
    intro hall k hk
    exact hall k ((hc k).mpr hk)
  exact ⟨h.nodup, h.nonneg, fun k hk => h.cleared k ((hc k).mp hk),
    fun hall => h.present (hnc hall), fun hall => h.exact (hnc hall)⟩

variable [DecidableEq κ]

theorem Counted.clear {k : κ} (h : Counted s) : Counted (s.clearAll k) := by
  have hcleared : ¬∀ k', (s.clearAll k).closers k' ≠ .cleared := by
    intro hall
    exact hall k (by simp [Sys.clearAll])
  exact ⟨h.nodup, h.nonneg, fun _ _ => rfl, fun hall => absurd hall hcleared,
    fun hall => absurd hall hcleared⟩

/-- `Store(0)` with no counter step under way: the map has been cleared. -/
theorem Counted.reset {k : κ} (h : Counted s) (hk : s.closers k = .cleared)
    (hc : counting s.pending = []) (hu : uncounting s.pending = []) :
    Counted ({ s with sessionCnt := 0 }.setCloser k .resting) := by
  have hempty := h.cleared k hk
  refine ⟨h.nodup, ?_, fun _ _ => hempty, fun _ w hw => ?_, fun _ => ?_⟩
  · simp [Sys.setCloser, hu]
  · simp [Sys.setCloser, hc] at hw
  · simp [Sys.setCloser, hc, hu, hempty]

theorem setCloser_cleared {k : κ} {c : Closing} (hk : s.closers k ≠ .cleared)
    (hc : c ≠ .cleared) (k' : κ) :
    (s.setCloser k c).closers k' = .cleared ↔ s.closers k' = .cleared := by
  by_cases he : k' = k
  · simp [Sys.setCloser, he, hk, hc]
  · simp [Sys.setCloser, Function.update_of_ne he]

variable [DecidableEq ι]

theorem Counted.step {l : Label ι κ} (h : Counted s) (ho : Orderly s l) (hm : Moves s l t) :
    Counted t := by
  cases hm with
  | replace worker session old hw => exact h.replace hw ho
  | add worker session hw => exact h.add hw ho
  | absent => exact h
  | delete worker session hw => exact h.delete hw ho
  | finish op hop => exact (h.reorder (List.perm_cons_erase hop)).perform
  | closeSession session => exact h.range fun _ => Iff.rfl
  | callClose k hk => exact h.range (setCloser_cleared (by simp [hk]) (by simp))
  | visit k worker i must visited hk =>
    exact h.range (setCloser_cleared (s := s.close i) (by simp [Sys.close, hk]) (by simp))
  | clear k => exact h.clear
  | reset k hk => exact h.reset hk ho.1 ho.2

theorem counted_of_reach (h : Reach (Fires step) Orderly (Sys.start ι κ) s) : Counted s :=
  h.invariant counted_start fun _ _ _ hu ho hs => hu.step ho (moves_of_step hs)

structure Closes (s : Sys ι κ) (removed : κ → Finmap fun _ : String => ι) : Prop where
  -- `Range` has closed what it has visited, and what is in the map when it began is what is there
  -- now; what was removed has been closed
  keys : ∀ k must visited, s.closers k = .ranging must visited → s.sessions.keys ⊆ must
  visited : ∀ k must visited, s.closers k = .ranging must visited → ∀ w ∈ visited, ∀ i,
    s.sessions.lookup w = some i → s.closed i = true
  removed : ∀ k w i, (removed k).lookup w = some i → s.closed i = true

variable {removed : κ → Finmap fun _ : String => ι}

omit [DecidableEq ι] [DecidableEq κ] in
theorem closes_start : Closes (Sys.start ι κ) fun _ => ∅ := by
  refine ⟨fun k must visited hk => ?_, fun k must visited hk => ?_, fun k w i hw => ?_⟩
  · cases hk
  · cases hk
  · simp at hw

omit [DecidableEq ι] [DecidableEq κ] in
theorem Closes.mono (h : Closes s removed) (hs : t.sessions = s.sessions)
    (hk : t.closers = s.closers) (hc : ∀ i, s.closed i = true → t.closed i = true) :
    Closes t removed := by
  refine ⟨?_, fun k must visited hr w hw i hl => ?_, fun k w i hl => hc i (h.removed k w i hl)⟩
  · rw [hs, hk]
    exact h.keys
  · rw [hs] at hl
    rw [hk] at hr
    exact hc i (h.visited k must visited hr w hw i hl)

omit [DecidableEq κ] in
theorem closed_close {i j : ι} (h : s.closed j = true) : (s.close i).closed j = true := by
  by_cases he : j = i
  · simp [Sys.close, he]
  · simpa [Sys.close, Function.update_of_ne he] using h

omit [DecidableEq ι] [DecidableEq κ] in
theorem Closes.register {sessions : Finmap fun _ : String => ι} {pending : List (Pending ι)}
    (h : Closes s removed) (ho : ∀ k, s.closers k = .resting) :
    Closes { s with sessions := sessions, pending := pending } removed := by
  refine ⟨fun k must visited hk => ?_, fun k must visited hk => ?_, h.removed⟩
  · cases (ho k).symm.trans hk
  · cases (ho k).symm.trans hk

omit [DecidableEq ι] [DecidableEq κ] in
theorem Closes.delete {worker : String} {pending : List (Pending ι)} (h : Closes s removed) :
    Closes { s with
      sessions := s.sessions.erase worker
      pending := pending
      closers := fun k => (s.closers k).forget worker } removed := by
  have hforget : ∀ k must visited, (s.closers k).forget worker = .ranging must visited →
      ∃ must₀, s.closers k = .ranging must₀ visited ∧ must = must₀.erase worker := by
    intro k must visited hk
    cases hc : s.closers k with
    | resting => simp [hc, Closing.forget] at hk
    | ranging must₀ visited₀ =>
      obtain ⟨rfl, rfl⟩ : must₀.erase worker = must ∧ visited₀ = visited := by
        simpa [hc, Closing.forget] using hk
      exact ⟨must₀, rfl, rfl⟩
    | cleared => simp [hc, Closing.forget] at hk
  refine ⟨fun k must visited hk => ?_, fun k must visited hk w hw i hl => ?_, h.removed⟩
  · obtain ⟨must₀, hc, rfl⟩ := hforget k must visited hk
    rw [Finmap.keys_erase]
    exact Finset.erase_subset_erase _ (h.keys k must₀ visited hc)
  · obtain ⟨must₀, hc, rfl⟩ := hforget k must visited hk
    have hne : w ≠ worker := by
      intro he
      subst he
      simp at hl
    rw [Finmap.lookup_erase_ne hne] at hl
    exact h.visited k must₀ visited hc w hw i hl

omit [DecidableEq ι] in
theorem Closes.setCloser {k : κ} {c : Closing} (h : Closes s removed)
    (hkeys : ∀ must visited, c = .ranging must visited → s.sessions.keys ⊆ must)
    (hvisited : ∀ must visited, c = .ranging must visited → ∀ w ∈ visited, ∀ i,
      s.sessions.lookup w = some i → s.closed i = true) :
    Closes (s.setCloser k c) removed := by
  refine ⟨fun k' must visited hr => ?_, fun k' must visited hr => ?_, h.removed⟩
  all_goals
    by_cases he : k' = k
  · exact hkeys must visited (by simpa [Sys.setCloser, he] using hr)
  · exact h.keys k' must visited (by simpa [Sys.setCloser, Function.update_of_ne he] using hr)
  · exact hvisited must visited (by simpa [Sys.setCloser, he] using hr)
  · exact h.visited k' must visited (by simpa [Sys.setCloser, Function.update_of_ne he] using hr)

theorem Closes.visit {k : κ} {worker : String} {i : ι} {must visited : Finset String}
    (h : Closes s removed) (hk : s.closers k = .ranging must visited)
    (hw : s.sessions.lookup worker = some i) :
    Closes ((s.close i).setCloser k (.ranging must (insert worker visited))) removed := by
  have hclose : Closes (s.close i) removed := h.mono rfl rfl fun _ => closed_close
  refine hclose.setCloser (fun must' visited' he => ?_) fun must' visited' he w hm j hl => ?_
  · cases he
    exact h.keys k must visited hk
  · cases he
    rcases Finset.mem_insert.mp hm with rfl | hm
    · obtain rfl : i = j := Option.some.inj (hw.symm.trans hl)
      simp [Sys.close]
    · exact closed_close (h.visited k must visited hk w hm j hl)

omit [DecidableEq ι] in
/-- When `Range` is over, every session in the map has been visited. -/
theorem Closes.clear {k : κ} {must visited : Finset String} (h : Closes s removed)
    (hk : s.closers k = .ranging must visited) (hv : must ⊆ visited) :
    Closes (s.clearAll k) (Function.update removed k s.sessions) := by
  refine ⟨fun k' must' visited' _ => ?_, fun k' must' visited' _ w _ i hl => ?_,
    fun k' w i hl => ?_⟩
  · simp [Sys.clearAll]
  · simp [Sys.clearAll] at hl
  · by_cases he : k' = k
    · have hl : s.sessions.lookup w = some i := by simpa [he] using hl
      have hmem : w ∈ visited :=
        hv (h.keys k must visited hk (Finmap.mem_keys.mpr (Finmap.mem_of_lookup_eq_some hl)))
      exact h.visited k must visited hk w hmem i hl
    · exact h.removed k' w i (by simpa [Function.update_of_ne he] using hl)

theorem Closes.step {l : Label ι κ} (h : Closes s removed) (ho : Orderly s l)
    (hm : Moves s l t) : Closes t (recordRemoved s l removed) := by
  cases hm with
  | replace worker session old => exact h.register ho
  | add worker session => exact h.register ho
  | absent => exact h
  | delete worker session => exact h.delete
  | finish op =>
    cases op with
    | closeOld old => exact h.mono rfl rfl fun _ => closed_close (s := s)
    | count | uncount => exact h.mono rfl rfl fun _ => id
  | closeSession session => exact h.mono rfl rfl fun _ => closed_close
  | callClose k =>
    refine h.setCloser (fun must visited he => ?_) fun must visited he w hw => ?_
    · cases he
      exact Finset.Subset.refl _
    · cases he
      simp at hw
  | visit k worker i must visited hk hw => exact h.visit hk hw
  | clear k must visited hk hv => exact h.clear hk hv
  | reset k =>
    refine Closes.setCloser (h.mono rfl rfl fun _ => id) (fun must visited he => ?_)
      fun must visited he => ?_
    · cases he
    · cases he

/-- In every run whose steps wait as in `Orderly`, the counter is never negative, it is
the number of entries when no call is under way, and a `Close` that has returned has closed
every session whose entry it removed. -/
theorem session_accounting {s : Sys ι κ × (κ → Finmap fun _ : String => ι)}
    (h : Reach (Fires (recorded step recordRemoved)) (fun s l => Orderly s.1 l)
      (Sys.start ι κ, fun _ => ∅) s) :
    0 ≤ s.1.sessionCnt ∧
    (s.1.pending = [] → (∀ k, s.1.closers k = .resting) →
      s.1.activeWorkerCount = s.1.sessions.keys.card) ∧
    ∀ k, s.1.closers k = .resting → ∀ w i, (s.2 k).lookup w = some i → s.1.closed i = true := by
  have hinv : Counted s.1 ∧ Closes s.1 s.2 := by
    refine h.invariant (I := fun s => Counted s.1 ∧ Closes s.1 s.2)
      ⟨counted_start, closes_start⟩ ?_
    intro u l v hu ho hs
    obtain ⟨t, ht, rfl⟩ := Option.map_eq_some_iff.mp hs
    have hm := moves_of_step ht
    exact ⟨hu.1.step ho hm, hu.2.step ho hm⟩
  exact ⟨hinv.1.nonneg_sessionCnt, hinv.1.eq_card, fun k _ => hinv.2.removed k⟩

/-- Two workers come, one goes, and `Close` finds the other. -/
theorem session_accounting_closing :
    ∃ s : Sys Bool Unit × (Unit → Finmap fun _ : String => Bool),
      Reach (Fires (recorded step recordRemoved)) (fun s l => Orderly s.1 l)
        (Sys.start Bool Unit, fun _ => ∅) s ∧
      (s.2 ()).lookup "worker-1" = some true ∧ 0 ≤ s.1.sessionCnt ∧
      s.1.activeWorkerCount = s.1.sessions.keys.card ∧ s.1.closed true = true := by
  obtain ⟨s, hs, hp, hk, hr⟩ : ∃ s, replay
      (guarded (fun (s : Sys Bool Unit × _) l => decide (Orderly s.1 l))
        (recorded step recordRemoved))
      [.register "worker-1" true, .finish (.count "worker-1"), .register "worker-2" false,
        .finish (.count "worker-2"), .unregister "worker-2", .finish (.uncount "worker-2"),
        .callClose (), .visit () "worker-1", .clear (), .reset ()]
      (Sys.start Bool Unit, fun _ => ∅) = some s ∧ s.1.pending = [] ∧
      s.1.closers () = .resting ∧ (s.2 ()).lookup "worker-1" = some true :=
    ⟨_, rfl, rfl, rfl, rfl⟩
  have hreach : Reach (Fires (recorded step recordRemoved)) (fun s l => Orderly s.1 l)
      (Sys.start Bool Unit, fun _ => ∅) s :=
    (reach_of_replay hs).of_guarded fun _ _ hpass => of_decide_eq_true hpass
  obtain ⟨hnonneg, hcount, hclosed⟩ := session_accounting hreach
  exact ⟨s, hreach, hr, hnonneg, hcount hp fun _ => hk, hclosed () hk "worker-1" true hr⟩

/-- `Unregister` overtakes the `Add(1)` of `Register`; `Close` comes between the two steps
of a `Register`; a registration comes after the `Range` of a `Close` and is cleared with its
session open. -/
theorem session_accounting_off :
    (∃ s, Reach (Fires (recorded step recordRemoved)) anyStep
        (Sys.start Unit Unit, fun _ => ∅) s ∧ s.1.sessionCnt = -1) ∧
    (∃ s, Reach (Fires (recorded step recordRemoved)) anyStep
        (Sys.start Unit Unit, fun _ => ∅) s ∧ s.1.pending = [] ∧
      s.1.closers () = .resting ∧ s.1.activeWorkerCount = 1 ∧ s.1.sessions = ∅) ∧
    ∃ s, Reach (Fires (recorded step recordRemoved)) anyStep
        (Sys.start Unit Unit, fun _ => ∅) s ∧ s.1.closers () = .resting ∧
      (s.2 ()).lookup "worker-1" = some () ∧ s.1.closed () = false := by
  obtain ⟨s, hs, hcnt⟩ : ∃ s, replay (recorded step recordRemoved)
      [.register "worker-1" (), .unregister "worker-1", .finish (.uncount "worker-1")]
      (Sys.start Unit Unit, fun _ => ∅) = some s ∧ s.1.sessionCnt = -1 := ⟨_, rfl, rfl⟩
  obtain ⟨t, ht, hcount⟩ : ∃ t, replay (recorded step recordRemoved)
      [.register "worker-1" (), .callClose (), .visit () "worker-1", .clear (), .reset (),
        .finish (.count "worker-1")] (Sys.start Unit Unit, fun _ => ∅) = some t ∧
      t.1.pending = [] ∧ t.1.closers () = .resting ∧ t.1.activeWorkerCount = 1 ∧
      t.1.sessions = ∅ := ⟨_, rfl, rfl, rfl, rfl, rfl⟩
  obtain ⟨u, hu, hopen⟩ : ∃ u, replay (recorded step recordRemoved)
      [.callClose (), .register "worker-1" (), .clear (), .reset ()]
      (Sys.start Unit Unit, fun _ => ∅) = some u ∧ u.1.closers () = .resting ∧
      (u.2 ()).lookup "worker-1" = some () ∧ u.1.closed () = false := ⟨_, rfl, rfl, rfl, rfl⟩
  exact ⟨⟨s, reach_of_replay hs, hcnt⟩, ⟨t, reach_of_replay ht, hcount⟩, u,
    reach_of_replay hu, hopen⟩

end Leibrix.SessionManager

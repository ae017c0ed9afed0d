import Leibrix.SessionCalls

/-! Calls of the `SessionManager` one after another, and the sessions it has then. `Register`
closes the session it displaces without looking whether that one is still wanted: it may be
the session just stored, or be stored for another worker too. -/
namespace Leibrix.SessionManager
open Leibrix.Transition
open Leibrix.WorkerStreams (Closing)

inductive Call (ι κ : Type) where
  | register (worker : String) (session : ι)
  | unregister (worker : String)
  -- `SessionManager.Close`
  | close (k : κ)
deriving DecidableEq

variable {ι κ : Type} [DecidableEq ι]

def Sys.register (s : Sys ι κ) (worker : String) (session : ι) : Sys ι κ :=
  { s with sessions := s.sessions.insert worker session }.perform
    (match s.sessions.lookup worker with
      | some old => .closeOld old
      | none => .count worker)

def Sys.unregister (s : Sys ι κ) (worker : String) : Sys ι κ :=
  match s.sessions.lookup worker with
  | none => s
  | some _ => { s with sessions := s.sessions.erase worker }.perform (.uncount worker)

def Sys.closedWith (s : Sys ι κ) (workers : Finset String) (i : ι) : Bool :=
  s.closed i || decide (∃ w ∈ workers, s.sessions.lookup w = some i)

def Sys.closeAll (s : Sys ι κ) : Sys ι κ :=
  { s with sessions := ∅, sessionCnt := 0, closed := s.closedWith s.sessions.keys }

def Sys.call (s : Sys ι κ) : Call ι κ → Sys ι κ
  | .register worker session => s.register worker session
  | .unregister worker => s.unregister worker
  | .close _ => s.closeAll

def Sys.calls (s : Sys ι κ) (cs : List (Call ι κ)) : Sys ι κ := cs.foldl Sys.call s

section Steps
variable [DecidableEq κ] {s t : Sys ι κ}

structure AtRest (s : Sys ι κ) : Prop where
  pending : s.pending = []
  closers : ∀ k, s.closers k = .resting

def Own (_ : Sys ι κ) (l : Label ι κ) : Prop := ∀ i, l ≠ .closeSession i

theorem reach_register (h : AtRest s) (worker : String) (session : ι) :
    Reach (Fires step) Own s (s.register worker session) := by
  have hfirst : Reach (Fires step) Own s (s.loadAndStore worker session) :=
    Reach.refl.tail (a := .register worker session) (fun i => by simp) rfl
  cases hw : s.sessions.lookup worker with
  | none =>
    refine hfirst.tail (a := .finish (.count worker)) (fun i => by simp) ?_
    simp [Fires, step, Sys.loadAndStore, Sys.register, hw, h.pending]
  | some old =>
    refine hfirst.tail (a := .finish (.closeOld old)) (fun i => by simp) ?_
    simp [Fires, step, Sys.loadAndStore, Sys.register, hw, h.pending]

theorem reach_unregister (h : AtRest s) (worker : String) :
    Reach (Fires step) Own s (s.unregister worker) := by
  have hfirst : Reach (Fires step) Own s (s.loadAndDelete worker) :=
    Reach.refl.tail (a := .unregister worker) (fun i => by simp) rfl
  cases hw : s.sessions.lookup worker with
  | none => simpa [Sys.unregister, Sys.loadAndDelete, hw] using hfirst
  | some session =>
    refine hfirst.tail (a := .finish (.uncount worker)) (fun i => by simp) ?_
    have hforget : (fun k => (s.closers k).forget worker) = s.closers := by
      funext k
      rw [h.closers k]
      rfl
    simp [Fires, step, Sys.loadAndDelete, Sys.unregister, hw, h.pending, hforget]

/-- `Range` comes to one worker after another. -/
theorem reach_visits (k : κ) {workers : Finset String} (hw : workers ⊆ s.sessions.keys) :
    Reach (Fires step) Own (s.setCloser k (.ranging s.sessions.keys ∅))
      ({ s with closed := s.closedWith workers }.setCloser k
        (.ranging s.sessions.keys workers)) := by
  induction workers using Finset.induction_on with
  | empty =>
    have hnone : s.closedWith ∅ = s.closed := by
      funext i
      simp [Sys.closedWith]
    rw [hnone]
    exact .refl
  | insert w workers hnot ih =>
    rw [Finset.insert_subset_iff] at hw
    obtain ⟨i, hi⟩ := Finmap.mem_iff.mp (Finmap.mem_keys.mp hw.1)
    refine (ih hw.2).tail (a := .visit k w) (fun i => by simp) ?_
    have hclosed : Function.update (s.closedWith workers) i true =
        s.closedWith (insert w workers) := by
      funext j
      by_cases hj : j = i
      · simp [hj, Sys.closedWith, hi]
      · have hne : some i ≠ some j := fun h => hj (Option.some.inj h).symm
        simp [Function.update_of_ne hj, Sys.closedWith, hi, Ne.symm hj]
    simp [Fires, step, Sys.setCloser, Sys.close, hi, hnot, hclosed]

theorem reach_closeAll (h : AtRest s) (k : κ) : Reach (Fires step) Own s s.closeAll := by
  have hcall : Reach (Fires step) Own s (s.setCloser k (.ranging s.sessions.keys ∅)) :=
    Reach.refl.tail (a := .callClose k) (fun i => by simp) (by simp [Fires, step, h.closers k])
  have hvisit := hcall.trans (reach_visits k (Finset.Subset.refl s.sessions.keys))
  have hstep : ∀ t : Sys ι κ, t.closers k = .ranging s.sessions.keys s.sessions.keys →
      Fires step t (.clear k) (t.clearAll k) := by
    intro t ht
    simp [Fires, step, ht]
  have hclear := hvisit.tail (fun i => by simp) (hstep _ (by simp [Sys.setCloser]))
  refine hclear.tail (a := .reset k) (fun i => by simp) ?_
  have hclosers : Function.update (Function.update (fun k' =>
      (Function.update s.closers k (.ranging s.sessions.keys s.sessions.keys) k').forgetAll)
        k .cleared) k .resting = s.closers := by
    funext k'
    by_cases hk : k' = k
    · simp [hk, h.closers]
    · simp [Function.update_of_ne hk, h.closers, Closing.forgetAll]
  simp only [Fires, step, Sys.setCloser, Sys.clearAll, Function.update_self, if_true, hclosers]
  rfl

omit [DecidableEq κ] in
theorem AtRest.call (h : AtRest s) (c : Call ι κ) : AtRest (s.call c) := by
  cases c with
  | register worker session =>
    simp only [Sys.call, Sys.register]
    cases s.sessions.lookup worker <;> exact ⟨h.pending, h.closers⟩
  | unregister worker =>
    simp only [Sys.call, Sys.unregister]
    cases s.sessions.lookup worker
    · exact h
    · exact ⟨h.pending, h.closers⟩
  | close k => exact ⟨h.pending, h.closers⟩

/-- Calls one after another are among the runs of the manager's steps. -/
theorem reach_calls (h : AtRest s) (cs : List (Call ι κ)) :
    Reach (Fires step) Own s (s.calls cs) := by
  induction cs generalizing s with
  | nil => exact .refl
  | cons c cs ih =>
    refine Reach.trans ?_ (ih (h.call c))
    cases c with
    | register worker session => exact reach_register h worker session
    | unregister worker => exact reach_unregister h worker
    | close k => exact reach_closeAll h k

end Steps

section Open
variable {s : Sys ι κ} {worker : String} {session : ι}

theorem sessions_register : (s.register worker session).sessions =
    s.sessions.insert worker session := by
  unfold Sys.register
  cases s.sessions.lookup worker <;> rfl

/-- `Register` closes the session it displaces, and no other. -/
theorem closed_register (i : ι) : (s.register worker session).closed i =
    (s.closed i || decide (s.sessions.lookup worker = some i)) := by
  unfold Sys.register
  cases hw : s.sessions.lookup worker with
  | none => simp [Sys.perform]
  | some old =>
    by_cases hi : i = old
    · simp [Sys.perform, Sys.close, hi]
    · simp [Sys.perform, Sys.close, Function.update_of_ne hi, Ne.symm hi]

def AllOpen (s : Sys ι κ) : Prop := ∀ w i, s.sessions.lookup w = some i → s.closed i = false

def Harmless (s : Sys ι κ) : Call ι κ → Prop
  -- A `Register` of an open session that displaces no session, or one that is neither this one nor
  -- stored for another worker. Any other call.
  | .register worker session => s.closed session = false ∧
      ∀ old, s.sessions.lookup worker = some old →
        old ≠ session ∧ ∀ w, w ≠ worker → s.sessions.lookup w ≠ some old
  | _ => True

theorem allOpen_register (h : AllOpen s) :
    AllOpen (s.register worker session) ↔ Harmless s (.register worker session) := by
  constructor
  · intro ht
    have hnew := ht worker session (by rw [sessions_register, Finmap.lookup_insert])
    rw [closed_register, Bool.or_eq_false_iff, decide_eq_false_iff_not] at hnew
    refine ⟨hnew.1, fun old hold => ⟨fun he => hnew.2 (he ▸ hold), fun w hw hother => ?_⟩⟩
    have hkept := ht w old (by rw [sessions_register, Finmap.lookup_insert_of_ne _ hw, hother])
    rw [closed_register, hold] at hkept
    simp at hkept
  · intro hd w i hi
    rw [sessions_register] at hi
    rw [closed_register, Bool.or_eq_false_iff, decide_eq_false_iff_not]
    by_cases hw : w = worker
    · rw [hw, Finmap.lookup_insert] at hi
      cases hi
      exact ⟨hd.1, fun hold => (hd.2 session hold).1 rfl⟩
    · rw [Finmap.lookup_insert_of_ne _ hw] at hi
      exact ⟨h w i hi, fun hold => (hd.2 i hold).2 w hw hi⟩

theorem allOpen_unregister (h : AllOpen s) : AllOpen (s.unregister worker) := by
  unfold Sys.unregister
  cases s.sessions.lookup worker with
  | none => exact h
  | some session =>
    intro w i hi
    refine h w i ?_
    have hne : w ≠ worker := by
      rintro rfl
      simp [Sys.perform, Finmap.lookup_erase] at hi
    simpa [Sys.perform, Finmap.lookup_erase_ne hne] using hi

theorem allOpen_call (s : Sys ι κ) (c : Call ι κ) (h : AllOpen s) :
    AllOpen (s.call c) ↔ Harmless s c := by
  cases c with
  | register worker session => exact allOpen_register h
  | unregister worker => exact iff_of_true (allOpen_unregister h) trivial
  | close k =>
    refine iff_of_true ?_ trivial
    intro w i hi
    simp [Sys.call, Sys.closeAll] at hi

omit [DecidableEq ι] in
theorem allOpen_start : AllOpen (Sys.start ι κ) := by
  intro w i hi
  simp [Sys.start] at hi

/-- After each of the calls all sessions in the map are open, and no `Register` closes one
that is still in it, exactly if every `Register` is for an open session and displaces neither
that session nor one that another worker has too. -/
theorem registered_open_iff (cs : List (Call ι κ)) :
    ((∀ before, before <+: cs → AllOpen ((Sys.start ι κ).calls before)) ∧
      ∀ before worker session, before ++ [.register worker session] <+: cs →
        ∀ i, ((Sys.start ι κ).calls before).closed i = false →
          (((Sys.start ι κ).calls before).register worker session).closed i = true →
          ∀ w, (((Sys.start ι κ).calls before).register worker session).sessions.lookup w ≠
            some i) ↔
    ∀ before c, before ++ [c] <+: cs → Harmless ((Sys.start ι κ).calls before) c := by
  refine Iff.trans ?_ (holds_along_iff allOpen_call allOpen_start cs)
  refine ⟨fun h => h.1, fun h => ⟨h, fun before worker session hpre i _ hclosed w hw => ?_⟩⟩
  have hall : AllOpen (((Sys.start ι κ).calls before).register worker session) := by
    have hnext := h _ hpre
    rwa [List.foldl_append] at hnext
  exact absurd (hall w i hw) (by simp [hclosed])

def registeredTwice : Sys Nat Unit :=
  (Sys.start Nat Unit).calls [.register "worker-1" 0, .register "worker-1" 0]

theorem registeredTwice_closed :
    registeredTwice.sessions.lookup "worker-1" = some 0 ∧ registeredTwice.closed 0 = true := by
  decide

end Open
end Leibrix.SessionManager

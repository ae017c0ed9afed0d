import Mathlib.Data.List.Induction
import Mathlib.Logic.Relation

/-! Runs of labelled transition systems, with an optional condition that every
step of the run has to meet in the state it is taken in. -/
namespace Leibrix.Transition
variable {σ ι : Type*}

def Fires (next : σ → ι → Option σ) (s : σ) (a : ι) (t : σ) : Prop := next s a = some t

def anyStep : σ → ι → Prop := fun _ _ => True

inductive Reach (step : σ → ι → σ → Prop) (ok : σ → ι → Prop) (s : σ) : σ → Prop
  | refl : Reach step ok s s
  | tail {t u : σ} {a : ι} : Reach step ok s t → ok t a → step t a u → Reach step ok s u

variable {step : σ → ι → σ → Prop} {ok ok' : σ → ι → Prop}

theorem Reach.invariant {I : σ → Prop} {s t : σ} (h : Reach step ok s t) (hs : I s)
    (hstep : ∀ t a u, I t → ok t a → step t a u → I u) : I t := by
  induction h with
  | refl => exact hs
  | tail _ ho hst ih => exact hstep _ _ _ ih ho hst

theorem Reach.trans {s t u : σ} (h : Reach step ok s t) (h' : Reach step ok t u) :
    Reach step ok s u := by
  induction h' with
  | refl => exact h
  | tail _ ho hst ih => exact ih.tail ho hst

theorem Reach.mono {s t : σ} (h : Reach step ok s t) (hok : ∀ s a, ok s a → ok' s a) :
    Reach step ok' s t := by
  induction h with
  | refl => exact .refl
  | tail _ ho hst ih => exact ih.tail (hok _ _ ho) hst

/-- A run that another system follows step by step, by any number of its own steps. -/
theorem Reach.simulated {τ κ : Type*} {step' : τ → κ → τ → Prop} {follows : τ → κ → Prop}
    {R : σ → τ → Prop} {s t : σ} {s' : τ} (h : Reach step ok s t) (hs : R s s')
    (hstep : ∀ t a u t', R t t' → ok t a → step t a u →
      ∃ u', Reach step' follows t' u' ∧ R u u') :
    ∃ t', Reach step' follows s' t' ∧ R t t' := by
  induction h with
  | refl => exact ⟨s', .refl, hs⟩
  | tail _ ho hst ih =>
    obtain ⟨t', hr, ht⟩ := ih
    obtain ⟨u', hr', hu⟩ := hstep _ _ _ t' ht ho hst
    exact ⟨u', hr.trans hr', hu⟩

inductive Trace (step : σ → ι → σ → Prop) (s : σ) : List ι → σ → Prop
  | nil : Trace step s [] s
  | snoc {as : List ι} {t u : σ} {a : ι} : Trace step s as t → step t a u →
      Trace step s (as ++ [a]) u

theorem Trace.unsnoc {as : List ι} {a : ι} {s u : σ} (h : Trace step s (as ++ [a]) u) :
    ∃ t, Trace step s as t ∧ step t a u := by
  generalize hl : as ++ [a] = l at h
  cases h with
  | nil => simp at hl
  | snoc ht hst =>
    obtain ⟨rfl, hb⟩ := List.append_inj' hl rfl
    obtain rfl := List.singleton_inj.mp hb
    exact ⟨_, ht, hst⟩

theorem Trace.split {as bs : List ι} {s u : σ} (h : Trace step s (as ++ bs) u) :
    ∃ t, Trace step s as t ∧ Trace step t bs u := by
  induction bs using List.reverseRecOn generalizing u with
  | nil => exact ⟨u, by simpa using h, .nil⟩
  | append_singleton bs b ih =>
    rw [← List.append_assoc] at h
    obtain ⟨t, ht, hst⟩ := h.unsnoc
    obtain ⟨t', ht', hbs⟩ := ih ht
    exact ⟨t', ht', hbs.snoc hst⟩

theorem Trace.append {as bs : List ι} {s t u : σ} (h : Trace step s as t)
    (h' : Trace step t bs u) : Trace step s (as ++ bs) u := by
  induction h' with
  | nil => simpa using h
  | snoc _ hst ih =>
    rw [← List.append_assoc]
    exact ih.snoc hst

theorem Trace.map {τ : Type*} {step' : τ → ι → τ → Prop} {f : σ → τ} {as : List ι} {s t : σ}
    (h : Trace step s as t) (hf : ∀ s a t, step s a t → step' (f s) a (f t)) :
    Trace step' (f s) as (f t) := by
  induction h with
  | nil => exact .nil
  | snoc _ hst ih => exact ih.snoc (hf _ _ _ hst)

theorem Trace.eq_of_nil {s t : σ} (h : Trace step s [] t) : t = s := by
  generalize hl : ([] : List ι) = as at h
  cases h with
  | nil => rfl
  | snoc => simp at hl

theorem Trace.step_of_singleton {a : ι} {s t : σ} (h : Trace step s [a] t) : step s a t := by
  rw [← List.nil_append [a]] at h
  obtain ⟨u, hu, hst⟩ := h.unsnoc
  rwa [hu.eq_of_nil] at hst

/-- With at most one next state for each label the labels tell where a run leads. -/
theorem Trace.unique {as : List ι} {s t u : σ} (h : Trace step s as t) (h' : Trace step s as u)
    (hstep : ∀ s a t u, step s a t → step s a u → t = u) : t = u := by
  induction h generalizing u with
  | nil => exact h'.eq_of_nil.symm
  | snoc _ hst ih =>
    obtain ⟨v, hv, hvu⟩ := h'.unsnoc
    obtain rfl := ih hv
    exact hstep _ _ _ _ hst hvu

/-- What is not at the end as it was at the beginning is changed by some step. -/
theorem Trace.exists_change {γ : Type*} {f : σ → γ} {as : List ι} {s t : σ}
    (h : Trace step s as t) (hne : f t ≠ f s) :
    ∃ before a after u v, as = before ++ a :: after ∧ Trace step s before u ∧ step u a v ∧
      f v ≠ f u ∧ Trace step v after t := by
  induction h with
  | nil => exact absurd rfl hne
  | @snoc as t u a ht hst ih =>
    by_cases hlast : f u = f t
    · obtain ⟨before, b, after, v, w, rfl, hv, hvw, hf, hw⟩ := ih (hlast ▸ hne)
      exact ⟨before, b, after ++ [a], v, w, by simp, hv, hvw, hf, hw.snoc hst⟩
    · exact ⟨as, a, [], t, u, rfl, ht, hst, hlast, .nil⟩

/-- A run that another system follows with the same labels. -/
theorem Trace.simulated {τ : Type*} {step' : τ → ι → τ → Prop} {R : σ → τ → Prop} {as : List ι}
    {s t : σ} {s' : τ} (h : Trace step s as t) (hs : R s s')
    (hstep : ∀ a ∈ as, ∀ t u t', R t t' → step t a u → ∃ u', step' t' a u' ∧ R u u') :
    ∃ t', Trace step' s' as t' ∧ R t t' := by
  induction h with
  | nil => exact ⟨s', .nil, hs⟩
  | snoc _ hst ih =>
    obtain ⟨t', hr, ht⟩ := ih fun a ha => hstep a (by simp [ha])
    obtain ⟨u', hu', hu⟩ := hstep _ (by simp) _ _ t' ht hst
    exact ⟨u', hr.snoc hu', hu⟩

/-- A property that a step keeps exactly under a condition holds all along a run of total
steps exactly if every step of the run meets the condition. -/
theorem holds_along_iff {next : σ → ι → σ} {I : σ → Prop} {s : σ}
    (hstep : ∀ s a, I s → (I (next s a) ↔ ok s a)) (hs : I s) (as : List ι) :
    (∀ before, before <+: as → I (before.foldl next s)) ↔
      ∀ before a, before ++ [a] <+: as → ok (before.foldl next s) a := by
  constructor
  · intro h before a hpre
    have hbefore := h before ((List.prefix_append _ _).trans hpre)
    rw [← hstep _ a hbefore]
    simpa using h _ hpre
  · intro h before hpre
    induction before using List.reverseRecOn with
    | nil => exact hs
    | append_singleton before a ih =>
      have hbefore := ih ((List.prefix_append _ _).trans hpre)
      simpa using (hstep _ a hbefore).mpr (h before a hpre)

def guarded (pass : σ → ι → Bool) (next : σ → ι → Option σ) (s : σ) (a : ι) : Option σ :=
  -- the system that takes only the steps a test lets pass
  if pass s a then next s a else none

theorem Reach.of_guarded {pass : σ → ι → Bool} {next : σ → ι → Option σ} {s t : σ}
    (hp : ∀ s a, pass s a = true → ok s a)
    (h : Reach (Fires (guarded pass next)) anyStep s t) : Reach (Fires next) ok s t := by
  induction h with
  | refl => exact .refl
  | @tail t u a _ _ hst ih =>
    by_cases hpass : pass t a = true
    · exact ih.tail (hp t a hpass) (by simpa [Fires, guarded, hpass] using hst)
    · simp [Fires, guarded, hpass] at hst

def recorded {γ : Type*} (next : σ → ι → Option σ) (record : σ → ι → γ → γ) (s : σ × γ) (a : ι) :
    Option (σ × γ) :=
  -- the same system beside a record of what has happened; the record is never read
  (next s.1 a).map fun t => (t, record s.1 a s.2)

def replay (next : σ → ι → Option σ) : List ι → σ → Option σ
  -- replay a list of labels; a label that is not enabled ends the replay
  | [], s => some s
  | a :: as, s => (next s a).bind (replay next as)

theorem replay_append {next : σ → ι → Option σ} {as : List ι} {a : ι} {s : σ} :
    replay next (as ++ [a]) s = (replay next as s).bind fun t => next t a := by
  induction as generalizing s with
  | nil => simp [replay]
  | cons b as ih =>
    simp only [List.cons_append, replay, Option.bind_assoc]
    exact Option.bind_congr fun t _ => ih

/-- A replayed trace reaches its last state. -/
theorem reach_of_replay {next : σ → ι → Option σ} {as : List ι} {s t : σ}
    (h : replay next as s = some t) : Reach (Fires next) anyStep s t := by
  induction as generalizing s with
  | nil =>
    obtain rfl : s = t := by simpa [replay] using h
    exact .refl
  | cons a as ih =>
    cases hn : next s a with
    | none => simp [replay, hn] at h
    | some u =>
      have ht : replay next as u = some t := by simpa [replay, hn] using h
      exact (Reach.refl.tail trivial hn).trans (ih ht)

/-- A replay that a test lets pass is a run of steps that all have what the test is for. -/
theorem trace_of_replay {next : σ → ι → Option σ} {pass : σ → ι → Bool} {as : List ι} {s t : σ}
    (hp : ∀ s a, pass s a = true → ok s a) (h : replay (guarded pass next) as s = some t) :
    Trace (fun s a t => ok s a ∧ next s a = some t) s as t := by
  induction as using List.reverseRecOn generalizing t with
  | nil =>
    obtain rfl : s = t := by simpa [replay] using h
    exact .nil
  | append_singleton as a ih =>
    rw [replay_append] at h
    obtain ⟨u, hu, hstep⟩ := Option.bind_eq_some_iff.mp h
    by_cases hpass : pass u a = true
    · exact (ih hu).snoc ⟨hp u a hpass, by simpa [guarded, hpass] using hstep⟩
    · simp [guarded, hpass] at hstep

end Leibrix.Transition

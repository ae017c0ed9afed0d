import Mathlib.Dynamics.FixedPoints.Basic
import Mathlib.Order.Interval.Set.Basic

/-! A loop that repeats one step as long as a condition holds. -/
namespace Leibrix.Loops
variable {τ : Type*}

structure Exits (step : τ → τ) (p : τ → Prop) (t : τ) (turns : Nat) : Prop where
  goes : ∀ k < turns, p (step^[k] t)
  stopped : ¬p (step^[turns] t)

variable {step : τ → τ} {p : τ → Prop} {t : τ} {n : Nat}

theorem exits_zero : Exits step p t 0 ↔ ¬p t := by
  constructor
  · exact fun h => h.stopped
  · intro h
    exact ⟨by simp, h⟩

theorem exits_succ : Exits step p t (n + 1) ↔ p t ∧ Exits step p (step t) n := by
  constructor
  · intro h
    refine ⟨h.goes 0 (Nat.succ_pos n), fun k hk => ?_, h.stopped⟩
    exact h.goes (k + 1) (Nat.succ_lt_succ hk)
  · rintro ⟨h0, h⟩
    refine ⟨fun k hk => ?_, h.stopped⟩
    cases k with
    | zero => exact h0
    | succ k => exact h.goes k (Nat.lt_of_succ_lt_succ hk)

-- the number of turns is checked by making them
instance decidableExits [DecidablePred p] : ∀ (n : Nat) (t : τ), Decidable (Exits step p t n)
  | 0, t => decidable_of_iff (¬p t) exits_zero.symm
  | n + 1, t =>
    have := decidableExits n (step t)
    decidable_of_iff (p t ∧ Exits step p (step t) n) exits_succ.symm

theorem Exits.iterate (h : Exits step p t n) {k : Nat} (hk : k ≤ n) :
    Exits step p (step^[k] t) (n - k) := by
  refine ⟨fun j hj => ?_, ?_⟩
  · rw [← Function.iterate_add_apply]
    exact h.goes _ (by omega)
  · rw [← Function.iterate_add_apply, Nat.sub_add_cancel hk]
    exact h.stopped

theorem Exits.lt_iff (h : Exits step p t n) {k : Nat} : k < n ↔ ∀ j ≤ k, p (step^[j] t) := by
  constructor
  · exact fun hk j hj => h.goes j (by omega)
  · intro hall
    by_contra hge
    exact h.stopped (hall n (by omega))

/-- A loop whose step keeps the condition does not end. -/
theorem not_exits (h : p t) (hstep : ∀ s, p s → p (step s)) (n : Nat) :
    ¬Exits step p t n := by
  intro he
  induction n generalizing t with
  | zero => exact he.stopped h
  | succ n ih => exact ih (hstep t h) (exits_succ.mp he).2

/-- A loop that ends comes by no state twice: it would come by it for ever. -/
theorem Exits.ne_of_lt (h : Exits step p t n) {j k : Nat} (hjk : j < k) (hk : k < n) :
    step^[j] t ≠ step^[k] t := by
  intro he
  have hlast : step^[n - k + j] t = step^[n] t := by
    rw [Function.iterate_add_apply, he, ← Function.iterate_add_apply,
      Nat.sub_add_cancel hk.le]
  exact h.stopped (hlast ▸ h.goes (n - k + j) (by omega))

/-- Every turn keeps an invariant and lowers a measure. -/
theorem exists_exits {I : τ → Prop} (measure : τ → Nat)
    (hstep : ∀ s, I s → p s → I (step s) ∧ measure (step s) < measure s)
    (h : I t) : ∃ n, Exits step p t n := by
  induction hm : measure t using Nat.strongRecOn generalizing t with
  | ind m ih =>
    by_cases hg : p t
    · obtain ⟨hinv, hlt⟩ := hstep t h hg
      obtain ⟨n, hn⟩ := ih _ (hm ▸ hlt) hinv rfl
      exact ⟨n + 1, exits_succ.mpr ⟨hg, hn⟩⟩
    · exact ⟨0, exits_zero.mpr hg⟩

/-- What every turn keeps holds of all states up to the end. -/
theorem Exits.invariant {I : τ → Prop} (h : Exits step p t n) (h0 : I t)
    (hstep : ∀ s, I s → p s → I (step s)) {k : Nat} (hk : k ≤ n) :
    I (step^[k] t) := by
  induction k with
  | zero => exact h0
  | succ k ih =>
    rw [Function.iterate_succ_apply']
    exact hstep _ (ih (by omega)) (h.goes k hk)

end Leibrix.Loops

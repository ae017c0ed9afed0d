import Mathlib.Order.Basic

/-! What a Go call comes to: it returns a value or an error, panics, or has not returned. -/
namespace Leibrix

inductive Outcome (α : Type) where
  | ok (a : α)
  | err (msg : String)
  | panic (msg : String)
  | hang
deriving DecidableEq

namespace Outcome
variable {α β : Type}

def bind : Outcome α → (α → Outcome β) → Outcome β
  | .ok a, f => f a
  | .err msg, _ => .err msg
  | .panic msg, _ => .panic msg
  | .hang, _ => .hang

instance : Monad Outcome where
  pure := .ok
  bind := .bind

-- `fmt.Errorf("...: %w", err)`
def wrapErr (context : String) : Outcome α → Outcome α
  | .err msg => .err (context ++ msg)
  | o => o

def Returned : Outcome α → Prop
  | .ok _ | .err _ => True
  | .panic _ | .hang => False

def Panics (o : Outcome α) : Prop := ∃ msg, o = .panic msg

variable {x : Outcome α} {f : α → Outcome β}

@[simp] theorem pure_eq (a : α) : (pure a : Outcome α) = .ok a := rfl

@[simp] theorem bind_eq_ok {b : β} : x.bind f = .ok b ↔ ∃ a, x = .ok a ∧ f a = .ok b := by
  cases x <;> simp [bind]

@[simp] theorem wrapErr_eq_ok {context : String} {a : α} :
    x.wrapErr context = .ok a ↔ x = .ok a := by
  cases x <;> simp [wrapErr]

@[simp] theorem panics_panic (msg : String) : (.panic msg : Outcome α).Panics := ⟨msg, rfl⟩

@[simp] theorem not_panics_ok (a : α) : ¬(.ok a : Outcome α).Panics := by
  simp [Panics]

@[simp] theorem not_panics_err (msg : String) : ¬(.err msg : Outcome α).Panics := by
  simp [Panics]

@[simp] theorem not_panics_hang : ¬(.hang : Outcome α).Panics := by
  simp [Panics]

theorem panics_bind : (x.bind f).Panics ↔ x.Panics ∨ ∃ a, x = .ok a ∧ (f a).Panics := by
  cases x <;> simp [bind]

@[simp] theorem panics_wrapErr {context : String} : (x.wrapErr context).Panics ↔ x.Panics := by
  cases x <;> simp [wrapErr]

theorem returned_iff : x.Returned ↔ x ≠ .hang ∧ ¬x.Panics := by
  cases x <;> simp [Returned]

end Outcome

-- with enough fuel there is an answer, and more fuel does not change it
def Ends {α : Type} (run : Nat → Outcome α) : Prop :=
  ∃ enough answer, answer.Returned ∧ ∀ fuel, enough ≤ fuel → run fuel = answer

theorem not_ends_of_hangs {α : Type} {run : Nat → Outcome α} (h : ∀ fuel, run fuel = .hang) :
    ¬Ends run := by
  intro he
  obtain ⟨enough, answer, hret, hans⟩ := he
  rw [← hans enough (Nat.le_refl enough), h] at hret
  exact hret

end Leibrix

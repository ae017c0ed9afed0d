import Mathlib

/-! Half-open intervals laid end to end. -/
namespace Leibrix.Tiling
variable {τ : Type*} [LinearOrder τ] {a b t : τ} {l : List (τ × τ)}

def Tiles (a b : τ) : List (τ × τ) → Prop
  -- the intervals of `l`, none of them empty, lead from `a` to `b` without a gap
  | [] => a = b
  | p :: ps => p.1 = a ∧ p.1 < p.2 ∧ Tiles p.2 b ps

def covers (t : τ) (p : τ × τ) : Bool := p.1 ≤ t ∧ t < p.2

theorem Tiles.le (h : Tiles a b l) : a ≤ b := by
  induction l generalizing a with
  | nil => exact h.le
  | cons p ps ih =>
    obtain ⟨rfl, hlt, ht⟩ := h
    exact hlt.le.trans (ih ht)

theorem Tiles.start_ge (h : Tiles a b l) {p : τ × τ} (hp : p ∈ l) : a ≤ p.1 := by
  induction l generalizing a with
  | nil => simp at hp
  | cons q qs ih =>
    obtain ⟨rfl, hlt, ht⟩ := h
    rcases List.mem_cons.mp hp with rfl | hq
    · exact le_rfl
    · exact hlt.le.trans (ih ht hq)

theorem Tiles.count_eq_zero (h : Tiles a b l) (ht : t < a) : l.countP (covers t) = 0 := by
  rw [List.countP_eq_zero]
  intro p hp hc
  have hs := h.start_ge hp
  simp only [covers, decide_eq_true_eq] at hc
  exact absurd (ht.trans_le hs) hc.1.not_gt

/-- Every point of the stretch lies in exactly one of the intervals. -/
theorem Tiles.count_eq_one (h : Tiles a b l) (ha : a ≤ t) (hb : t < b) :
    l.countP (covers t) = 1 := by
  induction l generalizing a with
  | nil =>
    obtain rfl : a = b := h
    exact absurd hb ha.not_gt
  | cons p ps ih =>
    obtain ⟨rfl, hlt, ht⟩ := h
    by_cases hp : t < p.2
    · rw [List.countP_cons_of_pos (by simp [covers, ha, hp]), ht.count_eq_zero hp]
    · rw [List.countP_cons_of_neg (by simp [covers, hp])]
      exact ih ht (not_lt.mp hp)

theorem Tiles.isChain (h : Tiles a b l) : l.IsChain fun p q => p.2 = q.1 := by
  induction l generalizing a with
  | nil => exact .nil
  | cons p ps ih =>
    obtain ⟨-, -, ht⟩ := h
    cases ps with
    | nil => exact .singleton _
    | cons q qs => exact .cons_cons ht.1.symm (ih ht)

theorem Tiles.pairwise (h : Tiles a b l) : l.Pairwise fun p q => p.1 < q.1 := by
  induction l generalizing a with
  | nil => exact .nil
  | cons p ps ih =>
    obtain ⟨-, hlt, ht⟩ := h
    exact .cons (fun q hq => hlt.trans_le (ht.start_ge hq)) (ih ht)

theorem Tiles.head_eq (h : Tiles a b l) {p : τ × τ} (hp : p ∈ l.head?) : p.1 = a := by
  cases l with
  | nil => simp at hp
  | cons q qs =>
    obtain rfl : q = p := by simpa using hp
    exact h.1

theorem Tiles.last_eq (h : Tiles a b l) {p : τ × τ} (hp : p ∈ l.getLast?) : p.2 = b := by
  induction l generalizing a with
  | nil => simp at hp
  | cons q qs ih =>
    obtain ⟨-, -, ht⟩ := h
    cases qs with
    | nil =>
      obtain rfl : q = p := by simpa using hp
      exact ht
    | cons r rs => exact ih ht (by simpa using hp)

end Leibrix.Tiling

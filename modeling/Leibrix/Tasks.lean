import Mathlib.Data.List.Nodup

/-! Tasks that are started one after another and finish in any order. A task is known by
its place among the started ones. -/
namespace Leibrix
variable {α β : Type*}

structure Tasks (α : Type*) where
  started : List α
  -- in the order in which they finished
  finished : List Nat
  nodup : finished.Nodup
  lt : ∀ n ∈ finished, n < started.length

namespace Tasks

def empty (α : Type*) : Tasks α := ⟨[], [], List.nodup_nil, fun _ h => absurd h List.not_mem_nil⟩

def Running (t : Tasks α) (n : Nat) : Prop := n < t.started.length ∧ n ∉ t.finished

instance (t : Tasks α) (n : Nat) : Decidable (t.Running n) :=
  inferInstanceAs (Decidable (_ ∧ _))

def task (t : Tasks α) (n : Nat) (h : t.Running n) : α := t.started.get ⟨n, h.1⟩

def start (t : Tasks α) (a : α) : Tasks α where
  started := t.started ++ [a]
  finished := t.finished
  nodup := t.nodup
  lt n h := by
    rw [List.length_append]
    exact Nat.lt_add_right _ (t.lt n h)

def finish (t : Tasks α) (n : Nat) (h : t.Running n) : Tasks α where
  started := t.started
  finished := t.finished ++ [n]
  nodup := by
    rw [List.nodup_append_comm]
    simpa using ⟨h.2, t.nodup⟩
  lt m hm := by
    cases List.mem_append.mp hm with
    | inl hm => exact t.lt m hm
    | inr hm =>
      obtain rfl : m = n := by simpa using hm
      exact h.1

def Done (t : Tasks α) : Prop := ∀ n < t.started.length, n ∈ t.finished

-- What was worked on, in the order in which it was finished.
def inOrder (t : Tasks α) : List α := t.finished.filterMap (t.started[·]?)

/-- What finished tasks worked on is not changed by a new task. -/
theorem filterMap_start {t : Tasks α} {l : List Nat} (h : ∀ n ∈ l, n ∈ t.finished) (a : α) :
    l.filterMap ((t.start a).started[·]?) = l.filterMap (t.started[·]?) := by
  apply List.filterMap_congr
  intro n hn
  exact List.getElem?_append_left (t.lt n (h n hn))

theorem inOrder_start (t : Tasks α) (a : α) : (t.start a).inOrder = t.inOrder :=
  filterMap_start (fun _ => id) a

theorem inOrder_finish {t : Tasks α} {n : Nat} (h : t.Running n) :
    (t.finish n h).inOrder = t.inOrder ++ [t.task n h] := by
  simp [inOrder, finish, task, List.getElem?_eq_getElem h.1]

/-- Each task finishes exactly once. -/
theorem Done.perm_range {t : Tasks α} (h : t.Done) :
    t.finished.Perm (List.range t.started.length) := by
  refine (List.perm_ext_iff_of_nodup t.nodup List.nodup_range).mpr fun n => ?_
  rw [List.mem_range]
  exact ⟨t.lt n, h n⟩

def Before (l : List Nat) (m n : Nat) : Prop := l.idxOf m < l.idxOf n

instance (l : List Nat) (m n : Nat) : Decidable (Before l m n) :=
  inferInstanceAs (Decidable (_ < _))

theorem before_append {l : List Nat} {m n : Nat} (hm : m ∈ l) (hn : n ∉ l) :
    Before (l ++ [n]) m n := by
  unfold Before
  rw [List.idxOf_append_of_mem hm, List.idxOf_append_of_notMem hn]
  exact Nat.lt_add_right _ (List.idxOf_lt_length_of_mem hm)

theorem Before.append {l l' : List Nat} {m n : Nat} (h : Before l m n) (hm : m ∈ l)
    (hn : n ∈ l) : Before (l ++ l') m n := by
  unfold Before
  rw [List.idxOf_append_of_mem hm, List.idxOf_append_of_mem hn]
  exact h

theorem Before.not_before {l : List Nat} {m n : Nat} (h : Before l m n) : ¬Before l n m :=
  Nat.lt_asymm h

theorem pairwise_before {l : List Nat} (h : l.Nodup) : l.Pairwise (Before l) := by
  refine List.pairwise_iff_getElem.mpr fun i j hi hj hij => ?_
  unfold Before
  rw [h.idxOf_getElem i hi, h.idxOf_getElem j hj]
  exact hij

/-- The last value of a filter comes from the entry that all others with a value stand
before. -/
theorem getLast?_filterMap_of_before {l : List Nat} {f : Nat → Option β} {n : Nat} {b : β}
    (hmem : n ∈ l) (hn : f n = some b)
    (hlast : ∀ m ∈ l, m ≠ n → f m ≠ none → Before l m n) (hl : l.Nodup) :
    (l.filterMap f).getLast? = some b := by
  obtain ⟨l₁, l₂, rfl⟩ := List.append_of_mem hmem
  rw [List.nodup_append, List.nodup_cons] at hl
  obtain ⟨-, ⟨hn₂, -⟩, hdisj⟩ := hl
  have hnone : l₂.filterMap f = [] := by
    rw [List.filterMap_eq_nil_iff]
    intro m hm
    by_contra hf
    have hmn : m ≠ n := fun he => hn₂ (he ▸ hm)
    have hm₁ : m ∉ l₁ := fun h => hdisj m h m (List.mem_cons_of_mem _ hm) rfl
    have hn₁ : n ∉ l₁ := fun h => hdisj n h n List.mem_cons_self rfl
    have hbefore := hlast m (by simp [hm]) hmn hf
    unfold Before at hbefore
    rw [List.idxOf_append_of_notMem hm₁, List.idxOf_append_of_notMem hn₁,
      List.idxOf_cons_self] at hbefore
    omega
  simp [List.filterMap_append, hn, hnone]

end Tasks

end Leibrix

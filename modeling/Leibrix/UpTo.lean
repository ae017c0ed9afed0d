import Mathlib.Data.List.Forall2
import Mathlib.Data.List.Perm.Basic

/-! Lists whose elements are compared by a Boolean equivalence that may be coarser
than equality: membership, freedom from duplicates, and the union that keeps the
first list whole and adds what the second has besides. -/
namespace Leibrix.UpTo
variable {α : Type*}

structure Lawful (eqv : α → α → Bool) : Prop where
  refl : ∀ x, eqv x x = true
  symm : ∀ {x y}, eqv x y = true → eqv y x = true
  trans : ∀ {x y z}, eqv x y = true → eqv y z = true → eqv x z = true

def Mem (eqv : α → α → Bool) (x : α) (l : List α) : Prop := ∃ y ∈ l, eqv x y = true

def Distinct (eqv : α → α → Bool) (l : List α) : Prop := l.Pairwise fun x y => eqv x y = false

def Same (eqv : α → α → Bool) (l m : List α) : Prop :=
  List.Forall₂ (fun x y => eqv x y = true) l m

-- The same elements with the same multiplicities, in any order.
def Perm (eqv : α → α → Bool) (l m : List α) : Prop := ∃ m', m'.Perm m ∧ Same eqv l m'

def union (eqv : α → α → Bool) (l old : List α) : List α :=
  l ++ old.filter fun x => !(l.any fun y => eqv y x)

variable {eqv : α → α → Bool} {l m : List α}

theorem mem_of_mem (hl : Lawful eqv) {x : α} (h : x ∈ l) : Mem eqv x l := ⟨x, h, hl.refl x⟩

theorem mem_append {x : α} : Mem eqv x (l ++ m) ↔ Mem eqv x l ∨ Mem eqv x m := by
  simp only [Mem, List.mem_append, or_and_right, exists_or]

theorem mem_congr (hl : Lawful eqv) {x y : α} (h : eqv x y = true) :
    Mem eqv x l ↔ Mem eqv y l := by
  constructor
  · rintro ⟨z, hz, hxz⟩
    exact ⟨z, hz, hl.trans (hl.symm h) hxz⟩
  · rintro ⟨z, hz, hyz⟩
    exact ⟨z, hz, hl.trans h hyz⟩

theorem Same.mem_iff (hl : Lawful eqv) (h : Same eqv l m) {x : α} :
    Mem eqv x l ↔ Mem eqv x m := by
  induction h with
  | nil => rfl
  | @cons a b l m hab _ ih =>
    have hc : ∀ (c : α) (k : List α), Mem eqv x (c :: k) ↔ eqv x c = true ∨ Mem eqv x k := by
      intro c k
      simp [Mem]
    rw [hc, hc, ih]
    exact or_congr_left ⟨fun h => hl.trans h hab, fun h => hl.trans h (hl.symm hab)⟩

theorem Perm.mem_iff (hl : Lawful eqv) (h : Perm eqv l m) {x : α} :
    Mem eqv x l ↔ Mem eqv x m := by
  obtain ⟨m', hp, hs⟩ := h
  rw [hs.mem_iff hl]
  simp only [Mem, hp.mem_iff]

theorem Same.distinct_iff (hl : Lawful eqv) (h : Same eqv l m) :
    Distinct eqv l ↔ Distinct eqv m := by
  induction h with
  | nil => rfl
  | @cons a b l m hab hs ih =>
    have hh : (∀ y ∈ l, eqv a y = false) ↔ ∀ y ∈ m, eqv b y = false := by
      have hm := Same.mem_iff hl hs (x := a)
      have hb := mem_congr hl hab (l := m)
      simp only [Mem] at hm hb
      simp only [← Bool.not_eq_true]
      constructor
      · intro hn y hy he
        obtain ⟨z, hz, hza⟩ := hm.mpr (hb.mpr ⟨y, hy, he⟩)
        exact hn z hz hza
      · intro hn y hy he
        obtain ⟨z, hz, hzb⟩ := hb.mp (hm.mp ⟨y, hy, he⟩)
        exact hn z hz hzb
    simp only [Distinct, List.pairwise_cons] at ih ⊢
    rw [hh, ih]

theorem mem_union (hl : Lawful eqv) {x : α} :
    Mem eqv x (union eqv l m) ↔ Mem eqv x l ∨ Mem eqv x m := by
  rw [union, mem_append]
  constructor
  · rintro (h | ⟨y, hy, hxy⟩)
    · exact .inl h
    · exact .inr ⟨y, (List.mem_filter.mp hy).1, hxy⟩
  · rintro (h | ⟨y, hy, hxy⟩)
    · exact .inl h
    · by_cases hc : l.any (fun z => eqv z y) = true
      · -- an element of the second list that the first has too is found there
        obtain ⟨z, hz, hzy⟩ := List.any_eq_true.mp hc
        exact .inl ⟨z, hz, hl.trans hxy (hl.symm hzy)⟩
      · exact .inr ⟨y, List.mem_filter.mpr ⟨hy, by simp [hc]⟩, hxy⟩

theorem distinct_union (h : Distinct eqv l) (h' : Distinct eqv m) :
    Distinct eqv (union eqv l m) := by
  refine List.pairwise_append.mpr ⟨h, h'.filter _, ?_⟩
  intro x hx y hy
  have hn := (List.mem_filter.mp hy).2
  simp only [Bool.not_eq_true', List.any_eq_false] at hn
  exact Bool.eq_false_iff.mpr (hn x hx)

/-- What the second list has in common with the first is not added. -/
theorem length_union : (union eqv l m).length + (m.filter fun x => l.any fun y => eqv y x).length =
    l.length + m.length := by
  have hsplit := List.length_eq_length_filter_add (l := m) fun x => l.any fun y => eqv y x
  rw [union, List.length_append]
  omega

theorem Same.refl (hl : Lawful eqv) (l : List α) : Same eqv l l :=
  List.forall₂_same.mpr fun x _ => hl.refl x

theorem Same.symm (hl : Lawful eqv) (h : Same eqv l m) : Same eqv m l := by
  induction h with
  | nil => exact .nil
  | cons hab _ ih => exact .cons (hl.symm hab) ih

theorem Same.trans (hl : Lawful eqv) {k : List α} (h : Same eqv l m) (h' : Same eqv m k) :
    Same eqv l k := by
  induction h generalizing k with
  | nil => exact h'
  | cons hab _ ih =>
    cases h' with
    | cons hbc hk => exact .cons (hl.trans hab hbc) (ih hk)

theorem Same.filter {p : α → Bool} (hp : ∀ x y, eqv x y = true → p x = p y)
    (h : Same eqv l m) : Same eqv (l.filter p) (m.filter p) := by
  induction h with
  | nil => exact .nil
  | @cons a b l m hab _ ih =>
    rw [List.filter_cons, List.filter_cons, hp a b hab]
    split
    · exact .cons hab ih
    · exact ih

theorem Lawful.congr_right (hl : Lawful eqv) {x y : α} (h : eqv x y = true) (z : α) :
    eqv z x = eqv z y := by
  rw [Bool.eq_iff_iff]
  exact ⟨fun hz => hl.trans hz h, fun hz => hl.trans hz (hl.symm h)⟩

theorem Same.union (hl : Lawful eqv) (l : List α) {m m' : List α} (h : Same eqv m m') :
    Same eqv (union eqv l m) (union eqv l m') := by
  refine List.rel_append (Same.refl hl l) (h.filter fun x y hxy => ?_)
  simp only [hl.congr_right hxy]

theorem filter_of_mem (hl : Lawful eqv) (h : ∀ x ∈ m, Mem eqv x l) :
    m.filter (fun x => !(l.any fun y => eqv y x)) = [] := by
  refine List.filter_eq_nil_iff.mpr fun x hx => ?_
  obtain ⟨y, hy, hxy⟩ := h x hx
  have hany : (l.any fun y => eqv y x) = true := List.any_eq_true.mpr ⟨y, hy, hl.symm hxy⟩
  simp [hany]

/-- A union with a list that has nothing else. -/
theorem union_eq_left (hl : Lawful eqv) (h : ∀ x ∈ m, Mem eqv x l) :
    UpTo.union eqv l m = l := by
  rw [UpTo.union, filter_of_mem hl h, List.append_nil]

/-- A second union with the same list adds nothing. -/
theorem union_union (hl : Lawful eqv) (l m : List α) :
    UpTo.union eqv l (UpTo.union eqv l m) = UpTo.union eqv l m := by
  have hself := filter_of_mem hl fun x (hx : x ∈ l) => mem_of_mem hl hx
  simp only [UpTo.union, List.filter_append, hself, List.nil_append, List.filter_filter,
    Bool.and_self]

section Counting

theorem Same.countP (hl : Lawful eqv) (h : Same eqv l m) (x : α) :
    l.countP (eqv x) = m.countP (eqv x) := by
  induction h with
  | nil => rfl
  | cons hab _ ih => rw [List.countP_cons, List.countP_cons, ih, hl.congr_right hab x]

/-- An element that occurs can be brought to the front. -/
theorem exists_perm_cons {x : α} (h : 0 < m.countP (eqv x)) :
    ∃ y m', eqv x y = true ∧ m.Perm (y :: m') := by
  obtain ⟨y, hy, hxy⟩ := List.countP_pos_iff.mp h
  obtain ⟨p, q, rfl⟩ := List.append_of_mem hy
  exact ⟨y, p ++ q, hxy, List.perm_middle⟩

/-- The same elements with the same multiplicities: every element has as many equals in
the one list as in the other. -/
theorem perm_iff_countP (hl : Lawful eqv) :
    Perm eqv l m ↔ ∀ x, l.countP (eqv x) = m.countP (eqv x) := by
  constructor
  · intro h x
    obtain ⟨m', hp, hs⟩ := h
    rw [hs.countP hl, hp.countP_eq]
  · intro h
    induction l generalizing m with
    | nil =>
      have hm : m = [] := by
        refine List.eq_nil_iff_forall_not_mem.mpr fun x hx => ?_
        have hpos : 0 < m.countP (eqv x) := List.countP_pos_iff.mpr ⟨x, hx, hl.refl x⟩
        rw [← h x] at hpos
        exact absurd hpos (Nat.lt_irrefl 0)
      exact ⟨[], by rw [hm], .nil⟩
    | cons x l ih =>
      have hpos : 0 < m.countP (eqv x) := by
        rw [← h x]
        exact List.countP_pos_iff.mpr ⟨x, by simp, hl.refl x⟩
      obtain ⟨y, m', hxy, hp⟩ := exists_perm_cons hpos
      have hrest : ∀ z, l.countP (eqv z) = m'.countP (eqv z) := by
        intro z
        have hz := h z
        rw [hp.countP_eq, List.countP_cons, List.countP_cons, hl.congr_right hxy z] at hz
        exact Nat.add_right_cancel hz
      obtain ⟨k, hk, hs⟩ := ih hrest
      exact ⟨y :: k, (hk.cons y).trans hp.symm, .cons hxy hs⟩

theorem Perm.symm (hl : Lawful eqv) (h : Perm eqv l m) : Perm eqv m l := by
  rw [perm_iff_countP hl] at h ⊢
  exact fun x => (h x).symm

theorem Perm.length_eq (h : Perm eqv l m) : l.length = m.length := by
  obtain ⟨m', hp, hs⟩ := h
  rw [List.Forall₂.length_eq hs, hp.length_eq]

end Counting
end Leibrix.UpTo

import Mathlib.Data.List.Basic
import Mathlib.Logic.Function.Basic

/-! Values kept under flattened keys. A value has an id, its key is computed from the id,
and the store has the last value written under each key. What is read for an id is right
unless the id shares its key with that of another value; ids that are two texts with a
separator between them do so where a text has the separator inside. -/
namespace Leibrix.PairedKeys

section Last
variable {β : Type*} {p q : β → Bool} {xs : List β} {x : β}

def last (p : β → Bool) (xs : List β) : Option β := (xs.filter p).getLast?

theorem last_cons (p : β → Bool) (x : β) (xs : List β) :
    last p (x :: xs) = (last p xs).or (if p x then some x else none) := by
  unfold last
  rw [List.filter_cons]
  split
  · rw [List.getLast?_cons]
    cases (xs.filter p).getLast? <;> rfl
  · rw [Option.or_none]

theorem last_congr (h : ∀ x ∈ xs, p x = q x) : last p xs = last q xs := by
  unfold last
  rw [List.filter_congr h]

theorem last_some (h : last p xs = some x) : x ∈ xs ∧ p x = true :=
  List.mem_filter.mp (List.mem_of_getLast? h)

theorem exists_last (hx : x ∈ xs) (hp : p x = true) : ∃ y, last p xs = some y := by
  have hne : xs.filter p ≠ [] := List.ne_nil_of_mem (List.mem_filter.mpr ⟨hx, hp⟩)
  exact ⟨_, List.getLast?_eq_getLast_of_ne_nil hne⟩

end Last

section Keys
variable {α κ β : Type*} [DecidableEq α] [DecidableEq κ]

theorem foldl_update (key : β → κ) (xs : List β) (m : κ → Option β) (k : κ) :
    xs.foldl (fun m x => Function.update m (key x) (some x)) m k =
      (last (fun x => key x = k) xs).or (m k) := by
  induction xs generalizing m with
  | nil => rfl
  | cons x xs ih =>
    rw [List.foldl_cons, ih, last_cons, Option.or_assoc]
    by_cases h : key x = k
    · subst h
      simp
    · simp [h, Function.update_of_ne (Ne.symm h)]

/-- Reading by key is reading by id for all admissible ids exactly if none of them has the
key of a value with another id. -/
theorem reads_iff (idOf : β → α) (key : α → κ) (ok : α → Prop) {xs : List β}
    (hok : ∀ x ∈ xs, ok (idOf x)) :
    (∀ a, ok a → last (fun x => key (idOf x) = key a) xs = last (fun x => idOf x = a) xs) ↔
      ∀ x ∈ xs, ∀ a, ok a → key a = key (idOf x) → a = idOf x := by
  constructor
  · intro h x hx a ha hkey
    -- one value is read for both ids, and it has one id
    obtain ⟨y, hy⟩ := exists_last (p := fun y => decide (key (idOf y) = key a)) hx
      (decide_eq_true hkey.symm)
    have hya : last (fun x => decide (idOf x = a)) xs = some y := by rw [← h a ha, hy]
    have hyx : last (fun y => decide (idOf y = idOf x)) xs = some y := by
      rw [← h (idOf x) (hok x hx), ← hkey, hy]
    have ha' := of_decide_eq_true (last_some hya).2
    have hx' := of_decide_eq_true (last_some hyx).2
    exact ha'.symm.trans hx'
  · intro h a ha
    refine last_congr fun x hx => ?_
    rw [decide_eq_decide]
    exact ⟨fun he => (h x hx a ha he.symm).symm, fun he => congrArg key he⟩

end Keys

section Joined
variable {α : Type*} {c : α} {d e d' e' : List α}

/-- Two ways to cut a text at a separator: the same one, or one before the other. -/
theorem joined_cases (h : d' ++ c :: e' = d ++ c :: e) :
    (d' = d ∧ e' = e) ∨ (∃ q, d = d' ++ c :: q) ∨ ∃ p, e = p ++ c :: e' := by
  cases List.append_eq_append_iff.mp h with
  | inl h =>
    obtain ⟨m, hd, he⟩ := h
    cases m with
    | nil =>
      obtain ⟨-, he⟩ := List.cons.inj he
      exact .inl ⟨(hd.trans (List.append_nil d')).symm, he⟩
    | cons x m =>
      obtain ⟨rfl, -⟩ := List.cons.inj he
      exact .inr (.inl ⟨m, hd⟩)
  | inr h =>
    obtain ⟨m, hd, he⟩ := h
    cases m with
    | nil =>
      obtain ⟨-, he⟩ := List.cons.inj he
      exact .inl ⟨hd.trans (List.append_nil d), he.symm⟩
    | cons x m =>
      obtain ⟨rfl, hm⟩ := List.cons.inj he
      exact .inr (.inr ⟨m, hm⟩)

/-- The halves can be read back, if the first one is never empty and the second one is
`ok`: exactly if no other cut leaves such halves. -/
theorem joined_unique_iff {ok : List α → Prop} (hok : ∀ l, l ≠ [] → ok l) (hd : d ≠ []) :
    (∀ d' e', d' ≠ [] → ok e' → d' ++ c :: e' = d ++ c :: e → d' = d ∧ e' = e) ↔
      c ∉ d.tail ∧ ∀ p q, e = p ++ c :: q → ¬ok q := by
  obtain ⟨x, d, rfl⟩ := List.exists_cons_of_ne_nil hd
  constructor
  · intro h
    constructor
    · intro hc
      obtain ⟨p, q, rfl⟩ := List.append_of_mem hc
      have he := (h (x :: p) (q ++ c :: e) (by simp) (hok _ (by simp)) (by simp)).2
      exact absurd (congrArg List.length he) (by simp; omega)
    · intro p q he hq
      subst he
      have he := (h ((x :: d) ++ c :: p) q (by simp) hq (by simp)).2
      exact absurd (congrArg List.length he) (by simp; omega)
  · intro h d' e' hne he heq
    cases joined_cases heq with
    | inl hsame => exact hsame
    | inr hother =>
      cases hother with
      | inl hq =>
        obtain ⟨q, hq⟩ := hq
        obtain ⟨y, d', rfl⟩ := List.exists_cons_of_ne_nil hne
        obtain ⟨rfl, rfl⟩ := List.cons.inj hq
        exact absurd (by simp) h.1
      | inr hp =>
        obtain ⟨p, hp⟩ := hp
        exact absurd he (h.2 p e' hp)

theorem notMem_dropLast_iff : c ∉ e.dropLast ↔ ∀ p q, e = p ++ c :: q → ¬q ≠ [] := by
  constructor
  · intro h p q he hq
    subst he
    refine h ?_
    rw [List.dropLast_append_of_ne_nil (by simp), List.dropLast_cons_of_ne_nil hq]
    simp
  · intro h hc
    obtain ⟨p, q, hpq⟩ := List.append_of_mem hc
    have hne : e ≠ [] := by
      intro he
      simp [he] at hc
    refine h p (q ++ [e.getLast hne]) ?_ (by simp)
    conv_lhs => rw [← List.dropLast_append_getLast hne, hpq]
    simp

theorem notMem_iff : c ∉ e ↔ ∀ p q, e = p ++ c :: q → ¬True := by
  constructor
  · intro h p q he _
    exact h (by simp [he])
  · intro h hc
    obtain ⟨p, q, hpq⟩ := List.append_of_mem hc
    exact h p q hpq trivial

end Joined
end Leibrix.PairedKeys

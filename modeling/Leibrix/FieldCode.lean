import Mathlib.Data.List.Forall2
import Mathlib.Data.List.Infix

/-! Records written as the concatenation of labelled fields, with nothing between one
field and the next. Where a record can be read back from its text is a question about
values that extend one another. -/
namespace Leibrix.FieldCode
variable {α : Type*}

structure FieldSpec (α : Type*) where
  label : List α
  values : List (List α)

def Choice (fields : List (FieldSpec α)) (vs : List (List α)) : Prop :=
  List.Forall₂ (fun f v => v ∈ f.values) fields vs

def encode : List (FieldSpec α) → List (List α) → List α
  | f :: fields, v :: vs => f.label ++ (v ++ encode fields vs)
  | _, _ => []

@[simp] theorem encode_nil (vs : List (List α)) : encode [] vs = [] := rfl

@[simp] theorem encode_cons (f : FieldSpec α) (fields : List (FieldSpec α)) (v : List α)
    (vs : List (List α)) :
    encode (f :: fields) (v :: vs) = f.label ++ (v ++ encode fields vs) := rfl

def Clashes (f : FieldSpec α) (rest : List (FieldSpec α)) : Prop :=
  -- a value of the field is continued by another one, and the fields behind it can make up for the
  -- difference
  ∃ v w, v ∈ f.values ∧ v ++ w ∈ f.values ∧ w ≠ [] ∧
    ∃ us us', Choice rest us ∧ Choice rest us' ∧ encode rest us = w ++ encode rest us'

def Ambiguous (fields : List (FieldSpec α)) : Prop :=
  ∃ f rest, f :: rest <:+ fields ∧ Clashes f rest

@[simp] theorem not_ambiguous_nil : ¬ Ambiguous ([] : List (FieldSpec α)) := by
  rintro ⟨f, rest, hs, -⟩
  simp at hs

theorem not_clashes_nil {f : FieldSpec α} : ¬ Clashes f [] := by
  rintro ⟨v, w, -, -, hw, us, us', -, -, he⟩
  exact hw (by simpa using he.symm)

theorem ambiguous_cons {f : FieldSpec α} {fields : List (FieldSpec α)} :
    Ambiguous (f :: fields) ↔ Clashes f fields ∨ Ambiguous fields := by
  constructor
  · rintro ⟨g, rest, hs, hc⟩
    cases List.suffix_cons_iff.mp hs with
    | inl he =>
      obtain ⟨rfl, rfl⟩ := List.cons.inj he
      exact .inl hc
    | inr hs => exact .inr ⟨g, rest, hs, hc⟩
  · intro h
    cases h with
    | inl hc => exact ⟨f, fields, List.suffix_rfl, hc⟩
    | inr h =>
      obtain ⟨g, rest, hs, hc⟩ := h
      exact ⟨g, rest, hs.trans (List.suffix_cons f fields), hc⟩

/-- Two values before the same text: one continues the other, or they are the same. -/
theorem eq_or_clashes {f : FieldSpec α} {fields : List (FieldSpec α)} {v v' : List α}
    {us us' : List (List α)} (hv : v ∈ f.values) (hv' : v' ∈ f.values)
    (hu : Choice fields us) (hu' : Choice fields us')
    (h : v ++ encode fields us = v' ++ encode fields us') :
    v = v' ∧ encode fields us = encode fields us' ∨ Clashes f fields := by
  cases List.append_eq_append_iff.mp h with
  | inl hw =>
    obtain ⟨w, rfl, hw⟩ := hw
    by_cases hne : w = []
    · subst hne
      exact .inl ⟨by simp, by simpa using hw⟩
    · exact .inr ⟨v, w, hv, hv', hne, us, us', hu, hu', hw⟩
  | inr hw =>
    obtain ⟨w, rfl, hw⟩ := hw
    by_cases hne : w = []
    · subst hne
      exact .inl ⟨by simp, by simpa using hw.symm⟩
    · exact .inr ⟨v', w, hv', hv, hne, us', us, hu', hu, hw⟩

theorem encode_injective_of_not_ambiguous {fields : List (FieldSpec α)} (h : ¬ Ambiguous fields)
    {vs vs' : List (List α)} (hv : Choice fields vs) (hv' : Choice fields vs')
    (he : encode fields vs = encode fields vs') : vs = vs' := by
  induction fields generalizing vs vs' with
  | nil =>
    cases hv
    cases hv'
    rfl
  | cons f fields ih =>
    obtain ⟨v, us, hm, hu, rfl⟩ := List.forall₂_cons_left_iff.mp hv
    obtain ⟨v', us', hm', hu', rfl⟩ := List.forall₂_cons_left_iff.mp hv'
    rw [encode_cons, encode_cons, List.append_right_inj] at he
    rw [ambiguous_cons, not_or] at h
    cases eq_or_clashes hm hm' hu hu' he with
    | inl heq => rw [heq.1, ih h.2 hu hu' heq.2]
    | inr hc => exact absurd hc h.1

/-- Ambiguous fields have two records with one text. -/
theorem Ambiguous.exists_clash {fields : List (FieldSpec α)} (hne : ∀ f ∈ fields, f.values ≠ [])
    (h : Ambiguous fields) :
    ∃ vs vs', Choice fields vs ∧ Choice fields vs' ∧ encode fields vs = encode fields vs' ∧
      vs ≠ vs' := by
  induction fields with
  | nil => exact absurd h not_ambiguous_nil
  | cons f fields ih =>
    have hne' : ∀ g ∈ fields, g.values ≠ [] := fun g hg => hne g (List.mem_cons_of_mem _ hg)
    cases ambiguous_cons.mp h with
    | inl hc =>
      obtain ⟨v, w, hv, hvw, hw, us, us', hu, hu', he⟩ := hc
      refine ⟨v :: us, (v ++ w) :: us', .cons hv hu, .cons hvw hu', by simp [he], ?_⟩
      simp [hw]
    | inr h =>
      obtain ⟨us, us', hu, hu', he, hd⟩ := ih hne' h
      obtain ⟨v, hv⟩ := List.exists_mem_of_ne_nil _ (hne f List.mem_cons_self)
      exact ⟨v :: us, v :: us', .cons hv hu, .cons hv hu', by simp [he], by simpa using hd⟩

end Leibrix.FieldCode

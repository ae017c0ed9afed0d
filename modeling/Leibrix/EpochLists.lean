import Leibrix.Management

/-! What `saveEpochs` computes on lists: the greedy comparison accepts only lists with
the same epochs, and the merge is a union that keeps both lists whole. -/
namespace Leibrix.Management
open Leibrix.Proto

variable {equal : EpochInfo → EpochInfo → Bool}

def unmatched (marks : List (EpochInfo × Bool)) : List EpochInfo :=
  -- the epochs of the second slice that no epoch of the first has taken yet
  (marks.filter fun p => !p.2).map (·.1)

theorem unmatched_cons (e : EpochInfo) (matched : Bool) (marks : List (EpochInfo × Bool)) :
    unmatched ((e, matched) :: marks) =
      if matched then unmatched marks else e :: unmatched marks := by
  cases matched <;> simp [unmatched]

/-- One round takes exactly one unmatched epoch, and an equal one. -/
theorem markFirst_takes {x : EpochInfo} {marks marks' : List (EpochInfo × Bool)}
    (h : markFirst equal x marks = some marks') :
    ∃ y, equal x y = true ∧ (unmatched marks).Perm (y :: unmatched marks') := by
  induction marks generalizing marks' with
  | nil => simp [markFirst] at h
  | cons head rest ih =>
    obtain ⟨e, matched⟩ := head
    rw [markFirst] at h
    split_ifs at h with hc
    · obtain rfl : (e, true) :: rest = marks' := by simpa using h
      obtain ⟨rfl, he⟩ : matched = false ∧ equal x e = true := by simpa using hc
      exact ⟨e, he, by simp [unmatched_cons]⟩
    · obtain ⟨rest', hr, rfl⟩ := Option.map_eq_some_iff.mp h
      obtain ⟨y, hy, hp⟩ := ih hr
      refine ⟨y, hy, ?_⟩
      cases matched with
      | true => simpa [unmatched_cons] using hp
      | false =>
        simp only [unmatched_cons, Bool.false_eq_true, ↓reduceIte]
        exact (hp.cons e).trans (List.Perm.swap y e _)

theorem matchAll_takes {a : List EpochInfo} {marks : List (EpochInfo × Bool)}
    (h : matchAll equal a marks = true) :
    ∃ m rest, (unmatched marks).Perm (m ++ rest) ∧ UpTo.Same equal a m := by
  induction a generalizing marks with
  | nil => exact ⟨[], unmatched marks, List.Perm.refl _, .nil⟩
  | cons x a ih =>
    cases hm : markFirst equal x marks with
    | none => simp [matchAll, hm] at h
    | some marks' =>
      obtain ⟨y, hxy, hp⟩ := markFirst_takes hm
      have hrest : matchAll equal a marks' = true := by simpa [matchAll, hm] using h
      obtain ⟨m, rest, hq, hs⟩ := ih hrest
      exact ⟨y :: m, rest, hp.trans (hq.cons y), .cons hxy hs⟩

theorem unmatched_map (b : List EpochInfo) : unmatched (b.map (·, false)) = b := by
  simp [unmatched, List.filter_map, Function.comp_def]

/-- Slices that compare equal hold the same epochs equally often. -/
theorem areEpochSlicesEqual_perm {a b : List EpochInfo}
    (h : areEpochSlicesEqual equal a b = true) : UpTo.Perm equal a b := by
  obtain ⟨hlen, hm⟩ : a.length = b.length ∧ matchAll equal a (b.map (·, false)) = true := by
    simpa [areEpochSlicesEqual] using h
  obtain ⟨m, rest, hp, hs⟩ := matchAll_takes hm
  rw [unmatched_map] at hp
  -- as many were taken as there are
  have hr : rest = [] := by
    have h1 := hp.length_eq
    have h2 := List.Forall₂.length_eq hs
    rw [List.length_append] at h1
    exact List.eq_nil_of_length_eq_zero (by omega)
  subst hr
  exact ⟨m, by simpa using hp.symm, hs⟩

/-- A round that takes nothing has found no equal epoch left. -/
theorem markFirst_none {x : EpochInfo} {marks : List (EpochInfo × Bool)}
    (h : markFirst equal x marks = none) : (unmatched marks).countP (equal x) = 0 := by
  induction marks with
  | nil => rfl
  | cons head rest ih =>
    obtain ⟨e, matched⟩ := head
    rw [markFirst] at h
    split_ifs at h with hc
    have hrest := ih (by simpa using h)
    rw [unmatched_cons]
    cases matched with
    | true => simpa using hrest
    | false =>
      have hne : equal x e = false := by simpa using hc
      simp [hne, hrest]

/-- The greedy choice does no harm: equal epochs are as good as each other, so it is enough
that there are as many of each left as are wanted. -/
theorem matchAll_of_countP (he : UpTo.Lawful equal) {a : List EpochInfo}
    {marks : List (EpochInfo × Bool)}
    (h : ∀ z, a.countP (equal z) ≤ (unmatched marks).countP (equal z)) :
    matchAll equal a marks = true := by
  induction a generalizing marks with
  | nil => rfl
  | cons x a ih =>
    cases hm : markFirst equal x marks with
    | none =>
      have hx := h x
      rw [markFirst_none hm, List.countP_cons_of_pos (he.refl x)] at hx
      omega
    | some marks' =>
      obtain ⟨y, hxy, hp⟩ := markFirst_takes hm
      have hrest : ∀ z, a.countP (equal z) ≤ (unmatched marks').countP (equal z) := by
        intro z
        have hz := h z
        rw [hp.countP_eq, List.countP_cons, List.countP_cons, he.congr_right hxy z] at hz
        omega
      simpa [matchAll, hm] using ih hrest

theorem areEpochSlicesEqual_of_perm (he : UpTo.Lawful equal) {a b : List EpochInfo}
    (h : UpTo.Perm equal a b) : areEpochSlicesEqual equal a b = true := by
  have hm : matchAll equal a (b.map (·, false)) = true := by
    refine matchAll_of_countP he fun z => ?_
    rw [unmatched_map, (UpTo.perm_iff_countP he).mp h z]
  simp [areEpochSlicesEqual, h.length_eq, hm]

theorem mergeEpochs_eq_union (equal : EpochInfo → EpochInfo → Bool)
    (epochs existing : List EpochInfo) :
    mergeEpochs equal epochs existing = UpTo.union equal epochs existing := by
  have hacc : ∀ acc : List EpochInfo, existing.foldl (fun merged existEpoch =>
      if !containsEpoch equal epochs existEpoch then merged ++ [existEpoch] else merged) acc =
      acc ++ existing.filter fun x => !containsEpoch equal epochs x := by
    induction existing with
    | nil => simp
    | cons x existing ih =>
      intro acc
      rw [List.foldl_cons, ih]
      cases hc : containsEpoch equal epochs x <;> simp [hc]
  exact hacc epochs

variable {β : Type} {c : Codec β}

theorem Codec.Lawful.bytesOf (hc : c.Lawful) (l : List EpochInfo) :
    ∃ l', c.unmarshalEpochs (c.bytesOf l) = .ok l' ∧ UpTo.Same c.equal l' l := by
  obtain ⟨b, l', hb, hl, hs⟩ := hc.epochs l
  exact ⟨l', by simpa [Codec.bytesOf, hb] using hl, hs⟩

theorem Codec.Lawful.marshalEpochs (hc : c.Lawful) (l : List EpochInfo) :
    c.marshalEpochs l = .ok (c.bytesOf l) := by
  obtain ⟨b, l', hb, -, -⟩ := hc.epochs l
  simp [Codec.bytesOf, hb]

/-- What is read back after a merge. -/
theorem Codec.Lawful.merge (hc : c.Lawful) (epochs old : List EpochInfo) :
    ∃ l, c.unmarshalEpochs (c.bytesOf (mergeEpochs c.equal epochs old)) = .ok l ∧
      UpTo.Same c.equal l (UpTo.union c.equal epochs old) := by
  rw [← mergeEpochs_eq_union]
  exact hc.bytesOf _

theorem Codec.Lawful.merge_mem (hc : c.Lawful) (epochs old : List EpochInfo) :
    ∃ l, c.unmarshalEpochs (c.bytesOf (mergeEpochs c.equal epochs old)) = .ok l ∧
      ∀ e, UpTo.Mem c.equal e l ↔ UpTo.Mem c.equal e epochs ∨ UpTo.Mem c.equal e old := by
  obtain ⟨l, hl, hs⟩ := hc.merge epochs old
  refine ⟨l, hl, fun e => ?_⟩
  rw [UpTo.Same.mem_iff hc.equal hs, UpTo.mem_union hc.equal]

inductive Payload where
  -- messages kept as they are, with the empty byte string that every message decodes from
  | empty
  | epochs (l : List EpochInfo)
  | quota (q : TenantQuota)

def payloadCodec : Codec Payload where
  marshalEpochs l := .ok (.epochs l)
  unmarshalEpochs
    | .empty => .ok []
    | .epochs l => .ok l
    | .quota _ => .error "proto: cannot parse invalid wire-format data"
  marshalQuota q := .ok (.quota q)
  unmarshalQuota
    | .empty => .ok ⟨"", 0, 0, 0⟩
    | .epochs _ => .error "proto: cannot parse invalid wire-format data"
    | .quota q => .ok q
  noBytes := .empty
  equal a b := decide (a = b)

theorem payloadCodec_lawful : payloadCodec.Lawful where
  equal :=
    { refl := by simp [payloadCodec]
      symm := by simp +contextual [payloadCodec]
      trans := by simp +contextual [payloadCodec] }
  epochs l := ⟨.epochs l, l, rfl, rfl, List.forall₂_same.mpr (by simp [payloadCodec])⟩
  quota q := ⟨.quota q, rfl, rfl⟩

/-- The comparison finds out whether one list is the other in some order, up to the
equality of messages; and then the merge would have written the old list, in some order. -/
theorem areEpochSlicesEqual_merge (he : UpTo.Lawful equal) :
    (∀ a b, areEpochSlicesEqual equal a b = true ↔ UpTo.Perm equal a b) ∧
    ∀ existing epochs, areEpochSlicesEqual equal existing epochs = true →
      UpTo.Perm equal (mergeEpochs equal epochs existing) existing := by
  refine ⟨fun a b => ⟨areEpochSlicesEqual_perm, areEpochSlicesEqual_of_perm he⟩, ?_⟩
  intro existing epochs h
  have hp := areEpochSlicesEqual_perm h
  have hcovered : ∀ x ∈ existing, UpTo.Mem equal x epochs := by
    intro x hx
    exact (hp.mem_iff he).mp (UpTo.mem_of_mem he hx)
  rw [mergeEpochs_eq_union, UpTo.union_eq_left he hcovered]
  exact hp.symm he

/-- An epoch that is there twice, in another order. -/
theorem areEpochSlicesEqual_merge_repeated :
    let first : EpochInfo := ⟨"1706745600000_a7b3c2", none, ∅⟩
    let second : EpochInfo := ⟨"1709251200000_04c1d9", none, ∅⟩
    areEpochSlicesEqual payloadCodec.equal [first, second, first] [first, first, second] = true ∧
      UpTo.Perm payloadCodec.equal
        (mergeEpochs payloadCodec.equal [first, first, second] [first, second, first])
        [first, second, first] := by
  intro first second
  have heq : areEpochSlicesEqual payloadCodec.equal [first, second, first]
      [first, first, second] = true := by decide
  exact ⟨heq, (areEpochSlicesEqual_merge payloadCodec_lawful.equal).2 _ _ heq⟩

end Leibrix.Management

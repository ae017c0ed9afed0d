import Leibrix.Interleave

/-! Programs interleaved on one store, beside an abstract state that only the proof sees. A
program is verified alone: with each of its operations it may move the abstract state within
its own rules, and it relies on what the rules leave to the others. -/
namespace Leibrix.KeyValue
open Leibrix.Transition

variable {ι κ β θ ρ τ σ : Type} [DecidableEq κ]

def Store.Later (st st' : Store κ β) : Prop :=
  -- keys stay, and a value that was replaced has a later revision
  ∀ k kv, st.kvs k = some kv → ∃ kv', st'.kvs k = some kv' ∧ kv.modRevision ≤ kv'.modRevision ∧
    (kv'.modRevision = kv.modRevision → kv' = kv)

omit [DecidableEq κ] in
theorem Store.Later.refl (st : Store κ β) : st.Later st :=
  fun _ kv h => ⟨kv, h, Nat.le_refl _, fun _ => rfl⟩

omit [DecidableEq κ] in
theorem Store.Later.trans {st₁ st₂ st₃ : Store κ β} (h : st₁.Later st₂) (h' : st₂.Later st₃) :
    st₁.Later st₃ := by
  intro k kv hk
  obtain ⟨kv', hk', hle, heq⟩ := h k kv hk
  obtain ⟨kv'', hk'', hle', heq'⟩ := h' k kv' hk'
  refine ⟨kv'', hk'', Nat.le_trans hle hle', fun he => ?_⟩
  obtain rfl : kv' = kv := heq (by omega)
  exact heq' he

theorem Store.later_put (st : Store κ β) (k : κ) (v : β) : st.Later (st.put k v) := by
  intro k' kv hk
  by_cases he : k' = k
  · subst he
    have hrev := st.issued k' kv hk
    refine ⟨_, st.put_kvs_self k' v, Nat.le_succ_of_le hrev, fun he => ?_⟩
    dsimp only at he
    omega
  · exact ⟨kv, (st.put_kvs_of_ne v he).trans hk, Nat.le_refl _, fun _ => rfl⟩

omit [DecidableEq κ] in
/-- A revision that is still there is still that of the same value. -/
theorem Store.Later.unchanged {st st' : Store κ β} {k : κ} {kv : Versioned β}
    (h : st.Later st') (hk : st.kvs k = some kv) (hr : st'.modRevision k = kv.modRevision) :
    st'.kvs k = some kv := by
  obtain ⟨kv', hk', -, heq⟩ := h k kv hk
  rw [Store.modRevision_of_some hk'] at hr
  rw [hk', heq hr]

structure Rules (ι κ β θ σ : Type) where
  -- what holds of store and abstract state, what an operation may do to them, what a program sees
  -- the others do, and when an unconditional write may be carried out
  Inv : Store κ β × σ → Prop
  Move : ι × Answer × θ → Store κ β × σ → Store κ β × σ → Prop
  Rely : ι → Store κ β × σ → Store κ β × σ → Prop
  putOk : Store κ β → κ → β → Prop
  rely_refl : ∀ i w, Rely i w w
  rely_trans : ∀ {i w₁ w₂ w₃}, Rely i w₁ w₂ → Rely i w₂ w₃ → Rely i w₁ w₃
  rely_of_move : ∀ {l w w' i}, Move l w w' → l.1 ≠ i → Rely i w w'

def Rules.Lands (G : Rules ι κ β θ σ) (l : ι × Answer × θ) (w : Store κ β × σ) (st : Store κ β)
    (P : Store κ β × σ → Prop) : Prop :=
  -- with the operation `l` the store becomes `st`; the abstract state can follow so that `P` holds
  ∃ x, G.Inv (st, x) ∧ G.Move l w (st, x) ∧ P (st, x)

/-- Program `i` keeps the rules with every operation, and returns only results that satisfy
`Q`, whatever the others do in between. -/
def Prog.keeps (G : Rules ι κ β θ σ) (i : ι) (Q : Store κ β × σ → ρ → Prop) :
    Prog κ β θ ρ → Store κ β × σ → Prop
  | .ret r, w => ∀ w', G.Inv w' → G.Rely i w w' → Q w' r
  | .stuck, _ => True
  | .sense next, w => ∀ w', G.Inv w' → G.Rely i w w' → ∀ a view,
    G.Lands (i, a, view) w' w'.1 ((next view).keeps G i Q)
  | .get k next, w => ∀ w', G.Inv w' → G.Rely i w w' → ∀ view,
    G.Lands (i, .done, view) w' w'.1 ((next (.ok (w'.1.kvs k))).keeps G i Q) ∧
    ∀ a e, a ≠ .done → G.Lands (i, a, view) w' w'.1 ((next (.error e)).keeps G i Q)
  | .put k v next, w => ∀ w', G.Inv w' → G.Rely i w w' → ∀ view,
    (G.putOk w'.1 k v →
      G.Lands (i, .done, view) w' (w'.1.put k v)
        ((next (.ok (w'.1.put k v).revision)).keeps G i Q) ∧
      ∀ e, G.Lands (i, .late e, view) w' (w'.1.put k v) ((next (.error e)).keeps G i Q)) ∧
    ∀ e, G.Lands (i, .lost e, view) w' w'.1 ((next (.error e)).keeps G i Q)
  | .txn k rev v next, w => ∀ w', G.Inv w' → G.Rely i w w' → ∀ view,
    (w'.1.modRevision k = rev →
      G.Lands (i, .done, view) w' (w'.1.put k v) ((next (.ok true)).keeps G i Q) ∧
      ∀ e, G.Lands (i, .late e, view) w' (w'.1.put k v) ((next (.error e)).keeps G i Q)) ∧
    (w'.1.modRevision k ≠ rev →
      G.Lands (i, .done, view) w' w'.1 ((next (.ok false)).keeps G i Q)) ∧
    ∀ a e, a ≠ .done → G.Lands (i, a, view) w' w'.1 ((next (.error e)).keeps G i Q)

variable {G : Rules ι κ β θ σ} {i : ι} {w w' : Store κ β × σ}

omit [DecidableEq κ] in
theorem Rules.Lands.mono {l : ι × Answer × θ} {st : Store κ β} {P P' : Store κ β × σ → Prop}
    (h : G.Lands l w st P) (hp : ∀ w, P w → P' w) : G.Lands l w st P' := by
  obtain ⟨x, hI, hm, hx⟩ := h
  exact ⟨x, hI, hm, hp _ hx⟩

namespace Prog

/-- What is verified in one world stays verified after moves of the others. -/
theorem keeps_stable {p : Prog κ β θ ρ} {Q : Store κ β × σ → ρ → Prop} (h : p.keeps G i Q w)
    (hw : G.Rely i w w') : p.keeps G i Q w' := by
  cases p with
  | stuck => trivial
  | _ => exact fun w'' hI hR => h w'' hI (G.rely_trans hw hR)

/-- It is enough to look at the worlds that the invariant holds in. -/
theorem keeps_of_inv {p : Prog κ β θ ρ} {Q : Store κ β × σ → ρ → Prop}
    (h : ∀ w', G.Inv w' → G.Rely i w w' → p.keeps G i Q w') : p.keeps G i Q w := by
  cases p with
  | stuck => trivial
  | _ => exact fun w' hI hR => h w' hI hR w' hI (G.rely_refl i w')

theorem keeps_bind {p : Prog κ β θ ρ} {f : ρ → Prog κ β θ τ} {Q : Store κ β × σ → ρ → Prop}
    {Q' : Store κ β × σ → τ → Prop} (h : p.keeps G i Q w)
    (hf : ∀ w r, G.Inv w → Q w r → (f r).keeps G i Q' w) : (p.bind f).keeps G i Q' w := by
  induction p generalizing w with
  | ret r => exact keeps_of_inv fun w' hI hR => hf w' r hI (h w' hI hR)
  | stuck => trivial
  | sense next ih => exact fun w' hI hR a view => (h w' hI hR a view).mono fun _ => ih view
  | get k next ih =>
    intro w' hI hR view
    obtain ⟨hdone, hfail⟩ := h w' hI hR view
    exact ⟨hdone.mono fun _ => ih _, fun a e ha => (hfail a e ha).mono fun _ => ih _⟩
  | put k v next ih =>
    intro w' hI hR view
    obtain ⟨hput, hlost⟩ := h w' hI hR view
    refine ⟨fun ho => ?_, fun e => (hlost e).mono fun _ => ih _⟩
    obtain ⟨hdone, hlate⟩ := hput ho
    exact ⟨hdone.mono fun _ => ih _, fun e => (hlate e).mono fun _ => ih _⟩
  | txn k rev v next ih =>
    intro w' hI hR view
    obtain ⟨hhit, hmiss, hfail⟩ := h w' hI hR view
    refine ⟨fun hr => ?_, fun hr => (hmiss hr).mono fun _ => ih _,
      fun a e ha => (hfail a e ha).mono fun _ => ih _⟩
    obtain ⟨hdone, hlate⟩ := hhit hr
    exact ⟨hdone.mono fun _ => ih _, fun e => (hlate e).mono fun _ => ih _⟩

theorem keeps_step {p q : Prog κ β θ ρ} {Q : Store κ β × σ → ρ → Prop} {st : Store κ β}
    {a : Answer} {view : θ} (hI : G.Inv w) (h : p.keeps G i Q w)
    (hs : p.step w.1 a view = some (st, q))
    (ho : ∀ k v next, p = .put k v next → (∀ e, a ≠ .lost e) → G.putOk w.1 k v) :
    G.Lands (i, a, view) w st (q.keeps G i Q) := by
  cases p with
  | ret r => simp [step] at hs
  | stuck => simp [step] at hs
  | sense next =>
    obtain ⟨rfl, rfl⟩ : w.1 = st ∧ next view = q := by simpa [step] using hs
    exact h w hI (G.rely_refl i w) a view
  | get k next =>
    obtain ⟨hdone, hfail⟩ := h w hI (G.rely_refl i w) view
    cases a with
    | done =>
      obtain ⟨rfl, rfl⟩ : w.1 = st ∧ next (.ok (w.1.kvs k)) = q := by simpa [step] using hs
      exact hdone
    | lost e | late e =>
      obtain ⟨rfl, rfl⟩ : w.1 = st ∧ next (.error e) = q := by simpa [step] using hs
      exact hfail _ e (by simp)
  | put k v next =>
    obtain ⟨hput, hlost⟩ := h w hI (G.rely_refl i w) view
    cases a with
    | done =>
      obtain ⟨rfl, rfl⟩ : w.1.put k v = st ∧ next (.ok (w.1.put k v).revision) = q := by
        simpa [step] using hs
      exact (hput (ho k v next rfl (by simp))).1
    | lost e =>
      obtain ⟨rfl, rfl⟩ : w.1 = st ∧ next (.error e) = q := by simpa [step] using hs
      exact hlost e
    | late e =>
      obtain ⟨rfl, rfl⟩ : w.1.put k v = st ∧ next (.error e) = q := by simpa [step] using hs
      exact (hput (ho k v next rfl (by simp))).2 e
  | txn k rev v next =>
    obtain ⟨hhit, hmiss, hfail⟩ := h w hI (G.rely_refl i w) view
    by_cases hr : w.1.modRevision k = rev
    · cases a with
      | done =>
        obtain ⟨rfl, rfl⟩ : w.1.put k v = st ∧ next (.ok true) = q := by
          simpa [step, hr] using hs
        exact (hhit hr).1
      | lost e =>
        obtain ⟨rfl, rfl⟩ : w.1 = st ∧ next (.error e) = q := by simpa [step] using hs
        exact hfail _ e (by simp)
      | late e =>
        obtain ⟨rfl, rfl⟩ : w.1.put k v = st ∧ next (.error e) = q := by
          simpa [step, hr] using hs
        exact (hhit hr).2 e
    · cases a with
      | done =>
        obtain ⟨rfl, rfl⟩ : w.1 = st ∧ next (.ok false) = q := by simpa [step, hr] using hs
        exact hmiss hr
      | lost e | late e =>
        obtain ⟨rfl, rfl⟩ : w.1 = st ∧ next (.error e) = q := by simpa [step, hr] using hs
        exact hfail _ e (by simp)

end Prog

section Pools
variable [DecidableEq ι] {Q : ι → Store κ β × σ → ρ → Prop} {s t : Pool ι κ β θ ρ}
  {l : ι × Answer × θ}

def Meets (putOk : Store κ β → κ → β → Prop) (s : Pool ι κ β θ ρ) (l : ι × Answer × θ)
    (t : Pool ι κ β θ ρ) : Prop :=
  PutsMeet putOk s l ∧ s.step l = some t

structure Accompanied (G : Rules ι κ β θ σ) (Q : ι → Store κ β × σ → ρ → Prop)
    (s : Pool ι κ β θ ρ) (w : Store κ β × σ) : Prop where
  store : w.1 = s.world.store
  inv : G.Inv w
  keeps : ∀ i, (s.threads i).keeps G i (Q i) w

theorem Accompanied.step (h : Accompanied G Q s w) (hs : Meets G.putOk s l t) :
    ∃ w', G.Move l w w' ∧ Accompanied G Q t w' := by
  obtain ⟨i, a, view⟩ := l
  obtain ⟨ho, hs⟩ := hs
  obtain ⟨⟨st, q⟩, hq, rfl⟩ := Option.map_eq_some_iff.mp hs
  rw [← h.store] at hq
  have hput : ∀ k v next, s.threads i = .put k v next → (∀ e, a ≠ .lost e) →
      G.putOk w.1 k v := by
    intro k v next hp ha
    rw [h.store]
    cases a with
    | lost e => exact absurd rfl (ha e)
    | done | late e => simpa [PutsMeet, hp] using ho
  obtain ⟨x, hI, hm, hk⟩ := Prog.keeps_step h.inv (h.keeps i) hq hput
  refine ⟨(st, x), hm, rfl, hI, fun j => ?_⟩
  by_cases hj : j = i
  · subst hj
    simpa using hk
  · simp only [Function.update_of_ne hj]
    exact Prog.keeps_stable (h.keeps j) (G.rely_of_move hm (Ne.symm hj))

def Beside (G : Rules ι κ β θ σ) (Q : ι → Store κ β × σ → ρ → Prop)
    (x : Pool ι κ β θ ρ × Store κ β × σ) (l : ι × Answer × θ)
    (y : Pool ι κ β θ ρ × Store κ β × σ) : Prop :=
  Meets G.putOk x.1 l y.1 ∧ G.Move l x.2 y.2 ∧ Accompanied G Q y.1 y.2

theorem Accompanied.of_trace {x y : Pool ι κ β θ ρ × Store κ β × σ}
    {labels : List (ι × Answer × θ)} (h : Accompanied G Q x.1 x.2)
    (ht : Trace (Beside G Q) x labels y) : Accompanied G Q y.1 y.2 := by
  cases ht with
  | nil => exact h
  | snoc _ hs => exact hs.2.2

/-- A run of the pool has a run of the abstract state beside it. -/
theorem Accompanied.trace {labels : List (ι × Answer × θ)} (h : Accompanied G Q s w)
    (ht : Trace (Meets G.putOk) s labels t) : ∃ w', Trace (Beside G Q) (s, w) labels (t, w') := by
  induction ht with
  | nil => exact ⟨w, .nil⟩
  | snoc _ hs ih =>
    obtain ⟨w₁, hrun⟩ := ih
    obtain ⟨w₂, hm, hw₂⟩ := (h.of_trace hrun).step hs
    exact ⟨w₂, hrun.snoc ⟨hs, hm, hw₂⟩⟩

omit [DecidableEq ι] in
theorem Accompanied.ret {r : ρ} (h : Accompanied G Q s w) (hi : s.threads i = .ret r) :
    Q i w r := by
  have hk := h.keeps i
  rw [hi] at hk
  exact hk w h.inv (G.rely_refl i w)

/-- A program that has returned takes no further step. -/
theorem returned_of_trace {putOk : Store κ β → κ → β → Prop} {labels : List (ι × Answer × θ)}
    {r : ρ} (hi : s.threads i = .ret r) (ht : Trace (Meets putOk) s labels t) :
    t.threads i = .ret r ∧ ∀ l ∈ labels, l.1 ≠ i := by
  induction ht with
  | nil => exact ⟨hi, by simp⟩
  | @snoc labels u v l _ hs ih =>
    obtain ⟨hu, hne⟩ := ih
    obtain ⟨⟨st, q⟩, hq, rfl⟩ := Option.map_eq_some_iff.mp hs.2
    have hl : l.1 ≠ i := by
      rintro rfl
      simp [hu, Prog.step] at hq
    refine ⟨by simpa [Function.update_of_ne (Ne.symm hl)] using hu, fun l' hm => ?_⟩
    rcases List.mem_append.mp hm with hm | hm
    · exact hne l' hm
    · rwa [List.mem_singleton.mp hm]

end Pools

end Leibrix.KeyValue

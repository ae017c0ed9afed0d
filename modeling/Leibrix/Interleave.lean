import Leibrix.KeyValue
import Leibrix.Transition

/-! Any number of programs on one store, interleaved operation by operation, and
a rely-guarantee rule for them: each program is verified alone against a relation
`R` that bounds what the others may do to the store between its operations. -/
namespace Leibrix.KeyValue
open Leibrix.Transition

variable {ι κ β θ ρ τ : Type} [DecidableEq ι] [DecidableEq κ]

structure World (ι κ β : Type) where
  -- the store with a record of which programs have had a write carried out
  store : Store κ β
  wrote : ι → Bool

def World.write (w : World ι κ β) (i : ι) (k : κ) (v : β) : World ι κ β :=
  ⟨w.store.put k v, Function.update w.wrote i true⟩

structure Pool (ι κ β θ ρ : Type) where
  world : World ι κ β
  threads : ι → Prog κ β θ ρ

def Pool.step (s : Pool ι κ β θ ρ) (l : ι × Answer × θ) : Option (Pool ι κ β θ ρ) :=
  -- one operation of program `l.1`, answered by `l.2.1`, in a process whose own state is `l.2.2`
  ((s.threads l.1).step s.world.store l.2.1 l.2.2).map fun q =>
    { world := ⟨q.1, if q.1.revision = s.world.store.revision then s.world.wrote
        else Function.update s.world.wrote l.1 true⟩
      threads := Function.update s.threads l.1 q.2 }

def PutsMeet (putOk : Store κ β → κ → β → Prop) (s : Pool ι κ β θ ρ)
    (l : ι × Answer × θ) : Prop :=
  -- unconditional writes are carried out only in a store that `putOk` accepts
  match s.threads l.1, l.2.1 with
  | .put _ _ _, .lost _ => True
  | .put k v _, _ => putOk s.world.store k v
  | _, _ => True

/-- Program `i` keeps `R` with every write, and returns only results that satisfy
`Q`, whatever steps within `R` the other programs take in between. -/
def Prog.rg (putOk : Store κ β → κ → β → Prop) (R : World ι κ β → World ι κ β → Prop) (i : ι)
    (Q : World ι κ β → ρ → Prop) : Prog κ β θ ρ → World ι κ β → Prop
  | .ret r, w => ∀ w', R w w' → w'.wrote i = w.wrote i → Q w' r
  | .stuck, _ => True
  | .sense next, w => ∀ w', R w w' → w'.wrote i = w.wrote i →
    ∀ v, (next v).rg putOk R i Q w'
  | .get k next, w => ∀ w', R w w' → w'.wrote i = w.wrote i →
    (next (.ok (w'.store.kvs k))).rg putOk R i Q w' ∧ ∀ e, (next (.error e)).rg putOk R i Q w'
  | .put k v next, w => ∀ w', R w w' → w'.wrote i = w.wrote i →
    (putOk w'.store k v → R w' (w'.write i k v) ∧
      (next (.ok (w'.store.put k v).revision)).rg putOk R i Q (w'.write i k v) ∧
      ∀ e, (next (.error e)).rg putOk R i Q (w'.write i k v)) ∧
    ∀ e, (next (.error e)).rg putOk R i Q w'
  | .txn k rev v next, w => ∀ w', R w w' → w'.wrote i = w.wrote i →
    (w'.store.modRevision k = rev → R w' (w'.write i k v) ∧
      (next (.ok true)).rg putOk R i Q (w'.write i k v) ∧
      ∀ e, (next (.error e)).rg putOk R i Q (w'.write i k v)) ∧
    (w'.store.modRevision k ≠ rev → (next (.ok false)).rg putOk R i Q w') ∧
    ∀ e, (next (.error e)).rg putOk R i Q w'

namespace Prog
variable {putOk : Store κ β → κ → β → Prop} {R : World ι κ β → World ι κ β → Prop} {i : ι}

theorem rg_bind (p : Prog κ β θ ρ) (f : ρ → Prog κ β θ τ) (Q : World ι κ β → τ → Prop)
    (w : World ι κ β) (hR : ∀ w, R w w)
    (h : p.rg putOk R i (fun w r => (f r).rg putOk R i Q w) w) :
    (p.bind f).rg putOk R i Q w := by
  induction p generalizing w with
  | ret r => exact h w (hR w) rfl
  | stuck => trivial
  | sense next ih => exact fun w' hw hi v => ih v w' (h w' hw hi v)
  | get k next ih =>
    intro w' hw hi
    obtain ⟨h1, h2⟩ := h w' hw hi
    exact ⟨ih _ w' h1, fun e => ih _ w' (h2 e)⟩
  | put k v next ih =>
    intro w' hw hi
    obtain ⟨h1, h2⟩ := h w' hw hi
    refine ⟨fun ho => ?_, fun e => ih _ _ (h2 e)⟩
    obtain ⟨g1, g2, g3⟩ := h1 ho
    exact ⟨g1, ih _ _ g2, fun e => ih _ _ (g3 e)⟩
  | txn k rev v next ih =>
    intro w' hw hi
    obtain ⟨h1, h2, h3⟩ := h w' hw hi
    refine ⟨fun hr => ?_, fun hr => ih _ _ (h2 hr), fun e => ih _ _ (h3 e)⟩
    obtain ⟨g1, g2, g3⟩ := h1 hr
    exact ⟨g1, ih _ _ g2, fun e => ih _ _ (g3 e)⟩

theorem rg_mono {p : Prog κ β θ ρ} {Q Q' : World ι κ β → ρ → Prop} {w : World ι κ β}
    (h : p.rg putOk R i Q w) (hq : ∀ w r, Q w r → Q' w r) : p.rg putOk R i Q' w := by
  induction p generalizing w with
  | ret r => exact fun w' hw hi => hq w' r (h w' hw hi)
  | stuck => trivial
  | sense next ih => exact fun w' hw hi v => ih v (h w' hw hi v)
  | get k next ih =>
    intro w' hw hi
    obtain ⟨h1, h2⟩ := h w' hw hi
    exact ⟨ih _ h1, fun e => ih _ (h2 e)⟩
  | put k v next ih =>
    intro w' hw hi
    obtain ⟨h1, h2⟩ := h w' hw hi
    refine ⟨fun ho => ?_, fun e => ih _ (h2 e)⟩
    obtain ⟨g1, g2, g3⟩ := h1 ho
    exact ⟨g1, ih _ g2, fun e => ih _ (g3 e)⟩
  | txn k rev v next ih =>
    intro w' hw hi
    obtain ⟨h1, h2, h3⟩ := h w' hw hi
    refine ⟨fun hr => ?_, fun hr => ih _ (h2 hr), fun e => ih _ (h3 e)⟩
    obtain ⟨g1, g2, g3⟩ := h1 hr
    exact ⟨g1, ih _ g2, fun e => ih _ (g3 e)⟩

/-- What is verified in one world stays verified after steps of the others. -/
theorem rg_stable {p : Prog κ β θ ρ} {Q : World ι κ β → ρ → Prop} {w w' : World ι κ β}
    (htrans : ∀ {a b c}, R a b → R b c → R a c) (h : p.rg putOk R i Q w) (hw : R w w')
    (hi : w'.wrote i = w.wrote i) : p.rg putOk R i Q w' := by
  cases p with
  | ret r => exact fun w'' hw' hi' => h w'' (htrans hw hw') (hi'.trans hi)
  | stuck => trivial
  | sense next => exact fun w'' hw' hi' => h w'' (htrans hw hw') (hi'.trans hi)
  | get k next => exact fun w'' hw' hi' => h w'' (htrans hw hw') (hi'.trans hi)
  | put k v next => exact fun w'' hw' hi' => h w'' (htrans hw hw') (hi'.trans hi)
  | txn k rev v next => exact fun w'' hw' hi' => h w'' (htrans hw hw') (hi'.trans hi)

/-- One operation: either the world is as before, or the program has written and
the step is within `R`; in both cases the rest of the program stays verified. -/
theorem rg_step {p q : Prog κ β θ ρ} {Q : World ι κ β → ρ → Prop} {w : World ι κ β}
    {st : Store κ β} {a : Answer} {view : θ} (hrefl : ∀ w, R w w) (h : p.rg putOk R i Q w)
    (hs : p.step w.store a view = some (st, q))
    (ho : ∀ k v next, p = .put k v next → (∀ e, a ≠ .lost e) → putOk w.store k v) :
    (st = w.store ∧ q.rg putOk R i Q w) ∨
    ∃ k v, st = w.store.put k v ∧ R w (w.write i k v) ∧ q.rg putOk R i Q (w.write i k v) := by
  cases p with
  | ret r => simp [step] at hs
  | stuck => simp [step] at hs
  | sense next =>
    obtain ⟨rfl, rfl⟩ : w.store = st ∧ next view = q := by simpa [step] using hs
    exact .inl ⟨rfl, h w (hrefl w) rfl view⟩
  | get k next =>
    obtain ⟨h1, h2⟩ := h w (hrefl w) rfl
    cases a with
    | done =>
      obtain ⟨rfl, rfl⟩ : w.store = st ∧ next (.ok (w.store.kvs k)) = q := by
        simpa [step] using hs
      exact .inl ⟨rfl, h1⟩
    | lost e | late e =>
      obtain ⟨rfl, rfl⟩ : w.store = st ∧ next (.error e) = q := by simpa [step] using hs
      exact .inl ⟨rfl, h2 e⟩
  | put k v next =>
    obtain ⟨h1, h2⟩ := h w (hrefl w) rfl
    cases a with
    | done =>
      obtain ⟨g1, g2, -⟩ := h1 (ho k v next rfl (by simp))
      obtain ⟨rfl, rfl⟩ : w.store.put k v = st ∧ next (.ok (w.store.put k v).revision) = q := by
        simpa [step] using hs
      exact .inr ⟨k, v, rfl, g1, g2⟩
    | lost e =>
      obtain ⟨rfl, rfl⟩ : w.store = st ∧ next (.error e) = q := by simpa [step] using hs
      exact .inl ⟨rfl, h2 e⟩
    | late e =>
      obtain ⟨g1, -, g3⟩ := h1 (ho k v next rfl (by simp))
      obtain ⟨rfl, rfl⟩ : w.store.put k v = st ∧ next (.error e) = q := by
        simpa [step] using hs
      exact .inr ⟨k, v, rfl, g1, g3 e⟩
  | txn k rev v next =>
    obtain ⟨h1, h2, h3⟩ := h w (hrefl w) rfl
    by_cases hr : w.store.modRevision k = rev
    · obtain ⟨g1, g2, g3⟩ := h1 hr
      cases a with
      | done =>
        obtain ⟨rfl, rfl⟩ : w.store.put k v = st ∧ next (.ok true) = q := by
          simpa [step, hr] using hs
        exact .inr ⟨k, v, rfl, g1, g2⟩
      | lost e =>
        obtain ⟨rfl, rfl⟩ : w.store = st ∧ next (.error e) = q := by simpa [step] using hs
        exact .inl ⟨rfl, h3 e⟩
      | late e =>
        obtain ⟨rfl, rfl⟩ : w.store.put k v = st ∧ next (.error e) = q := by
          simpa [step, hr] using hs
        exact .inr ⟨k, v, rfl, g1, g3 e⟩
    · cases a with
      | done =>
        obtain ⟨rfl, rfl⟩ : w.store = st ∧ next (.ok false) = q := by
          simpa [step, hr] using hs
        exact .inl ⟨rfl, h2 hr⟩
      | lost e =>
        obtain ⟨rfl, rfl⟩ : w.store = st ∧ next (.error e) = q := by simpa [step] using hs
        exact .inl ⟨rfl, h3 e⟩
      | late e =>
        obtain ⟨rfl, rfl⟩ : w.store = st ∧ next (.error e) = q := by
          simpa [step, hr] using hs
        exact .inl ⟨rfl, h3 e⟩

end Prog

section Parallel
variable {putOk : Store κ β → κ → β → Prop} {R : World ι κ β → World ι κ β → Prop}
  {Q : ι → World ι κ β → ρ → Prop}

def Verified (putOk : Store κ β → κ → β → Prop) (R : World ι κ β → World ι κ β → Prop)
    (Q : ι → World ι κ β → ρ → Prop) (s : Pool ι κ β θ ρ) : Prop :=
  ∀ i, (s.threads i).rg putOk R i (Q i) s.world

theorem verified_step (hrefl : ∀ w, R w w) (htrans : ∀ {a b c}, R a b → R b c → R a c)
    {s t : Pool ι κ β θ ρ} {l : ι × Answer × θ} (hv : Verified putOk R Q s)
    (ho : PutsMeet putOk s l) (hs : s.step l = some t) :
    R s.world t.world ∧ Verified putOk R Q t := by
  obtain ⟨i, a, view⟩ := l
  obtain ⟨⟨st, q⟩, hq, rfl⟩ := Option.map_eq_some_iff.mp hs
  have hput : ∀ k v next, s.threads i = .put k v next → (∀ e, a ≠ .lost e) →
      putOk s.world.store k v := by
    intro k v next hp ha
    cases a with
    | lost e => exact absurd rfl (ha e)
    | done | late e => simpa [PutsMeet, hp] using ho
  rcases Prog.rg_step hrefl (hv i) hq hput with ⟨rfl, hr⟩ | ⟨k, v, rfl, hR, hr⟩
  · refine ⟨by simpa using hrefl s.world, fun j => ?_⟩
    by_cases hj : j = i
    · subst hj
      simpa using hr
    · simpa [Function.update_of_ne hj] using hv j
  · have hw : (⟨s.world.store.put k v, Function.update s.world.wrote i true⟩ : World ι κ β) =
        s.world.write i k v := rfl
    simp only [Store.put_revision, Nat.succ_ne_self, ↓reduceIte, hw]
    refine ⟨hR, fun j => ?_⟩
    by_cases hj : j = i
    · subst hj
      simpa using hr
    · -- the others see a step within `R` that leaves their own record alone
      simp only [Function.update_of_ne hj]
      exact Prog.rg_stable htrans (hv j) hR (by simp [World.write, Function.update_of_ne hj])

/-- The parallel rule: programs verified one by one against `R` stay verified in
every interleaving, and the world moves only within `R`. -/
theorem verified_reach (hrefl : ∀ w, R w w) (htrans : ∀ {a b c}, R a b → R b c → R a c)
    {s t : Pool ι κ β θ ρ} (hv : Verified putOk R Q s)
    (h : Reach (Fires Pool.step) (PutsMeet putOk) s t) :
    R s.world t.world ∧ Verified putOk R Q t := by
  refine h.invariant (I := fun t => R s.world t.world ∧ Verified putOk R Q t)
    ⟨hrefl _, hv⟩ ?_
  intro t l u ht ho hs
  obtain ⟨hR, hv'⟩ := verified_step hrefl htrans ht.2 ho hs
  exact ⟨htrans ht.1 hR, hv'⟩

theorem Verified.ret {s : Pool ι κ β θ ρ} (hrefl : ∀ w, R w w) (hv : Verified putOk R Q s)
    {i : ι} {r : ρ} (hi : s.threads i = .ret r) : Q i s.world r := by
  have h := hv i
  rw [hi] at h
  exact h s.world (hrefl _) rfl

end Parallel
end Leibrix.KeyValue

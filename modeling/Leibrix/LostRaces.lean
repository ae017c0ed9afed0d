import Leibrix.Companion

/-! Transactions that are refused. A program reads a key and makes its next operation a
transaction that compares the revision it has read; when the comparison fails, another
program has written the key in between. -/
namespace Leibrix.KeyValue
open Leibrix.Transition

variable {ι κ β θ ρ τ : Type} [DecidableEq κ]

def Prog.unlessRefused (k : κ) (Q : Option Nat → ρ → Prop) :
    Option Nat → Prog κ β θ ρ → Prop
  -- What a program returns satisfies `Q`, unless a transaction on `k` is refused. Such a
  -- transaction comes right after a read of `k`, and compares the revision that was read; `last` is
  -- that revision if the operation before was a read of `k`.
  | last, .ret r => Q last r
  | _, .stuck => True
  | _, .sense next => ∀ view, (next view).unlessRefused k Q none
  | _, .get k' next => (∀ e, (next (.error e)).unlessRefused k Q none) ∧
    ∀ kv, (next (.ok kv)).unlessRefused k Q
      (if k' = k then some (kv.elim 0 Versioned.modRevision) else none)
  | _, .put _ _ next => ∀ a, (next a).unlessRefused k Q none
  | last, .txn k' rev _ next => k' = k ∧ last = some rev ∧
    (∀ e, (next (.error e)).unlessRefused k Q none) ∧ (next (.ok true)).unlessRefused k Q none

namespace Prog
variable {k : κ} {p q : Prog κ β θ ρ} {Q : Option Nat → ρ → Prop} {last : Option Nat}

theorem unlessRefused_bind {f : ρ → Prog κ β θ τ} {Q : Option Nat → τ → Prop}
    (h : p.unlessRefused k (fun last r => (f r).unlessRefused k Q last) last) :
    (p.bind f).unlessRefused k Q last := by
  induction p generalizing last with
  | ret r => exact h
  | stuck => trivial
  | sense next ih => exact fun view => ih view (h view)
  | get k' next ih => exact ⟨fun e => ih _ (h.1 e), fun kv => ih _ (h.2 kv)⟩
  | put k' v next ih => exact fun a => ih a (h a)
  | txn k' rev v next ih =>
    obtain ⟨hk, hl, herr, hok⟩ := h
    exact ⟨hk, hl, fun e => ih _ (herr e), ih _ hok⟩

theorem unlessRefused_mono {Q' : Option Nat → ρ → Prop} (h : p.unlessRefused k Q last)
    (hq : ∀ last r, Q last r → Q' last r) : p.unlessRefused k Q' last := by
  induction p generalizing last with
  | ret r => exact hq last r h
  | stuck => trivial
  | sense next ih => exact fun view => ih view (h view)
  | get k' next ih => exact ⟨fun e => ih _ (h.1 e), fun kv => ih _ (h.2 kv)⟩
  | put k' v next ih => exact fun a => ih a (h a)
  | txn k' rev v next ih =>
    obtain ⟨hk, hl, herr, hok⟩ := h
    exact ⟨hk, hl, fun e => ih _ (herr e), ih _ hok⟩

/-- One operation: a read of `k`, another one that is not refused, or a refused transaction. -/
theorem unlessRefused_step {st st' : Store κ β} {a : Answer} {view : θ}
    (h : p.unlessRefused k Q last) (hs : p.step st a view = some (st', q)) :
    (∃ next, p = .get k next ∧ st' = st ∧ q.unlessRefused k Q (some (st.modRevision k))) ∨
      q.unlessRefused k Q none ∨
      ∃ rev v next, p = .txn k rev v next ∧ last = some rev ∧ st.modRevision k ≠ rev := by
  cases p with
  | ret r => simp [step] at hs
  | stuck => simp [step] at hs
  | sense next =>
    obtain ⟨rfl, rfl⟩ : st = st' ∧ next view = q := by simpa [step] using hs
    exact .inr (.inl (h view))
  | get k' next =>
    cases a with
    | done =>
      obtain ⟨rfl, rfl⟩ : st = st' ∧ next (.ok (st.kvs k')) = q := by simpa [step] using hs
      have hread := h.2 (st.kvs k')
      by_cases hk : k' = k
      · subst hk
        rw [if_pos rfl] at hread
        exact .inl ⟨next, rfl, rfl, hread⟩
      · rw [if_neg hk] at hread
        exact .inr (.inl hread)
    | lost e | late e =>
      obtain ⟨rfl, rfl⟩ : st = st' ∧ next (.error e) = q := by simpa [step] using hs
      exact .inr (.inl (h.1 e))
  | put k' v next =>
    cases a with
    | done =>
      obtain ⟨rfl, rfl⟩ : st.put k' v = st' ∧ next (.ok (st.put k' v).revision) = q := by
        simpa [step] using hs
      exact .inr (.inl (h _))
    | lost e | late e =>
      obtain ⟨-, rfl⟩ : _ = st' ∧ next (.error e) = q := by simpa [step] using hs
      exact .inr (.inl (h _))
  | txn k' rev v next =>
    obtain ⟨rfl, hlast, herr, hok⟩ := h
    by_cases hr : st.modRevision k' = rev
    · cases a with
      | done =>
        obtain ⟨-, rfl⟩ : _ = st' ∧ next (.ok true) = q := by simpa [step, hr] using hs
        exact .inr (.inl hok)
      | lost e | late e =>
        obtain ⟨-, rfl⟩ : _ = st' ∧ next (.error e) = q := by simpa [step, hr] using hs
        exact .inr (.inl (herr e))
    · exact .inr (.inr ⟨rev, v, next, rfl, hlast, hr⟩)

end Prog

section Pools
variable [DecidableEq ι] {putOk : Store κ β → κ → β → Prop} {s t : Pool ι κ β θ ρ} {i : ι} {k : κ}
  {labels : List (ι × Answer × θ)}

theorem meets_unique {u : Pool ι κ β θ ρ} {l : ι × Answer × θ} (h : Meets putOk s l t)
    (h' : Meets putOk s l u) : t = u := Option.some.inj (h.2.symm.trans h'.2)

inductive Overtaken (putOk : Store κ β → κ → β → Prop) (s t : Pool ι κ β θ ρ) (i j : ι) (k : κ) :
    List (ι × Answer × θ) → Prop
  -- program `i` reads `k`, then `j` writes it, then `i` makes a transaction that compares the
  -- revision it has read, and that is no longer there
  | intro {before between after rest : List (ι × Answer × θ)} {read write txn : Answer × θ}
      {u v v' w : Pool ι κ β θ ρ} {next : Except String (Option (Versioned β)) → Prog κ β θ ρ}
      {x : β} {next' : Except String Bool → Prog κ β θ ρ} (hj : j ≠ i)
      (hu : Trace (Meets putOk) s before u) (hread : u.threads i = .get k next)
      (hv : Trace (Meets putOk) u ((i, read) :: between) v) (hwrite : Meets putOk v (j, write) v')
      (hnew : v'.world.store.modRevision k ≠ v.world.store.modRevision k)
      (hw : Trace (Meets putOk) v' after w)
      (htxn : w.threads i = .txn k (u.world.store.modRevision k) x next')
      (hlost : w.world.store.modRevision k ≠ u.world.store.modRevision k)
      (hrest : Trace (Meets putOk) w ((i, txn) :: rest) t) :
      Overtaken putOk s t i j k
        (before ++ ((i, read) :: between ++ (j, write) :: (after ++ (i, txn) :: rest)))

theorem Overtaken.snoc {j : ι} {u : Pool ι κ β θ ρ} {l : ι × Answer × θ}
    (h : Overtaken putOk s t i j k labels) (hl : Meets putOk t l u) :
    Overtaken putOk s u i j k (labels ++ [l]) := by
  cases h with
  | intro hj hu hread hv hwrite hnew hw htxn hlost hrest =>
    simpa using Overtaken.intro hj hu hread hv hwrite hnew hw htxn hlost (hrest.snoc hl)

inductive Standing (putOk : Store κ β → κ → β → Prop) (Q : Option Nat → ρ → Prop) (i : ι) (k : κ)
    (s t : Pool ι κ β θ ρ) : List (ι × Answer × θ) → Prop
  -- where program `i` is after a run: nowhere near a transaction on `k`, right after a read of it,
  -- or behind a transaction that was refused
  | free {labels : List (ι × Answer × θ)} (h : (t.threads i).unlessRefused k Q none) :
      Standing putOk Q i k s t labels
  | read {before between : List (ι × Answer × θ)} {e : Answer × θ} {u u' : Pool ι κ β θ ρ}
      {next : Except String (Option (Versioned β)) → Prog κ β θ ρ}
      (hu : Trace (Meets putOk) s before u) (hread : u.threads i = .get k next)
      (hstep : Meets putOk u (i, e) u') (hsame : u'.world.store = u.world.store)
      (ht : Trace (Meets putOk) u' between t) (hne : ∀ l ∈ between, l.1 ≠ i)
      (h : (t.threads i).unlessRefused k Q (some (u.world.store.modRevision k))) :
      Standing putOk Q i k s t (before ++ (i, e) :: between)
  | overtaken {labels : List (ι × Answer × θ)} {j : ι}
      (h : Overtaken putOk s t i j k labels) : Standing putOk Q i k s t labels

theorem threads_of_meets {j : ι} {l : ι × Answer × θ} (h : Meets putOk s l t) (hj : j ≠ l.1) :
    t.threads j = s.threads j := by
  obtain ⟨⟨st, q⟩, -, rfl⟩ := Option.map_eq_some_iff.mp h.2
  exact Function.update_of_ne hj _ _

theorem step_of_meets {e : Answer × θ} (h : Meets putOk s (i, e) t) :
    (s.threads i).step s.world.store e.1 e.2 = some (t.world.store, t.threads i) := by
  obtain ⟨⟨st, q⟩, hq, rfl⟩ := Option.map_eq_some_iff.mp h.2
  simpa using hq

theorem Standing.step {Q : Option Nat → ρ → Prop} {u : Pool ι κ β θ ρ} {l : ι × Answer × θ}
    (h : Standing putOk Q i k s t labels) (ht : Trace (Meets putOk) s labels t)
    (hl : Meets putOk t l u) : Standing putOk Q i k s u (labels ++ [l]) := by
  by_cases hi : l.1 = i
  · obtain ⟨j, e⟩ := l
    obtain rfl : j = i := hi
    have hstep := step_of_meets hl
    -- a read of `k` begins anew, whatever the program has read before
    have hgo : ∀ last, (t.threads j).unlessRefused k Q last →
        (∀ rev v next, t.threads j = .txn k rev v next → last = some rev →
          t.world.store.modRevision k ≠ rev → Standing putOk Q j k s u (labels ++ [(j, e)])) →
        Standing putOk Q j k s u (labels ++ [(j, e)]) := by
      intro last hlast hrefused
      obtain ⟨next, hread, hsame, hq⟩ | hq | ⟨rev, v, next, htxn, hrev, hne⟩ :=
        Prog.unlessRefused_step hlast hstep
      · exact .read ht hread hl hsame .nil (by simp) hq
      · exact .free hq
      · exact hrefused rev v next htxn hrev hne
    cases h with
    | free h => exact hgo none h fun _ _ _ _ hrev _ => by cases hrev
    | @read before between e₀ u₀ u' next hu hread hstep₀ hsame hbetween hother h =>
      refine hgo _ h fun rev x next' htxn hrev hne => ?_
      obtain rfl := Option.some.inj hrev
      have hchange : t.world.store.modRevision k ≠ u'.world.store.modRevision k := by
        rwa [hsame]
      obtain ⟨m₁, a, m₂, v, v', rfl, hv, hwrite, hnew, hw⟩ :=
        hbetween.exists_change (f := fun s => s.world.store.modRevision k) hchange
      have hcons : Trace (Meets putOk) u₀ ((j, e₀) :: m₁) v := (Trace.nil.snoc hstep₀).append hv
      have hlast : Trace (Meets putOk) t ((j, e) :: []) u := Trace.nil.snoc hl
      refine .overtaken (j := a.1) ?_
      simpa using Overtaken.intro (hother a (by simp)) hu hread hcons hwrite hnew hw htxn hne hlast
    | overtaken h => exact .overtaken (h.snoc hl)
  · have hsame := threads_of_meets hl (Ne.symm hi)
    cases h with
    | free h => exact .free (by rwa [hsame])
    | read hu hread hstep hst hbetween hother h =>
      have hstand := Standing.read (Q := Q) hu hread hstep hst (hbetween.snoc hl)
        (fun l' hl' => by
          rcases List.mem_append.mp hl' with hl' | hl'
          · exact hother l' hl'
          · rwa [List.mem_singleton.mp hl']) (by rwa [hsame])
      simpa using hstand
    | overtaken h => exact .overtaken (h.snoc hl)

/-- A program that has returned what it does not return otherwise was overtaken. -/
theorem overtaken_of_trace {Q : ρ → Prop} {r : ρ}
    (hs : (s.threads i).unlessRefused k (fun _ => Q) none)
    (h : Trace (Meets putOk) s labels t) (hr : t.threads i = .ret r) (hQ : ¬Q r) :
    ∃ j, Overtaken putOk s t i j k labels := by
  have hstand : Standing putOk (fun _ => Q) i k s t labels := by
    clear hr
    induction h with
    | nil => exact .free hs
    | snoc ht hl ih => exact ih.step ht hl
  clear h
  cases hstand with
  | free hfree =>
    rw [hr] at hfree
    exact absurd hfree hQ
  | read hu hread hstep hsame ht hne hlast =>
    rw [hr] at hlast
    exact absurd hlast hQ
  | overtaken hover => exact ⟨_, hover⟩

/-- The write that overtakes a program is a move of the abstract state that changes the key. -/
theorem Overtaken.exists_move {σ : Type} {G : Rules ι κ β θ σ}
    {Q : ι → Store κ β × σ → ρ → Prop} {w w' : Store κ β × σ} {j : ι}
    (h : Overtaken G.putOk s t i j k labels) (hs : Accompanied G Q s w)
    (hrun : Trace (Beside G Q) (s, w) labels (t, w')) :
    ∃ e rest w₁ w₂, G.Move (j, e) w₁ w₂ ∧ w₂.1.modRevision k ≠ w₁.1.modRevision k ∧
      Trace (fun w l => G.Move l w) w₂ rest w' := by
  cases h with
  | @intro before between after rest read write txn _ v v' _ _ _ _ _ hu _ hv hwrite hnew =>
    have hfirst : Trace (Meets G.putOk) s (before ++ (i, read) :: between) v := hu.append hv
    have hsecond : Trace (Meets G.putOk) v [(j, write)] v' := Trace.nil.snoc hwrite
    have hcut : before ++ ((i, read) :: between ++ (j, write) :: (after ++ (i, txn) :: rest)) =
        (before ++ (i, read) :: between) ++ ([(j, write)] ++ (after ++ (i, txn) :: rest)) := by
      simp
    rw [hcut] at hrun
    obtain ⟨⟨v₁, w₁⟩, hrun₁, hrun⟩ := hrun.split
    obtain ⟨⟨v₂, w₂⟩, hrun₂, hrun⟩ := hrun.split
    -- the pool has one run with these labels, so the two runs agree before and after the write
    have hpool₁ : Trace (Meets G.putOk) s _ v₁ := hrun₁.map fun _ _ _ h => h.1
    obtain rfl : v₁ = v := hpool₁.unique hfirst fun _ _ _ _ => meets_unique
    have hpool₂ : Trace (Meets G.putOk) v₁ _ v₂ := hrun₂.map fun _ _ _ h => h.1
    obtain rfl : v₂ = v' := hpool₂.unique hsecond fun _ _ _ _ => meets_unique
    have hw₁ := hs.of_trace hrun₁
    have hw₂ := hw₁.of_trace hrun₂
    obtain ⟨-, hmove, -⟩ := hrun₂.step_of_singleton
    rw [← hw₁.store, ← hw₂.store] at hnew
    exact ⟨write, _, w₁, w₂, hmove, hnew, hrun.map (f := Prod.snd) fun _ _ _ h => h.2.1⟩

end Pools
end Leibrix.KeyValue

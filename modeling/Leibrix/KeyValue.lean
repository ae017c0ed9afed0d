import Mathlib.Logic.Function.Basic

/-! A linearizable key-value store with a modification revision per key, and
programs that use it one operation at a time. Between two operations a program
holds only what earlier answers gave it. -/
namespace Leibrix.KeyValue

structure Versioned (β : Type) where
  value : β
  modRevision : Nat
deriving DecidableEq

structure Store (κ β : Type) where
  -- every revision found in the store was issued by the store's own counter
  revision : Nat
  kvs : κ → Option (Versioned β)
  issued : ∀ k v, kvs k = some v → v.modRevision ≤ revision

variable {κ β θ ρ τ : Type}

def Store.empty : Store κ β := ⟨1, fun _ => none, by simp⟩

def Store.modRevision (st : Store κ β) (k : κ) : Nat :=
  -- the revision a transaction compares: 0 for a key that is not there
  (st.kvs k).elim 0 Versioned.modRevision

variable [DecidableEq κ]

def Store.put (st : Store κ β) (k : κ) (v : β) : Store κ β where
  revision := st.revision + 1
  kvs := Function.update st.kvs k (some ⟨v, st.revision + 1⟩)
  issued := by
    intro k' v' h
    by_cases hk : k' = k
    · subst hk
      obtain rfl : (⟨v, st.revision + 1⟩ : Versioned β) = v' := by simpa using h
      exact Nat.le_refl _
    · have ho : st.kvs k' = some v' := by simpa [Function.update_of_ne hk] using h
      exact Nat.le_succ_of_le (st.issued k' v' ho)

@[simp] theorem Store.put_revision (st : Store κ β) (k : κ) (v : β) :
    (st.put k v).revision = st.revision + 1 := rfl

@[simp] theorem Store.put_kvs_self (st : Store κ β) (k : κ) (v : β) :
    (st.put k v).kvs k = some ⟨v, st.revision + 1⟩ := by simp [Store.put]

theorem Store.put_kvs_of_ne (st : Store κ β) {k k' : κ} (v : β) (h : k' ≠ k) :
    (st.put k v).kvs k' = st.kvs k' := by simp [Store.put, Function.update_of_ne h]

omit [DecidableEq κ] in
theorem Store.modRevision_of_some {st : Store κ β} {k : κ} {v : Versioned β}
    (h : st.kvs k = some v) : st.modRevision k = v.modRevision := by
  simp [Store.modRevision, h]

inductive Prog (κ β θ ρ : Type) where
  -- Programs over a store. `sense` reads the state of the process the program runs in; `stuck` is a
  -- program that never answers, because its local computation does not end or its process dies.
  | ret (r : ρ)
  | stuck
  | sense (next : θ → Prog κ β θ ρ)
  | get (k : κ) (next : Except String (Option (Versioned β)) → Prog κ β θ ρ)
  | put (k : κ) (v : β) (next : Except String Nat → Prog κ β θ ρ)
  | txn (k : κ) (rev : Nat) (v : β) (next : Except String Bool → Prog κ β θ ρ)

namespace Prog

def bind : Prog κ β θ ρ → (ρ → Prog κ β θ τ) → Prog κ β θ τ
  | .ret r, f => f r
  | .stuck, _ => .stuck
  | .sense next, f => .sense fun v => (next v).bind f
  | .get k next, f => .get k fun a => (next a).bind f
  | .put k v next, f => .put k v fun a => (next a).bind f
  | .txn k rev v next, f => .txn k rev v fun a => (next a).bind f

instance : Monad (Prog κ β θ) where
  pure := .ret
  bind := .bind

omit [DecidableEq κ] in
@[simp] theorem pure_eq (r : ρ) : (pure r : Prog κ β θ ρ) = .ret r := rfl

omit [DecidableEq κ] in
@[simp] theorem bind_eq (p : Prog κ β θ ρ) (f : ρ → Prog κ β θ τ) : p >>= f = p.bind f := rfl

end Prog

inductive Answer where
  -- how one operation ends: carried out and reported, reported as failed and not carried out, or
  -- reported as failed although it was carried out
  | done
  | lost (err : String)
  | late (err : String)
deriving DecidableEq

def Answer.isLate : Answer → Bool
  | .late _ => true
  | _ => false

def Prog.step (st : Store κ β) (a : Answer) (view : θ) :
    Prog κ β θ ρ → Option (Store κ β × Prog κ β θ ρ)
  | .ret _ => none
  | .stuck => none
  | .sense next => some (st, next view)
  | .get k next =>
    match a with
    | .done => some (st, next (.ok (st.kvs k)))
    | .lost e => some (st, next (.error e))
    | .late e => some (st, next (.error e))
  | .put k v next =>
    match a with
    | .done => some (st.put k v, next (.ok (st.put k v).revision))
    | .lost e => some (st, next (.error e))
    | .late e => some (st.put k v, next (.error e))
  | .txn k rev v next =>
    -- the comparison and the write are one operation of the store
    let hit := st.modRevision k = rev
    match a with
    | .done => if hit then some (st.put k v, next (.ok true)) else some (st, next (.ok false))
    | .lost e => some (st, next (.error e))
    | .late e => if hit then some (st.put k v, next (.error e)) else some (st, next (.error e))

def Prog.exec : List (Answer × θ) → Prog κ β θ ρ → Store κ β → Option (Store κ β × ρ)
  | _, .ret r, st => some (st, r)
  | [], _, _ => none
  | (a, view) :: env, p, st => (p.step st a view).bind fun q => exec env q.2 q.1

/-- Weakest precondition of a lone run; with `late` unset, of one in which an operation
that reports an error was not carried out. -/
def Prog.wp (late : Bool) (Q : Store κ β → ρ → Prop) : Prog κ β θ ρ → Store κ β → Prop
  | .ret r, st => Q st r
  | .stuck, _ => True
  | .sense next, st => ∀ v, (next v).wp late Q st
  | .get k next, st =>
    (next (.ok (st.kvs k))).wp late Q st ∧ ∀ e, (next (.error e)).wp late Q st
  | .put k v next, st =>
    (next (.ok (st.put k v).revision)).wp late Q (st.put k v) ∧
    ∀ e, (next (.error e)).wp late Q st ∧ (late = true → (next (.error e)).wp late Q (st.put k v))
  | .txn k rev v next, st =>
    (st.modRevision k = rev → (next (.ok true)).wp late Q (st.put k v) ∧
      ∀ e, late = true → (next (.error e)).wp late Q (st.put k v)) ∧
    (st.modRevision k ≠ rev → (next (.ok false)).wp late Q st) ∧
    ∀ e, (next (.error e)).wp late Q st

namespace Prog
variable {late : Bool} {Q : Store κ β → ρ → Prop}

theorem wp_bind (p : Prog κ β θ ρ) (f : ρ → Prog κ β θ τ) (Q : Store κ β → τ → Prop)
    (st : Store κ β) :
    (p.bind f).wp late Q st ↔ p.wp late (fun st r => (f r).wp late Q st) st := by
  induction p generalizing st with
  | ret r => rfl
  | stuck => rfl
  | sense next ih => simp only [bind, wp, ih]
  | get k next ih => simp only [bind, wp, ih]
  | put k v next ih => simp only [bind, wp, ih]
  | txn k rev v next ih => simp only [bind, wp, ih]

theorem wp_mono {Q' : Store κ β → ρ → Prop} {p : Prog κ β θ ρ} {st : Store κ β}
    (h : p.wp late Q st) (hq : ∀ st r, Q st r → Q' st r) : p.wp late Q' st := by
  induction p generalizing st with
  | ret r => exact hq st r h
  | stuck => trivial
  | sense next ih => exact fun v => ih v (h v)
  | get k next ih => exact ⟨ih _ h.1, fun e => ih _ (h.2 e)⟩
  | put k v next ih =>
    exact ⟨ih _ h.1, fun e => ⟨ih _ (h.2 e).1, fun hl => ih _ ((h.2 e).2 hl)⟩⟩
  | txn k rev v next ih =>
    exact ⟨fun hr => ⟨ih _ (h.1 hr).1, fun e hl => ih _ ((h.1 hr).2 e hl)⟩,
      fun hr => ih _ (h.2.1 hr), fun e => ih _ (h.2.2 e)⟩

theorem wp_step {p q : Prog κ β θ ρ} {st st' : Store κ β} {a : Answer} {view : θ}
    (h : p.wp late Q st) (ha : a.isLate = true → late = true)
    (hs : p.step st a view = some (st', q)) : q.wp late Q st' := by
  cases p with
  | ret r => simp [step] at hs
  | stuck => simp [step] at hs
  | sense next =>
    obtain ⟨rfl, rfl⟩ : st = st' ∧ next view = q := by simpa [step] using hs
    exact h view
  | get k next =>
    cases a with
    | done =>
      obtain ⟨rfl, rfl⟩ : st = st' ∧ next (.ok (st.kvs k)) = q := by simpa [step] using hs
      exact h.1
    | lost e | late e =>
      obtain ⟨rfl, rfl⟩ : st = st' ∧ next (.error e) = q := by simpa [step] using hs
      exact h.2 e
  | put k v next =>
    cases a with
    | done =>
      obtain ⟨rfl, rfl⟩ : st.put k v = st' ∧ next (.ok (st.put k v).revision) = q := by
        simpa [step] using hs
      exact h.1
    | lost e =>
      obtain ⟨rfl, rfl⟩ : st = st' ∧ next (.error e) = q := by simpa [step] using hs
      exact (h.2 e).1
    | late e =>
      obtain ⟨rfl, rfl⟩ : st.put k v = st' ∧ next (.error e) = q := by simpa [step] using hs
      exact (h.2 e).2 (ha rfl)
  | txn k rev v next =>
    by_cases hr : st.modRevision k = rev
    · cases a with
      | done =>
        obtain ⟨rfl, rfl⟩ : st.put k v = st' ∧ next (.ok true) = q := by
          simpa [step, hr] using hs
        exact (h.1 hr).1
      | lost e =>
        obtain ⟨rfl, rfl⟩ : st = st' ∧ next (.error e) = q := by simpa [step] using hs
        exact h.2.2 e
      | late e =>
        obtain ⟨rfl, rfl⟩ : st.put k v = st' ∧ next (.error e) = q := by
          simpa [step, hr] using hs
        exact (h.1 hr).2 e (ha rfl)
    · cases a with
      | done =>
        obtain ⟨rfl, rfl⟩ : st = st' ∧ next (.ok false) = q := by simpa [step, hr] using hs
        exact h.2.1 hr
      | lost e | late e =>
        obtain ⟨rfl, rfl⟩ : st = st' ∧ next (.error e) = q := by simpa [step, hr] using hs
        exact h.2.2 e

/-- Lone runs by their first operation. -/
theorem exec_cases {p : Prog κ β θ ρ} {st st' : Store κ β} {r : ρ} {env : List (Answer × θ)}
    (hx : exec env p st = some (st', r)) :
    (p = .ret r ∧ st' = st) ∨ ∃ e rest q st₁, env = e :: rest ∧
      p.step st e.1 e.2 = some (st₁, q) ∧ exec rest q st₁ = some (st', r) := by
  cases p with
  | ret r' =>
    obtain ⟨rfl, rfl⟩ : st = st' ∧ r' = r := by cases env <;> simpa [exec] using hx
    exact .inl ⟨rfl, rfl⟩
  | _ =>
    cases env with
    | nil => simp [exec] at hx
    | cons e rest =>
      obtain ⟨⟨st₁, q⟩, hq, hrest⟩ := Option.bind_eq_some_iff.mp hx
      exact .inr ⟨e, rest, q, st₁, rfl, hq, hrest⟩

/-- A lone run that returns satisfies every postcondition it was verified for. -/
theorem wp_sound {p : Prog κ β θ ρ} {st st' : Store κ β} {r : ρ} {env : List (Answer × θ)}
    (h : p.wp late Q st) (henv : ∀ e ∈ env, e.1.isLate = true → late = true)
    (hx : exec env p st = some (st', r)) : Q st' r := by
  induction env generalizing p st with
  | nil =>
    rcases exec_cases hx with ⟨rfl, rfl⟩ | ⟨e, rest, q, st₁, he, -⟩
    · exact h
    · cases he
  | cons e env ih =>
    rcases exec_cases hx with ⟨rfl, rfl⟩ | ⟨e', rest, q, st₁, he, hq, hrest⟩
    · exact h
    · obtain ⟨rfl, rfl⟩ := List.cons.inj he
      exact ih (wp_step h (henv e (by simp)) hq) (fun e' hm => henv e' (by simp [hm])) hrest

def undisturbed (view : θ) : Prog κ β θ ρ → Store κ β → Option (Store κ β × ρ)
  -- A lone run whose operations are all carried out, in a process whose state stays the same. It
  -- gives no answer only where the program is stuck.
  | .ret r, st => some (st, r)
  | .stuck, _ => none
  | .sense next, st => (next view).undisturbed view st
  | .get k next, st => (next (.ok (st.kvs k))).undisturbed view st
  | .put k v next, st => (next (.ok (st.put k v).revision)).undisturbed view (st.put k v)
  | .txn k rev v next, st =>
    if st.modRevision k = rev then (next (.ok true)).undisturbed view (st.put k v)
    else (next (.ok false)).undisturbed view st

theorem undisturbed_bind (view : θ) (p : Prog κ β θ ρ) (f : ρ → Prog κ β θ τ)
    (st : Store κ β) : (p.bind f).undisturbed view st =
      (p.undisturbed view st).bind fun q => (f q.2).undisturbed view q.1 := by
  induction p generalizing st with
  | ret r => rfl
  | stuck => rfl
  | sense next ih => simp only [bind, undisturbed, ih]
  | get k next ih => simp only [bind, undisturbed, ih]
  | put k v next ih => simp only [bind, undisturbed, ih]
  | txn k rev v next ih =>
    simp only [bind, undisturbed, ih]
    split <;> rfl

theorem exec_of_step {e : Answer × θ} {p q : Prog κ β θ ρ} {st st' : Store κ β}
    (hs : p.step st e.1 e.2 = some (st', q)) (env : List (Answer × θ)) :
    exec (e :: env) p st = exec env q st' := by
  cases p with
  | ret r => simp [step] at hs
  | _ => simp only [exec, hs, Option.bind_some]

theorem exec_replicate_of_step {view : θ} {p q : Prog κ β θ ρ} {st st' : Store κ β}
    {x : Option (Store κ β × ρ)} (hs : p.step st .done view = some (st', q))
    (h : ∃ n, ∀ m, n ≤ m → exec (List.replicate m (.done, view)) q st' = x) :
    ∃ n, ∀ m, n ≤ m → exec (List.replicate m (.done, view)) p st = x := by
  obtain ⟨n, hn⟩ := h
  refine ⟨n + 1, fun m hm => ?_⟩
  cases m with
  | zero => omega
  | succ m =>
    rw [List.replicate_succ, exec_of_step hs]
    exact hn m (Nat.le_of_succ_le_succ hm)

/-- With answers enough, the run that is answered throughout is the undisturbed one. -/
theorem exec_undisturbed (view : θ) (p : Prog κ β θ ρ) (st : Store κ β) :
    ∃ n, ∀ m, n ≤ m →
      exec (List.replicate m (.done, view)) p st = p.undisturbed view st := by
  induction p generalizing st with
  | ret r => exact ⟨0, fun m _ => by cases m <;> rfl⟩
  | stuck => exact ⟨0, fun m _ => by cases m <;> rfl⟩
  | sense next ih => exact exec_replicate_of_step rfl (ih view st)
  | get k next ih => exact exec_replicate_of_step rfl (ih (.ok (st.kvs k)) st)
  | put k v next ih =>
    exact exec_replicate_of_step rfl (ih (.ok (st.put k v).revision) (st.put k v))
  | txn k rev v next ih =>
    by_cases hr : st.modRevision k = rev
    · simp only [undisturbed, if_pos hr]
      exact exec_replicate_of_step (if_pos hr) (ih (.ok true) (st.put k v))
    · simp only [undisturbed, if_neg hr]
      exact exec_replicate_of_step (if_neg hr) (ih (.ok false) st)

theorem undisturbed_of_step {view : θ} {p q : Prog κ β θ ρ} {st st' : Store κ β}
    (hs : p.step st .done view = some (st', q)) :
    p.undisturbed view st = q.undisturbed view st' := by
  cases p with
  | ret r => simp [step] at hs
  | stuck => simp [step] at hs
  | sense next =>
    obtain ⟨rfl, rfl⟩ : st = st' ∧ next view = q := by simpa [step] using hs
    rfl
  | get k next =>
    obtain ⟨rfl, rfl⟩ : st = st' ∧ next (.ok (st.kvs k)) = q := by simpa [step] using hs
    rfl
  | put k v next =>
    obtain ⟨rfl, rfl⟩ : st.put k v = st' ∧ next (.ok (st.put k v).revision) = q := by
      simpa [step] using hs
    rfl
  | txn k rev v next =>
    by_cases hr : st.modRevision k = rev
    · obtain ⟨rfl, rfl⟩ : st.put k v = st' ∧ next (.ok true) = q := by simpa [step, hr] using hs
      exact if_pos hr
    · obtain ⟨rfl, rfl⟩ : st = st' ∧ next (.ok false) = q := by simpa [step, hr] using hs
      exact if_neg hr

/-- The converse of `exec_undisturbed`. -/
theorem undisturbed_of_exec {view : θ} {p : Prog κ β θ ρ} {st st' : Store κ β} {r : ρ}
    {env : List (Answer × θ)} (henv : ∀ e ∈ env, e = (.done, view))
    (hx : exec env p st = some (st', r)) : p.undisturbed view st = some (st', r) := by
  induction env generalizing p st with
  | nil =>
    rcases exec_cases hx with ⟨rfl, rfl⟩ | ⟨e, rest, q, st₁, he, -⟩
    · rfl
    · cases he
  | cons e env ih =>
    rcases exec_cases hx with ⟨rfl, rfl⟩ | ⟨e', rest, q, st₁, he, hq, hrest⟩
    · rfl
    · obtain ⟨rfl, rfl⟩ := List.cons.inj he
      obtain rfl := henv e (by simp)
      rw [undisturbed_of_step hq]
      exact ih (fun e' hm => henv e' (by simp [hm])) hrest

def WritesOnly (K : κ → Prop) : Prog κ β θ ρ → Prop
  -- every write the program can come to make is at a key of `K`
  | .ret _ => True
  | .stuck => True
  | .sense next => ∀ v, (next v).WritesOnly K
  | .get _ next => ∀ a, (next a).WritesOnly K
  | .put k _ next => K k ∧ ∀ a, (next a).WritesOnly K
  | .txn k _ _ next => K k ∧ ∀ a, (next a).WritesOnly K

variable {K : κ → Prop}

omit [DecidableEq κ] in
theorem WritesOnly.bind {p : Prog κ β θ ρ} {f : ρ → Prog κ β θ τ} (hp : p.WritesOnly K)
    (hf : ∀ r, (f r).WritesOnly K) : (p.bind f).WritesOnly K := by
  induction p with
  | ret r => exact hf r
  | stuck => trivial
  | sense next ih => exact fun v => ih v (hp v)
  | get k next ih => exact fun a => ih a (hp a)
  | put k v next ih => exact ⟨hp.1, fun a => ih a (hp.2 a)⟩
  | txn k rev v next ih => exact ⟨hp.1, fun a => ih a (hp.2 a)⟩

theorem WritesOnly.step {p q : Prog κ β θ ρ} {st st' : Store κ β} {a : Answer} {view : θ}
    (hp : p.WritesOnly K) (hs : p.step st a view = some (st', q)) :
    q.WritesOnly K ∧ ∀ k, ¬ K k → st'.kvs k = st.kvs k := by
  cases p with
  | ret r => simp [Prog.step] at hs
  | stuck => simp [Prog.step] at hs
  | sense next =>
    obtain ⟨rfl, rfl⟩ : st = st' ∧ next view = q := by simpa [Prog.step] using hs
    exact ⟨hp view, fun _ _ => rfl⟩
  | get k next =>
    cases a <;> obtain ⟨rfl, rfl⟩ := Prod.mk.inj (Option.some.inj hs) <;>
      exact ⟨hp _, fun _ _ => rfl⟩
  | put k v next =>
    have hne : ∀ k', ¬ K k' → (st.put k v).kvs k' = st.kvs k' := fun k' hk =>
      st.put_kvs_of_ne v fun he => hk (he ▸ hp.1)
    cases a <;> obtain ⟨rfl, rfl⟩ := Prod.mk.inj (Option.some.inj hs)
    · exact ⟨hp.2 _, hne⟩
    · exact ⟨hp.2 _, fun _ _ => rfl⟩
    · exact ⟨hp.2 _, hne⟩
  | txn k rev v next =>
    have hne : ∀ k', ¬ K k' → (st.put k v).kvs k' = st.kvs k' := fun k' hk =>
      st.put_kvs_of_ne v fun he => hk (he ▸ hp.1)
    by_cases hr : st.modRevision k = rev <;> cases a <;>
      simp only [Prog.step, hr, ↓reduceIte, Option.some.injEq, Prod.mk.injEq] at hs <;>
      obtain ⟨rfl, rfl⟩ := hs
    · exact ⟨hp.2 _, hne⟩
    · exact ⟨hp.2 _, fun _ _ => rfl⟩
    · exact ⟨hp.2 _, hne⟩
    all_goals exact ⟨hp.2 _, fun _ _ => rfl⟩

/-- A program that can come to no write leaves the store as it is. -/
theorem WritesOnly.step_eq {p q : Prog κ β θ ρ} {st st' : Store κ β} {a : Answer} {view : θ}
    (hp : p.WritesOnly fun _ => False) (hs : p.step st a view = some (st', q)) : st' = st := by
  cases p with
  | ret r => simp [Prog.step] at hs
  | stuck => simp [Prog.step] at hs
  | sense next =>
    obtain ⟨rfl, -⟩ : st = st' ∧ next view = q := by simpa [Prog.step] using hs
    rfl
  | get k next => cases a <;> exact (Prod.mk.inj (Option.some.inj hs)).1.symm
  | put k v next => exact hp.1.elim
  | txn k rev v next => exact hp.1.elim

/-- The frame rule: a lone run leaves every other key as it was, however its
operations are answered. -/
theorem WritesOnly.exec {p : Prog κ β θ ρ} {st st' : Store κ β} {r : ρ}
    {env : List (Answer × θ)} (hp : p.WritesOnly K) (hx : p.exec env st = some (st', r))
    {k : κ} (hk : ¬ K k) : st'.kvs k = st.kvs k := by
  induction env generalizing p st with
  | nil =>
    rcases exec_cases hx with ⟨-, rfl⟩ | ⟨e, rest, q, st₁, he, -⟩
    · rfl
    · cases he
  | cons e env ih =>
    rcases exec_cases hx with ⟨-, rfl⟩ | ⟨e', rest, q, st₁, he, hq, hrest⟩
    · rfl
    · obtain ⟨rfl, rfl⟩ := List.cons.inj he
      obtain ⟨hq', hkv⟩ := hp.step hq
      exact (ih hq' hrest).trans (hkv k hk)

end Prog
end Leibrix.KeyValue

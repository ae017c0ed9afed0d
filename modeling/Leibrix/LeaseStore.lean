import Mathlib.Data.Finset.Basic
import Mathlib.Data.Finset.Image

/-! A key-value store whose keys may hang on leases, with the changes a watcher is told.
A write moves its key to the lease it names; revoking a lease deletes the keys that hang on
it. Replaying the changes on the set of keys follows the store. -/
namespace Leibrix.LeaseStore

structure Entry (κ β : Type) where
  key : κ
  value : β
  createRevision : Nat
  modRevision : Nat
  lease : Option Nat
deriving DecidableEq

structure Store (κ β : Type) where
  -- a key is there once, and no entry is newer than the store
  revision : Nat
  kvs : List (Entry κ β)
  unique : (kvs.map Entry.key).Nodup
  issued : ∀ e ∈ kvs, e.createRevision ≤ revision

inductive Change (κ β : Type) where
  -- what a watcher is told: the entry that was written, with the one it replaced, or the entry that
  -- was deleted, with the revision of the deletion
  | put (kv : Entry κ β) (prev : Option (Entry κ β))
  | delete (prev : Entry κ β) (revision : Nat)

def Change.entry {κ β : Type} : Change κ β → Entry κ β
  | .put kv _ => kv
  | .delete prev _ => prev

inductive Op (κ β : Type) where
  | put (key : κ) (value : β) (lease : Option Nat)
  | delete (key : κ)
  | revoke (lease : Nat)

variable {κ β : Type}

def Store.empty : Store κ β := ⟨1, [], by simp, by simp⟩

-- a deletion that finds nothing makes no new revision
def Store.keep (st : Store κ β) (p : Entry κ β → Bool) : Store κ β where
  revision := if st.kvs.all p then st.revision else st.revision + 1
  kvs := st.kvs.filter p
  unique := st.unique.sublist (List.filter_sublist.map _)
  issued e he := by
    have hissued := st.issued e (List.mem_of_mem_filter he)
    split
    · exact hissued
    · exact Nat.le_succ_of_le hissued

def Op.Writes (P : κ → β → Prop) : Op κ β → Prop
  | .put key value _ => P key value
  | .delete _ => True
  | .revoke _ => True

variable [DecidableEq κ]

def Store.find (st : Store κ β) (key : κ) : Option (Entry κ β) := st.kvs.find? (·.key = key)

def Store.written (st : Store κ β) (key : κ) (value : β) (lease : Option Nat) : Entry κ β where
  -- the entry a write makes: it keeps the creation of the one it replaces
  key := key
  value := value
  createRevision := (st.find key).elim (st.revision + 1) Entry.createRevision
  modRevision := st.revision + 1
  lease := lease

theorem Store.written_issued (st : Store κ β) (key : κ) (value : β) (lease : Option Nat) :
    (st.written key value lease).createRevision ≤ st.revision + 1 := by
  unfold Store.written
  cases hf : st.find key with
  | none => exact Nat.le_refl _
  | some e => exact Nat.le_succ_of_le (st.issued e (List.mem_of_find?_eq_some hf))

def Store.put (st : Store κ β) (key : κ) (value : β) (lease : Option Nat) : Store κ β where
  revision := st.revision + 1
  kvs := st.written key value lease :: st.kvs.filter (·.key ≠ key)
  unique := by
    rw [List.map_cons, List.nodup_cons]
    refine ⟨?_, st.unique.sublist (List.filter_sublist.map _)⟩
    intro hm
    obtain ⟨e, he, hk⟩ := List.mem_map.mp hm
    exact of_decide_eq_true (List.mem_filter.mp he).2 hk
  issued e he := by
    cases List.mem_cons.mp he with
    | inl h => exact h ▸ st.written_issued key value lease
    | inr h => exact Nat.le_succ_of_le (st.issued e (List.mem_of_mem_filter h))

def step (st : Store κ β) : Op κ β → Store κ β × List (Change κ β)
  | .put key value lease =>
    (st.put key value lease, [.put (st.written key value lease) (st.find key)])
  | .delete key =>
    (st.keep (·.key ≠ key),
      (st.kvs.filter (·.key = key)).map fun e => .delete e (st.revision + 1))
  | .revoke lease =>
    (st.keep (·.lease ≠ some lease),
      (st.kvs.filter (·.lease = some lease)).map fun e => .delete e (st.revision + 1))

def run (st : Store κ β) : List (Op κ β) → Store κ β × List (Change κ β)
  | [] => (st, [])
  | op :: ops =>
    let next := step st op
    let rest := run next.1 ops
    (rest.1, next.2 ++ rest.2)

theorem run_append (st : Store κ β) (ops more : List (Op κ β)) :
    run st (ops ++ more) =
      ((run (run st ops).1 more).1, (run st ops).2 ++ (run (run st ops).1 more).2) := by
  induction ops generalizing st with
  | nil => simp [run]
  | cons op ops ih => simp [run, ih]

section Contents
variable {P : κ → β → Prop} {st : Store κ β}

theorem revision_le_step (op : Op κ β) : st.revision ≤ (step st op).1.revision := by
  have hkeep : ∀ p, st.revision ≤ (st.keep p).revision := by
    intro p
    simp only [Store.keep]
    split
    · exact Nat.le_refl _
    · exact Nat.le_succ _
  cases op with
  | put key value lease => exact Nat.le_succ _
  | delete key => exact hkeep _
  | revoke lease => exact hkeep _

theorem Store.mem_put {key : κ} {value : β} {lease : Option Nat} {e : Entry κ β} :
    e ∈ (st.put key value lease).kvs ↔
      e = st.written key value lease ∨ e ∈ st.kvs ∧ e.key ≠ key := by
  simp [Store.put]

omit [DecidableEq κ] in
theorem Store.mem_keep {p : Entry κ β → Bool} {e : Entry κ β} :
    e ∈ (st.keep p).kvs ↔ e ∈ st.kvs ∧ p e = true := List.mem_filter

/-- What every write satisfies, every entry and every change satisfies. -/
theorem step_forall (hst : ∀ e ∈ st.kvs, P e.key e.value) {op : Op κ β} (hop : op.Writes P) :
    (∀ e ∈ (step st op).1.kvs, P e.key e.value) ∧
      ∀ c ∈ (step st op).2, P c.entry.key c.entry.value := by
  have hkept : ∀ (p : Entry κ β → Bool), ∀ e ∈ st.kvs.filter p, P e.key e.value := fun p e he =>
    hst e (List.mem_of_mem_filter he)
  have hdeleted : ∀ (p : Entry κ β → Bool) (r : Nat), ∀ c ∈ (st.kvs.filter p).map
      (fun e => Change.delete e r), P c.entry.key c.entry.value := by
    intro p r c hc
    obtain ⟨e, he, rfl⟩ := List.mem_map.mp hc
    exact hkept p e he
  cases op with
  | put key value lease =>
    constructor
    · intro e he
      cases List.mem_cons.mp he with
      | inl h =>
        subst h
        exact hop
      | inr h => exact hkept _ e h
    · intro c hc
      obtain rfl := List.mem_singleton.mp hc
      exact hop
  | delete key => exact ⟨hkept _, hdeleted _ _⟩
  | revoke lease => exact ⟨hkept _, hdeleted _ _⟩

theorem run_forall (hst : ∀ e ∈ st.kvs, P e.key e.value) {ops : List (Op κ β)}
    (hops : ∀ op ∈ ops, op.Writes P) :
    (∀ e ∈ (run st ops).1.kvs, P e.key e.value) ∧
      ∀ c ∈ (run st ops).2, P c.entry.key c.entry.value := by
  induction ops generalizing st with
  | nil => exact ⟨hst, by simp [run]⟩
  | cons op ops ih =>
    obtain ⟨hkvs, hchanges⟩ := step_forall hst (hops op (by simp))
    obtain ⟨hkvs', hchanges'⟩ := ih hkvs fun o ho => hops o (by simp [ho])
    refine ⟨hkvs', fun c hc => ?_⟩
    cases List.mem_append.mp hc with
    | inl h => exact hchanges c h
    | inr h => exact hchanges' c h

/-- No two entries were created at one revision. -/
theorem step_created (h : (st.kvs.map Entry.createRevision).Nodup) (op : Op κ β) :
    ((step st op).1.kvs.map Entry.createRevision).Nodup := by
  cases op with
  | put key value lease =>
    refine List.nodup_cons.mpr ⟨fun hm => ?_, h.sublist (List.filter_sublist.map _)⟩
    obtain ⟨e, he, hr⟩ := List.mem_map.mp hm
    obtain ⟨he, hne⟩ := List.mem_filter.mp he
    have hissued := st.issued e he
    cases hf : st.find key with
    | none =>
      simp only [Store.written, hf, Option.elim_none] at hr
      exact absurd (hr ▸ hissued) (Nat.not_succ_le_self _)
    | some e₀ =>
      simp only [Store.written, hf, Option.elim_some] at hr
      obtain rfl := List.inj_on_of_nodup_map h he (List.mem_of_find?_eq_some hf) hr
      exact of_decide_eq_true hne (by simpa using List.find?_some hf)
  | delete key => exact h.sublist (List.filter_sublist.map _)
  | revoke lease => exact h.sublist (List.filter_sublist.map _)

end Contents

section Replay

def Store.keys (st : Store κ β) : Finset κ := (st.kvs.map Entry.key).toFinset

def Change.apply (keys : Finset κ) : Change κ β → Finset κ
  | .put kv _ => insert kv.key keys
  | .delete prev _ => keys.erase prev.key

theorem Store.mem_keys {st : Store κ β} {k : κ} : k ∈ st.keys ↔ ∃ e ∈ st.kvs, e.key = k := by
  simp [Store.keys]

theorem mem_foldl_delete (deleted : List (Entry κ β)) (r : Nat) (keys : Finset κ) (k : κ) :
    k ∈ (deleted.map fun e => Change.delete e r).foldl Change.apply keys ↔
      k ∈ keys ∧ ∀ e ∈ deleted, e.key ≠ k := by
  induction deleted generalizing keys with
  | nil => simp
  | cons e deleted ih =>
    rw [List.map_cons, List.foldl_cons, ih, Change.apply, Finset.mem_erase, List.forall_mem_cons]
    constructor
    · rintro ⟨⟨hne, hk⟩, hrest⟩
      exact ⟨hk, hne.symm, hrest⟩
    · rintro ⟨hk, hne, hrest⟩
      exact ⟨⟨hne.symm, hk⟩, hrest⟩

/-- As a key is there once, deleting entries deletes their keys. -/
theorem Store.mem_keys_keep {st : Store κ β} {p : Entry κ β → Bool} {k : κ} :
    k ∈ (st.keep p).keys ↔ k ∈ st.keys ∧ ∀ e ∈ st.kvs.filter (fun e => !p e), e.key ≠ k := by
  have huniq := List.inj_on_of_nodup_map st.unique
  simp only [Store.mem_keys, Store.keep, List.mem_filter]
  constructor
  · rintro ⟨e, ⟨he, hp⟩, hk⟩
    refine ⟨⟨e, he, hk⟩, fun e' ⟨he', hp'⟩ hk' => ?_⟩
    obtain rfl := huniq he he' (hk.trans hk'.symm)
    simp [hp] at hp'
  · rintro ⟨⟨e, he, hk⟩, hrest⟩
    refine ⟨e, ⟨he, ?_⟩, hk⟩
    by_contra hp
    exact hrest e ⟨he, by simpa using hp⟩ hk

theorem Store.mem_keys_put {st : Store κ β} {key k : κ} {value : β} {lease : Option Nat} :
    k ∈ (st.put key value lease).keys ↔ k = key ∨ k ∈ st.keys := by
  simp only [Store.mem_keys, Store.put, List.mem_cons, List.mem_filter, exists_eq_or_imp]
  constructor
  · intro h
    cases h with
    | inl h => exact .inl h.symm
    | inr h =>
      obtain ⟨e, he, hk⟩ := h
      exact .inr ⟨e, he.1, hk⟩
  · intro h
    by_cases hk : k = key
    · exact .inl hk.symm
    · obtain ⟨e, he, rfl⟩ := h.resolve_left hk
      exact .inr ⟨e, ⟨he, by simpa using hk⟩, rfl⟩

theorem keys_step (st : Store κ β) (op : Op κ β) :
    (step st op).2.foldl Change.apply st.keys = (step st op).1.keys := by
  ext k
  cases op with
  | put key value lease =>
    rw [step, List.foldl_cons, List.foldl_nil, Change.apply, Finset.mem_insert,
      Store.mem_keys_put]
    rfl
  | delete key =>
    simp only [step, mem_foldl_delete, Store.mem_keys_keep, ne_eq, decide_not, Bool.not_not]
  | revoke lease =>
    simp only [step, mem_foldl_delete, Store.mem_keys_keep, ne_eq, decide_not, Bool.not_not]

theorem keys_run (st : Store κ β) (ops : List (Op κ β)) :
    (run st ops).2.foldl Change.apply st.keys = (run st ops).1.keys := by
  induction ops generalizing st with
  | nil => rfl
  | cons op ops ih => rw [run, List.foldl_append, keys_step, ih]

variable (p : κ → Prop) [DecidablePred p]

theorem Change.apply_filter (c : Change κ β) (keys : Finset κ) (hp : p c.entry.key) :
    c.apply (keys.filter p) = (c.apply keys).filter p := by
  cases c with
  | put kv prev => exact ((Finset.filter_insert ..).trans (if_pos hp)).symm
  | delete prev r => exact (Finset.filter_erase ..).symm

theorem Change.filter_apply (c : Change κ β) (keys : Finset κ) (hp : ¬p c.entry.key) :
    (c.apply keys).filter p = keys.filter p := by
  cases c with
  | put kv prev => exact (Finset.filter_insert ..).trans (if_neg hp)
  | delete prev r =>
    ext k
    simp only [Change.apply, Finset.mem_filter, Finset.mem_erase]
    constructor
    · intro h
      exact ⟨h.1.2, h.2⟩
    · intro h
      exact ⟨⟨fun he => hp (he ▸ h.2), h.1⟩, h.2⟩

/-- A watcher of some keys only sees the changes of those. -/
theorem foldl_apply_filter (changes : List (Change κ β)) (keys : Finset κ) :
    (changes.filter fun c => p c.entry.key).foldl Change.apply (keys.filter p) =
      (changes.foldl Change.apply keys).filter p := by
  induction changes generalizing keys with
  | nil => rfl
  | cons c changes ih =>
    rw [List.foldl_cons, ← ih]
    by_cases hp : p c.entry.key
    · rw [List.filter_cons_of_pos (by simpa using hp), List.foldl_cons, c.apply_filter p keys hp]
    · rw [List.filter_cons_of_neg (by simpa using hp), c.filter_apply p keys hp]

/-- The keys that are watched, followed by their changes. -/
theorem keys_watch (st : Store κ β) (ops : List (Op κ β)) :
    ((run st ops).2.filter fun c => p c.entry.key).foldl Change.apply (st.keys.filter p) =
      (run st ops).1.keys.filter p := by
  rw [foldl_apply_filter, keys_run]

end Replay
end Leibrix.LeaseStore

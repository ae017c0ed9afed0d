import Leibrix.RenamedRevisions
import Leibrix.SharedLease

/-! The election model counts the campaigns; etcd counts every write. Its revisions are those
of the model under a strictly increasing map, which each new campaign extends. -/
namespace Leibrix.SharedLease
open Leibrix.Transition Leibrix.LeaseStore
open Leibrix.Membership (Bytes bytes membersKey EtcdStore Json)
open Leibrix.Election (Action ElectionKey Sys takesKey Renames)

section Keys
variable {st : EtcdStore}

theorem mem_electionKeys {k : ElectionKey Nat} : k ∈ electionKeys st ↔ ∃ e ∈ st.kvs,
    electionPrefix <+: e.key ∧ e.lease = some k.owner ∧ e.createRevision = k.createRevision := by
  simp only [electionKeys, List.mem_insertionSort, List.mem_filterMap, List.mem_filter,
    decide_eq_true_eq, Option.map_eq_some_iff]
  constructor
  · rintro ⟨e, ⟨he, hp⟩, lease, hl, rfl⟩
    exact ⟨e, he, hp, hl, rfl⟩
  · rintro ⟨e, he, hp, hl, hr⟩
    exact ⟨e, ⟨he, hp⟩, k.owner, hl, by rw [hr]⟩

theorem electionKeys_sorted (hc : (st.kvs.map Entry.createRevision).Nodup) :
    (electionKeys st).Pairwise fun k k' => k.createRevision < k'.createRevision := by
  have hle : (electionKeys st).Pairwise fun k k' => k.createRevision ≤ k'.createRevision := by
    have : Std.Total fun k k' : ElectionKey Nat => k.createRevision ≤ k'.createRevision :=
      ⟨fun k k' => Nat.le_total _ _⟩
    have : IsTrans (ElectionKey Nat) fun k k' => k.createRevision ≤ k'.createRevision :=
      ⟨fun k k' k'' h h' => Nat.le_trans h h'⟩
    exact List.pairwise_insertionSort _ _
  have hne : (electionKeys st).Pairwise fun k k' => k.createRevision ≠ k'.createRevision := by
    refine ((List.perm_insertionSort _ _).pairwise_iff fun h => h.symm).mpr ?_
    refine ((List.pairwise_map.mp hc).filter _).filterMap _ fun e e' he k hk k' hk' => ?_
    obtain ⟨lease, -, rfl⟩ := Option.map_eq_some_iff.mp hk
    obtain ⟨lease', -, rfl⟩ := Option.map_eq_some_iff.mp hk'
    exact he
  exact (hle.and hne).imp fun h => lt_of_le_of_ne h.1 h.2

theorem electionKeys_eq {ks : List (ElectionKey Nat)}
    (hc : (st.kvs.map Entry.createRevision).Nodup)
    (hs : ks.Pairwise fun k k' => k.createRevision < k'.createRevision)
    (hm : ∀ k, k ∈ electionKeys st ↔ k ∈ ks) : electionKeys st = ks := by
  have : Std.Antisymm fun k k' : ElectionKey Nat => k.createRevision < k'.createRevision :=
    ⟨fun k k' h h' => absurd h (lt_asymm h')⟩
  have : Std.Irrefl fun k k' : ElectionKey Nat => k.createRevision < k'.createRevision :=
    ⟨fun k => lt_irrefl _⟩
  exact (electionKeys_sorted hc).eq_of_mem_iff hs hm

theorem electionKeys_put {key value : Bytes} {lease : Option Nat}
    (hc : (st.kvs.map Entry.createRevision).Nodup) (hk : ¬electionPrefix <+: key) :
    electionKeys (st.put key value lease) = electionKeys st := by
  refine electionKeys_eq (step_created hc (.put key value lease)) (electionKeys_sorted hc) ?_
  intro k
  simp only [mem_electionKeys, Store.mem_put]
  constructor
  · rintro ⟨e, rfl | ⟨he, -⟩, hp, hkey⟩
    · exact absurd hp hk
    · exact ⟨e, he, hp, hkey⟩
  · rintro ⟨e, he, hp, hkey⟩
    refine ⟨e, .inr ⟨he, ?_⟩, hp, hkey⟩
    rintro rfl
    exact hk hp

/-- The keys that stay are told by their owners. -/
theorem electionKeys_keep (keeps : Entry Bytes Bytes → Bool) (stays : Nat → Bool)
    (hc : (st.kvs.map Entry.createRevision).Nodup)
    (hk : ∀ e ∈ st.kvs, electionPrefix <+: e.key → ∀ lease, e.lease = some lease →
      keeps e = stays lease) :
    electionKeys (st.keep keeps) = (electionKeys st).filter fun k => stays k.owner := by
  refine electionKeys_eq (hc.sublist (List.filter_sublist.map _))
    ((electionKeys_sorted hc).filter _) ?_
  intro k
  simp only [mem_electionKeys, Store.mem_keep, List.mem_filter]
  constructor
  · rintro ⟨e, ⟨he, hkeep⟩, hp, hl, hr⟩
    exact ⟨⟨e, he, hp, hl, hr⟩, (hk e he hp _ hl).symm.trans hkeep⟩
  · rintro ⟨⟨e, he, hp, hl, hr⟩, hstay⟩
    exact ⟨e, ⟨he, (hk e he hp _ hl).trans hstay⟩, hp, hl, hr⟩

theorem electionKeys_propose {value : Bytes} {p : Nat}
    (hc : (st.kvs.map Entry.createRevision).Nodup) (hf : st.find (campaignKey p) = none) :
    electionKeys (st.put (campaignKey p) value (some p)) =
      electionKeys st ++ [⟨p, st.revision + 1⟩] := by
  have hnew : (st.written (campaignKey p) value (some p)).createRevision = st.revision + 1 := by
    simp [Store.written, hf]
  have habsent : ∀ e ∈ st.kvs, e.key ≠ campaignKey p := by
    simpa [Store.find] using hf
  refine electionKeys_eq (step_created hc (.put (campaignKey p) value (some p))) ?_ ?_
  · refine List.pairwise_append.mpr ⟨electionKeys_sorted hc, List.pairwise_singleton _ _, ?_⟩
    intro k hk k' hk'
    obtain rfl := List.mem_singleton.mp hk'
    obtain ⟨e, he, -, -, hr⟩ := mem_electionKeys.mp hk
    exact Nat.lt_succ_of_le (hr ▸ st.issued e he)
  · intro k
    simp only [mem_electionKeys, Store.mem_put, List.mem_append, List.mem_singleton]
    constructor
    · rintro ⟨e, rfl | ⟨he, -⟩, hp, hl, hr⟩
      · refine .inr ?_
        obtain rfl : p = k.owner := Option.some.inj hl
        rw [← hnew, hr]
      · exact .inl ⟨e, he, hp, hl, hr⟩
    · rintro (⟨e, he, hp, hkey⟩ | rfl)
      · exact ⟨e, .inr ⟨he, habsent e he⟩, hp, hkey⟩
      · exact ⟨_, .inl rfl, campaignKey_underPrefix p, rfl, hnew⟩

end Keys

section Refinement
variable {json : Json} {nodes : Nodes} {w : World} {p : Nat} {a : Action} {t : Sys Nat}

theorem Leased.find_campaignKey (h : Leased json nodes w) :
    w.store.find (campaignKey p) = none ↔ w.view.keys.find? (fun k => k.owner = p) = none := by
  simp only [Store.find, List.find?_eq_none, decide_eq_true_eq]
  constructor
  · intro hf k hk ho
    obtain ⟨e, he, hp, hl, -⟩ := mem_electionKeys.mp hk
    obtain ⟨q, -, hkey, hq, -⟩ := h.campaign e he hp
    obtain rfl : p = q := ho.symm.trans (Option.some.inj (hl.symm.trans hq))
    exact hf e he hkey
  · intro hf e he hk
    have hp : electionPrefix <+: e.key := hk ▸ campaignKey_underPrefix p
    obtain ⟨q, -, hkey, hq, -⟩ := h.campaign e he hp
    obtain rfl := campaignKey_inj.mp (hk.symm.trans hkey)
    exact hf ⟨p, e.createRevision⟩ (mem_electionKeys.mpr ⟨e, he, hp, hq, rfl⟩) rfl

/-- What etcd has after a request is what the model has after the action. -/
theorem Leased.keys_request (h : Leased json nodes w)
    (hc : (w.store.kvs.map Entry.createRevision).Nodup)
    (hs : Election.step nodes.name w.view (p, a) = some t) :
    electionKeys ((request nodes.name w p a).elim w w.write).store = t.keys ∧
      t.revision ≤ ((request nodes.name w p a).elim w w.write).store.revision := by
  by_cases ha : a = .propose
  · subst ha
    cases Election.acts_of_step hs with
    | propose =>
      simp only [request, Sys.propose]
      cases hk : w.view.keys.find? fun k => k.owner = p with
      | some k =>
        have hf : w.store.find (campaignKey p) ≠ none := by
          rw [ne_eq, h.find_campaignKey, hk]
          simp
        rw [if_neg hf]
        exact ⟨rfl, Nat.le_refl _⟩
      | none =>
        have hf := h.find_campaignKey.mpr hk
        rw [if_pos hf]
        exact ⟨electionKeys_propose hc hf, Nat.le_refl _⟩
  · have hkeys := Election.keys_of_step ha hs
    have hrev : t.revision = w.store.revision := by
      cases Election.acts_of_step hs with
      | propose => exact absurd rfl ha
      | _ => rfl
    have howner : ∀ e ∈ w.store.kvs, electionPrefix <+: e.key → ∀ lease, e.lease = some lease →
        e.key = campaignKey lease := by
      intro e he hp lease hl
      obtain ⟨q, -, hkey, hq, -⟩ := h.campaign e he hp
      obtain rfl : lease = q := Option.some.inj (hl.symm.trans hq)
      exact hkey
    by_cases hx : a = .expire
    · subst hx
      refine ⟨?_, hrev ▸ revision_le_step (.revoke p)⟩
      rw [hkeys, if_pos (by simp [takesKey])]
      refine electionKeys_keep (·.lease ≠ some p) (· ≠ p) hc fun e he hp lease hl => ?_
      simp [hl]
    · have hreq : request nodes.name w p a =
          if takesKey w.view (p, a) = some p then some (.delete (campaignKey p)) else none := by
        cases a <;> first | rfl | exact absurd rfl ha | exact absurd rfl hx
      rw [hreq, hkeys]
      split
      · refine ⟨electionKeys_keep (·.key ≠ campaignKey p) (· ≠ p) hc fun e he hp lease hl => ?_,
          hrev ▸ revision_le_step (.delete (campaignKey p))⟩
        simp [howner e he hp lease hl, campaignKey_inj]
      · exact ⟨rfl, hrev.le⟩

def recordActions (_ : World) (l : Label) (as : List (Nat × Action)) : List (Nat × Action) :=
  -- the actions of the election, without the writes of others
  match l with
  | .election p a => as ++ [(p, a)]
  | _ => as

structure Refines (json : Json) (nodes : Nodes) (w : World) (s : Sys Nat) : Prop where
  -- a state of etcd and the processes, and the state of the election model it stands for
  leased : Leased json nodes w
  created : (w.store.kvs.map Entry.createRevision).Nodup
  renames : ∃ f, Renames f s w.view

theorem refines_start : Refines json nodes World.start (Sys.start Nat) := by
  refine ⟨leased_start, List.nodup_nil, id, strictMono_id, rfl, Nat.le_refl _, ?_, rfl⟩
  refine ⟨by simp [Sys.start], fun p => ?_⟩
  exact ⟨Nat.zero_le _, by simp [Sys.start], by simp [Sys.start], by simp [Sys.start]⟩

theorem Refines.write {u : World} {s : Sys Nat} (h : Refines json nodes w s)
    {op : LeaseStore.Op Bytes Bytes} (hl : Leased json nodes u) (hp : u.procs = w.procs)
    (hu : u.store = (LeaseStore.step w.store op).1)
    (hk : electionKeys (LeaseStore.step w.store op).1 = electionKeys w.store) :
    Refines json nodes u s := by
  obtain ⟨f, hf⟩ := h.renames
  refine ⟨hl, hu ▸ step_created h.created op, f, ?_⟩
  rw [World.view, hp, hu, hk]
  exact hf.later (revision_le_step op)

theorem Refines.step {l : Label} {u : World} {s : Sys Nat} {as : List (Nat × Action)}
    (hj : json.Lawful) (h : Refines json nodes w s) (hs : step json nodes w l = some u)
    (hr : replay (Election.step nodes.name) as (Sys.start Nat) = some s) :
    ∃ t, replay (Election.step nodes.name) (recordActions w l as) (Sys.start Nat) = some t ∧
      Refines json nodes u t := by
  have hleased := h.leased.step hj hs
  cases l with
  | registerMember p =>
    obtain ⟨b, hb, -⟩ := hj (nodes.node p).myNode (nodes.node p).text
    simp only [SharedLease.step] at hs
    split at hs
    · simp only [Membership.Op.toStore, hb, Option.map_some, Option.some.injEq] at hs
      subst hs
      refine ⟨s, hr, h.write hleased rfl rfl (electionKeys_put h.created ?_)⟩
      intro hp
      exact not_member_of_election hp (List.prefix_append _ _)
    · cases hs
  | election p a =>
    obtain ⟨f, hf⟩ := h.renames
    simp only [SharedLease.step] at hs
    split at hs
    · cases hs
    · obtain ⟨v, hv, rfl⟩ := Option.map_eq_some_iff.mp hs
      obtain ⟨g, t, ht, hg⟩ := hf.step hv
      obtain ⟨hkeys, hrev⟩ := h.leased.keys_request h.created hv
      refine ⟨t, ?_, hleased, ?_, g, ?_⟩
      · rw [recordActions, replay_append, hr]
        exact ht
      · cases request nodes.name w p a with
        | none => exact h.created
        | some op => exact step_created h.created op
      · rw [World.view]
        simp only [hkeys]
        exact hg.later hrev
  | put key value ho =>
    cases hs
    exact ⟨s, hr, h.write hleased rfl rfl (electionKeys_put h.created ho.2)⟩
  | delete key ho =>
    cases hs
    refine ⟨s, hr, h.write hleased rfl rfl ?_⟩
    refine (electionKeys_keep _ (fun _ => true) h.created fun e he hp lease hl => ?_).trans
      (List.filter_eq_self.mpr fun _ _ => rfl)
    simp only [decide_eq_true_eq]
    rintro rfl
    exact ho.2 hp

/-- Whatever else is written to etcd, the actions of the processes are a run of the election
model, which leads to the same state: the keys under the election prefix are its keys, with
their owners' leases and names, and etcd's revisions are its own under a strictly increasing
map. -/
theorem etcd_refines_election {as : List (Nat × Action)} (hj : json.Lawful)
    (hr : Reach (Fires (recorded (step json nodes) recordActions)) anyStep (World.start, [])
      (w, as)) :
    ∃ f s, replay (Election.step nodes.name) as (Sys.start Nat) = some s ∧ StrictMono f ∧
      w.view = s.rename f w.store.revision ∧
      ∀ e ∈ w.store.kvs, electionPrefix <+: e.key → ∃ k ∈ s.keys, e.key = campaignKey k.owner ∧
        e.lease = some k.owner ∧ e.value = bytes (nodes.name k.owner) ∧
        e.createRevision = f k.createRevision := by
  obtain ⟨s, hs, h⟩ := hr.invariant (I := fun x => ∃ s,
    replay (Election.step nodes.name) x.2 (Sys.start Nat) = some s ∧ Refines json nodes x.1 s)
    ⟨_, rfl, refines_start⟩ (by
      rintro x l y ⟨s, hs, h⟩ - hstep
      obtain ⟨u, hu, rfl⟩ := Option.map_eq_some_iff.mp hstep
      exact h.step hj hu hs)
  obtain ⟨f, hf⟩ := h.renames
  refine ⟨f, s, hs, hf.mono, hf.eq, fun e he hp => ?_⟩
  obtain ⟨p, -, hkey, hl, hv⟩ := h.leased.campaign e he hp
  have hm : (⟨p, e.createRevision⟩ : ElectionKey Nat) ∈ s.keys.map (ElectionKey.rename f) := by
    have hview : w.view.keys = s.keys.map (ElectionKey.rename f) := congrArg Sys.keys hf.eq
    exact hview ▸ mem_electionKeys.mpr ⟨e, he, hp, hl, rfl⟩
  obtain ⟨k, hk, heq⟩ := List.mem_map.mp hm
  obtain ⟨rfl, hrev⟩ : k.owner = p ∧ f k.createRevision = e.createRevision := by
    simpa [ElectionKey.rename] using heq
  exact ⟨k, hk, hkey, hl, hv, hrev.symm⟩

end Refinement

def quotaBetween : List Label :=
  [.registerMember 1, .put (bytes "/leibrix/tenants/acme/quota") [] (by decide +kernel),
    .election 1 .start, .election 1 .propose]

theorem etcd_refines_election_quota : ∃ w : World,
    Reach (Fires (recorded (step Membership.nodeJson restarts) recordActions)) anyStep
      (World.start, []) (w, [(1, .start), (1, .propose)]) ∧
    w.view.keys = [⟨1, 4⟩] ∧
    ∃ f s, replay (Election.step restarts.name) [(1, .start), (1, .propose)] (Sys.start Nat) =
      some s ∧ StrictMono f ∧ w.view = s.rename f w.store.revision := by
  have hrun : ((replay (recorded (step Membership.nodeJson restarts) recordActions) quotaBetween
      (World.start, [])).map fun x => (x.1.view.keys, x.2)) =
        some ([⟨1, 4⟩], [(1, .start), (1, .propose)]) := by decide +kernel
  obtain ⟨⟨w, as⟩, hx, he⟩ := Option.map_eq_some_iff.mp hrun
  simp only [Prod.mk.injEq] at he
  obtain ⟨hkeys, rfl⟩ := he
  have hr := reach_of_replay hx
  obtain ⟨f, s, hs, hf, hview, -⟩ := etcd_refines_election Membership.nodeJson_lawful hr
  exact ⟨w, hr, hkeys, f, s, hs, hf, hview⟩

end Leibrix.SharedLease

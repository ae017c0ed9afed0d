import Leibrix.Election
import Leibrix.Membership
import Leibrix.Utf8
import Mathlib.Data.List.Sort

/-! `election.go`: the keys of the election and of the members in one etcd. `Start` opens a
session, registers the member under its name with the lease of the session and then starts to
campaign, with a key that hangs on the same lease. A process is known by its lease here; the
processes are those of `Election`, which find their keys in the store. -/
namespace Leibrix.SharedLease
open Leibrix.Transition Leibrix.LeaseStore
open Leibrix.Membership (Bytes bytes membersKey EtcdStore Json Registered memberNames)
open Leibrix.Election (Action ElectionKey Sys takesKey)

-- The prefix `concurrency.NewElection` makes of `electionKey`.
def electionPrefix : Bytes := bytes "/leibri.io/cluster/leader-election" ++ bytes "/"

def campaignKey (lease : Nat) : Bytes :=
  -- the key of `Campaign`: the prefix and the lease in hexadecimal
  electionPrefix ++ bytes (String.ofList (Nat.toDigits 16 lease))

structure Nodes where
  node : Nat → Membership.Process
  name : Nat → String
  named : ∀ p, bytes (name p) = (node p).nodeName

structure World where
  store : EtcdStore
  procs : Nat → Election.Process
  -- the processes whose `registerMember` etcd has carried out, in order
  registrations : List Nat

def World.start : World := ⟨Store.empty, fun _ => {}, []⟩

def electionKeys (st : EtcdStore) : List (ElectionKey Nat) :=
  -- the keys under the election prefix in the order of their creation, as `Campaign` and `Observe`
  -- ask for them
  ((st.kvs.filter fun e => electionPrefix <+: e.key).filterMap fun e =>
    e.lease.map fun lease => (⟨lease, e.createRevision⟩ : ElectionKey Nat)).insertionSort
      fun k k' => k.createRevision ≤ k'.createRevision

def World.view (w : World) : Sys Nat := ⟨electionKeys w.store, w.store.revision, w.procs⟩

inductive Label where
  | registerMember (p : Nat)
  | election (p : Nat) (a : Action)
  -- keys of others, which hang on no lease
  | put (key value : Bytes) (outside : ¬membersKey <+: key ∧ ¬electionPrefix <+: key)
  | delete (key : Bytes) (outside : ¬membersKey <+: key ∧ ¬electionPrefix <+: key)

def request (name : Nat → String) (w : World) (p : Nat) (a : Action) :
    Option (LeaseStore.Op Bytes Bytes) :=
  match a with
  | .propose =>
    if w.store.find (campaignKey p) = none then
      some (.put (campaignKey p) (bytes (name p)) (some p))
    else none
  | .expire => some (.revoke p)
  | a => if takesKey w.view (p, a) = some p then some (.delete (campaignKey p)) else none

def World.write (w : World) (op : LeaseStore.Op Bytes Bytes) : World :=
  { w with store := (LeaseStore.step w.store op).1 }

def step (json : Json) (nodes : Nodes) (w : World) : Label → Option World
  | .registerMember p =>
    -- etcd takes no key on a lease that is gone: `Start` fails
    if (w.procs p).phase = .unstarted ∧ (w.procs p).leaseGone = false ∧ p ∉ w.registrations then
      ((Membership.Op.registerMember (nodes.node p) p).toStore json).map fun op =>
        { w.write op with registrations := w.registrations ++ [p] }
    else none
  | .election p a =>
    if a = .start ∧ p ∉ w.registrations then none
    else (Election.step nodes.name w.view (p, a)).map fun t =>
      { (request nodes.name w p a).elim w w.write with procs := t.procs }
  | .put key value _ => some (w.write (.put key value none))
  | .delete key _ => some (w.write (.delete key))

def World.lastRegistered (nodes : Nodes) (w : World) (n : Bytes) : Option Nat :=
  (w.registrations.filter fun p => (nodes.node p).nodeName = n).getLast?

section Keys

theorem campaignKey_inj {p q : Nat} : campaignKey p = campaignKey q ↔ p = q := by
  constructor
  · intro h
    have hs := Utf8.toUTF8_toList_inj.mp (List.append_cancel_left h)
    exact Numerals.toDigits_inj (by decide) (by decide) (String.ofList_inj.mp hs)
  · rintro rfl
    rfl

theorem campaignKey_underPrefix (p : Nat) : electionPrefix <+: campaignKey p :=
  List.prefix_append _ _

/-- No key is of both kinds. -/
theorem not_member_of_election {key : Bytes} (h : electionPrefix <+: key) :
    ¬membersKey <+: key := by
  intro hm
  have hle : membersKey.length ≤ electionPrefix.length := by decide +kernel
  exact absurd (List.prefix_of_prefix_length_le hm h hle) (by decide +kernel)

end Keys

section Registrations
variable {nodes : Nodes} {w : World} {p : Nat} {n : Bytes}

variable (nodes w p n) in
theorem lastRegistered_append (st : EtcdStore) :
    World.lastRegistered nodes ⟨st, w.procs, w.registrations ++ [p]⟩ n =
      if (nodes.node p).nodeName = n then some p else w.lastRegistered nodes n := by
  simp only [World.lastRegistered, List.filter_append, List.getLast?_append]
  by_cases hn : (nodes.node p).nodeName = n <;> simp [hn]

end Registrations

structure Leased (json : Json) (nodes : Nodes) (w : World) : Prop where
  -- the keys of the store and the processes they belong to
  campaign : ∀ e ∈ w.store.kvs, electionPrefix <+: e.key → ∃ p ∈ w.registrations,
    e.key = campaignKey p ∧ e.lease = some p ∧ e.value = bytes (nodes.name p)
  member : ∀ e ∈ w.store.kvs, membersKey <+: e.key → ∃ p, e.lease = some p ∧
    e.key = membersKey ++ (nodes.node p).nodeName ∧
    w.lastRegistered nodes (nodes.node p).nodeName = some p
  -- a key does not outlive its lease
  live : ∀ e ∈ w.store.kvs, ∀ p, e.lease = some p → (w.procs p).leaseGone = false
  listed : ∀ n p, w.lastRegistered nodes n = some p → (w.procs p).leaseGone = false →
    ∃ e ∈ w.store.kvs, e.key = membersKey ++ n
  started : ∀ p, (w.procs p).phase ≠ .unstarted → p ∈ w.registrations
  registered : ∀ e ∈ w.store.kvs, Registered json e.key e.value

section Steps
variable {json : Json} {nodes : Nodes} {w : World} {p : Nat}

theorem leased_start : Leased json nodes World.start := by
  constructor <;> simp [World.start, Store.empty, World.lastRegistered]

theorem Leased.setProcs {procs : Nat → Election.Process} (h : Leased json nodes w)
    (hl : ∀ q, (procs q).leaseGone = (w.procs q).leaseGone)
    (hs : ∀ q, (procs q).phase ≠ .unstarted → q ∈ w.registrations) :
    Leased json nodes { w with procs := procs } := by
  refine ⟨h.campaign, h.member, ?_, ?_, hs, h.registered⟩
  · intro e he q hq
    exact (hl q).trans (h.live e he q hq)
  · intro n q hq hlive
    exact h.listed n q hq ((hl q).symm.trans hlive)

theorem Leased.put {key value : Bytes} {lease : Option Nat} (h : Leased json nodes w)
    (hm : ¬membersKey <+: key)
    (hc : electionPrefix <+: key → ∃ p ∈ w.registrations,
      key = campaignKey p ∧ lease = some p ∧ value = bytes (nodes.name p))
    (hl : ∀ p, lease = some p → (w.procs p).leaseGone = false) :
    Leased json nodes (w.write (.put key value lease)) := by
  refine ⟨?_, ?_, ?_, ?_, h.started, ?_⟩
  · intro e he hp
    obtain rfl | ⟨he, -⟩ := Store.mem_put.mp he
    · exact hc hp
    · exact h.campaign e he hp
  · intro e he hp
    obtain rfl | ⟨he, -⟩ := Store.mem_put.mp he
    · exact absurd hp hm
    · exact h.member e he hp
  · intro e he q hq
    obtain rfl | ⟨he, -⟩ := Store.mem_put.mp he
    · exact hl q hq
    · exact h.live e he q hq
  · intro n q hq hlive
    obtain ⟨e, he, hk⟩ := h.listed n q hq hlive
    refine ⟨e, Store.mem_put.mpr (.inr ⟨he, fun heq => hm ⟨n, ?_⟩⟩), hk⟩
    exact hk.symm.trans heq
  · intro e he hp
    obtain rfl | ⟨he, -⟩ := Store.mem_put.mp he
    · exact absurd hp hm
    · exact h.registered e he hp

theorem Leased.keep {keeps : Entry Bytes Bytes → Bool} (h : Leased json nodes w)
    (hk : ∀ e ∈ w.store.kvs, membersKey <+: e.key → keeps e = true) :
    Leased json nodes { w with store := w.store.keep keeps } := by
  have hmem : ∀ e ∈ (w.store.keep keeps).kvs, e ∈ w.store.kvs := fun e he =>
    (Store.mem_keep.mp he).1
  refine ⟨fun e he => h.campaign e (hmem e he), fun e he => h.member e (hmem e he),
    fun e he => h.live e (hmem e he), ?_, h.started, fun e he => h.registered e (hmem e he)⟩
  intro n q hq hlive
  obtain ⟨e, he, hkey⟩ := h.listed n q hq hlive
  exact ⟨e, Store.mem_keep.mpr ⟨he, hk e he ⟨n, hkey.symm⟩⟩, hkey⟩

theorem Leased.revoke {procs : Nat → Election.Process} (h : Leased json nodes w)
    (hgone : (procs p).leaseGone = true)
    (hl : ∀ q, q ≠ p → (procs q).leaseGone = (w.procs q).leaseGone)
    (hs : ∀ q, (procs q).phase ≠ .unstarted → q ∈ w.registrations) :
    Leased json nodes { w.write (.revoke p) with procs := procs } := by
  have hmem : ∀ e ∈ (w.write (.revoke p)).store.kvs, e ∈ w.store.kvs ∧ e.lease ≠ some p := by
    intro e he
    simpa using Store.mem_keep.mp he
  refine ⟨fun e he => h.campaign e (hmem e he).1, fun e he => h.member e (hmem e he).1, ?_, ?_, hs,
    fun e he => h.registered e (hmem e he).1⟩
  · intro e he q hq
    have hne : q ≠ p := by
      rintro rfl
      exact (hmem e he).2 hq
    exact (hl q hne).trans (h.live e (hmem e he).1 q hq)
  · intro n q hq hlive
    have hne : q ≠ p := by
      rintro rfl
      simp [hgone] at hlive
    obtain ⟨e, he, hkey⟩ := h.listed n q hq ((hl q hne).symm.trans hlive)
    refine ⟨e, Store.mem_keep.mpr ⟨he, ?_⟩, hkey⟩
    -- the key of the name hangs on the lease of the last that registered under it
    obtain ⟨r, hr, hrkey, hlast⟩ := h.member e he ⟨n, hkey.symm⟩
    obtain rfl : (nodes.node r).nodeName = n := List.append_cancel_left (hrkey.symm.trans hkey)
    obtain rfl : q = r := Option.some.inj (hq.symm.trans hlast)
    simpa [hr] using hne

/-- The member key moves to the lease of the process that registers. -/
theorem Leased.register {memberJSON : Bytes} (h : Leased json nodes w)
    (hl : (w.procs p).leaseGone = false)
    (hr : Registered json (membersKey ++ (nodes.node p).nodeName) memberJSON) :
    Leased json nodes
      { w.write (.put (membersKey ++ (nodes.node p).nodeName) memberJSON (some p)) with
        registrations := w.registrations ++ [p] } := by
  have hlast := fun n => lastRegistered_append nodes w p n
    (w.write (.put (membersKey ++ (nodes.node p).nodeName) memberJSON (some p))).store
  refine ⟨?_, ?_, ?_, ?_, ?_, ?_⟩
  · intro e he hp
    obtain rfl | ⟨he, -⟩ := Store.mem_put.mp he
    · exact absurd (List.prefix_append _ _) (not_member_of_election hp)
    · obtain ⟨q, hq, hkey⟩ := h.campaign e he hp
      exact ⟨q, List.mem_append_left _ hq, hkey⟩
  · intro e he hp
    obtain rfl | ⟨he, hne⟩ := Store.mem_put.mp he
    · exact ⟨p, rfl, rfl, (hlast _).trans (if_pos rfl)⟩
    · obtain ⟨q, hq, hkey, hlastq⟩ := h.member e he hp
      refine ⟨q, hq, hkey, ((hlast _).trans (if_neg fun hn => hne ?_)).trans hlastq⟩
      rw [hkey, hn]
  · intro e he q hq
    obtain rfl | ⟨he, -⟩ := Store.mem_put.mp he
    · obtain rfl : p = q := Option.some.inj hq
      exact hl
    · exact h.live e he q hq
  · intro n q hq hlive
    have hq := (hlast n).symm.trans hq
    by_cases hn : (nodes.node p).nodeName = n
    · subst hn
      exact ⟨_, Store.mem_put.mpr (.inl rfl), rfl⟩
    · obtain ⟨e, he, hk⟩ := h.listed n q (by simpa [hn] using hq) hlive
      refine ⟨e, Store.mem_put.mpr (.inr ⟨he, fun heq => hn ?_⟩), hk⟩
      exact List.append_cancel_left (heq.symm.trans hk)
  · intro q hq
    exact List.mem_append_left _ (h.started q hq)
  · intro e he
    obtain rfl | ⟨he, -⟩ := Store.mem_put.mp he
    · exact hr
    · exact h.registered e he

/-- No process but one that starts leaves its first phase. -/
theorem started_of_step {name : Nat → String} {s t : Sys Nat} {a : Action} {q : Nat}
    (h : Election.step name s (p, a) = some t) (hq : (t.procs q).phase ≠ .unstarted) :
    (s.procs q).phase ≠ .unstarted ∨ q = p ∧ a = .start := by
  by_cases hqp : q = p
  · subst hqp
    cases Election.acts_of_step h with
    | start => exact .inr ⟨rfl, rfl⟩
    | propose hp => exact .inl (by simp [hp])
    | fail _ hp =>
      obtain hp | ⟨hp, -⟩ := hp <;> exact .inl (by simp [hp])
    | cancel | endSession | expire | emit | observe | broadcastLeader =>
      exact .inl (by simpa [Sys.set, Sys.dropKey, Election.Process.observe,
        Election.Process.broadcast] using hq)
    | _ => exact .inl (by simp [*])
  · obtain ⟨⟨proc, ht, -⟩, -⟩ := Election.moves_of_step h
    rw [ht, Function.update_of_ne hqp] at hq
    exact .inl hq

theorem leaseGone_of_step {name : Nat → String} {s t : Sys Nat} {a : Action} {q : Nat}
    (h : Election.step name s (p, a) = some t) (hq : ¬(q = p ∧ a = .expire)) :
    (t.procs q).leaseGone = (s.procs q).leaseGone := by
  obtain ⟨⟨proc, ht, hm⟩, -⟩ := Election.moves_of_step h
  by_cases hqp : q = p
  · subst hqp
    rw [ht, Function.update_self]
    cases hm with
    | expire => exact absurd ⟨rfl, rfl⟩ hq
    | _ => rfl
  · rw [ht, Function.update_of_ne hqp]

/-- What an action writes before its lease is lost. -/
theorem Leased.writes {a : Action} {t : Sys Nat} (h : Leased json nodes w)
    (hs : Election.step nodes.name w.view (p, a) = some t) (ha : a ≠ .expire) :
    Leased json nodes ((request nodes.name w p a).elim w w.write) := by
  cases hr : request nodes.name w p a with
  | none => exact h
  | some op =>
    by_cases hp : a = .propose
    · subst hp
      cases Election.acts_of_step hs with
      | propose hphase _ hlive =>
        have hphase : (w.procs p).phase = .looping := hphase
        have hreg : p ∈ w.registrations := h.started p (by simp [hphase])
        simp only [request] at hr
        split at hr
        · cases hr
          refine h.put (not_member_of_election (campaignKey_underPrefix p))
            (fun _ => ⟨p, hreg, rfl, rfl, rfl⟩) fun q hq => ?_
          cases hq
          exact hlive
        · cases hr
    · obtain rfl : .delete (campaignKey p) = op := by
        cases a <;> simp_all [request]
      refine h.keep fun e he hm => ?_
      simp only [decide_eq_true_eq]
      intro hk
      exact not_member_of_election (hk ▸ campaignKey_underPrefix p) hm

theorem Leased.step {l : Label} {u : World} (hj : json.Lawful) (h : Leased json nodes w)
    (hs : step json nodes w l = some u) : Leased json nodes u := by
  cases l with
  | registerMember p =>
    obtain ⟨b, hb, hd⟩ := hj (nodes.node p).myNode (nodes.node p).text
    simp only [SharedLease.step] at hs
    split at hs
    · rename_i hguard
      simp only [Membership.Op.toStore, hb, Option.map_some, Option.some.injEq] at hs
      subst hs
      refine h.register hguard.2.1 fun _ => ⟨_, hd, ?_, ?_⟩
      · exact (nodes.node p).named ▸ (nodes.node p).nonempty
      · exact congrArg (membersKey ++ ·) (nodes.node p).named.symm
    · cases hs
  | election p a =>
    simp only [SharedLease.step] at hs
    split at hs
    · cases hs
    · rename_i hstart
      obtain ⟨t, ht, rfl⟩ := Option.map_eq_some_iff.mp hs
      have hstarted : ∀ q, (t.procs q).phase ≠ .unstarted → q ∈ w.registrations := by
        intro q hq
        obtain hq | ⟨rfl, rfl⟩ := started_of_step ht hq
        · exact h.started q hq
        · by_contra hn
          exact hstart ⟨rfl, hn⟩
      by_cases ha : a = .expire
      · subst ha
        refine h.revoke ?_ (fun q hq => leaseGone_of_step ht fun hn => hq hn.1) hstarted
        cases Election.acts_of_step ht with
        | expire => simp [Sys.set, Sys.dropKey]
      · have hreq := h.writes ht ha
        refine hreq.setProcs (fun q => ?_) fun q hq => ?_
        · rw [leaseGone_of_step ht fun hn => ha hn.2]
          cases request nodes.name w p a <;> rfl
        · have hmem := hstarted q hq
          cases request nodes.name w p a <;> exact hmem
  | put key value ho =>
    cases hs
    exact h.put ho.1 (fun he => absurd he ho.2) fun p hp => by cases hp
  | delete key ho =>
    cases hs
    refine h.keep fun e he hm => ?_
    simp only [decide_eq_true_eq]
    rintro rfl
    exact ho.1 hm

/-- In one etcd, whichever processes register, campaign, resign and lose their leases:
`Members` lists a name exactly while the last process that registered under it has its
lease, and a process with an election key has its lease and has registered, so that it is
listed unless another one has registered under its name since. -/
theorem members_share_lease (hj : json.Lawful)
    (hr : Reach (Fires (step json nodes)) anyStep World.start w) :
    (∀ n, n ∈ memberNames json w.store ↔
      ∃ p, w.lastRegistered nodes n = some p ∧ (w.procs p).leaseGone = false) ∧
    ∀ k ∈ w.view.keys, (w.procs k.owner).leaseGone = false ∧ k.owner ∈ w.registrations ∧
      (w.lastRegistered nodes (nodes.node k.owner).nodeName = some k.owner →
        (nodes.node k.owner).nodeName ∈ memberNames json w.store) := by
  have h : Leased json nodes w :=
    hr.invariant (I := Leased json nodes) leased_start fun _ _ _ h _ hs => h.step hj hs
  have hlisted : ∀ n, n ∈ memberNames json w.store ↔
      ∃ p, w.lastRegistered nodes n = some p ∧ (w.procs p).leaseGone = false := by
    intro n
    rw [Membership.mem_memberNames h.registered, Finset.mem_filter, Store.mem_keys]
    constructor
    · rintro ⟨⟨e, he, hk⟩, hp⟩
      obtain ⟨p, hlease, hkey, hlast⟩ := h.member e he (hk ▸ hp)
      obtain rfl := List.append_cancel_left (hkey.symm.trans hk)
      exact ⟨p, hlast, h.live e he p hlease⟩
    · rintro ⟨p, hlast, hlive⟩
      exact ⟨h.listed n p hlast hlive, List.prefix_append _ _⟩
  refine ⟨hlisted, fun k hk => ?_⟩
  obtain ⟨e, he, hkey⟩ : ∃ e ∈ w.store.kvs, electionPrefix <+: e.key ∧ e.lease = some k.owner := by
    simp only [World.view, electionKeys, List.mem_insertionSort, List.mem_filterMap,
      List.mem_filter, decide_eq_true_eq, Option.map_eq_some_iff] at hk
    obtain ⟨e, ⟨he, hp⟩, lease, hl, rfl⟩ := hk
    exact ⟨e, he, hp, hl⟩
  obtain ⟨p, hreg, -, hl, -⟩ := h.campaign e he hkey.1
  obtain rfl : k.owner = p := Option.some.inj (hkey.2.symm.trans hl)
  have hlive := h.live e he k.owner hl
  exact ⟨hlive, hreg, fun hlast => (hlisted _).mpr ⟨_, hlast, hlive⟩⟩

end Steps

def restarts : Nodes := ⟨fun _ => Membership.processOne, fun _ => "node-1", fun _ => rfl⟩

def restarted : List Label :=
  [.registerMember 1, .election 1 .start, .election 1 .propose, .registerMember 2]

/-- The first process loses its lease; the name is listed by the second. -/
theorem members_share_lease_restarted : ∃ w : World,
    Reach (Fires (step Membership.nodeJson restarts)) anyStep World.start w ∧
    (w.procs 1).leaseGone = true ∧ w.view.keys = [] ∧
    bytes "node-1" ∈ memberNames Membership.nodeJson w.store := by
  have hrun : ((replay (step Membership.nodeJson restarts) (restarted ++ [.election 1 .expire])
      World.start).map fun w => (w.registrations, (w.procs 1).leaseGone, (w.procs 2).leaseGone,
        w.view.keys)) = some ([1, 2], true, false, []) := by decide +kernel
  obtain ⟨w, hw, he⟩ := Option.map_eq_some_iff.mp hrun
  simp only [Prod.mk.injEq] at he
  obtain ⟨hregs, hgone, hlive, hkeys⟩ := he
  have hr := reach_of_replay hw
  refine ⟨w, hr, hgone, hkeys, ?_⟩
  refine ((members_share_lease Membership.nodeJson_lawful hr).1 _).mpr ⟨2, ?_, hlive⟩
  simp only [World.lastRegistered, hregs]
  decide +kernel

-- If it is the second process that loses its lease, the leader is not listed any more.
example : ∃ w : World, Reach (Fires (step Membership.nodeJson restarts)) anyStep World.start w ∧
    w.view.holder = some 1 ∧ memberNames Membership.nodeJson w.store = ∅ := by
  have hrun : ((replay (step Membership.nodeJson restarts) (restarted ++ [.election 2 .expire])
      World.start).map fun w => (w.view.holder, memberNames Membership.nodeJson w.store)) =
        some (some 1, ∅) := by decide +kernel
  obtain ⟨w, hw, he⟩ := Option.map_eq_some_iff.mp hrun
  simp only [Prod.mk.injEq] at he
  exact ⟨w, reach_of_replay hw, he⟩

end Leibrix.SharedLease

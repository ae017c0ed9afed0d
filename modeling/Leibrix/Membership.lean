import Leibrix.Outcome
import Leibrix.LeaseStore
import Leibrix.Listeners
import Mathlib.Logic.Encodable.Basic
import Mathlib.Logic.Equiv.List

/-! `election.go`: the members of the cluster as etcd keeps them. A process registers under
its name with the lease of its session; `Members` lists the values under the common prefix,
and `buildMembershipEvent` decodes what the watch on that prefix reports. Go strings are
bytes here; JSON belongs to the standard library and is a parameter. -/
namespace Leibrix.Membership
open Leibrix.LeaseStore

abbrev Bytes := List UInt8

def bytes (s : String) : Bytes := s.toUTF8.toList

def ValidUTF8 (b : Bytes) : Prop := ∃ s : String, bytes s = b

def membersKey : Bytes := bytes "/leibri.io/cluster/members/"

structure MemberNode where
  name : Bytes := []
  advertiseAddr : Bytes := []
  listenAddr : Bytes := []
  metadata : Option (List (Bytes × Bytes)) := none
  -- not part of the JSON
  role : Bytes := []
deriving DecidableEq

def MemberNode.encoded (node : MemberNode) : MemberNode := { node with role := [] }

structure MemberNode.ValidText (node : MemberNode) : Prop where
  name : ValidUTF8 node.name
  advertiseAddr : ValidUTF8 node.advertiseAddr
  listenAddr : ValidUTF8 node.listenAddr
  metadata : ∀ entries ∈ node.metadata, ∀ kv ∈ entries, ValidUTF8 kv.1 ∧ ValidUTF8 kv.2

structure Json where
  marshal : MemberNode → Except String Bytes
  unmarshal : Bytes → Except String MemberNode

def Json.Lawful (json : Json) : Prop :=
  -- decoding undoes encoding where the strings are valid UTF-8, except for the role
  ∀ node : MemberNode, node.ValidText →
    ∃ b, json.marshal node = .ok b ∧ json.unmarshal b = .ok node.encoded

structure Process where
  -- a process that registers: `config.Node.NodeName`, which is not empty, and `myNode`, which
  -- `NewLeaderElection` names after it
  nodeName : Bytes
  myNode : MemberNode
  named : myNode.name = nodeName
  nonempty : nodeName ≠ []
  text : myNode.ValidText

inductive Op where
  -- what can happen to the store: registrations, the end of a lease, and writes and deletions of
  -- keys that are not under the prefix
  | registerMember (p : Process) (lease : Nat)
  | revokeLease (lease : Nat)
  | putOther (key value : Bytes) (lease : Option Nat) (outside : ¬membersKey <+: key)
  | deleteOther (key : Bytes) (outside : ¬membersKey <+: key)

def Op.toStore (json : Json) : Op → Option (LeaseStore.Op Bytes Bytes)
  -- the write of `registerMember`; an encoding that fails writes nothing
  | .registerMember p lease =>
    match json.marshal p.myNode with
    | .error _ => none
    | .ok memberJSON => some (.put (membersKey ++ p.nodeName) memberJSON (some lease))
  | .revokeLease lease => some (.revoke lease)
  | .putOther key value lease _ => some (.put key value lease)
  | .deleteOther key _ => some (.delete key)

abbrev EtcdStore := LeaseStore.Store Bytes Bytes

def after (json : Json) (st : EtcdStore) (ops : List Op) : EtcdStore :=
  (run st (ops.filterMap (Op.toStore json))).1

def members (json : Json) (st : EtcdStore) : List MemberNode :=
  (st.kvs.filter fun e => membersKey <+: e.key).filterMap fun e =>
    (json.unmarshal e.value).toOption

inductive EventType where
  | put | delete
  | unrecognized (code : Int32)
deriving DecidableEq

structure Event where
  type : EventType
  kv : Option (Entry Bytes Bytes)
  prevKv : Option (Entry Bytes Bytes)

def watchEvent (withPrev : Bool) : Change Bytes Bytes → Event
  | .put kv prev => ⟨.put, some kv, if withPrev then prev else none⟩
  | .delete prev revision =>
    ⟨.delete, some ⟨prev.key, [], 0, revision, none⟩, if withPrev then some prev else none⟩

def watch (json : Json) (st : EtcdStore) (ops : List Op) (withPrev : Nat → Bool) : List Event :=
  -- what the watch on the prefix reports of the operations; `withPrev` says of each event whether
  -- the previous entry comes with it
  (((run st (ops.filterMap (Op.toStore json))).2.filter
    fun c => membersKey <+: c.entry.key).zipIdx).map fun c => watchEvent (withPrev c.2) c.1

structure MembershipEvent where
  type : Listeners.MembershipEventType
  member : MemberNode
deriving DecidableEq

def memberNameFromKey (key : Bytes) : Bytes :=
  if key.length ≤ membersKey.length then key else key.drop membersKey.length

def decodeMember (json : Json) (type : Listeners.MembershipEventType) (key value : Bytes) :
    Outcome MembershipEvent :=
  match if value = [] then .ok {} else json.unmarshal value with
  | .error err => .err err
  | .ok member =>
    .ok ⟨type, if member.name = [] then { member with name := memberNameFromKey key } else member⟩

def buildMembershipEvent (json : Json) (event : Event) : Outcome MembershipEvent :=
  match event.type with
  | .put =>
    match event.kv with
    | none => .panic "nil pointer dereference"
    | some kv =>
      decodeMember json (if kv.createRevision = kv.modRevision then .memberJoined
        else .memberUpdated) kv.key kv.value
  | .delete =>
    match event.prevKv with
    | some prevKv => decodeMember json .memberLeft prevKv.key prevKv.value
    | none => decodeMember json .memberLeft (event.kv.elim [] Entry.key) []
  | .unrecognized code => .err ("unsupported event type: " ++ toString code.toInt)

def observeMembers (json : Json) (events : List Event) : List MembershipEvent :=
  events.filterMap fun event =>
    match buildMembershipEvent json event with
    | .ok ev => some ev
    | _ => none

def follow (names : Finset Bytes) (ev : MembershipEvent) : Finset Bytes :=
  match ev.type with
  | .memberJoined | .memberUpdated => insert ev.member.name names
  | .memberLeft => names.erase ev.member.name
  | .memberExpired => names

def memberNames (json : Json) (st : EtcdStore) : Finset Bytes :=
  ((members json st).map MemberNode.name).toFinset

section Entries
variable {json : Json} {st : EtcdStore} {key value name : Bytes}

def Registered (json : Json) (key value : Bytes) : Prop :=
  -- a key under the prefix is that of a named node, and its value decodes to the node
  membersKey <+: key → ∃ node, json.unmarshal value = .ok node ∧ node.name ≠ [] ∧
    key = membersKey ++ node.name

theorem memberNameFromKey_append (h : name ≠ []) :
    memberNameFromKey (membersKey ++ name) = name := by
  rw [memberNameFromKey, if_neg (by simpa [List.length_pos_iff] using h), List.drop_left]

theorem toStore_writes (hj : json.Lawful) (op : Op) {sop : LeaseStore.Op Bytes Bytes}
    (h : op.toStore json = some sop) : sop.Writes (Registered json) := by
  cases op with
  | registerMember p lease =>
    obtain ⟨b, hb, hd⟩ := hj p.myNode p.text
    simp only [Op.toStore, hb, Option.some.injEq] at h
    subst h
    intro _
    exact ⟨p.myNode.encoded, hd, p.named ▸ p.nonempty, congrArg (membersKey ++ ·) p.named.symm⟩
  | revokeLease lease =>
    obtain rfl := Option.some.inj h
    trivial
  | putOther key value lease outside =>
    obtain rfl := Option.some.inj h
    intro hk
    exact absurd hk outside
  | deleteOther key outside =>
    obtain rfl := Option.some.inj h
    trivial

/-- Along any operations only registered nodes stand under the prefix, in the store and in
what the watch reports. -/
theorem run_registered (hj : json.Lawful) (hst : ∀ e ∈ st.kvs, Registered json e.key e.value)
    (ops : List Op) :
    (∀ e ∈ (after json st ops).kvs, Registered json e.key e.value) ∧
      ∀ c ∈ (run st (ops.filterMap (Op.toStore json))).2,
        Registered json c.entry.key c.entry.value := by
  refine run_forall hst fun sop hs => ?_
  obtain ⟨op, -, ho⟩ := List.mem_filterMap.mp hs
  exact toStore_writes hj op ho

/-- The listing has the names of the keys. -/
theorem mem_memberNames (hst : ∀ e ∈ st.kvs, Registered json e.key e.value) (name : Bytes) :
    name ∈ memberNames json st ↔
      membersKey ++ name ∈ st.keys.filter (membersKey <+: ·) := by
  simp only [memberNames, members, List.mem_toFinset, List.mem_map, List.mem_filterMap,
    List.mem_filter, decide_eq_true_eq, Finset.mem_filter, Store.mem_keys, List.prefix_append,
    and_true]
  constructor
  · rintro ⟨node, ⟨e, ⟨he, hp⟩, hd⟩, hn⟩
    obtain ⟨node', hd', -, hk⟩ := hst e he hp
    rw [hd'] at hd
    obtain rfl : node' = node := by simpa [Except.toOption] using hd
    exact ⟨e, he, by rw [hk, hn]⟩
  · rintro ⟨e, he, hk⟩
    have hp : membersKey <+: e.key := ⟨name, hk.symm⟩
    obtain ⟨node, hd, -, hk'⟩ := hst e he hp
    refine ⟨node, ⟨e, ⟨he, hp⟩, by simp [hd, Except.toOption]⟩, ?_⟩
    exact List.append_cancel_left (hk'.symm.trans hk)

end Entries

section Events
variable {json : Json} {key value : Bytes}

/-- With the value there the event has the decoded name, without it that of the key. -/
theorem decodeMember_registered (hr : Registered json key value) (hp : membersKey <+: key)
    (type : Listeners.MembershipEventType) (value' : Bytes) (hv : value' = value ∨ value' = []) :
    ∃ ev, decodeMember json type key value' = .ok ev ∧ ev.type = type ∧
      membersKey ++ ev.member.name = key := by
  obtain ⟨node, hd, hn, rfl⟩ := hr hp
  by_cases he : value' = []
  · refine ⟨⟨type, { name := node.name }⟩, ?_, rfl, rfl⟩
    simp only [decodeMember, he, if_true, memberNameFromKey_append hn]
  · obtain rfl := hv.resolve_right he
    exact ⟨⟨type, node⟩, by simp only [decodeMember, he, if_false, hd, hn], rfl, rfl⟩

def Tracks (names keys : Finset Bytes) : Prop := ∀ name, name ∈ names ↔ membersKey ++ name ∈ keys

theorem Tracks.insert {names keys : Finset Bytes} (h : Tracks names keys) (name : Bytes) :
    Tracks (insert name names) (insert (membersKey ++ name) keys) := by
  intro other
  rw [Finset.mem_insert, Finset.mem_insert, h, List.append_cancel_left_eq]

theorem Tracks.erase {names keys : Finset Bytes} (h : Tracks names keys) (name : Bytes) :
    Tracks (names.erase name) (keys.erase (membersKey ++ name)) := by
  intro other
  rw [Finset.mem_erase, Finset.mem_erase, h, ne_eq, ne_eq, List.append_cancel_left_eq]

/-- One change: its event decodes, and a listener that follows it keeps track. -/
theorem buildMembershipEvent_tracks {c : Change Bytes Bytes}
    (hr : Registered json c.entry.key c.entry.value) (hp : membersKey <+: c.entry.key)
    (withPrev : Bool) :
    ∃ ev, buildMembershipEvent json (watchEvent withPrev c) = .ok ev ∧
      ∀ names keys, Tracks names keys → Tracks (follow names ev) (c.apply keys) := by
  cases c with
  | put kv prev =>
    obtain ⟨ev, hd, ht, hk⟩ : ∃ ev,
        buildMembershipEvent json (watchEvent withPrev (.put kv prev)) = .ok ev ∧
          ev.type = (if kv.createRevision = kv.modRevision then .memberJoined
            else .memberUpdated) ∧ membersKey ++ ev.member.name = kv.key :=
      decodeMember_registered hr hp _ kv.value (.inl rfl)
    refine ⟨ev, hd, fun names keys h => ?_⟩
    have hf : follow names ev = insert ev.member.name names := by
      unfold follow
      rw [ht]
      split_ifs <;> rfl
    rw [hf, Change.apply, ← hk]
    exact h.insert ev.member.name
  | delete prev r =>
    obtain ⟨ev, hd, ht, hk⟩ : ∃ ev,
        buildMembershipEvent json (watchEvent withPrev (.delete prev r)) = .ok ev ∧
          ev.type = .memberLeft ∧ membersKey ++ ev.member.name = prev.key := by
      cases withPrev with
      | true => exact decodeMember_registered hr hp _ prev.value (.inl rfl)
      | false => exact decodeMember_registered hr hp _ [] (.inr rfl)
    refine ⟨ev, hd, fun names keys h => ?_⟩
    have hf : follow names ev = names.erase ev.member.name := by
      unfold follow
      rw [ht]
    rw [hf, Change.apply, ← hk]
    exact h.erase ev.member.name

theorem observeMembers_tracks (withPrev : Nat → Bool) (changes : List (Change Bytes Bytes))
    (hc : ∀ c ∈ changes, Registered json c.entry.key c.entry.value ∧ membersKey <+: c.entry.key)
    (i : Nat) {names keys : Finset Bytes} (h : Tracks names keys) :
    (∀ event ∈ (changes.zipIdx i).map fun c => watchEvent (withPrev c.2) c.1,
      ∃ ev, buildMembershipEvent json event = .ok ev) ∧
    Tracks ((observeMembers json ((changes.zipIdx i).map fun c =>
      watchEvent (withPrev c.2) c.1)).foldl follow names) (changes.foldl Change.apply keys) := by
  -- induction on the changes; the events are numbered on from `i`
  induction changes generalizing i names keys with
  | nil => exact ⟨by simp, h⟩
  | cons c changes ih =>
    obtain ⟨hr, hp⟩ := hc c (by simp)
    obtain ⟨ev, hb, hstep⟩ := buildMembershipEvent_tracks hr hp (withPrev i)
    obtain ⟨hall, htracks⟩ := ih (fun c' hc' => hc c' (by simp [hc'])) (i + 1) (hstep _ _ h)
    rw [List.zipIdx_cons, List.map_cons]
    refine ⟨?_, ?_⟩
    · intro event he
      cases List.mem_cons.mp he with
      | inl he => exact ⟨ev, he ▸ hb⟩
      | inr he => exact hall event he
    · have hcons : ∀ events, observeMembers json (watchEvent (withPrev i) c :: events) =
          ev :: observeMembers json events := by
        intro events
        simp only [observeMembers, List.filterMap_cons, hb]
      rw [hcons, List.foldl_cons, List.foldl_cons]
      exact htracks

end Events

/-- What is watched of any operations decodes, and following it leads from the names before
to the names after. -/
theorem watch_follows {json : Json} {st : EtcdStore} (hj : json.Lawful)
    (hst : ∀ e ∈ st.kvs, Registered json e.key e.value) (during : List Op)
    (withPrev : Nat → Bool) :
    (∀ event ∈ watch json st during withPrev, ∃ ev, buildMembershipEvent json event = .ok ev) ∧
      (observeMembers json (watch json st during withPrev)).foldl follow (memberNames json st) =
        memberNames json (after json st during) := by
  obtain ⟨hst', hchanges⟩ := run_registered hj hst during
  obtain ⟨hall, htracks⟩ := observeMembers_tracks withPrev
    ((run st (during.filterMap (Op.toStore json))).2.filter fun c => membersKey <+: c.entry.key)
    (fun c hc => ⟨hchanges c (List.mem_of_mem_filter hc), by simpa using (List.mem_filter.mp hc).2⟩)
    0 (mem_memberNames hst)
  refine ⟨hall, Finset.ext fun name => ?_⟩
  rw [mem_memberNames hst']
  refine (htracks name).trans ?_
  rw [keys_watch (membersKey <+: ·)]
  rfl

theorem registered_after {json : Json} (hj : json.Lawful) (ops : List Op) :
    ∀ e ∈ (after json Store.empty ops).kvs, Registered json e.key e.value :=
  (run_registered hj (by simp [Store.empty]) ops).1

/-- From any state of the cluster on, whoever registers and whichever leases end, with or
without previous entries: every event decodes, and a listener that adds the nodes that join
or are updated and drops those that leave holds the names that `Members` lists. -/
theorem members_followed {json : Json} (hj : json.Lawful) (before during : List Op)
    (withPrev : Nat → Bool) :
    let st := after json Store.empty before
    (∀ event ∈ watch json st during withPrev, ∃ ev, buildMembershipEvent json event = .ok ev) ∧
      (observeMembers json (watch json st during withPrev)).foldl follow (memberNames json st) =
        memberNames json (after json st during) :=
  watch_follows hj (registered_after hj before) during withPrev

def nodeOne : MemberNode where
  name := bytes "node-1"
  advertiseAddr := bytes "127.0.0.1:7070"
  listenAddr := bytes "127.0.0.1:7071"
  role := bytes "candidate"

def nodeOneText : String :=
  "\x7b\"Name\":\"node-1\",\"AdvertiseAddr\":\"127.0.0.1:7070\"," ++
    "\"ListenAddr\":\"127.0.0.1:7071\",\"Meta\":null\x7d"

abbrev Fields := List Nat × List Nat × List Nat × Option (List (List Nat × List Nat))

def toFields (node : MemberNode) : Fields :=
  (node.name.map UInt8.toNat, node.advertiseAddr.map UInt8.toNat,
    node.listenAddr.map UInt8.toNat, node.metadata.map fun entries =>
      entries.map fun kv => (kv.1.map UInt8.toNat, kv.2.map UInt8.toNat))

def ofFields (f : Fields) : MemberNode where
  name := f.1.map UInt8.ofNat
  advertiseAddr := f.2.1.map UInt8.ofNat
  listenAddr := f.2.2.1.map UInt8.ofNat
  metadata := f.2.2.2.map fun entries =>
    entries.map fun kv => (kv.1.map UInt8.ofNat, kv.2.map UInt8.ofNat)

theorem ofFields_toFields (node : MemberNode) :
    ofFields (toFields node) = node.encoded := by
  simp [ofFields, toFields, MemberNode.encoded, Function.comp_def]

def nodeJson : Json where
  marshal node :=
    if node.encoded = nodeOne.encoded then .ok (bytes nodeOneText)
    else .ok (List.replicate (Encodable.encode (toFields node) + 1) 0)
  unmarshal b :=
    if b = bytes nodeOneText then .ok nodeOne.encoded
    else match (Encodable.decode (b.length - 1) : Option Fields) with
      | some f => .ok (ofFields f)
      | none => .error "unexpected end of JSON input"

theorem nodeJson_lawful : nodeJson.Lawful := by
  intro node _
  by_cases h : node.encoded = nodeOne.encoded
  · exact ⟨bytes nodeOneText, if_pos h, (if_pos rfl).trans (congrArg Except.ok h.symm)⟩
  · refine ⟨_, if_neg h, ?_⟩
    have hne : List.replicate (Encodable.encode (toFields node) + 1) 0 ≠ bytes nodeOneText := by
      intro he
      have hhead := congrArg List.head? he
      rw [List.replicate_succ, List.head?_cons] at hhead
      exact absurd hhead (by decide +kernel)
    simp only [nodeJson, hne, if_false, List.length_replicate, Nat.add_sub_cancel,
      Encodable.encodek, ofFields_toFields]

theorem nodeOne_text : nodeOne.ValidText where
  name := ⟨_, rfl⟩
  advertiseAddr := ⟨_, rfl⟩
  listenAddr := ⟨_, rfl⟩
  metadata := by simp [nodeOne]

def processOne : Process where
  nodeName := bytes "node-1"
  myNode := nodeOne
  named := rfl
  nonempty := by decide +kernel
  text := nodeOne_text

/-- A process restarts under its name before its first session ends, and then the second
session ends, reported without the previous entry. -/
theorem members_followed_restart :
    let st := after nodeJson Store.empty [.registerMember processOne 1]
    let ops := [Op.registerMember processOne 2, .revokeLease 1, .revokeLease 2]
    memberNames nodeJson st = {bytes "node-1"} ∧
      (∀ event ∈ watch nodeJson st ops fun _ => false,
        ∃ ev, buildMembershipEvent nodeJson event = .ok ev) ∧
      (observeMembers nodeJson (watch nodeJson st ops fun _ => false)).foldl follow
        (memberNames nodeJson st) = memberNames nodeJson (after nodeJson st ops) := by
  intro st ops
  refine ⟨by decide +kernel, ?_⟩
  exact members_followed nodeJson_lawful [.registerMember processOne 1] ops fun _ => false

end Leibrix.Membership

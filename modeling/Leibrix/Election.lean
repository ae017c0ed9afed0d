import Leibrix.Transition
import Mathlib.Logic.Function.Basic

/-! `internal/cluster/election.go`: processes that campaign for one etcd election, each
with the lease of its own session. A node that is started again is another process,
possibly of the same name; the election key of the earlier one stays until its lease is
gone. A step is one etcd request, one section under the lock or one broadcast. -/
namespace Leibrix.Election
open Leibrix.Transition

inductive MemberRole where
  | leader | follower | learner | candidate
deriving DecidableEq

inductive EventType where
  | leaderElected | leaderResigned | leaderExpired
deriving DecidableEq

structure LeaderEvent where
  type : EventType
  memberName : String
  epoch : Nat
deriving DecidableEq

structure Observed where
  -- what `Observe` sends: the value of the leader's key and its create revision
  leaderName : String
  createRevision : Nat
deriving DecidableEq

inductive Phase where
  | unstarted
  -- at the top of the loop
  | looping
  -- in `Campaign`, which has its key and waits for the older ones to go
  | waiting
  | sleeping
  -- `Campaign` has returned nil
  | elected
  -- at the `select` on the session and the context
  | leading
  -- `loseLeadership(EvtLeaderExpired)` has left its lock and not broadcast yet
  | expiring
  -- the context is done in a leader: `resign` is next
  | resigning
  | relinquishing
  -- `loseLeadership(EvtLeaderResigned)` has left its lock and not broadcast yet
  | withdrawing
  | stopped
deriving DecidableEq

structure Process where
  phase : Phase := .unstarted
  cancelled : Bool := false
  -- `session.Done()` is closed; etcd may have dropped the lease before or not yet
  sessionDone : Bool := false
  leaseGone : Bool := false
  -- the create revision `Campaign` waits with
  leaderRev : Nat := 0
  role : MemberRole := .candidate
  currentLeader : String := ""
  -- sent by `Observe` and not handled yet
  observed : List Observed := []
  -- what `observeLeader` has handled and not broadcast yet
  announcing : Option LeaderEvent := none
  events : List LeaderEvent := []
deriving DecidableEq

structure ElectionKey (ν : Type) where
  owner : ν
  createRevision : Nat
deriving DecidableEq

structure Sys (ν : Type) where
  -- the keys stand in the order of their creation
  keys : List (ElectionKey ν)
  revision : Nat
  procs : ν → Process

def Sys.start (ν : Type) : Sys ν := ⟨[], 1, fun _ => {}⟩

inductive Action where
  | start
  -- the transaction that `Campaign` begins with
  | propose
  -- `Campaign` returns nil: no older key is left
  | elect
  -- `Campaign` returns an error; if its context is done it tries to resign first
  | fail (resigns : Bool)
  | retry
  | becomeLeader
  -- the `select` of a leader ends with the context
  | wake
  -- the context is seen to be done at the top of the loop
  | stop
  | resign (succeeds : Bool)
  | loseLeadership
  | broadcastLoss
  | cancel
  | endSession
  -- etcd drops the lease, with the key on it
  | expire
  -- `Observe` sends the leader of the moment
  | emit
  | observe
  | broadcastLeader
deriving DecidableEq

def Process.isLeader (proc : Process) : Bool := proc.role = .leader

def Process.observe (name : String) (v : Observed) (proc : Process) : Process :=
  -- `observeLeader` on one response, under the lock: the name alone decides the role
  { proc with
    role := if v.leaderName = name then .leader else .follower
    currentLeader := v.leaderName
    announcing := some ⟨.leaderElected, v.leaderName, v.createRevision⟩ }

def Process.becomeLeader (name : String) (proc : Process) : Process :=
  { proc with role := .leader, currentLeader := name }

def Process.loseLeadership (proc : Process) : Process :=
  { proc with role := .candidate, currentLeader := "" }

def Process.broadcast (ev : LeaderEvent) (proc : Process) : Process :=
  { proc with events := proc.events ++ [ev] }

def Process.goto (phase : Phase) (proc : Process) : Process := { proc with phase := phase }

section System
variable {ν : Type} [DecidableEq ν]

-- The owner of the oldest key: the leader in etcd's eyes.
def Sys.holder (s : Sys ν) : Option ν := s.keys.head?.map ElectionKey.owner

def Sys.set (s : Sys ν) (p : ν) (proc : Process) : Sys ν :=
  { s with procs := Function.update s.procs p proc }

def Sys.dropKey (s : Sys ν) (p : ν) : Sys ν :=
  { s with keys := s.keys.filter fun k => k.owner ≠ p }

def Sys.createKey (s : Sys ν) (p : ν) : Sys ν :=
  { s with keys := s.keys ++ [⟨p, s.revision + 1⟩], revision := s.revision + 1 }

def Sys.propose (s : Sys ν) (p : ν) : Sys ν :=
  -- create the key of this lease, or find it
  match s.keys.find? fun k => k.owner = p with
  | some k => s.set p { s.procs p with phase := .waiting, leaderRev := k.createRevision }
  | none => (s.createKey p).set p
      { s.procs p with phase := .waiting, leaderRev := s.revision + 1 }

def step (name : ν → String) (s : Sys ν) (l : ν × Action) : Option (Sys ν) :=
  let p := l.1
  let proc := s.procs p
  match l.2 with
  | .start => if proc.phase = .unstarted then some (s.set p (proc.goto .looping)) else none
  | .propose =>
    -- etcd takes no key on a lease that is gone: `Campaign` fails
    if proc.phase = .looping ∧ proc.cancelled = false ∧ proc.leaseGone = false then
      some (s.propose p)
    else none
  | .elect =>
    if proc.phase = .waiting ∧ ∀ k ∈ s.keys, proc.leaderRev ≤ k.createRevision then
      some (s.set p (proc.goto .elected))
    else none
  | .fail resigns =>
    if proc.phase = .waiting ∨ proc.phase = .looping ∧ proc.cancelled = false then
      let t := s.set p (proc.goto .sleeping)
      some (if proc.phase = .waiting ∧ proc.cancelled ∧ resigns then t.dropKey p else t)
    else none
  | .retry => if proc.phase = .sleeping then some (s.set p (proc.goto .looping)) else none
  | .becomeLeader =>
    if proc.phase = .elected then
      some (s.set p ((proc.becomeLeader (name p)).goto .leading))
    else none
  | .wake =>
    if proc.phase = .leading ∧ proc.cancelled then some (s.set p (proc.goto .looping)) else none
  | .stop =>
    if proc.phase = .looping ∧ proc.cancelled then
      some (s.set p (proc.goto (if proc.isLeader then .resigning else .stopped)))
    else none
  | .resign succeeds =>
    if proc.phase = .resigning then
      let t := s.set p (proc.goto .relinquishing)
      some (if proc.isLeader ∧ succeeds then t.dropKey p else t)
    else none
  | .loseLeadership =>
    if proc.phase = .leading ∧ proc.sessionDone then
      some (s.set p (proc.loseLeadership.goto .expiring))
    else if proc.phase = .relinquishing then
      some (s.set p (proc.loseLeadership.goto .withdrawing))
    else none
  | .broadcastLoss =>
    if proc.phase = .expiring then
      some (s.set p ((proc.broadcast ⟨.leaderExpired, name p, 0⟩).goto .looping))
    else if proc.phase = .withdrawing then
      some (s.set p ((proc.broadcast ⟨.leaderResigned, name p, 0⟩).goto .stopped))
    else none
  | .cancel => some (s.set p { proc with cancelled := true })
  | .endSession => some (s.set p { proc with sessionDone := true })
  | .expire => some ((s.set p { proc with leaseGone := true }).dropKey p)
  | .emit =>
    if proc.phase = .unstarted then none
    else s.keys.head?.map fun k =>
      s.set p { proc with observed := proc.observed ++ [⟨name k.owner, k.createRevision⟩] }
  | .observe =>
    match proc.observed, proc.announcing with
    | v :: rest, none => some (s.set p ({ proc with observed := rest }.observe (name p) v))
    | _, _ => none
  | .broadcastLeader =>
    proc.announcing.map fun ev => s.set p ({ proc with announcing := none }.broadcast ev)

inductive Moves (name : String) (proc : Process) : Action → Process → Prop
  | goto (a : Action) (phase : Phase) (hp : phase ≠ .elected) (ha : a ≠ .loseLeadership) :
      Moves name proc a (proc.goto phase)
  | wait (leaderRev : Nat) :
      Moves name proc .propose { proc with phase := .waiting, leaderRev := leaderRev }
  | elect : Moves name proc .elect (proc.goto .elected)
  | becomeLeader (hp : proc.phase = .elected) :
      Moves name proc .becomeLeader ((proc.becomeLeader name).goto .leading)
  | loseLeadership (phase : Phase) (hp : phase ≠ .elected) :
      Moves name proc .loseLeadership (proc.loseLeadership.goto phase)
  | broadcastLoss (ev : LeaderEvent) (phase : Phase) (hp : phase ≠ .elected) :
      Moves name proc .broadcastLoss ((proc.broadcast ev).goto phase)
  | cancel : Moves name proc .cancel { proc with cancelled := true }
  | endSession : Moves name proc .endSession { proc with sessionDone := true }
  | expire : Moves name proc .expire { proc with leaseGone := true }
  | emit (v : Observed) : Moves name proc .emit { proc with observed := proc.observed ++ [v] }
  | observe (v : Observed) (rest : List Observed) (ho : proc.observed = v :: rest) :
      Moves name proc .observe ({ proc with observed := rest }.observe name v)
  | broadcastLeader (ev : LeaderEvent) :
      Moves name proc .broadcastLeader ({ proc with announcing := none }.broadcast ev)

def takesKey (s : Sys ν) (l : ν × Action) : Option ν :=
  match l.2 with
  | .expire => some l.1
  | .fail resigns =>
    if (s.procs l.1).phase = .waiting ∧ (s.procs l.1).cancelled ∧ resigns then some l.1 else none
  | .resign succeeds => if (s.procs l.1).isLeader ∧ succeeds then some l.1 else none
  | _ => none

inductive KeyMoves (s : Sys ν) (l : ν × Action) (t : Sys ν) : Prop
  | keep (hk : t.keys = s.keys)
  | create (k : ElectionKey ν) (hk : t.keys = s.keys ++ [k])
  | drop (hl : takesKey s l = some l.1) (hk : t.keys = (s.dropKey l.1).keys)

variable {name : ν → String} {s t : Sys ν} {p q : ν} {a : Action}

inductive Acts (name : ν → String) (s : Sys ν) (p : ν) : Action → Sys ν → Prop
  | start (hp : (s.procs p).phase = .unstarted) :
      Acts name s p .start (s.set p ((s.procs p).goto .looping))
  | propose (hp : (s.procs p).phase = .looping) (hc : (s.procs p).cancelled = false)
      (hl : (s.procs p).leaseGone = false) : Acts name s p .propose (s.propose p)
  | elect (hp : (s.procs p).phase = .waiting)
      (hk : ∀ k ∈ s.keys, (s.procs p).leaderRev ≤ k.createRevision) :
      Acts name s p .elect (s.set p ((s.procs p).goto .elected))
  | fail (resigns : Bool)
      (hp : (s.procs p).phase = .waiting ∨
        (s.procs p).phase = .looping ∧ (s.procs p).cancelled = false) :
      Acts name s p (.fail resigns) (s.set p ((s.procs p).goto .sleeping))
  | failResigned (hp : (s.procs p).phase = .waiting) (hc : (s.procs p).cancelled = true) :
      Acts name s p (.fail true) ((s.set p ((s.procs p).goto .sleeping)).dropKey p)
  | retry (hp : (s.procs p).phase = .sleeping) :
      Acts name s p .retry (s.set p ((s.procs p).goto .looping))
  | becomeLeader (hp : (s.procs p).phase = .elected) :
      Acts name s p .becomeLeader (s.set p (((s.procs p).becomeLeader (name p)).goto .leading))
  | wake (hp : (s.procs p).phase = .leading) (hc : (s.procs p).cancelled = true) :
      Acts name s p .wake (s.set p ((s.procs p).goto .looping))
  | stop (phase : Phase) (hp : (s.procs p).phase = .looping)
      (hc : (s.procs p).cancelled = true) (hn : phase = .resigning ∨ phase = .stopped) :
      Acts name s p .stop (s.set p ((s.procs p).goto phase))
  | resign (succeeds : Bool) (hp : (s.procs p).phase = .resigning) :
      Acts name s p (.resign succeeds) (s.set p ((s.procs p).goto .relinquishing))
  | resigned (hp : (s.procs p).phase = .resigning) (hl : (s.procs p).isLeader = true) :
      Acts name s p (.resign true) ((s.set p ((s.procs p).goto .relinquishing)).dropKey p)
  | loseExpired (hp : (s.procs p).phase = .leading) (hd : (s.procs p).sessionDone = true) :
      Acts name s p .loseLeadership (s.set p ((s.procs p).loseLeadership.goto .expiring))
  | loseResigned (hp : (s.procs p).phase = .relinquishing) :
      Acts name s p .loseLeadership (s.set p ((s.procs p).loseLeadership.goto .withdrawing))
  | broadcastExpired (hp : (s.procs p).phase = .expiring) :
      Acts name s p .broadcastLoss
        (s.set p (((s.procs p).broadcast ⟨.leaderExpired, name p, 0⟩).goto .looping))
  | broadcastResigned (hp : (s.procs p).phase = .withdrawing) :
      Acts name s p .broadcastLoss
        (s.set p (((s.procs p).broadcast ⟨.leaderResigned, name p, 0⟩).goto .stopped))
  | cancel : Acts name s p .cancel (s.set p { s.procs p with cancelled := true })
  | endSession : Acts name s p .endSession (s.set p { s.procs p with sessionDone := true })
  | expire : Acts name s p .expire ((s.set p { s.procs p with leaseGone := true }).dropKey p)
  | emit (k : ElectionKey ν) (hk : s.keys.head? = some k) :
      Acts name s p .emit (s.set p { s.procs p with
        observed := (s.procs p).observed ++ [⟨name k.owner, k.createRevision⟩] })
  | observe (v : Observed) (rest : List Observed) (ho : (s.procs p).observed = v :: rest)
      (ha : (s.procs p).announcing = none) :
      Acts name s p .observe (s.set p ({ s.procs p with observed := rest }.observe (name p) v))
  | broadcastLeader (ev : LeaderEvent) (ha : (s.procs p).announcing = some ev) :
      Acts name s p .broadcastLeader
        (s.set p ({ s.procs p with announcing := none }.broadcast ev))

theorem acts_of_step (h : step name s (p, a) = some t) : Acts name s p a t := by
  cases a with
  | start | retry | becomeLeader =>
    simp only [step] at h
    split at h
    · cases h
      constructor
      assumption
    · cases h
  | elect =>
    simp only [step] at h
    split at h
    · rename_i hp
      cases h
      exact .elect hp.1 hp.2
    · cases h
  | wake =>
    simp only [step] at h
    split at h
    · rename_i hp
      cases h
      exact .wake hp.1 hp.2
    · cases h
  | propose =>
    simp only [step] at h
    split at h
    · rename_i hp
      cases h
      exact .propose hp.1 hp.2.1 hp.2.2
    · cases h
  | fail resigns =>
    simp only [step] at h
    split at h
    · rename_i hp
      cases h
      split
      · rename_i hd
        obtain ⟨hw, hc, rfl⟩ := hd
        exact .failResigned hw hc
      · exact .fail resigns hp
    · cases h
  | stop =>
    simp only [step] at h
    split at h
    · rename_i hp
      cases h
      refine .stop _ hp.1 hp.2 ?_
      split
      · exact .inl rfl
      · exact .inr rfl
    · cases h
  | resign succeeds =>
    simp only [step] at h
    split at h
    · rename_i hp
      cases h
      split
      · rename_i hd
        obtain ⟨hl, rfl⟩ := hd
        exact .resigned hp hl
      · exact .resign succeeds hp
    · cases h
  | loseLeadership =>
    simp only [step] at h
    split at h
    · rename_i hp
      cases h
      exact .loseExpired hp.1 hp.2
    · split at h
      · rename_i hp
        cases h
        exact .loseResigned hp
      · cases h
  | broadcastLoss =>
    simp only [step] at h
    split at h
    · rename_i hp
      cases h
      exact .broadcastExpired hp
    · split at h
      · rename_i hp
        cases h
        exact .broadcastResigned hp
      · cases h
  | cancel =>
    cases h
    exact .cancel
  | endSession =>
    cases h
    exact .endSession
  | expire =>
    cases h
    exact .expire
  | emit =>
    simp only [step] at h
    split at h
    · cases h
    · obtain ⟨k, hk, rfl⟩ := Option.map_eq_some_iff.mp h
      exact .emit k hk
  | observe =>
    simp only [step] at h
    split at h
    · rename_i v rest ho ha
      cases h
      exact .observe v rest ho ha
    · cases h
  | broadcastLeader =>
    obtain ⟨ev, ha, rfl⟩ := Option.map_eq_some_iff.mp h
    exact .broadcastLeader ev ha

/-- Create the key of a lease, or find it. -/
theorem propose_cases (s : Sys ν) (p : ν) : ∃ leaderRev,
    (s.propose p).procs =
      Function.update s.procs p { s.procs p with phase := .waiting, leaderRev := leaderRev } ∧
    ((s.propose p).keys = s.keys ∨ ∃ k, (s.propose p).keys = s.keys ++ [k]) := by
  unfold Sys.propose
  split
  · exact ⟨_, rfl, .inl rfl⟩
  · exact ⟨_, rfl, .inr ⟨_, rfl⟩⟩

theorem moves_of_step (h : step name s (p, a) = some t) :
    (∃ proc, t.procs = Function.update s.procs p proc ∧ Moves (name p) (s.procs p) a proc) ∧
      KeyMoves s (p, a) t := by
  cases acts_of_step h with
  | propose =>
    obtain ⟨leaderRev, hprocs, hkeys⟩ := propose_cases s p
    refine ⟨⟨_, hprocs, .wait leaderRev⟩, ?_⟩
    cases hkeys with
    | inl hk => exact .keep hk
    | inr hk =>
      obtain ⟨k, hk⟩ := hk
      exact .create k hk
  | failResigned hp hc =>
    exact ⟨⟨_, rfl, .goto _ .sleeping (by decide) (by simp)⟩,
      .drop (by simp [takesKey, hp, hc]) rfl⟩
  | resigned hp hl =>
    exact ⟨⟨_, rfl, .goto _ .relinquishing (by decide) (by simp)⟩,
      .drop (by simp [takesKey, hl]) rfl⟩
  | elect => exact ⟨⟨_, rfl, .elect⟩, .keep rfl⟩
  | becomeLeader hp => exact ⟨⟨_, rfl, .becomeLeader hp⟩, .keep rfl⟩
  | start | retry | wake => exact ⟨⟨_, rfl, .goto _ _ (by decide) (by decide)⟩, .keep rfl⟩
  | fail resigns => exact ⟨⟨_, rfl, .goto _ _ (by decide) (by simp)⟩, .keep rfl⟩
  | resign succeeds => exact ⟨⟨_, rfl, .goto _ _ (by decide) (by simp)⟩, .keep rfl⟩
  | stop phase _ _ hn =>
    refine ⟨⟨_, rfl, .goto _ _ ?_ (by decide)⟩, .keep rfl⟩
    cases hn with
    | inl hn => simp [hn]
    | inr hn => simp [hn]
  | loseExpired | loseResigned => exact ⟨⟨_, rfl, .loseLeadership _ (by decide)⟩, .keep rfl⟩
  | broadcastExpired | broadcastResigned =>
    exact ⟨⟨_, rfl, .broadcastLoss _ _ (by decide)⟩, .keep rfl⟩
  | cancel => exact ⟨⟨_, rfl, .cancel⟩, .keep rfl⟩
  | endSession => exact ⟨⟨_, rfl, .endSession⟩, .keep rfl⟩
  | expire => exact ⟨⟨_, rfl, .expire⟩, .drop rfl rfl⟩
  | emit k => exact ⟨⟨_, rfl, .emit _⟩, .keep rfl⟩
  | observe v rest ho => exact ⟨⟨_, rfl, .observe v rest ho⟩, .keep rfl⟩
  | broadcastLeader ev => exact ⟨⟨_, rfl, .broadcastLeader ev⟩, .keep rfl⟩

omit [DecidableEq ν] in
theorem holder_append (h : s.holder = some q) (k : ElectionKey ν) :
    (s.keys ++ [k]).head?.map ElectionKey.owner = some q := by
  cases hk : s.keys with
  | nil => simp [Sys.holder, hk] at h
  | cons k' ks => simpa [Sys.holder, hk] using h

theorem holder_dropKey (h : s.holder = some q) (hpq : p ≠ q) : (s.dropKey p).holder = some q := by
  cases hk : s.keys with
  | nil => simp [Sys.holder, hk] at h
  | cons k ks =>
    have ho : k.owner = q := by simpa [Sys.holder, hk] using h
    have hne : k.owner ≠ p := ho ▸ hpq.symm
    rw [Sys.holder, Sys.dropKey, hk, List.filter_cons_of_pos (by simpa using hne)]
    exact congrArg some ho

/-- The holder of the election key keeps it through every step that does not take it. -/
theorem holder_step {l : ν × Action} (h : step name s l = some t) (hq : s.holder = some q)
    (hl : takesKey s l ≠ some q) : t.holder = some q := by
  cases (moves_of_step h).2 with
  | keep hk =>
    rw [Sys.holder, hk]
    exact hq
  | create k hk =>
    rw [Sys.holder, hk]
    exact holder_append hq k
  | drop ht hk =>
    have hne : l.1 ≠ q := by
      intro he
      exact hl (he ▸ ht)
    rw [Sys.holder, hk]
    exact holder_dropKey hq hne

end System

end Leibrix.Election

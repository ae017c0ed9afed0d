import Leibrix.AdmitStore
import Leibrix.Election
import Leibrix.Interleave

/-! The two writing RPCs on nodes that elect a leader over the same etcd. A call looks at
its process's election state once, at its entry; its writes carry no fencing token and
compare nothing of the election. -/
namespace Leibrix.LeaderWrites
open Leibrix.Transition Leibrix.KeyValue Leibrix.Election Leibrix.Management Leibrix.Proto

inductive Request where
  | admitDataset (request : AdmitDatasetRequest)
  | upsertTenantQuota (request : TenantQuota)

inductive Reply where
  | admitDataset (reply : Except RpcError AdmitDatasetResponse)
  | upsertTenantQuota (reply : Except RpcError CommonResponse)

variable {ν ι β : Type} [DecidableEq ν] [DecidableEq ι]

def serve (nodeName : String) (c : Codec β) (sha256 : List UInt8 → List UInt8) (fuel : Nat) :
    Request → Rpc β Reply
  | .admitDataset request => do
    return .admitDataset (← Management.admitDataset ⟨nodeName, true⟩ c sha256 fuel request)
  | .upsertTenantQuota request => do
    return .upsertTenantQuota (← Management.upsertTenantQuota ⟨nodeName, true⟩ c request)

structure Cluster (ν ι β : Type) where
  election : Sys ν
  pool : Pool ι String β LeaderView Reply

inductive Event (ν ι : Type) where
  | election (l : ν × Action)
  | rpc (i : ι) (a : Answer)

def leaderView (proc : Process) : LeaderView := ⟨proc.isLeader, proc.currentLeader⟩

def Cluster.step (name : ν → String) (site : ι → ν) (s : Cluster ν ι β) :
    Event ν ι → Option (Cluster ν ι β)
  -- `site` tells which process serves a call
  | .election l => (Election.step name s.election l).map fun e => { s with election := e }
  | .rpc i a => (s.pool.step (i, a, leaderView (s.election.procs (site i)))).map fun p =>
      { s with pool := p }

def Cluster.start (store : Store String β) (calls : ι → Rpc β Reply) : Cluster ν ι β :=
  ⟨Sys.start ν, ⟨⟨store, fun _ => false⟩, calls⟩⟩

def Idle (calls : ι → Rpc β Reply) (s : Cluster ν ι β) (i : ι) : Prop :=
  -- the call has not begun, or cannot come to a write any more
  s.pool.threads i = calls i ∨ (s.pool.threads i).WritesOnly fun _ => False

def Steady (site : ι → ν) (calls : ι → Rpc β Reply) (s : Cluster ν ι β) : Event ν ι → Prop
  -- a call that is let in finds its process to hold the election key, and the key is not taken from
  -- a process while a call that was let in there may still write
  | .election l => ∀ i, takesKey s.election l = some (site i) → Idle calls s i
  | .rpc i _ => s.pool.threads i = calls i → (s.election.procs (site i)).isLeader = true →
      s.election.holder = some (site i)

def Gated {ρ : Type} (p : Rpc β ρ) : Prop :=
  ∃ next, p = .sense next ∧
    ∀ view : LeaderView, view.isLeader = false → (next view).WritesOnly fun _ => False

theorem Gated.bind {ρ τ : Type} {p : Rpc β ρ} (h : Gated p) {f : ρ → Rpc β τ}
    (hf : ∀ r, (f r).WritesOnly fun _ => False) : Gated (p.bind f) := by
  obtain ⟨next, rfl, hn⟩ := h
  exact ⟨_, rfl, fun view hv => (hn view hv).bind hf⟩

theorem requireLeader_gated {ρ : Type} (nodeName : String)
    {f : Except RpcError Unit → Rpc β ρ} (hf : ∀ err, (f (.error err)).WritesOnly fun _ => False) :
    Gated ((requireLeader ⟨nodeName, true⟩).bind f) := by
  refine ⟨_, rfl, fun view hv => ?_⟩
  dsimp only
  rw [if_neg (by simp [hv])]
  intro view'
  dsimp only
  split
  · exact hf _
  · exact hf _

theorem serve_gated (nodeName : String) (c : Codec β) (sha256 : List UInt8 → List UInt8)
    (fuel : Nat) (r : Request) : Gated (serve nodeName c sha256 fuel r) := by
  cases r with
  | admitDataset request =>
    have h : Gated (Management.admitDataset ⟨nodeName, true⟩ c sha256 fuel request) := by
      apply requireLeader_gated
      intro err
      trivial
    exact h.bind fun _ => trivial
  | upsertTenantQuota request =>
    have h : Gated (Management.upsertTenantQuota ⟨nodeName, true⟩ c request) := by
      apply requireLeader_gated
      intro err
      trivial
    exact h.bind fun _ => trivial

section Runs
variable {name : ν → String} {site : ι → ν} {calls : ι → Rpc β Reply} {s t : Cluster ν ι β}

def Covered (site : ι → ν) (calls : ι → Rpc β Reply) (s : Cluster ν ι β) : Prop :=
  -- every call that may come to a write is served by the holder of the election key
  ∀ i, Idle calls s i ∨ s.election.holder = some (site i)

omit [DecidableEq ν] in
theorem thread_of_step {i : ι} {a : Answer} {view : LeaderView}
    {p : Pool ι String β LeaderView Reply} (h : s.pool.step (i, a, view) = some p) :
    ∃ q, (s.pool.threads i).step s.pool.world.store a view = some (p.world.store, q) ∧
      p.threads = Function.update s.pool.threads i q := by
  obtain ⟨⟨st, q⟩, hq, rfl⟩ := Option.map_eq_some_iff.mp h
  exact ⟨q, hq, rfl⟩

omit [DecidableEq ν] [DecidableEq ι] in
/-- What is left of a call after one operation: it is past writing, or covered. -/
theorem Covered.thread (hg : ∀ i, Gated (calls i)) (h : Covered site calls s) {i : ι}
    {a : Answer} (hc : Steady site calls s (.rpc i a)) {st : Store String β} {q : Rpc β Reply}
    (hq : (s.pool.threads i).step s.pool.world.store a
      (leaderView (s.election.procs (site i))) = some (st, q)) :
    q.WritesOnly (fun _ => False) ∨ s.election.holder = some (site i) := by
  cases h i with
  | inr hh => exact .inr hh
  | inl hi =>
    cases hi with
    | inr hw => exact .inl (hw.step hq).1
    | inl he =>
      obtain ⟨next, hn, hr⟩ := hg i
      by_cases hl : (s.election.procs (site i)).isLeader = true
      · exact .inr (hc he hl)
      · rw [he, hn] at hq
        obtain ⟨-, rfl⟩ := Prod.mk.inj (Option.some.inj hq)
        exact .inl (hr _ (by simpa [leaderView] using hl))

theorem Covered.step (hg : ∀ i, Gated (calls i)) (h : Covered site calls s) {l : Event ν ι}
    (hc : Steady site calls s l) (hs : s.step name site l = some t) : Covered site calls t := by
  cases l with
  | election l =>
    obtain ⟨e, he, rfl⟩ := Option.map_eq_some_iff.mp hs
    intro i
    by_cases hk : takesKey s.election l = some (site i)
    · exact .inl (hc i hk)
    · exact (h i).imp_right fun hh => holder_step he hh hk
  | rpc i a =>
    obtain ⟨p, hp, rfl⟩ := Option.map_eq_some_iff.mp hs
    obtain ⟨q, hq, hthreads⟩ := thread_of_step hp
    intro j
    by_cases hj : j = i
    · subst hj
      exact (h.thread hg hc hq).imp_left fun hw => .inr (by simpa [hthreads] using hw)
    · exact (h j).imp_left fun hi => by simpa [Idle, hthreads, Function.update_of_ne hj] using hi

theorem covered_reach {store : Store String β} (hg : ∀ i, Gated (calls i))
    (h : Reach (Fires (Cluster.step name site)) (Steady site calls)
      (Cluster.start store calls) s) : Covered site calls s := by
  refine h.invariant (I := Covered site calls) ?_ ?_
  · intro i
    exact .inl (.inl rfl)
  · intro u l v hu hc hs
    exact hu.step hg hc hs

/-- A covered call that changes the store is served by the holder. -/
theorem Covered.write (hg : ∀ i, Gated (calls i)) (h : Covered site calls s) {i : ι} {a : Answer}
    (hs : s.step name site (.rpc i a) = some t)
    (hw : t.pool.world.store ≠ s.pool.world.store) : s.election.holder = some (site i) := by
  obtain ⟨p, hp, rfl⟩ := Option.map_eq_some_iff.mp hs
  obtain ⟨q, hq, -⟩ := thread_of_step hp
  cases h i with
  | inr hh => exact hh
  | inl hi =>
    cases hi with
    | inr hro => exact absurd (hro.step_eq hq) hw
    | inl he =>
      -- a call that has not begun only looks at its process
      obtain ⟨next, hn, -⟩ := hg i
      rw [he, hn] at hq
      exact absurd (Prod.mk.inj (Option.some.inj hq)).1.symm hw

end Runs

/-- In every steady run of any number of calls on any number of nodes, a call changes the
store only while the process that serves it holds the election key. -/
theorem holder_of_write (name : ν → String) (site : ι → ν) (c : Codec β)
    (sha256 : List UInt8 → List UInt8) (fuel : Nat) (requests : ι → Request)
    (store : Store String β) {s t : Cluster ν ι β} {i : ι} {a : Answer}
    (h : Reach (Fires (Cluster.step name site))
      (Steady site fun i => serve (name (site i)) c sha256 fuel (requests i))
      (Cluster.start store fun i => serve (name (site i)) c sha256 fuel (requests i)) s)
    (hs : s.step name site (.rpc i a) = some t)
    (hw : t.pool.world.store ≠ s.pool.world.store) : s.election.holder = some (site i) := by
  have hg : ∀ i, Gated (serve (name (site i)) c sha256 fuel (requests i)) :=
    fun i => serve_gated _ _ _ _ _
  exact (covered_reach hg h).write hg hs hw

def steadyOn (p : ν) (s : Cluster ν ι β) : Event ν ι → Bool
  | .election l => takesKey s.election l = none
  | .rpc _ _ => s.election.holder = some p

omit [DecidableEq ι] in
theorem steady_of_steadyOn {site : ι → ν} {calls : ι → Rpc β Reply} {p : ν}
    (hp : ∀ i, site i = p) (s : Cluster ν ι β) (l : Event ν ι) (h : steadyOn p s l = true) :
    Steady site calls s l := by
  cases l with
  | election l =>
    intro i hk
    have hn : takesKey s.election l = none := by simpa [steadyOn] using h
    simp [hn] at hk
  | rpc i a =>
    intro _ _
    rw [hp i]
    simpa [steadyOn] using h

def nodeName (p : Bool) : String := if p then "cp-2" else "cp-1"

def acmeQuota (_ : Unit) : Request := .upsertTenantQuota ⟨"acme", 1, 4, 1024⟩

def acmeCall (i : Unit) : Rpc Payload Reply :=
  serve (nodeName false) payloadCodec januarySha256 0 (acmeQuota i)

def letIn : List (Event Bool Unit) :=
  [.election (false, .start), .election (true, .start), .election (false, .propose),
    .election (false, .elect), .election (false, .becomeLeader), .election (true, .propose),
    .rpc () .done]

theorem holder_of_write_acme :
    ∃ s t : Cluster Bool Unit Payload,
      Reach (Fires (Cluster.step nodeName fun _ => false)) (Steady (fun _ => false) acmeCall)
        (Cluster.start .empty acmeCall) s ∧
      s.step nodeName (fun _ => false) (.rpc () .done) = some t ∧
      t.pool.world.store ≠ s.pool.world.store ∧ s.election.holder = some false := by
  obtain ⟨s, t, hs, ht, hrs, hrt⟩ : ∃ s t : Cluster Bool Unit Payload,
      replay (guarded (steadyOn false) (Cluster.step nodeName fun _ => false)) letIn
        (Cluster.start .empty acmeCall) = some s ∧
      s.step nodeName (fun _ => false) (.rpc () .done) = some t ∧
      s.pool.world.store.revision = 1 ∧ t.pool.world.store.revision = 2 :=
    ⟨_, _, rfl, rfl, rfl, rfl⟩
  have hreach : Reach (Fires (Cluster.step nodeName fun _ => false))
      (Steady (fun _ => false) acmeCall) (Cluster.start .empty acmeCall) s :=
    (reach_of_replay hs).of_guarded (steady_of_steadyOn fun _ => rfl)
  have hne : t.pool.world.store ≠ s.pool.world.store := by
    intro he
    simp [← he, hrt] at hrs
  exact ⟨s, t, hreach, ht, hne, holder_of_write nodeName (fun _ => false) payloadCodec
    januarySha256 0 acmeQuota .empty hreach ht hne⟩

/-- A call let in during its node's term writes after the lease has expired and another
node has been elected: the store takes the write. -/
theorem superseded_leader_writes :
    ∃ s t : Cluster Bool Unit Payload,
      Reach (Fires (Cluster.step nodeName fun _ => false)) anyStep
        (Cluster.start .empty acmeCall) s ∧
      s.election.holder = some true ∧ (s.election.procs true).isLeader = true ∧
      s.step nodeName (fun _ => false) (.rpc () .done) = some t ∧
      t.pool.world.store =
        s.pool.world.store.put (TenantKeys.etcdTenantQuotaKey "acme")
          (.quota ⟨"acme", 1, 4, 1024⟩) := by
  obtain ⟨s, t, hs, hp⟩ : ∃ s t : Cluster Bool Unit Payload,
      replay (Cluster.step nodeName fun _ => false)
        (letIn ++ [.election (false, .expire), .election (true, .elect),
          .election (true, .becomeLeader)]) (Cluster.start .empty acmeCall) = some s ∧
      s.election.holder = some true ∧ (s.election.procs true).isLeader = true ∧
      s.step nodeName (fun _ => false) (.rpc () .done) = some t ∧
      t.pool.world.store =
        s.pool.world.store.put (TenantKeys.etcdTenantQuotaKey "acme")
          (.quota ⟨"acme", 1, 4, 1024⟩) := ⟨_, _, rfl, rfl, rfl, rfl, rfl⟩
  exact ⟨s, t, reach_of_replay hs, hp⟩

end Leibrix.LeaderWrites

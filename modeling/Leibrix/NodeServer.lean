import Leibrix.ClusterState
import Leibrix.Transition
import Mathlib.Algebra.Group.Nat.Defs
import Mathlib.Data.List.Forall2
import Mathlib.Logic.Function.Basic

/-! `internal/cluster/server.go`: the embedded etcd of a node. `Start` and `Stop` meet in the
atomic `serverState`; a step is one access to it or to `embedEtcd`, or one call of etcd. Calls
are told apart by numbers, and so are the etcd servers in the order of their start. -/
namespace Leibrix.NodeServer
open Leibrix.Transition
open Leibrix.ClusterState (Flag detectClusterState)

def serverStateInit : Int32 := 0
def serverStateReady : Int32 := 16
def serverStateStopped : Int32 := 32

structure UrlLib (υ : Type) where
  -- `url.Parse` with the text of its error, and the quoted text of `%q`
  parse : String → Except String υ
  quote : String → String

structure Config where
  nodeName : String
  dataDir : List String
  initialClusterToken : String
  initialCluster : String
  listenClientUrls : List String
  advertisePeerUrls : List String
  heartbeatMs : UInt64
  electionMs : UInt64
  logLevel : String

structure EtcdConfig (υ : Type) where
  name : String
  dir : List String
  initialClusterToken : String
  initialCluster : String
  clusterState : Flag
  listenClientUrls : List υ
  advertiseClientUrls : List υ
  listenPeerUrls : List υ
  advertisePeerUrls : List υ
  tickMs : UInt64
  electionMs : UInt64
  autoCompactionMode : String
  autoCompactionRetention : String
  quotaBackendBytes : Int64
  logLevel : String

variable {υ : Type}

def parseURLs (lib : UrlLib υ) : List String → Except String (List υ)
  | [] => .ok []
  | urlStr :: urlList =>
    match lib.parse urlStr with
    | .error err => .error ("invalid URL " ++ lib.quote urlStr ++ ": " ++ err)
    | .ok parsedURL =>
      match parseURLs lib urlList with
      | .error err => .error err
      | .ok urls => .ok (parsedURL :: urls)

def electionText (electionMs tickMs minRequiredElectionMs : UInt64) : String :=
  "invalid configuration: ElectionMs (" ++ toString electionMs ++
    "ms) must be at least 10 times HeartbeatMs (" ++ toString tickMs ++
    "ms). Minimum required: " ++ toString minRequiredElectionMs ++ "ms"

def Config.tickMs (config : Config) : UInt64 :=
  if 0 < config.heartbeatMs then config.heartbeatMs else 100

def Config.electionTimeoutMs (config : Config) : UInt64 :=
  if config.electionMs = 0 then 3000 else config.electionMs

def buildEtcdConfig (lib : UrlLib υ) (config : Config) (root : FileTree.Node) :
    Outcome (EtcdConfig υ) :=
  match detectClusterState root config.dataDir with
  | .panic text => .panic text
  | .hang => .hang
  | .err err => .err err
  | .ok clusterState =>
    match parseURLs lib config.listenClientUrls with
    | .error err => .err ("invalid client URLs: " ++ err)
    | .ok clientURLs =>
      match parseURLs lib config.advertisePeerUrls with
      | .error err => .err ("invalid peer URLs: " ++ err)
      | .ok peerURLs =>
        -- the product is one of `uint`s
        if config.electionTimeoutMs < 10 * config.tickMs then
          .err (electionText config.electionTimeoutMs config.tickMs (10 * config.tickMs))
        else .ok
          { name := config.nodeName
            dir := config.dataDir
            initialClusterToken := config.initialClusterToken
            initialCluster := config.initialCluster
            clusterState := clusterState
            listenClientUrls := clientURLs
            advertiseClientUrls := clientURLs
            listenPeerUrls := peerURLs
            advertisePeerUrls := peerURLs
            tickMs := config.tickMs
            electionMs := config.electionTimeoutMs
            autoCompactionMode := "revision"
            autoCompactionRetention := "100000"
            quotaBackendBytes := 6442450944
            logLevel := config.logLevel }

inductive Call (υ : Type) where
  | idle
  -- `Start` has found the state to be `ServerStateInit`
  | building
  | configured (cfg : EtcdConfig υ)
  -- at the `select` of `Start`
  | waiting (e : Nat)
  -- ready: `embedEtcd` is set next
  | publishing (e : Nat)
  | adding (e : Nat)
  -- the context is done: `e.Close()` is next
  | cancelling (e : Nat)
  -- `Stop` has found the state to be `ServerStateReady`
  | checking
  | closing
  -- at the `select` of `Stop`
  | stopping
  | returned (err : Option String)

structure Sys (υ : Type) where
  serverState : Int32
  embedEtcd : Option Nat
  -- the servers that `embed.StartEtcd` has started
  etcds : List (EtcdConfig υ)
  closed : Nat → Bool
  calls : Nat → Call υ

def Sys.start (υ : Type) : Sys υ :=
  ⟨serverStateInit, none, [], fun _ => false, fun _ => .idle⟩

def Sys.goto (s : Sys υ) (c : Nat) (call : Call υ) : Sys υ :=
  { s with calls := Function.update s.calls c call }

-- `Close` of a server; a second call does nothing.
def Sys.close (s : Sys υ) (e : Nat) : Sys υ := { s with closed := Function.update s.closed e true }

inductive Label where
  | start (c : Nat)
  | buildEtcdConfig (c : Nat) (root : FileTree.Node)
  | startEtcd (c : Nat)
  | startEtcdFails (c : Nat) (err : String)
  | readyNotify (c : Nat)
  | ctxDone (c : Nat)
  | setEmbedEtcd (c : Nat)
  | addState (c : Nat)
  | cancelStart (c : Nat) (err : String)
  | stop (c : Nat)
  | check (c : Nat)
  | close (c : Nat)
  -- `StopNotify` or the context; the state is stored in both cases
  | storeStopped (c : Nat)

def step (lib : UrlLib υ) (config : Config) (s : Sys υ) : Label → Option (Sys υ)
  | .start c =>
    match s.calls c with
    | .idle =>
      some (s.goto c (if s.serverState ≠ serverStateInit then .returned none else .building))
    | _ => none
  | .buildEtcdConfig c root =>
    match s.calls c, buildEtcdConfig lib config root with
    | .building, .ok cfg => some (s.goto c (.configured cfg))
    | .building, .err err => some (s.goto c (.returned (some err)))
    -- a panic ends the process
    | _, _ => none
  | .startEtcd c =>
    match s.calls c with
    | .configured cfg =>
      some ({ s with etcds := s.etcds ++ [cfg] }.goto c (.waiting s.etcds.length))
    | _ => none
  | .startEtcdFails c err =>
    match s.calls c with
    | .configured _ => some (s.goto c (.returned (some err)))
    | _ => none
  | .readyNotify c =>
    match s.calls c with
    | .waiting e => some (s.goto c (.publishing e))
    | _ => none
  | .ctxDone c =>
    match s.calls c with
    | .waiting e => some (s.goto c (.cancelling e))
    | _ => none
  | .setEmbedEtcd c =>
    match s.calls c with
    | .publishing e => some ({ s with embedEtcd := some e }.goto c (.adding e))
    | _ => none
  | .addState c =>
    match s.calls c with
    | .adding _ =>
      some ({ s with serverState := s.serverState + serverStateReady }.goto c (.returned none))
    | _ => none
  | .cancelStart c err =>
    match s.calls c with
    | .cancelling e => some ((s.close e).goto c (.returned (some err)))
    | _ => none
  | .stop c =>
    match s.calls c with
    | .idle =>
      some (s.goto c (if s.serverState ≠ serverStateReady then .returned none else .checking))
    | _ => none
  | .check c =>
    match s.calls c, s.embedEtcd with
    | .checking, some _ => some (s.goto c .closing)
    | .checking, none =>
      some ({ s with serverState := serverStateStopped }.goto c
        (.returned (some "inconsistent server state: embedEtcd is nil")))
    | _, _ => none
  | .close c =>
    match s.calls c, s.embedEtcd with
    | .closing, some e => some ((s.close e).goto c .stopping)
    | _, _ => none
  | .storeStopped c =>
    match s.calls c with
    | .stopping =>
      some ({ s with serverState := serverStateStopped }.goto c (.returned none))
    | _ => none

def getServerState (s : Sys υ) : String :=
  if s.serverState = serverStateInit then "init"
  else if s.serverState = serverStateReady then "ready"
  else if s.serverState = serverStateStopped then "stopped"
  else ""

def Sys.Running (s : Sys υ) (e : Nat) : Prop := e < s.etcds.length ∧ s.closed e = false

section Config
variable {lib : UrlLib υ} {config : Config} {root : FileTree.Node} {cfg : EtcdConfig υ}

theorem parseURLs_ok {urlList : List String} {urls : List υ} :
    parseURLs lib urlList = .ok urls ↔
      List.Forall₂ (fun u v => lib.parse u = .ok v) urlList urls := by
  induction urlList generalizing urls with
  | nil => simp [parseURLs, eq_comm]
  | cons urlStr urlList ih =>
    simp only [parseURLs, List.forall₂_cons_left_iff]
    cases hp : lib.parse urlStr with
    | error err => simp
    | ok parsedURL =>
      cases hl : parseURLs lib urlList with
      | error err =>
        have hnone : ∀ urls, ¬List.Forall₂ (fun u v => lib.parse u = .ok v) urlList urls := by
          intro urls hall
          rw [hl] at ih
          exact absurd (ih.mpr hall) (by simp)
        simp [hnone]
      | ok rest =>
        rw [hl] at ih
        constructor
        · intro h
          obtain rfl : parsedURL :: rest = urls := Except.ok.inj h
          exact ⟨parsedURL, rest, rfl, ih.mp rfl, rfl⟩
        · rintro ⟨v, vs, hv, hall, rfl⟩
          obtain rfl := Except.ok.inj hv
          obtain rfl := Except.ok.inj (ih.mpr hall)
          rfl

structure Proper (lib : UrlLib υ) (config : Config) (cfg : EtcdConfig υ) : Prop where
  client : List.Forall₂ (fun u v => lib.parse u = .ok v) config.listenClientUrls
    cfg.listenClientUrls
  peer : List.Forall₂ (fun u v => lib.parse u = .ok v) config.advertisePeerUrls
    cfg.listenPeerUrls
  tick : 0 < cfg.tickMs
  -- unless ten heartbeats overflow
  election : 10 * cfg.tickMs.toNat < 2 ^ 64 → 10 * cfg.tickMs.toNat ≤ cfg.electionMs.toNat

theorem ten_ticks_le {electionMs tickMs : UInt64} (h : ¬electionMs < 10 * tickMs)
    (hlt : 10 * tickMs.toNat < 2 ^ 64) : 10 * tickMs.toNat ≤ electionMs.toNat := by
  have hle := UInt64.le_iff_toNat_le.mp (UInt64.not_lt.mp h)
  have hmul : (10 * tickMs).toNat = 10 * tickMs.toNat := by
    rw [UInt64.toNat_mul]
    exact Nat.mod_eq_of_lt hlt
  rwa [hmul] at hle

theorem proper_of_build (h : buildEtcdConfig lib config root = .ok cfg) :
    Proper lib config cfg := by
  unfold buildEtcdConfig at h
  split at h
  · cases h
  · cases h
  · cases h
  · split at h
    · cases h
    · rename_i clientURLs hclient
      split at h
      · cases h
      · rename_i peerURLs hpeer
        split at h
        · cases h
        · rename_i hmin
          cases h
          refine ⟨parseURLs_ok.mp hclient, parseURLs_ok.mp hpeer, ?_, ten_ticks_le hmin⟩
          show 0 < config.tickMs
          unfold Config.tickMs
          split
          · assumption
          · decide

end Config

def Call.starts : Call υ → Bool
  | .building | .configured _ | .waiting _ | .publishing _ | .adding _ | .cancelling _ => true
  | _ => false

def Call.stops : Call υ → Bool
  | .checking | .closing | .stopping => true
  | _ => false

def Call.etcd : Call υ → Option Nat
  | .waiting e | .publishing e | .adding e | .cancelling e => some e
  | _ => none

def Label.begins : Label → Bool
  | .start _ => true
  | _ => false

-- No call of `Start` begins before the one before it has returned.
def Apart (s : Sys υ) (l : Label) : Prop := l.begins = true → ∀ c, (s.calls c).starts = false

section Steps
variable {lib : UrlLib υ} {config : Config} {s t : Sys υ}

inductive Moves (lib : UrlLib υ) (config : Config) (s : Sys υ) : Label → Sys υ → Prop
  | start (c : Nat) (hc : s.calls c = .idle) (hs : s.serverState = serverStateInit) :
      Moves lib config s (.start c) (s.goto c .building)
  -- the call goes on and touches nothing
  | goto (l : Label) (c : Nat) (call : Call υ) (hs : call.starts = true → (s.calls c).starts = true)
      (he : ∀ e, call.etcd = some e → (s.calls c).etcd = some e)
      (hr : (s.calls c).etcd = none ∨ (s.calls c).etcd = call.etcd)
      (ht : call.stops = true → s.serverState = serverStateReady ∨ (s.calls c).stops = true)
      (hn : ∀ e, call ≠ .adding e) (hp : call ≠ .stopping) (ho : s.calls c ≠ .stopping)
      (hcfg : ∀ cfg, call = .configured cfg → Proper lib config cfg) :
      Moves lib config s l (s.goto c call)
  | startEtcd (c : Nat) (cfg : EtcdConfig υ) (hc : s.calls c = .configured cfg) :
      Moves lib config s (.startEtcd c)
        ({ s with etcds := s.etcds ++ [cfg] }.goto c (.waiting s.etcds.length))
  | setEmbedEtcd (c e : Nat) (hc : s.calls c = .publishing e) :
      Moves lib config s (.setEmbedEtcd c) ({ s with embedEtcd := some e }.goto c (.adding e))
  | addState (c e : Nat) (hc : s.calls c = .adding e) :
      Moves lib config s (.addState c)
        ({ s with serverState := s.serverState + serverStateReady }.goto c (.returned none))
  | cancelStart (c e : Nat) (err : String) (hc : s.calls c = .cancelling e) :
      Moves lib config s (.cancelStart c err) ((s.close e).goto c (.returned (some err)))
  | inconsistent (c : Nat) (hc : s.calls c = .checking) (he : s.embedEtcd = none) :
      Moves lib config s (.check c) ({ s with serverState := serverStateStopped }.goto c
        (.returned (some "inconsistent server state: embedEtcd is nil")))
  | close (c e : Nat) (hc : s.calls c = .closing) (he : s.embedEtcd = some e) :
      Moves lib config s (.close c) ((s.close e).goto c .stopping)
  | storeStopped (c : Nat) (hc : s.calls c = .stopping) :
      Moves lib config s (.storeStopped c)
        ({ s with serverState := serverStateStopped }.goto c (.returned none))

theorem moves_of_step {l : Label} (h : step lib config s l = some t) : Moves lib config s l t := by
  cases l with
  | start c =>
    simp only [step] at h
    split at h
    · rename_i hc
      cases h
      by_cases hs : s.serverState = serverStateInit
      · simp only [hs, ne_eq, not_true_eq_false, if_false]
        exact .start c hc hs
      · simp only [ne_eq, hs, not_false_eq_true, if_true]
        apply Moves.goto <;> simp [hc, Call.starts, Call.etcd, Call.stops]
    · cases h
  | buildEtcdConfig c root =>
    simp only [step] at h
    split at h
    · rename_i cfg hc hb
      cases h
      have hproper := proper_of_build hb
      apply Moves.goto <;> simp [hc, Call.starts, Call.etcd, Call.stops]
      exact hproper
    · rename_i err hc hb
      cases h
      apply Moves.goto <;> simp [hc, Call.starts, Call.etcd, Call.stops]
    · cases h
  | startEtcd c =>
    simp only [step] at h
    split at h
    · rename_i cfg hc
      cases h
      exact .startEtcd c cfg hc
    · cases h
  | startEtcdFails c err =>
    simp only [step] at h
    split at h
    · rename_i cfg hc
      cases h
      apply Moves.goto <;> simp [hc, Call.starts, Call.etcd, Call.stops]
    · cases h
  | readyNotify c | ctxDone c =>
    simp only [step] at h
    split at h
    · rename_i e hc
      cases h
      apply Moves.goto <;> simp [hc, Call.starts, Call.etcd, Call.stops]
    · cases h
  | setEmbedEtcd c =>
    simp only [step] at h
    split at h
    · rename_i e hc
      cases h
      exact .setEmbedEtcd c e hc
    · cases h
  | addState c =>
    simp only [step] at h
    split at h
    · rename_i e hc
      cases h
      exact .addState c e hc
    · cases h
  | cancelStart c err =>
    simp only [step] at h
    split at h
    · rename_i e hc
      cases h
      exact .cancelStart c e err hc
    · cases h
  | stop c =>
    simp only [step] at h
    split at h
    · rename_i hc
      cases h
      by_cases hs : s.serverState = serverStateReady
      · simp only [hs, ne_eq, not_true_eq_false, if_false]
        apply Moves.goto <;> simp [hc, hs, Call.starts, Call.etcd, Call.stops]
      · simp only [ne_eq, hs, not_false_eq_true, if_true]
        apply Moves.goto <;> simp [hc, Call.starts, Call.etcd, Call.stops]
    · cases h
  | check c =>
    simp only [step] at h
    split at h
    · rename_i e hc he
      cases h
      apply Moves.goto <;> simp [hc, Call.starts, Call.etcd, Call.stops]
    · rename_i hc he
      cases h
      exact .inconsistent c hc he
    · cases h
  | close c =>
    simp only [step] at h
    split at h
    · rename_i e hc he
      cases h
      exact .close c e hc he
    · cases h
  | storeStopped c =>
    simp only [step] at h
    split at h
    · rename_i hc
      cases h
      exact .storeStopped c hc
    · cases h

end Steps

end Leibrix.NodeServer

import Leibrix.Election
import Mathlib.Data.List.Basic
import Mathlib.Order.Monotone.Basic

/-! The election with the revisions of another count. The processes only compare revisions, so
a strictly increasing map takes each of their runs to another one. -/
namespace Leibrix.Election
open Leibrix.Transition

def Observed.rename (f : Nat → Nat) (v : Observed) : Observed :=
  { v with createRevision := f v.createRevision }

def LeaderEvent.rename (f : Nat → Nat) (ev : LeaderEvent) : LeaderEvent :=
  { ev with epoch := f ev.epoch }

def ElectionKey.rename {ν : Type} (f : Nat → Nat) (k : ElectionKey ν) : ElectionKey ν :=
  { k with createRevision := f k.createRevision }

def Process.rename (f : Nat → Nat) (proc : Process) : Process :=
  { proc with
    leaderRev := f proc.leaderRev
    observed := proc.observed.map (Observed.rename f)
    announcing := proc.announcing.map (LeaderEvent.rename f)
    events := proc.events.map (LeaderEvent.rename f) }

def Sys.rename {ν : Type} (f : Nat → Nat) (revision : Nat) (s : Sys ν) : Sys ν :=
  ⟨s.keys.map (ElectionKey.rename f), revision, fun p => (s.procs p).rename f⟩

structure Process.Issued (r : Nat) (proc : Process) : Prop where
  leaderRev : proc.leaderRev ≤ r
  observed : ∀ v ∈ proc.observed, v.createRevision ≤ r
  announcing : ∀ ev ∈ proc.announcing, ev.epoch ≤ r
  events : ∀ ev ∈ proc.events, ev.epoch ≤ r

structure Issued {ν : Type} (s : Sys ν) : Prop where
  keys : ∀ k ∈ s.keys, k.createRevision ≤ s.revision
  procs : ∀ p, (s.procs p).Issued s.revision

section Fields
variable (f : Nat → Nat) (proc : Process)

@[simp] theorem rename_phase : (proc.rename f).phase = proc.phase := rfl
@[simp] theorem rename_cancelled : (proc.rename f).cancelled = proc.cancelled := rfl
@[simp] theorem rename_sessionDone : (proc.rename f).sessionDone = proc.sessionDone := rfl
@[simp] theorem rename_isLeader : (proc.rename f).isLeader = proc.isLeader := rfl
@[simp] theorem rename_leaderRev : (proc.rename f).leaderRev = f proc.leaderRev := rfl

@[simp] theorem rename_observed :
    (proc.rename f).observed = proc.observed.map (Observed.rename f) := rfl

@[simp] theorem rename_announcing :
    (proc.rename f).announcing = proc.announcing.map (LeaderEvent.rename f) := rfl

end Fields

section Rename
variable {ν : Type} {f g : Nat → Nat} {s t : Sys ν} {R r : Nat} {proc : Process}

theorem Process.Issued.rename_congr (h : proc.Issued r) (hg : ∀ n ≤ r, g n = f n) :
    proc.rename g = proc.rename f := by
  have hobs : proc.observed.map (Observed.rename g) = proc.observed.map (Observed.rename f) :=
    List.map_congr_left fun v hv => by rw [Observed.rename, hg _ (h.observed v hv)]; rfl
  have hann : proc.announcing.map (LeaderEvent.rename g) =
      proc.announcing.map (LeaderEvent.rename f) :=
    Option.map_congr fun ev hev => by rw [LeaderEvent.rename, hg _ (h.announcing ev hev)]; rfl
  have hevs : proc.events.map (LeaderEvent.rename g) = proc.events.map (LeaderEvent.rename f) :=
    List.map_congr_left fun ev hev => by rw [LeaderEvent.rename, hg _ (h.events ev hev)]; rfl
  rw [Process.rename, hobs, hann, hevs, hg _ h.leaderRev]
  rfl

theorem Process.Issued.mono {r' : Nat} (h : proc.Issued r) (hr : r ≤ r') : proc.Issued r' :=
  ⟨h.leaderRev.trans hr, fun v hv => (h.observed v hv).trans hr,
    fun ev hev => (h.announcing ev hev).trans hr, fun ev hev => (h.events ev hev).trans hr⟩

theorem Issued.rename_congr (h : Issued s) (hg : ∀ n ≤ s.revision, g n = f n) :
    s.rename g R = s.rename f R := by
  have hkeys : s.keys.map (ElectionKey.rename g) = s.keys.map (ElectionKey.rename f) :=
    List.map_congr_left fun k hk => by rw [ElectionKey.rename, hg _ (h.keys k hk)]; rfl
  simp only [Sys.rename, hkeys, fun p => (h.procs p).rename_congr hg]

variable [DecidableEq ν] {p : ν}

theorem rename_set : (s.set p proc).rename f R = (s.rename f R).set p (proc.rename f) := by
  simp only [Sys.rename, Sys.set, Sys.mk.injEq, true_and]
  funext q
  by_cases hq : q = p
  · subst hq
    simp
  · simp [Function.update_of_ne hq]

theorem rename_dropKey : (s.dropKey p).rename f R = (s.rename f R).dropKey p := by
  simp only [Sys.rename, Sys.dropKey, List.filter_map]
  rfl

theorem Issued.set (h : Issued s) (hp : proc.Issued s.revision) : Issued (s.set p proc) := by
  refine ⟨h.keys, fun q => ?_⟩
  by_cases hq : q = p
  · subst hq
    simpa [Sys.set] using hp
  · simpa [Sys.set, Function.update_of_ne hq] using h.procs q

theorem Issued.dropKey (h : Issued s) : Issued (s.dropKey p) :=
  ⟨fun k hk => h.keys k (List.mem_of_mem_filter hk), h.procs⟩

theorem Process.Issued.broadcast {ev : LeaderEvent} (h : proc.Issued r) (hev : ev.epoch ≤ r) :
    (proc.broadcast ev).Issued r := by
  refine ⟨h.leaderRev, h.observed, h.announcing, fun e he => ?_⟩
  cases List.mem_append.mp he with
  | inl he => exact h.events e he
  | inr he => exact List.mem_singleton.mp he ▸ hev

end Rename

def extend (f : Nat → Nat) (r R : Nat) (n : Nat) : Nat := if n ≤ r then f n else R + (n - r)

section Extend
variable {f : Nat → Nat} {r R : Nat}

theorem extend_strictMono (hf : StrictMono f) (hR : f r ≤ R) : StrictMono (extend f r R) := by
  intro m n hmn
  unfold extend
  split
  · rename_i hm
    split
    · exact hf hmn
    · have hle := hf.monotone hm
      omega
  · rw [if_neg (by omega)]
    omega

end Extend

section Step
variable {ν : Type} [DecidableEq ν] {name : ν → String} {f : Nat → Nat} {s t : Sys ν} {R : Nat}
  {p : ν} {a : Action}

/-- Apart from new keys, a process with other revisions does what it does with its own. -/
theorem step_rename (hf : StrictMono f) (hz : f 0 = 0) (ha : a ≠ .propose) :
    step name (s.rename f R) (p, a) = (step name s (p, a)).map (Sys.rename f R) := by
  have hproc : (s.rename f R).procs p = (s.procs p).rename f := rfl
  cases a with
  | propose => exact absurd rfl ha
  | elect =>
    have hkeys : (∀ k ∈ (s.rename f R).keys, f (s.procs p).leaderRev ≤ k.createRevision) ↔
        ∀ k ∈ s.keys, (s.procs p).leaderRev ≤ k.createRevision := by
      simp [Sys.rename, ElectionKey.rename, hf.le_iff_le]
    simp only [step, hproc, rename_phase, rename_leaderRev, hkeys]
    split
    · rw [Option.map_some, rename_set]
      rfl
    · rfl
  | start | retry | becomeLeader | wake | stop =>
    simp only [step, hproc, rename_phase, rename_cancelled, rename_isLeader]
    split
    · rw [Option.map_some, rename_set]
      rfl
    · rfl
  | fail resigns | resign succeeds =>
    simp only [step, hproc, rename_phase, rename_cancelled, rename_isLeader]
    split
    · split
      · rw [Option.map_some, rename_dropKey, rename_set]
        rfl
      · rw [Option.map_some, rename_set]
        rfl
    · rfl
  | loseLeadership =>
    simp only [step, hproc, rename_phase, rename_sessionDone]
    split
    · rw [Option.map_some, rename_set]
      rfl
    · split
      · rw [Option.map_some, rename_set]
        rfl
      · rfl
  | broadcastLoss =>
    have hloss : ∀ type phase, (((s.procs p).broadcast ⟨type, name p, 0⟩).goto phase).rename f =
        (((s.procs p).rename f).broadcast ⟨type, name p, 0⟩).goto phase := by
      simp [Process.rename, Process.broadcast, Process.goto, LeaderEvent.rename, hz]
    simp only [step, hproc, rename_phase]
    split
    · rw [Option.map_some, rename_set, hloss]
    · split
      · rw [Option.map_some, rename_set, hloss]
      · rfl
  | cancel | endSession =>
    simp only [step, hproc, Option.map_some, rename_set]
    rfl
  | expire =>
    simp only [step, hproc, Option.map_some, rename_dropKey, rename_set]
    rfl
  | emit =>
    have hhead : (s.rename f R).keys.head? = s.keys.head?.map (ElectionKey.rename f) := by
      simp [Sys.rename]
    simp only [step, hproc, hhead, rename_phase]
    split
    · rfl
    · cases s.keys.head? with
      | none => rfl
      | some k =>
        simp only [Option.map_some, rename_set]
        simp [Process.rename, Observed.rename, ElectionKey.rename]
  | observe =>
    simp only [step, hproc, rename_observed, rename_announcing]
    cases (s.procs p).observed with
    | nil => rfl
    | cons v rest =>
      cases (s.procs p).announcing with
      | none =>
        simp only [Option.map_some, rename_set]
        rfl
      | some ev => rfl
  | broadcastLeader =>
    simp only [step, hproc, rename_announcing]
    cases (s.procs p).announcing with
    | none => rfl
    | some ev =>
      simp only [Option.map_some, rename_set]
      simp [Process.rename, Process.broadcast]

theorem Process.Issued.goto {r : Nat} {proc : Process} (h : proc.Issued r) (phase : Phase) :
    (proc.goto phase).Issued r := ⟨h.leaderRev, h.observed, h.announcing, h.events⟩

theorem Issued.propose (h : Issued s) : Issued (s.propose p) := by
  have hproc := h.procs p
  unfold Sys.propose
  split
  · rename_i k hk
    exact h.set ⟨h.keys k (List.mem_of_find?_eq_some hk), hproc.observed, hproc.announcing,
      hproc.events⟩
  · have hnext := hproc.mono (Nat.le_succ s.revision)
    refine Issued.set ⟨fun k hk => ?_, fun q => (h.procs q).mono (Nat.le_succ _)⟩
      ⟨Nat.le_refl _, hnext.observed, hnext.announcing, hnext.events⟩
    cases List.mem_append.mp hk with
    | inl hk => exact (h.keys k hk).trans (Nat.le_succ _)
    | inr hk => exact List.mem_singleton.mp hk ▸ Nat.le_refl _

/-- The revisions a process holds are of keys that there were. -/
theorem Issued.step (h : Issued s) (hs : step name s (p, a) = some t) : Issued t := by
  have hproc := h.procs p
  cases acts_of_step hs with
  | propose => exact h.propose
  | start | elect | fail | retry | wake | stop | resign => exact h.set (hproc.goto _)
  | failResigned | resigned => exact (h.set (hproc.goto _)).dropKey
  | expire =>
    refine Issued.dropKey (h.set ?_)
    exact ⟨hproc.leaderRev, hproc.observed, hproc.announcing, hproc.events⟩
  | becomeLeader | loseExpired | loseResigned | cancel | endSession =>
    exact h.set ⟨hproc.leaderRev, hproc.observed, hproc.announcing, hproc.events⟩
  | broadcastExpired | broadcastResigned =>
    exact h.set ((hproc.broadcast (Nat.zero_le _)).goto _)
  | emit k hk =>
    refine h.set ⟨hproc.leaderRev, fun v hv => ?_, hproc.announcing, hproc.events⟩
    cases List.mem_append.mp hv with
    | inl hv => exact hproc.observed v hv
    | inr hv =>
      obtain rfl := List.mem_singleton.mp hv
      exact h.keys k (List.mem_of_head? hk)
  | observe v rest ho ha =>
    refine h.set ⟨hproc.leaderRev, fun v' hv => ?_, fun ev hev => ?_, hproc.events⟩
    · exact hproc.observed v' (ho ▸ List.mem_cons_of_mem v hv)
    · obtain rfl := Option.some.inj hev
      exact hproc.observed v (ho ▸ List.mem_cons_self)
  | broadcastLeader ev ha =>
    refine h.set (Process.Issued.broadcast ?_ (hproc.announcing ev ha))
    exact ⟨hproc.leaderRev, hproc.observed, fun e he => (by cases he), hproc.events⟩

structure Renames (f : Nat → Nat) (s u : Sys ν) : Prop where
  -- `u` is `s` with the revisions of another count
  mono : StrictMono f
  zero : f 0 = 0
  revision : f s.revision ≤ u.revision
  issued : Issued s
  eq : u = s.rename f u.revision

omit [DecidableEq ν] in
theorem Renames.later {u : Sys ν} (h : Renames f s u) (hR : u.revision ≤ R) :
    Renames f s ⟨u.keys, R, u.procs⟩ := by
  refine ⟨h.mono, h.zero, h.revision.trans hR, h.issued, ?_⟩
  simp only [Sys.rename, Sys.mk.injEq, true_and]
  exact ⟨congrArg Sys.keys h.eq, congrArg Sys.procs h.eq⟩

/-- The next key of the one system is the next key of the other. -/
theorem Renames.propose {u : Sys ν} (h : Renames f s u) :
    ∃ g, Renames g (s.propose p) (u.propose p) := by
  have hfind : u.keys.find? (fun k => k.owner = p) =
      (s.keys.find? fun k => k.owner = p).map (ElectionKey.rename f) := by
    rw [h.eq]
    simp only [Sys.rename, List.find?_map]
    rfl
  have hprocs : u.procs p = (s.procs p).rename f := by rw [h.eq]; rfl
  have hissued := h.issued.propose (p := p)
  cases hk : s.keys.find? fun k => k.owner = p with
  | some k =>
    rw [hk, Option.map_some] at hfind
    simp only [Sys.propose, hk, hfind, hprocs] at hissued ⊢
    refine ⟨f, h.mono, h.zero, h.revision, hissued, ?_⟩
    rw [rename_set]
    exact congrArg (Sys.set · p _) h.eq
  | none =>
    rw [hk, Option.map_none] at hfind
    simp only [Sys.propose, hk, hfind] at hissued ⊢
    have hold : ∀ n ≤ s.revision, extend f s.revision u.revision n = f n := fun n hn => if_pos hn
    have hnew : extend f s.revision u.revision (s.revision + 1) = u.revision + 1 := by
      simp [extend]
    refine ⟨extend f s.revision u.revision, extend_strictMono h.mono h.revision,
      (hold 0 (Nat.zero_le _)).trans h.zero, hnew.le, hissued, ?_⟩
    have hu := h.eq.trans (h.issued.rename_congr hold).symm
    have hkeys : u.keys = _ := congrArg Sys.keys hu
    have hprocs : u.procs = _ := congrArg Sys.procs hu
    rw [rename_set]
    simp only [Sys.set, Sys.createKey, Sys.rename, hkeys, hprocs, Process.rename, hnew,
      ElectionKey.rename, List.map_append, List.map_cons, List.map_nil]

theorem Renames.step {u v : Sys ν} (h : Renames f s u) (hs : step name u (p, a) = some v) :
    ∃ g t, Election.step name s (p, a) = some t ∧ Renames g t v := by
  by_cases ha : a = .propose
  · subst ha
    cases acts_of_step hs with
    | propose hp hc hl =>
      rw [h.eq] at hp hc hl
      have hp : (s.procs p).phase = .looping := hp
      have hc : (s.procs p).cancelled = false := hc
      have hl : (s.procs p).leaseGone = false := hl
      obtain ⟨g, hg⟩ := h.propose (p := p)
      exact ⟨g, _, by simp [Election.step, hp, hc, hl], hg⟩
  · rw [h.eq, step_rename h.mono h.zero ha] at hs
    obtain ⟨t, ht, rfl⟩ := Option.map_eq_some_iff.mp hs
    have hrev : t.revision = s.revision := by
      cases acts_of_step ht with
      | propose => exact absurd rfl ha
      | _ => rfl
    exact ⟨f, t, ht, h.mono, h.zero, hrev ▸ h.revision, h.issued.step ht, rfl⟩

/-- What a step leaves of the keys. -/
theorem keys_of_step (ha : a ≠ .propose) (h : step name s (p, a) = some t) :
    t.keys = if takesKey s (p, a) = some p then (s.dropKey p).keys else s.keys := by
  cases a with
  | propose => exact absurd rfl ha
  | fail resigns =>
    simp only [step] at h
    split at h
    · cases h
      by_cases hd : (s.procs p).phase = .waiting ∧ (s.procs p).cancelled ∧ resigns
      · simp [takesKey, hd, Sys.dropKey, Sys.set]
      · simp [takesKey, hd, Sys.set]
    · cases h
  | resign succeeds =>
    simp only [step] at h
    split at h
    · cases h
      by_cases hd : (s.procs p).isLeader ∧ succeeds
      · simp [takesKey, hd, Sys.dropKey, Sys.set]
      · simp [takesKey, hd, Sys.set]
    · cases h
  | expire =>
    cases h
    simp [takesKey, Sys.dropKey, Sys.set]
  | _ => cases acts_of_step h <;> rfl

end Step

end Leibrix.Election

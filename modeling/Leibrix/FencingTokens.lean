import Leibrix.Delivery
import Mathlib.Data.List.Pairwise

/-! The create revision of an election key as a token. etcd gives out a revision once, so it
says which campaign is meant: `Campaign` waits with it, and `observeLeader` passes it on as
the `Epoch` of a leader event. -/
namespace Leibrix.Election
open Leibrix.Transition
open Leibrix.Listeners (elected)

def Observed.event (v : Observed) : LeaderEvent := ⟨.leaderElected, v.leaderName, v.createRevision⟩

def Process.announcements (proc : Process) : List LeaderEvent :=
  -- the leaders a process has announced, is announcing and has still to announce, in the order in
  -- which `Observe` sent them
  (proc.events ++ proc.announcing.toList ++ proc.observed.map Observed.event).filter elected

section Announcements
variable {proc : Process}

theorem announcements_loss {ev : LeaderEvent} {phase : Phase} (h : elected ev = false) :
    ((proc.broadcast ev).goto phase).announcements = proc.announcements := by
  simp [Process.announcements, Process.broadcast, Process.goto, h]

theorem announcements_emit (v : Observed) :
    { proc with observed := proc.observed ++ [v] }.announcements =
      proc.announcements ++ [v.event] := by
  simp [Process.announcements, Observed.event, elected]

/-- `observeLeader` takes the oldest response in hand. -/
theorem announcements_observe {v : Observed} {rest : List Observed} {nodeName : String}
    (ho : proc.observed = v :: rest) (ha : proc.announcing = none) :
    ({ proc with observed := rest }.observe nodeName v).announcements = proc.announcements := by
  simp [Process.announcements, Process.observe, ho, ha, Observed.event]

theorem announcements_broadcast {ev : LeaderEvent} (ha : proc.announcing = some ev) :
    ({ proc with announcing := none }.broadcast ev).announcements = proc.announcements := by
  simp [Process.announcements, Process.broadcast, ha]

end Announcements

variable {ν : Type} [DecidableEq ν] {name : ν → String} {s t : Sys ν} {p q : ν} {a : Action}

def recordElection (s : Sys ν) (l : ν × Action) (wins : List (ν × Nat)) : List (ν × Nat) :=
  -- the processes whose `Campaign` has returned nil, each with the revision it waited with, in the
  -- order of the returns
  match l.2 with
  | .elect => wins ++ [(l.1, (s.procs l.1).leaderRev)]
  | _ => wins

def LeaseLives (s : Sys ν) (l : ν × Action) : Prop :=
  l.2 = .elect → (s.procs l.1).leaseGone = false

structure Past (s : Sys ν) (token : Nat) : Prop where
  issued : token ≤ s.revision
  keys : ∀ k ∈ s.keys, token ≤ k.createRevision

structure Tokens (owner : Nat → ν) (s : Sys ν) : Prop where
  -- `owner` says which process created the key of a revision
  sorted : s.keys.Pairwise fun k k' => k.createRevision < k'.createRevision
  issued : ∀ k ∈ s.keys, k.createRevision ≤ s.revision
  owned : ∀ k ∈ s.keys, owner k.createRevision = k.owner
  rev : ∀ k ∈ s.keys, (s.procs k.owner).leaderRev = k.createRevision
  waits : ∀ p, (s.procs p).phase = .waiting →
    (s.procs p).leaderRev ≤ s.revision ∧ owner (s.procs p).leaderRev = p
  keeps : ∀ p, (s.procs p).phase = .waiting → (s.procs p).leaseGone = false →
    ∃ k ∈ s.keys, k.owner = p

structure Announced (name : ν → String) (owner : Nat → ν) (s : Sys ν) (evs : List LeaderEvent) :
    Prop where
  -- events of tokens past, each with the name of the key's owner, the tokens in order
  past : ∀ ev ∈ evs, Past s ev.epoch
  named : ∀ ev ∈ evs, ev.memberName = name (owner ev.epoch)
  ordered : evs.Pairwise fun ev ev' => ev.epoch ≤ ev'.epoch

variable {owner : Nat → ν}

omit [DecidableEq ν] in
theorem tokens_start (owner : Nat → ν) : Tokens owner (Sys.start ν) := by
  constructor <;> simp [Sys.start]

/-- A process changes; if it waits then, it does so with a token of its own, and with its
key unless the lease is gone. -/
theorem Tokens.set {proc : Process} (h : Tokens owner s)
    (hr : ∀ k ∈ s.keys, k.owner = p → proc.leaderRev = k.createRevision)
    (hw : proc.phase = .waiting → (proc.leaderRev ≤ s.revision ∧ owner proc.leaderRev = p) ∧
      (proc.leaseGone = false → ∃ k ∈ s.keys, k.owner = p)) : Tokens owner (s.set p proc) := by
  refine ⟨h.sorted, h.issued, h.owned, fun k hk => ?_, fun q hq => ?_, fun q hq hl => ?_⟩
  · by_cases ho : k.owner = p
    · simpa [Sys.set, ho] using hr k hk ho
    · simpa [Sys.set, Function.update_of_ne ho] using h.rev k hk
  · by_cases hqp : q = p
    · subst hqp
      simp only [Sys.set, Function.update_self] at hq ⊢
      exact (hw hq).1
    · simp only [Sys.set, Function.update_of_ne hqp] at hq ⊢
      exact h.waits q hq
  · by_cases hqp : q = p
    · subst hqp
      simp only [Sys.set, Function.update_self] at hq hl
      exact (hw hq).2 hl
    · simp only [Sys.set, Function.update_of_ne hqp] at hq hl
      exact h.keeps q hq hl

theorem Tokens.stay {proc : Process} (h : Tokens owner s) (hp : proc.phase = (s.procs p).phase)
    (hr : proc.leaderRev = (s.procs p).leaderRev)
    (hl : proc.leaseGone = false → (s.procs p).leaseGone = false) :
    Tokens owner (s.set p proc) := by
  apply h.set
  · rintro k hk rfl
    exact hr.trans (h.rev k hk)
  · intro hw
    rw [hp] at hw
    rw [hr]
    exact ⟨h.waits p hw, fun hlive => h.keeps p hw (hl hlive)⟩

theorem Tokens.goto {proc : Process} {phase : Phase} (h : Tokens owner s) (hw : phase ≠ .waiting)
    (hr : proc.leaderRev = (s.procs p).leaderRev) : Tokens owner (s.set p (proc.goto phase)) := by
  apply h.set
  · rintro k hk rfl
    exact hr.trans (h.rev k hk)
  · intro hp
    exact absurd hp hw

theorem Tokens.dropKey (h : Tokens owner s)
    (hp : (s.procs p).phase = .waiting → (s.procs p).leaseGone = true) :
    Tokens owner (s.dropKey p) := by
  have hsub : (s.dropKey p).keys.Sublist s.keys := List.filter_sublist
  refine ⟨h.sorted.sublist hsub, fun k hk => h.issued k (hsub.subset hk),
    fun k hk => h.owned k (hsub.subset hk), fun k hk => h.rev k (hsub.subset hk), h.waits,
    fun q hq hl => ?_⟩
  obtain ⟨k, hk, rfl⟩ := h.keeps q hq hl
  refine ⟨k, List.mem_filter.mpr ⟨hk, ?_⟩, rfl⟩
  have hne : k.owner ≠ p := by
    rintro rfl
    have hlive : (s.procs k.owner).leaseGone = false := hl
    simp [hp hq] at hlive
  simpa using hne

theorem Tokens.create {proc : Process} (h : Tokens owner s) (hnone : ∀ k ∈ s.keys, k.owner ≠ p)
    (hr : proc.leaderRev = s.revision + 1) :
    Tokens (Function.update owner (s.revision + 1) p) ((s.createKey p).set p proc) := by
  have hold : ∀ r ≤ s.revision, Function.update owner (s.revision + 1) p r = owner r := by
    intro r hle
    exact Function.update_of_ne (by omega) _ _
  have hmem : ∀ k ∈ (s.createKey p).keys, k ∈ s.keys ∨ k = ⟨p, s.revision + 1⟩ := by
    intro k hk
    simpa [Sys.createKey] using hk
  refine ⟨?_, fun k hk => ?_, fun k hk => ?_, fun k hk => ?_, fun q hq => ?_, fun q hq hl => ?_⟩
  · refine List.pairwise_append.mpr ⟨h.sorted, List.pairwise_singleton _ _, fun k hk k' hk' => ?_⟩
    obtain rfl := List.mem_singleton.mp hk'
    exact Nat.lt_succ_of_le (h.issued k hk)
  · cases hmem k hk with
    | inl hk => exact Nat.le_succ_of_le (h.issued k hk)
    | inr hk =>
      subst hk
      exact Nat.le_refl _
  · cases hmem k hk with
    | inl hk =>
      rw [hold _ (h.issued k hk)]
      exact h.owned k hk
    | inr hk => simp [hk]
  · cases hmem k hk with
    | inl hk => simpa [Sys.set, Sys.createKey, Function.update_of_ne (hnone k hk)] using h.rev k hk
    | inr hk => simpa [Sys.set, hk] using hr
  · by_cases hqp : q = p
    · subst hqp
      simp [Sys.set, Sys.createKey, hr]
    · simp only [Sys.set, Sys.createKey, Function.update_of_ne hqp] at hq ⊢
      obtain ⟨hle, ho⟩ := h.waits q hq
      refine ⟨Nat.le_succ_of_le hle, ?_⟩
      rw [hold _ hle]
      exact ho
  · by_cases hqp : q = p
    · exact ⟨⟨p, s.revision + 1⟩, by simp [Sys.set, Sys.createKey], hqp.symm⟩
    · simp only [Sys.set, Function.update_of_ne hqp] at hq hl
      obtain ⟨k, hk, ho⟩ := h.keeps q hq hl
      exact ⟨k, List.mem_append_left _ hk, ho⟩

theorem Tokens.propose (h : Tokens owner s) :
    ∃ owner', Tokens owner' (s.propose p) ∧ ∀ r ≤ s.revision, owner' r = owner r := by
  unfold Sys.propose
  split
  · rename_i k hk
    have hown : k.owner = p := by simpa using List.find?_some hk
    have hmem := List.mem_of_find?_eq_some hk
    subst hown
    refine ⟨owner, h.set (fun k' hk' ho => ?_) fun _ => ?_, fun r _ => rfl⟩
    · rw [← h.rev k' hk', ← h.rev k hmem, ho]
    · exact ⟨⟨h.issued k hmem, h.owned k hmem⟩, fun _ => ⟨k, hmem, rfl⟩⟩
  · rename_i hk
    refine ⟨_, h.create (by simpa using hk) rfl, fun r hle => ?_⟩
    exact Function.update_of_ne (by omega) _ _

theorem Past.dropKey {r : Nat} (h : Past s r) : Past (s.dropKey p) r :=
  ⟨h.issued, fun k hk => h.keys k (List.mem_of_mem_filter hk)⟩

theorem Past.propose {r : Nat} (h : Past s r) : Past (s.propose p) r := by
  unfold Sys.propose
  split
  · exact ⟨h.issued, h.keys⟩
  · refine ⟨Nat.le_succ_of_le h.issued, fun k hk => ?_⟩
    have hk : k ∈ s.keys ∨ k = ⟨p, s.revision + 1⟩ := by
      simpa [Sys.set, Sys.createKey] using hk
    cases hk with
    | inl hk => exact h.keys k hk
    | inr hk =>
      subst hk
      exact Nat.le_succ_of_le h.issued

structure TokenStep (owner owner' : Nat → ν) (s t : Sys ν) : Prop where
  tokens : Tokens owner' t
  agree : ∀ r ≤ s.revision, owner' r = owner r
  past : ∀ r, Past s r → Past t r

theorem Tokens.step (h : Tokens owner s) (hs : step name s (p, a) = some t) :
    ∃ owner', TokenStep owner owner' s t := by
  cases acts_of_step hs with
  | propose =>
    obtain ⟨owner', htokens, hagree⟩ := h.propose (p := p)
    exact ⟨owner', htokens, hagree, fun r hr => hr.propose⟩
  | start | elect | fail | retry | becomeLeader | wake | resign | loseExpired | loseResigned
      | broadcastExpired | broadcastResigned =>
    exact ⟨owner, h.goto (by decide) rfl, fun r _ => rfl, fun r hr => ⟨hr.issued, hr.keys⟩⟩
  | stop phase _ _ hn =>
    refine ⟨owner, h.goto ?_ rfl, fun r _ => rfl, fun r hr => ⟨hr.issued, hr.keys⟩⟩
    cases hn with
    | inl hn => simp [hn]
    | inr hn => simp [hn]
  | failResigned | resigned =>
    refine ⟨owner, Tokens.dropKey (h.goto (by decide) rfl) ?_, fun r _ => rfl, fun r hr => ?_⟩
    · simp [Sys.set, Process.goto]
    · exact Past.dropKey ⟨hr.issued, hr.keys⟩
  | cancel | endSession | emit | observe | broadcastLeader =>
    exact ⟨owner, h.stay rfl rfl id, fun r _ => rfl, fun r hr => ⟨hr.issued, hr.keys⟩⟩
  | expire =>
    refine ⟨owner, Tokens.dropKey (h.stay rfl rfl (by simp)) ?_, fun r _ => rfl, fun r hr => ?_⟩
    · simp [Sys.set]
    · exact Past.dropKey ⟨hr.issued, hr.keys⟩

omit [DecidableEq ν] in
/-- The oldest key is older than the others. -/
theorem Tokens.head_past {k : ElectionKey ν} (h : Tokens owner s) (hk : s.keys.head? = some k) :
    Past s k.createRevision := by
  refine ⟨h.issued k (List.mem_of_head? hk), ?_⟩
  obtain ⟨ks, hks⟩ := List.head?_eq_some_iff.mp hk
  have hsorted := h.sorted
  rw [hks] at hsorted ⊢
  intro k' hk'
  cases List.mem_cons.mp hk' with
  | inl he =>
    subst he
    exact Nat.le_refl _
  | inr hk' => exact Nat.le_of_lt (List.rel_of_pairwise_cons hsorted hk')

/-- Only what `Observe` sends is a new announcement, and it is of the oldest key. -/
theorem announcements_step (hs : step name s (p, a) = some t) (q : ν) :
    (t.procs q).announcements = (s.procs q).announcements ∨
      ∃ k, s.keys.head? = some k ∧ (t.procs q).announcements =
        (s.procs q).announcements ++ [⟨.leaderElected, name k.owner, k.createRevision⟩] := by
  obtain ⟨proc, hprocs, -⟩ := (moves_of_step hs).1
  by_cases hq : q = p
  · subst hq
    cases acts_of_step hs with
    | emit k hk =>
      refine .inr ⟨k, hk, ?_⟩
      simp only [Sys.set, Function.update_self, announcements_emit, Observed.event]
    | observe v rest ho ha =>
      left
      simp only [Sys.set, Function.update_self, announcements_observe ho ha]
    | broadcastLeader ev ha =>
      left
      simp only [Sys.set, Function.update_self, announcements_broadcast ha]
    | broadcastExpired | broadcastResigned =>
      left
      simp only [Sys.set, Function.update_self]
      exact announcements_loss rfl
    | propose =>
      obtain ⟨leaderRev, hp, -⟩ := propose_cases s q
      left
      simp only [hp, Function.update_self]
      rfl
    | start | elect | fail | retry | becomeLeader | wake | resign | loseExpired | loseResigned
        | failResigned | resigned | cancel | endSession | expire | stop =>
      left
      simp only [Sys.dropKey, Sys.set, Function.update_self]
      rfl
  · left
    simp only [hprocs, Function.update_of_ne hq]

omit [DecidableEq ν] in
/-- The events stay announced while tokens are given out and keys go away. -/
theorem Announced.step {owner' : Nat → ν} {evs : List LeaderEvent} (h : Announced name owner s evs)
    (hs : TokenStep owner owner' s t) : Announced name owner' t evs := by
  refine ⟨fun ev hev => hs.past _ (h.past ev hev), fun ev hev => ?_, h.ordered⟩
  rw [hs.agree _ (h.past ev hev).issued]
  exact h.named ev hev

omit [DecidableEq ν] in
/-- What `Observe` sends next is no older than what it has sent. -/
theorem Announced.append {k : ElectionKey ν} {evs : List LeaderEvent}
    (h : Announced name owner s evs) (ht : Tokens owner s) (hk : s.keys.head? = some k) :
    Announced name owner s (evs ++ [⟨.leaderElected, name k.owner, k.createRevision⟩]) := by
  have hmem : k ∈ s.keys := List.mem_of_head? hk
  refine ⟨?_, ?_, ?_⟩
  · exact List.forall_mem_append.mpr
      ⟨h.past, List.forall_mem_singleton.mpr (ht.head_past hk)⟩
  · refine List.forall_mem_append.mpr ⟨h.named, List.forall_mem_singleton.mpr ?_⟩
    rw [ht.owned k hmem]
  · refine List.pairwise_append.mpr ⟨h.ordered, List.pairwise_singleton _ _, ?_⟩
    intro ev hev ev' hev'
    obtain rfl := List.mem_singleton.mp hev'
    exact (h.past ev hev).keys k hmem

structure Terms (name : ν → String) (owner : Nat → ν) (s : Sys ν) (wins : List (ν × Nat)) :
    Prop where
  tokens : Tokens owner s
  announced : ∀ p, Announced name owner s (s.procs p).announcements
  won : ∀ w ∈ wins, Past s w.2 ∧ owner w.2 = w.1

theorem Terms.step {wins : List (ν × Nat)} (h : Terms name owner s wins)
    (hs : step name s (p, a) = some t) :
    ∃ owner', Terms name owner' t (recordElection s (p, a) wins) := by
  obtain ⟨owner', hstep⟩ := h.tokens.step hs
  have hwon : ∀ w : ν × Nat, Past s w.2 ∧ owner w.2 = w.1 → Past t w.2 ∧ owner' w.2 = w.1 := by
    intro w hw
    refine ⟨hstep.past _ hw.1, ?_⟩
    rw [hstep.agree _ hw.1.issued]
    exact hw.2
  refine ⟨owner', hstep.tokens, fun q => ?_, ?_⟩
  · cases announcements_step hs q with
    | inl hq =>
      rw [hq]
      exact (h.announced q).step hstep
    | inr hq =>
      obtain ⟨k, hk, hq⟩ := hq
      rw [hq]
      exact ((h.announced q).append h.tokens hk).step hstep
  · cases acts_of_step hs with
    | elect hp hk =>
      obtain ⟨hle, ho⟩ := h.tokens.waits p hp
      refine List.forall_mem_append.mpr ⟨fun w hw => hwon w (h.won w hw), ?_⟩
      exact List.forall_mem_singleton.mpr (hwon (p, _) ⟨⟨hle, hk⟩, ho⟩)
    | _ => exact fun w hw => hwon w (h.won w hw)

/-- A process whose lease lives when `Campaign` returns waited with the token of its key, and
every token of an earlier election is older. -/
theorem ordered_recordElection {wins : List (ν × Nat)} (h : Terms name owner s wins)
    (hs : step name s (p, a) = some t) (hl : LeaseLives s (p, a))
    (ho : wins.Pairwise fun w w' => w.2 ≤ w'.2) :
    (recordElection s (p, a) wins).Pairwise fun w w' => w.2 ≤ w'.2 := by
  cases acts_of_step hs with
  | elect hp =>
    obtain ⟨k, hk, rfl⟩ := h.tokens.keeps p hp (hl rfl)
    refine List.pairwise_append.mpr ⟨ho, List.pairwise_singleton _ _, fun w hw w' hw' => ?_⟩
    obtain rfl := List.mem_singleton.mp hw'
    rw [h.tokens.rev k hk]
    exact (h.won w hw).1.keys k hk
  | _ => exact ho

omit [DecidableEq ν] in
theorem terms_start (owner : Nat → ν) : Terms name owner (Sys.start ν) [] where
  tokens := tokens_start owner
  announced _ := ⟨by simp [Sys.start, Process.announcements],
    by simp [Sys.start, Process.announcements], List.Pairwise.nil⟩
  won := by simp

theorem terms_of_reach {ok : Sys ν × List (ν × Nat) → ν × Action → Prop}
    {x : Sys ν × List (ν × Nat)} (p : ν)
    (h : Reach (Fires (recorded (step name) recordElection)) ok (Sys.start ν, []) x) :
    ∃ owner, Terms name owner x.1 x.2 := by
  refine h.invariant (I := fun x => ∃ owner, Terms name owner x.1 x.2)
    ⟨fun _ => p, terms_start _⟩ ?_
  rintro x ⟨p, a⟩ u ⟨owner, hx⟩ - hs
  obtain ⟨t, ht, rfl⟩ := Option.map_eq_some_iff.mp hs
  exact hx.step ht

/-- As long as `Campaign` returns nil on leases that live only, tokens never decrease. -/
theorem ordered_of_reach {x : Sys ν × List (ν × Nat)}
    (h : Reach (Fires (recorded (step name) recordElection)) (fun x l => LeaseLives x.1 l)
      (Sys.start ν, []) x) : x.2.Pairwise fun w w' => w.2 ≤ w'.2 := by
  induction h with
  | refl => exact List.Pairwise.nil
  | @tail x u l hx hl hs ih =>
    obtain ⟨t, ht, rfl⟩ := Option.map_eq_some_iff.mp hs
    obtain ⟨owner, hterms⟩ := terms_of_reach l.1 hx
    exact ordered_recordElection hterms ht hl ih

/-- No two processes are elected with one token; as long as `Campaign` returns nil on leases
that live only, the tokens of the elections never decrease, so that each new leader has a
greater one than all before it. -/
theorem elections_ordered {ok : Sys ν → ν × Action → Prop} {s : Sys ν} {wins : List (ν × Nat)}
    (h : Reach (Fires (recorded (step name) recordElection)) (fun x l => ok x.1 l)
      (Sys.start ν, []) (s, wins)) :
    (∀ w ∈ wins, ∀ w' ∈ wins, w.2 = w'.2 → w.1 = w'.1) ∧
      ((∀ s l, ok s l → LeaseLives s l) → wins.Pairwise fun w w' => w.2 ≤ w'.2) := by
  constructor
  · intro w hw w' hw' he
    obtain ⟨owner, hterms⟩ := terms_of_reach w.1 h
    rw [← (hterms.won w hw).2, ← (hterms.won w' hw').2, he]
  · intro hl
    exact ordered_of_reach (h.mono fun x l => hl x.1 l)

def handover : List (Bool × Action) :=
  [(false, .start), (false, .propose), (true, .start), (true, .propose), (false, .elect),
    (false, .expire), (true, .elect)]

theorem handover_ordered : ∃ s : Sys Bool,
    Reach (Fires (recorded (step fun _ => "") recordElection)) (fun x l => LeaseLives x.1 l)
      (Sys.start Bool, []) (s, [(false, 2), (true, 3)]) ∧
    ((false, 2) : Bool × Nat).2 ≤ ((true, 3) : Bool × Nat).2 := by
  have hr : ∃ s, replay (guarded (fun x l => l.2 ≠ .elect || !(x.1.procs l.1).leaseGone)
      (recorded (step fun _ => "") recordElection)) handover (Sys.start Bool, []) =
      some (s, [(false, 2), (true, 3)]) := ⟨_, rfl⟩
  obtain ⟨s, hs⟩ := hr
  have hreach : Reach (Fires (recorded (step fun _ => "") recordElection))
      (fun x l => LeaseLives x.1 l) (Sys.start Bool, []) (s, [(false, 2), (true, 3)]) := by
    refine Reach.of_guarded (fun x l hp he => ?_) (reach_of_replay hs)
    simpa [he] using hp
  have hordered := (elections_ordered hreach).2 fun _ _ hl => hl
  exact ⟨s, hreach, List.rel_of_pairwise_cons hordered (List.mem_singleton_self _)⟩

end Leibrix.Election

import Leibrix.Election
import Mathlib.Data.List.Nodup

/-! Whether the loop of `campaign` can win again. The session is created once, in `Start`,
and every later `Campaign` proposes a key on its lease: when the lease is gone, the loop
goes on retrying and no key of it is taken any more. -/
namespace Leibrix.Election
open Leibrix.Transition

def Phase.stops : Phase → Bool
  | .resigning | .relinquishing | .withdrawing | .stopped => true
  | _ => false

variable {ν : Type} [DecidableEq ν] {name : ν → String} {s t : Sys ν} {p q : ν} {a : Action}

def helps (p : ν) (l : ν × Action) : Bool :=
  -- etcd is reachable, this process goes on, and the other holders' leases run out
  match l.2 with
  | .expire => l.1 ≠ p
  | .cancel | .fail _ => false
  | _ => l.1 = p

def Helped (p : ν) (_ : Sys ν) (l : ν × Action) : Prop := helps p l = true

def CanWin (name : ν → String) (p : ν) (ok : Sys ν → ν × Action → Prop) (s : Sys ν) : Prop :=
  ∃ t u v w, Reach (Fires (step name)) ok s t ∧ step name t (p, .elect) = some u ∧
    Reach (Fires (step name)) ok u v ∧ step name v (p, .becomeLeader) = some w

structure Proper (s : Sys ν) : Prop where
  -- each process has one key at most; one that waits does so with a revision no newer than that of
  -- its key
  owners : (s.keys.map ElectionKey.owner).Nodup
  waits : ∀ p, (s.procs p).phase = .waiting → ∀ k ∈ s.keys, k.owner = p →
    (s.procs p).leaderRev ≤ k.createRevision
  stops : ∀ p, (s.procs p).phase.stops = true → (s.procs p).cancelled = true

omit [DecidableEq ν] in
theorem proper_start : Proper (Sys.start ν) := by
  refine ⟨List.nodup_nil, fun p hp => ?_, fun p hp => ?_⟩
  all_goals cases hp

/-- A process moves outside its wait, and keys may go away. -/
theorem Proper.set {keys : List (ElectionKey ν)} {proc : Process} (h : Proper s)
    (hk : keys.Sublist s.keys)
    (hw : proc.phase = .waiting → (s.procs p).phase = .waiting ∧
      proc.leaderRev = (s.procs p).leaderRev)
    (hs : proc.phase.stops = true → proc.cancelled = true) :
    Proper { s with keys := keys, procs := Function.update s.procs p proc } := by
  refine ⟨h.owners.sublist (hk.map _), fun q hq k hmem ho => ?_, fun q hq => ?_⟩
  · by_cases hpq : q = p
    · subst hpq
      simp only [Function.update_self] at hq ⊢
      obtain ⟨hphase, hrev⟩ := hw hq
      rw [hrev]
      exact h.waits q hphase k (hk.subset hmem) ho
    · simp only [Function.update_of_ne hpq] at hq ⊢
      exact h.waits q hq k (hk.subset hmem) ho
  · by_cases hpq : q = p
    · subst hpq
      simp only [Function.update_self] at hq ⊢
      exact hs hq
    · simp only [Function.update_of_ne hpq] at hq ⊢
      exact h.stops q hq

/-- `Campaign` finds the key of its lease, or creates one. -/
theorem Proper.propose (h : Proper s) : Proper (s.propose p) := by
  unfold Sys.propose
  split
  · rename_i k hk
    have hown : k.owner = p := by simpa using List.find?_some hk
    have hmem := List.mem_of_find?_eq_some hk
    refine ⟨h.owners, fun q hq k' hk' ho => ?_, fun q hq => ?_⟩
    · by_cases hpq : q = p
      · subst hpq
        obtain rfl : k' = k := List.inj_on_of_nodup_map h.owners hk' hmem (ho.trans hown.symm)
        simp [Sys.set]
      · simp only [Sys.set, Function.update_of_ne hpq] at hq ⊢
        exact h.waits q hq k' hk' ho
    · by_cases hpq : q = p
      · simp [Sys.set, hpq, Phase.stops] at hq
      · simp only [Sys.set, Function.update_of_ne hpq] at hq ⊢
        exact h.stops q hq
  · rename_i hk
    have hnone : ∀ k ∈ s.keys, k.owner ≠ p := by simpa using hk
    refine ⟨?_, fun q hq k' hk' ho => ?_, fun q hq => ?_⟩
    · simp only [Sys.set, Sys.createKey, List.map_append, List.map_cons, List.map_nil]
      refine h.owners.append (List.nodup_singleton _) (List.disjoint_singleton.mpr ?_)
      simpa using hnone
    · have hk' : k' ∈ s.keys ∨ k' = ⟨p, s.revision + 1⟩ := by
        simpa [Sys.set, Sys.createKey] using hk'
      by_cases hpq : q = p
      · subst hpq
        cases hk' with
        | inl hk' => exact absurd ho (hnone k' hk')
        | inr hk' => simp [Sys.set, hk']
      · simp only [Sys.set, Function.update_of_ne hpq, Sys.createKey] at hq ⊢
        cases hk' with
        | inl hk' => exact h.waits q hq k' hk' ho
        | inr hk' =>
          subst hk'
          exact absurd ho.symm hpq
    · by_cases hpq : q = p
      · simp [Sys.set, hpq, Phase.stops] at hq
      · simp only [Sys.set, Function.update_of_ne hpq, Sys.createKey] at hq ⊢
        exact h.stops q hq

theorem Proper.goto {phase : Phase} (h : Proper s) (hw : phase ≠ .waiting)
    (hs : phase.stops = true → (s.procs p).cancelled = true) :
    Proper (s.set p ((s.procs p).goto phase)) :=
  h.set (List.Sublist.refl _) (fun hp => absurd hp hw) hs

theorem Proper.dropKey (h : Proper s) : Proper (s.dropKey p) :=
  ⟨h.owners.sublist (List.filter_sublist.map _),
    fun q hq k hk ho => h.waits q hq k (List.mem_of_mem_filter hk) ho, h.stops⟩

theorem Proper.stay {proc : Process} (h : Proper s) (hp : proc.phase = (s.procs p).phase)
    (hr : proc.leaderRev = (s.procs p).leaderRev)
    (hc : (s.procs p).cancelled = true → proc.cancelled = true) : Proper (s.set p proc) := by
  apply h.set (List.Sublist.refl _)
  · intro hw
    exact ⟨hp ▸ hw, hr⟩
  · intro hs
    exact hc (h.stops p (hp ▸ hs))

theorem Proper.step (h : Proper s) (hs : step name s (p, a) = some t) : Proper t := by
  cases acts_of_step hs with
  | start | retry | elect | wake | fail => exact h.goto (by decide) (fun hp => by cases hp)
  | failResigned => exact (h.goto (by decide) (fun hp => by cases hp)).dropKey
  | propose => exact h.propose
  | becomeLeader | loseExpired | broadcastExpired =>
    exact h.set (List.Sublist.refl _) (fun hp => by cases hp) (fun hp => by cases hp)
  | stop phase _ hc hn =>
    refine h.goto ?_ fun _ => hc
    cases hn with
    | inl hn => simp [hn]
    | inr hn => simp [hn]
  | resign _ hp =>
    have hcancel := h.stops p (by simp [hp, Phase.stops])
    exact h.goto (by decide) fun _ => hcancel
  | resigned hp =>
    have hcancel := h.stops p (by simp [hp, Phase.stops])
    exact (h.goto (by decide) fun _ => hcancel).dropKey
  | loseResigned hp | broadcastResigned hp =>
    have hcancel := h.stops p (by simp [hp, Phase.stops])
    exact h.set (List.Sublist.refl _) (fun hp => by cases hp) fun _ => hcancel
  | cancel => exact h.stay rfl rfl fun _ => rfl
  | endSession | emit | observe | broadcastLeader => exact h.stay rfl rfl id
  | expire =>
    apply Proper.dropKey
    exact h.stay rfl rfl id

theorem proper_of_reach (h : Reach (Fires (step name)) anyStep (Sys.start ν) s) : Proper s :=
  h.invariant (I := Proper) proper_start fun _ _ _ hi _ hs => hi.step hs

theorem reach_expired (qs : List ν) (hq : ∀ q ∈ qs, q ≠ p) :
    ∃ t, Reach (Fires (step name)) (Helped p) s t ∧ t.procs p = s.procs p ∧
      ∀ k ∈ t.keys, k ∈ s.keys ∧ k.owner ∉ qs := by
  induction qs generalizing s with
  | nil => exact ⟨s, .refl, rfl, fun k hk => ⟨hk, List.not_mem_nil⟩⟩
  | cons q qs ih =>
    have hne : q ≠ p := hq q (by simp)
    obtain ⟨t, hreach, hproc, hkeys⟩ :=
      ih (s := (s.set q { s.procs q with leaseGone := true }).dropKey q)
        fun q' hq' => hq q' (by simp [hq'])
    have hfirst : Reach (Fires (step name)) (Helped p) s
        ((s.set q { s.procs q with leaseGone := true }).dropKey q) :=
      Reach.tail (a := (q, .expire)) .refl (by simp [Helped, helps, hne]) rfl
    refine ⟨t, hfirst.trans hreach, hproc.trans ?_, fun k hk => ?_⟩
    · simp [Sys.set, Sys.dropKey, Function.update_of_ne hne.symm]
    · obtain ⟨hmem, hout⟩ := hkeys k hk
      have hmem : k ∈ s.keys ∧ k.owner ≠ q := by
        simpa [Sys.set, Sys.dropKey] using hmem
      exact ⟨hmem.1, by simp [hmem.2, hout]⟩

theorem CanWin.of_step {ok : Sys ν → ν × Action → Prop} (ho : ok s (q, a))
    (hs : Election.step name s (q, a) = some t) (h : CanWin name p ok t) :
    CanWin name p ok s := by
  obtain ⟨t', u, v, w, hreach, he, hreach', hb⟩ := h
  exact ⟨t', u, v, w, (Reach.tail .refl ho hs).trans hreach, he, hreach', hb⟩

theorem reach_alone (name : ν → String) (p : ν) (s : Sys ν) :
    ∃ t, Reach (Fires (step name)) (Helped p) s t ∧ t.procs p = s.procs p ∧
      ∀ k ∈ t.keys, k ∈ s.keys ∧ k.owner = p := by
  obtain ⟨t, hreach, hproc, hkeys⟩ : ∃ t, Reach (Fires (step name)) (Helped p) s t ∧
      t.procs p = s.procs p ∧ ∀ k ∈ t.keys,
        k ∈ s.keys ∧ k.owner ∉ (s.keys.map ElectionKey.owner).filter (· ≠ p) :=
    reach_expired _ (by simp)
  refine ⟨t, hreach, hproc, fun k hk => ?_⟩
  obtain ⟨hmem, hout⟩ := hkeys k hk
  refine ⟨hmem, ?_⟩
  by_contra hne
  exact hout (by simpa using ⟨⟨k, hmem, rfl⟩, hne⟩)

theorem CanWin.mono {ok ok' : Sys ν → ν × Action → Prop} (h : CanWin name p ok s)
    (hok : ∀ s l, ok s l → ok' s l) : CanWin name p ok' s := by
  obtain ⟨t, u, v, w, hreach, he, hreach', hb⟩ := h
  exact ⟨t, u, v, w, hreach.mono hok, he, hreach'.mono hok, hb⟩

/-- A waiting `Campaign` returns once the keys of the others are gone. -/
theorem canWin_of_waiting (h : Proper s) (hp : (s.procs p).phase = .waiting) :
    CanWin name p (Helped p) s := by
  obtain ⟨t, hreach, hproc, hkeys⟩ := reach_alone name p s
  have helect : (t.procs p).phase = .waiting ∧
      ∀ k ∈ t.keys, (t.procs p).leaderRev ≤ k.createRevision := by
    rw [hproc]
    exact ⟨hp, fun k hk => h.waits p hp k (hkeys k hk).1 (hkeys k hk).2⟩
  refine ⟨t, _, _, _, hreach, if_pos helect, .refl, if_pos ?_⟩
  simp [Sys.set, Process.goto]

structure At (p : ν) (phase : Phase) (s : Sys ν) : Prop where
  proper : Proper s
  phase : (s.procs p).phase = phase
  active : (s.procs p).cancelled = false
  lease : (s.procs p).leaseGone = false

theorem At.looping (h : At p .looping s) : CanWin name p (Helped p) s := by
  have hs : step name s (p, .propose) = some (s.propose p) :=
    if_pos ⟨h.phase, h.active, h.lease⟩
  refine CanWin.of_step (by simp [Helped, helps]) hs (canWin_of_waiting (h.proper.step hs) ?_)
  unfold Sys.propose
  split <;> simp [Sys.set]

/-- One own step to a point from which the process can win. -/
theorem At.step {phase phase' : Phase} {proc : Process} (h : At p phase s)
    (hh : helps p (p, a) = true) (hs : Election.step name s (p, a) = some (s.set p proc))
    (hp : proc.phase = phase') (hc : proc.cancelled = (s.procs p).cancelled)
    (hl : proc.leaseGone = (s.procs p).leaseGone)
    (hw : ∀ t, At p phase' t → CanWin name p (Helped p) t) : CanWin name p (Helped p) s := by
  refine CanWin.of_step hh hs (hw _ ⟨h.proper.step hs, ?_, ?_, ?_⟩)
  all_goals simp only [Sys.set, Function.update_self]
  · exact hp
  · exact hc.trans h.active
  · exact hl.trans h.lease

theorem At.sleeping (h : At p .sleeping s) : CanWin name p (Helped p) s :=
  h.step (a := .retry) (by simp [helps]) (if_pos h.phase) rfl rfl rfl fun _ => At.looping

theorem At.expiring (h : At p .expiring s) : CanWin name p (Helped p) s :=
  h.step (a := .broadcastLoss) (by simp [helps]) (if_pos h.phase) rfl rfl rfl fun _ => At.looping

theorem At.leading_done (h : At p .leading s) (hd : (s.procs p).sessionDone = true) :
    CanWin name p (Helped p) s :=
  h.step (a := .loseLeadership) (by simp [helps]) (if_pos ⟨h.phase, hd⟩) rfl rfl rfl
    fun _ => At.expiring

/-- A leader comes back to its loop when the session ends, here before the lease. -/
theorem At.leading (h : At p .leading s) : CanWin name p (Helped p) s := by
  have hs : Election.step name s (p, .endSession) =
      some (s.set p { s.procs p with sessionDone := true }) := rfl
  refine CanWin.of_step (by simp [Helped, helps]) hs
    (At.leading_done ⟨h.proper.step hs, ?_, ?_, ?_⟩ ?_)
  all_goals simp only [Sys.set, Function.update_self]
  · exact h.phase
  · exact h.active
  · exact h.lease

theorem At.elected (h : At p .elected s) : CanWin name p (Helped p) s :=
  h.step (a := .becomeLeader) (by simp [helps]) (if_pos h.phase) rfl rfl rfl fun _ => At.leading

theorem canWin_of_lease (h : Proper s) (hs : (s.procs p).phase ≠ .unstarted)
    (hc : (s.procs p).cancelled = false) (hl : (s.procs p).leaseGone = false) :
    CanWin name p (Helped p) s := by
  cases hp : (s.procs p).phase with
  | unstarted => exact absurd hp hs
  | looping => exact At.looping ⟨h, hp, hc, hl⟩
  | waiting => exact canWin_of_waiting h hp
  | sleeping => exact At.sleeping ⟨h, hp, hc, hl⟩
  | elected => exact At.elected ⟨h, hp, hc, hl⟩
  | leading => exact At.leading ⟨h, hp, hc, hl⟩
  | expiring => exact At.expiring ⟨h, hp, hc, hl⟩
  | resigning | relinquishing | withdrawing | stopped =>
    have hcancel := h.stops p (by simp [hp, Phase.stops])
    rw [hc] at hcancel
    cases hcancel

/-- A process comes to its wait by `propose` alone, and only with its lease. -/
theorem waiting_of_step (hs : step name s (p, a) = some t) (ht : (t.procs p).phase = .waiting) :
    (s.procs p).phase = .waiting ∨ (s.procs p).leaseGone = false := by
  cases acts_of_step hs with
  | propose _ _ hl => exact .inr hl
  | elect hp | failResigned hp => exact .inl hp
  | stop phase _ _ hn =>
    have hw : phase = .waiting := by simpa [Sys.set, Process.goto] using ht
    simp [hw] at hn
  | start | retry | becomeLeader | wake | fail | resign | resigned | loseExpired | loseResigned
  | broadcastExpired | broadcastResigned => simp [Sys.set, Sys.dropKey, Process.goto] at ht
  | cancel | endSession | expire | emit | observe | broadcastLeader =>
    left
    simpa [Sys.set, Sys.dropKey, Process.observe, Process.broadcast] using ht

def Wedged (p : ν) (s : Sys ν) : Prop :=
  -- the lease is gone and no `Campaign` is under way that began before
  (s.procs p).leaseGone = true ∧ (s.procs p).phase ≠ .waiting

/-- No step renews the lease: the session is never created again. -/
theorem Wedged.step (h : Wedged p s) (hs : step name s (q, a) = some t) : Wedged p t := by
  obtain ⟨hgone, hphase⟩ := h
  obtain ⟨⟨proc, hproc, hm⟩, -⟩ := moves_of_step hs
  by_cases hq : p = q
  · subst hq
    constructor
    · rw [hproc, Function.update_self]
      cases hm with
      | expire => rfl
      | _ => exact hgone
    · intro ht
      cases waiting_of_step hs ht with
      | inl hw => exact hphase hw
      | inr hl =>
        rw [hgone] at hl
        cases hl
  · simp only [Wedged, hproc, Function.update_of_ne hq]
    exact ⟨hgone, hphase⟩

theorem Wedged.not_canWin {ok : Sys ν → ν × Action → Prop} (h : Wedged p s) :
    ¬CanWin name p ok s := by
  intro hwin
  obtain ⟨t, u, -, -, hreach, he, -⟩ := hwin
  have ht : Wedged p t :=
    hreach.invariant (I := Wedged p) h fun _ _ _ hi _ hs => hi.step hs
  simp [Election.step, ht.2] at he

/-- A process that is up can win again, with etcd reachable and the other holders gone,
exactly if its lease is still there or a `Campaign` with it is waiting; otherwise no
continuation at all lets it win. -/
theorem canWin_iff (h : Reach (Fires (step name)) anyStep (Sys.start ν) s)
    (hs : (s.procs p).phase ≠ .unstarted) (hc : (s.procs p).cancelled = false) :
    (CanWin name p (Helped p) s ↔
      (s.procs p).leaseGone = false ∨ (s.procs p).phase = .waiting) ∧
    (CanWin name p anyStep s ↔
      (s.procs p).leaseGone = false ∨ (s.procs p).phase = .waiting) := by
  have hproper := proper_of_reach h
  have hwin : (s.procs p).leaseGone = false ∨ (s.procs p).phase = .waiting →
      CanWin name p (Helped p) s := by
    intro hor
    cases hor with
    | inl hl => exact canWin_of_lease hproper hs hc hl
    | inr hp => exact canWin_of_waiting hproper hp
  have hlose : ∀ ok, CanWin name p ok s →
      (s.procs p).leaseGone = false ∨ (s.procs p).phase = .waiting := by
    intro ok hcan
    by_contra hnot
    have hwedged : Wedged p s := by simpa [Wedged] using hnot
    exact hwedged.not_canWin hcan
  exact ⟨⟨hlose _, hwin⟩, hlose _, fun hor => CanWin.mono (hwin hor) fun _ _ _ => trivial⟩

/-- Another process leads, and this one sleeps after a failed `Campaign`. -/
theorem canWin_iff_sleeping :
    ∃ s, Reach (Fires (step fun _ : Bool => "cp")) anyStep (Sys.start Bool) s ∧
      (s.procs true).phase = .sleeping ∧ (s.procs true).cancelled = false ∧
      s.holder = some false ∧ CanWin (fun _ => "cp") true (Helped true) s := by
  obtain ⟨s, hs, hp, hc, hl, hh⟩ : ∃ s, replay (step fun _ : Bool => "cp")
      [(false, .start), (false, .propose), (false, .elect), (false, .becomeLeader),
        (true, .start), (true, .fail false)] (Sys.start Bool) = some s ∧
      (s.procs true).phase = .sleeping ∧ (s.procs true).cancelled = false ∧
      (s.procs true).leaseGone = false ∧ s.holder = some false := ⟨_, rfl, rfl, rfl, rfl, rfl⟩
  have hreach := reach_of_replay hs
  exact ⟨s, hreach, hp, hc, hh, ((canWin_iff hreach (by simp [hp]) hc).1).mpr (.inl hl)⟩

/-- The lease of a leader runs out. The process is back in its loop, its context is not
cancelled, no key is in its way, and it never wins again. -/
theorem campaign_wedged :
    ∃ s, Reach (Fires (step fun _ : Unit => "cp-1")) anyStep (Sys.start Unit) s ∧
      (s.procs ()).phase = .looping ∧ (s.procs ()).cancelled = false ∧ s.keys = [] ∧
      ¬CanWin (fun _ => "cp-1") () anyStep s := by
  obtain ⟨s, hs, hp, hc, hk, hl⟩ : ∃ s, replay (step fun _ : Unit => "cp-1")
      [((), .start), ((), .propose), ((), .elect), ((), .becomeLeader), ((), .expire),
        ((), .endSession), ((), .loseLeadership), ((), .broadcastLoss)] (Sys.start Unit) = some s ∧
      (s.procs ()).phase = .looping ∧ (s.procs ()).cancelled = false ∧ s.keys = [] ∧
      (s.procs ()).leaseGone = true := ⟨_, rfl, rfl, rfl, rfl, rfl⟩
  have hwedged : Wedged () s := ⟨hl, by simp [hp]⟩
  exact ⟨s, reach_of_replay hs, hp, hc, hk, hwedged.not_canWin⟩

end Leibrix.Election

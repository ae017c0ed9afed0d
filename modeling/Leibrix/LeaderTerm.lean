import Leibrix.Election

/-! When a process takes itself for the leader. `campaign` sets the role after its own
election, `observeLeader` after any value with the node's name: also one sent before the
term was lost, and one of an earlier process of the node. -/
namespace Leibrix.Election
open Leibrix.Transition

variable {ν : Type} [DecidableEq ν] {name : ν → String} {s t : Sys ν} {won : ν → Bool}

def recordWon (_ : Sys ν) (l : ν × Action) (won : ν → Bool) : ν → Bool :=
  -- `Campaign` has succeeded and `loseLeadership` has not run since
  match l.2 with
  | .elect => Function.update won l.1 true
  | .loseLeadership => Function.update won l.1 false
  | _ => won

def OwnTerm (name : ν → String) (s : Sys ν × (ν → Bool)) (l : ν × Action) : Prop :=
  -- `observeLeader` comes to a value with the node's own name only during a term that this process
  -- has won
  l.2 = .observe → ∀ v rest, (s.1.procs l.1).observed = v :: rest →
    v.leaderName = name l.1 → s.2 l.1 = true

def Earned (proc : Process) (won : Bool) : Prop :=
  proc.role = .leader ∨ proc.phase = .elected → won = true

theorem Earned.moves {p : ν} {a : Action} {proc : Process} (h : Earned (s.procs p) (won p))
    (hc : OwnTerm name (s, won) (p, a)) (hm : Moves (name p) (s.procs p) a proc) :
    Earned proc (recordWon s (p, a) won p) := by
  have hkeep : a ≠ .loseLeadership → won p = true → recordWon s (p, a) won p = true := by
    intro ha hw
    cases a <;> simp_all [recordWon]
  intro hl
  cases hm with
  | goto _ phase hp ha =>
    refine hkeep ha (h (hl.imp_right fun he => ?_))
    exact absurd he hp
  | elect => simp [recordWon]
  | becomeLeader hp => exact h (.inr hp)
  | loseLeadership phase hp => simp [Process.loseLeadership, Process.goto, hp] at hl
  | observe v rest ho =>
    by_cases hv : v.leaderName = name p
    · exact hc rfl v rest ho hv
    · exact h (hl.imp_left fun hr => by simp [Process.observe, hv] at hr)
  | broadcastLoss ev phase hp =>
    exact h (hl.imp_right fun he => absurd he hp)
  | wait leaderRev => exact h (hl.imp_right fun he => by simp at he)
  | cancel | endSession | expire | emit v | broadcastLeader ev => exact h hl

theorem recordWon_of_ne {p q : ν} (hq : q ≠ p) (a : Action) :
    recordWon s (p, a) won q = won q := by
  cases a <;> simp [recordWon, Function.update_of_ne hq]

/-- In every run in which `observeLeader` takes its node's name for the leader's only
during a term the process has won, `IsLeader()` is true only during such a term. -/
theorem won_of_isLeader {s : Sys ν × (ν → Bool)} {p : ν}
    (h : Reach (Fires (recorded (step name) recordWon)) (OwnTerm name)
      (Sys.start ν, fun _ => false) s)
    (hl : (s.1.procs p).isLeader = true) : s.2 p = true := by
  have hinv : ∀ q, Earned (s.1.procs q) (s.2 q) := by
    refine h.invariant (I := fun s => ∀ q, Earned (s.1.procs q) (s.2 q)) ?_ ?_
    · intro q hq
      simp [Sys.start] at hq
    · intro u l v hu hc hs q
      obtain ⟨t, ht, rfl⟩ := Option.map_eq_some_iff.mp hs
      obtain ⟨⟨proc, hp, hm⟩, -⟩ := moves_of_step ht
      by_cases hq : q = l.1
      · subst hq
        simpa [hp] using (hu l.1).moves hc hm
      · simpa [hp, Function.update_of_ne hq, recordWon_of_ne hq] using hu q
  exact hinv p (.inl (by simpa [Process.isLeader] using hl))

def ownTerm (s : Sys ν × (ν → Bool)) (l : ν × Action) : Bool :=
  l.2 ≠ .observe || s.2 l.1

omit [DecidableEq ν] in
theorem ownTerm_sound (s : Sys ν × (ν → Bool)) (l : ν × Action) (h : ownTerm s l = true) :
    OwnTerm name s l := by
  intro ha _ _ _ _
  simpa [ownTerm, ha] using h

def firstTerm : List (Unit × Action) :=
  [((), .start), ((), .propose), ((), .elect), ((), .becomeLeader), ((), .emit)]

theorem won_of_isLeader_firstTerm :
    ∃ s, Reach (Fires (recorded (step fun _ : Unit => "cp-1") recordWon))
        (OwnTerm fun _ => "cp-1") (Sys.start Unit, fun _ => false) s ∧
      (s.1.procs ()).isLeader = true ∧ (s.1.procs ()).announcing.isSome = true ∧
      s.2 () = true := by
  obtain ⟨s, hs, hl, ha⟩ : ∃ s, replay (guarded ownTerm
      (recorded (step fun _ : Unit => "cp-1") recordWon)) (firstTerm ++ [((), .observe)])
      (Sys.start Unit, fun _ => false) = some s ∧ (s.1.procs ()).isLeader = true ∧
      (s.1.procs ()).announcing.isSome = true := ⟨_, rfl, rfl, rfl⟩
  have hreach : Reach (Fires (recorded (step fun _ : Unit => "cp-1") recordWon))
      (OwnTerm fun _ => "cp-1") (Sys.start Unit, fun _ => false) s :=
    (reach_of_replay hs).of_guarded ownTerm_sound
  exact ⟨s, hreach, hl, ha, won_of_isLeader hreach hl⟩

/-- A value sent during the term and handled after its loss makes the process leader
again, with its lease gone; and a process that has not even campaigned becomes leader by
the key of the one it replaces. -/
theorem isLeader_without_term :
    (∃ s, Reach (Fires (recorded (step fun _ : Unit => "cp-1") recordWon)) anyStep
        (Sys.start Unit, fun _ => false) s ∧
      (s.1.procs ()).isLeader = true ∧ (s.1.procs ()).leaseGone = true ∧ s.2 () = false) ∧
    ∃ s, Reach (Fires (recorded (step fun _ : Bool => "cp-1") recordWon)) anyStep
        (Sys.start Bool, fun _ => false) s ∧
      (s.1.procs true).isLeader = true ∧ (s.1.procs true).phase = .looping ∧
      s.2 true = false := by
  constructor
  · obtain ⟨s, hs, hp⟩ : ∃ s, replay (recorded (step fun _ : Unit => "cp-1") recordWon)
        (firstTerm ++ [((), .expire), ((), .endSession), ((), .loseLeadership),
          ((), .broadcastLoss), ((), .observe)]) (Sys.start Unit, fun _ => false) = some s ∧
        (s.1.procs ()).isLeader = true ∧ (s.1.procs ()).leaseGone = true ∧ s.2 () = false :=
      ⟨_, rfl, rfl, rfl, rfl⟩
    exact ⟨s, reach_of_replay hs, hp⟩
  · obtain ⟨s, hs, hp⟩ : ∃ s, replay (recorded (step fun _ : Bool => "cp-1") recordWon)
        [(false, .start), (false, .propose), (false, .elect), (false, .becomeLeader),
          (true, .start), (true, .emit), (true, .observe)] (Sys.start Bool, fun _ => false) =
          some s ∧
        (s.1.procs true).isLeader = true ∧ (s.1.procs true).phase = .looping ∧
        s.2 true = false := ⟨_, rfl, rfl, rfl, rfl⟩
    exact ⟨s, reach_of_replay hs, hp⟩

end Leibrix.Election

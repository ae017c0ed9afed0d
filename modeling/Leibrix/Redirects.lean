import Leibrix.LeaderWrites

/-! Calls of `requireLeader` on one node, among the updates of its election state. A call
asks `IsLeader` and then `LeaderName`, each under the lock; the updates are sections under
the same lock, and any of them may come between the two. -/
namespace Leibrix.Redirects
open Leibrix.Transition Leibrix.Election Leibrix.KeyValue Leibrix.Management
open Leibrix.LeaderWrites (leaderView)

inductive Update where
  | becomeLeader
  | loseLeadership
  | observeLeader (v : Observed)
deriving DecidableEq

def Update.apply (name : String) (proc : Process) : Update → Process
  | .becomeLeader => proc.becomeLeader name
  | .loseLeadership => proc.loseLeadership
  | .observeLeader v => proc.observe name v

def Update.Promotes (name : String) : Update → Prop
  | .becomeLeader => True
  | .loseLeadership => False
  | .observeLeader v => v.leaderName = name

instance (name : String) (u : Update) : Decidable (u.Promotes name) :=
  match u with
  | .becomeLeader => inferInstanceAs (Decidable True)
  | .loseLeadership => inferInstanceAs (Decidable False)
  | .observeLeader v => inferInstanceAs (Decidable (v.leaderName = name))

variable {ι β : Type} [DecidableEq ι] {name : String}

structure Node (ι β : Type) where
  proc : Process
  calls : ι → Rpc β (Except RpcError Unit)

def Node.start (name : String) : Node ι β := ⟨{}, fun _ => requireLeader ⟨name, true⟩⟩

inductive Label (ι : Type) where
  | update (u : Update)
  -- a call reads the election state
  | read (i : ι)
deriving DecidableEq

def step (name : String) (s : Node ι β) : Label ι → Option (Node ι β)
  | .update u => some { s with proc := u.apply name s.proc }
  | .read i =>
    match s.calls i with
    | .sense next =>
      some { s with calls := Function.update s.calls i (next (leaderView s.proc)) }
    | _ => none

def askLeaderName (name : String) : Rpc β (Except RpcError Unit) :=
  .sense fun view =>
    if view.leaderName = "" then
      .ret (.error (.status .unavailable "control plane leader is not ready yet"))
    else .ret (.error (.status .failedPrecondition (notLeaderText name view.leaderName)))

theorem requireLeader_eq : (requireLeader ⟨name, true⟩ : Rpc β (Except RpcError Unit)) =
    .sense fun view => if view.isLeader then .ret (.ok ()) else askLeaderName name := rfl

def Agrees (name : String) (view : LeaderView) : Prop :=
  view.isLeader = true ↔ view.leaderName = name

theorem agrees_apply (hname : name ≠ "") (proc : Process) (u : Update) :
    Agrees name (leaderView (u.apply name proc)) := by
  cases u with
  | becomeLeader => simp [Agrees, leaderView, Update.apply, Process.becomeLeader, Process.isLeader]
  | loseLeadership =>
    simp [Agrees, leaderView, Update.apply, Process.loseLeadership, Process.isLeader, hname.symm]
  | observeLeader v =>
    by_cases hv : v.leaderName = name
    · simp [Agrees, leaderView, Update.apply, Process.observe, Process.isLeader, hv]
    · simp [Agrees, leaderView, Update.apply, Process.observe, Process.isLeader, hv]

theorem isLeader_apply {proc : Process} {u : Update} (hu : ¬u.Promotes name) :
    (u.apply name proc).isLeader = false := by
  cases u with
  | becomeLeader => exact absurd trivial hu
  | loseLeadership => rfl
  | observeLeader v =>
    have hv : v.leaderName ≠ name := hu
    simp [Update.apply, Process.observe, Process.isLeader, hv]

theorem agrees_new (hname : name ≠ "") : Agrees name (leaderView {}) := by
  simp [Agrees, leaderView, Process.isLeader, hname.symm]

/-- Whatever a process does in the election, its view stays or is updated in one of the
three ways. -/
theorem view_of_moves {proc proc' : Process} {a : Action} (h : Moves name proc a proc') :
    leaderView proc' = leaderView proc ∨
      ∃ u : Update, leaderView proc' = leaderView (u.apply name proc) := by
  cases h with
  | becomeLeader => exact .inr ⟨.becomeLeader, rfl⟩
  | loseLeadership => exact .inr ⟨.loseLeadership, rfl⟩
  | observe v => exact .inr ⟨.observeLeader v, rfl⟩
  | goto | wait | elect | broadcastLoss | cancel | endSession | expire | emit | broadcastLeader =>
    exact .inl rfl

/-- So in the election the role and the name agree on every node, at any time. -/
theorem agrees_of_reach {ν : Type} [DecidableEq ν] {names : ν → String} {s : Sys ν} {p : ν}
    (hname : names p ≠ "") (h : Reach (Fires (Election.step names)) anyStep (Sys.start ν) s) :
    Agrees (names p) (leaderView (s.procs p)) := by
  refine h.invariant (I := fun s => Agrees (names p) (leaderView (s.procs p))) ?_ ?_
  · exact agrees_new hname
  · intro t l u ht _ hs
    obtain ⟨⟨proc, hprocs, hm⟩, -⟩ := moves_of_step hs
    by_cases hp : p = l.1
    · subst hp
      rw [hprocs, Function.update_self]
      cases view_of_moves hm with
      | inl hv => exact hv ▸ ht
      | inr hv =>
        obtain ⟨u, hv⟩ := hv
        exact hv ▸ agrees_apply hname _ u
    · rw [hprocs, Function.update_of_ne hp]
      exact ht

def NamesOther (name : String) (r : Except RpcError Unit) : Prop :=
  ∀ leaderName, r = .error (.status .failedPrecondition (notLeaderText name leaderName)) →
    leaderName ≠ name

def Apart (name : String) (i : ι) (s : Node ι β) : Label ι → Prop
  -- the node is not made leader while call `i` is between its two reads
  | .update u => u.Promotes name → s.calls i ≠ askLeaderName name
  | .read _ => True

inductive Progress (name : String) (s : Node ι β) (i : ι) : Prop
  | begun (hc : s.calls i = requireLeader ⟨name, true⟩)
  | refusing (hc : s.calls i = askLeaderName name) (hl : s.proc.isLeader = false)
  | returned (r : Except RpcError Unit) (hc : s.calls i = .ret r) (hr : NamesOther name r)

theorem notLeaderText_inj {nodeName leader leader' : String}
    (h : notLeaderText nodeName leader = notLeaderText nodeName leader') : leader = leader' := by
  have hl := congrArg String.toList h
  simp only [notLeaderText, String.toList_append, List.append_cancel_left_eq] at hl
  exact String.toList_inj.mp hl

theorem namesOther_of_agrees {view : LeaderView} (h : Agrees name view)
    (hl : view.isLeader = false) : NamesOther name
      (.error (.status .failedPrecondition (notLeaderText name view.leaderName))) := by
  intro leaderName heq hown
  obtain rfl : view.leaderName = leaderName := notLeaderText_inj (by simpa using heq)
  rw [h.mpr hown] at hl
  cases hl

variable {s t : Node ι β} {i : ι}

omit [DecidableEq ι] in
theorem Progress.update {u : Update} (h : Progress name s i) (ho : Apart name i s (.update u)) :
    Progress name { s with proc := u.apply name s.proc } i := by
  cases h with
  | begun hc => exact .begun hc
  | refusing hc hl => exact .refusing hc (isLeader_apply fun hu => ho hu hc)
  | returned r hc hr => exact .returned r hc hr

theorem Progress.read {next : LeaderView → Rpc β (Except RpcError Unit)}
    (h : Progress name s i) (ha : Agrees name (leaderView s.proc)) (hn : s.calls i = .sense next) :
    Progress name
      { s with calls := Function.update s.calls i (next (leaderView s.proc)) } i := by
  cases h with
  | begun hc =>
    rw [hn, requireLeader_eq] at hc
    obtain rfl := Prog.sense.inj hc
    by_cases hl : s.proc.isLeader = true
    · refine .returned (.ok ()) (by simp [leaderView, hl]) fun leaderName heq => ?_
      cases heq
    · exact .refusing (by simp [leaderView, hl]) (by simpa using hl)
  | refusing hc hl =>
    rw [hn, askLeaderName] at hc
    obtain rfl := Prog.sense.inj hc
    by_cases he : (leaderView s.proc).leaderName = ""
    · refine .returned (.error (.status .unavailable "control plane leader is not ready yet"))
        (by simp [he]) fun leaderName heq => ?_
      simp at heq
    · exact .returned _ (by simp only [Function.update_self, he, if_false])
        (namesOther_of_agrees ha hl)
  | returned r hc hr => simp [hn] at hc

theorem Progress.step {l : Label ι} (h : Progress name s i) (ha : Agrees name (leaderView s.proc))
    (ho : Apart name i s l) (hs : step name s l = some t) : Progress name t i := by
  cases l with
  | update u =>
    cases hs
    exact h.update ho
  | read j =>
    simp only [Redirects.step] at hs
    split at hs
    · rename_i next hn
      cases hs
      by_cases hj : i = j
      · subst hj
        exact h.read ha hn
      · have hframe : Function.update s.calls j (next (leaderView s.proc)) i = s.calls i :=
          Function.update_of_ne hj _ _
        cases h with
        | begun hc => exact .begun (hframe.trans hc)
        | refusing hc hl => exact .refusing (hframe.trans hc) hl
        | returned r hc hr => exact .returned r (hframe.trans hc) hr
    · cases hs

theorem agrees_step {l : Label ι} (hname : name ≠ "") (h : Agrees name (leaderView s.proc))
    (hs : step name s l = some t) : Agrees name (leaderView t.proc) := by
  cases l with
  | update u =>
    cases hs
    exact agrees_apply hname s.proc u
  | read j =>
    simp only [step] at hs
    split at hs
    · cases hs
      exact h
    · cases hs

theorem agrees_run {ok : Node ι β → Label ι → Prop} (hname : name ≠ "")
    (h : Reach (Fires (step name)) ok (Node.start name) s) : Agrees name (leaderView s.proc) :=
  h.invariant (I := fun s => Agrees name (leaderView s.proc)) (agrees_new hname)
    fun _ _ _ hu _ hs => agrees_step hname hu hs

/-- In every run the node is leader exactly if the name it has is its own; and if it is not
made leader between the two reads of a call, that call is not told the node's own name. -/
theorem redirected_elsewhere (hname : name ≠ "") (s : Node ι β) (i : ι) :
    (Reach (Fires (step name)) anyStep (Node.start name) s →
      (s.proc.role = .leader ↔ s.proc.currentLeader = name)) ∧
    (Reach (Fires (step name)) (Apart name i) (Node.start name) s →
      ∀ leaderName, s.calls i =
          .ret (.error (.status .failedPrecondition (notLeaderText name leaderName))) →
        leaderName ≠ name) := by
  constructor
  · intro h
    simpa [Agrees, leaderView, Process.isLeader] using agrees_run hname h
  · intro h leaderName hret
    have hinv : Agrees name (leaderView s.proc) ∧ Progress name s i := by
      refine h.invariant (I := fun s => Agrees name (leaderView s.proc) ∧ Progress name s i)
        ⟨agrees_new hname, .begun rfl⟩ fun t l u ht ho hs => ?_
      exact ⟨agrees_step hname ht.1 hs, ht.2.step ht.1 ho hs⟩
    cases hinv.2 with
    | begun hc => simp [hret, requireLeader_eq] at hc
    | refusing hc => simp [hret, askLeaderName] at hc
    | returned r hc hr =>
      rw [hret] at hc
      exact hr leaderName (Prog.ret.inj hc).symm

def apart (name : String) (i : ι) (s : Node ι β) : Label ι → Bool
  | .update u => !decide (u.Promotes name) || (match s.calls i with
    | .ret _ => true
    | _ => false)
  | .read _ => true

omit [DecidableEq ι] in
theorem apart_sound (s : Node ι β) (l : Label ι) (h : apart name i s l = true) :
    Apart name i s l := by
  cases l with
  | read j => trivial
  | update u =>
    intro hu hc
    simp [apart, hu, hc, askLeaderName] at h

/-- The node hears of another leader while a call is between its reads, and is elected when
the call has returned. -/
theorem redirected_elsewhere_run :
    ∃ s : Node Unit Unit,
      Reach (Fires (step "cp-1")) (Apart "cp-1" ()) (Node.start "cp-1") s ∧
      s.proc.role = .leader ∧ s.proc.currentLeader = "cp-1" ∧
      s.calls () = .ret (.error (.status .failedPrecondition (notLeaderText "cp-1" "cp-2"))) ∧
      "cp-2" ≠ "cp-1" := by
  obtain ⟨s, hs, hr, hc⟩ : ∃ s : Node Unit Unit, replay (guarded (apart "cp-1" ()) (step "cp-1"))
      [.read (), .update (.observeLeader ⟨"cp-2", 7⟩), .read (), .update .becomeLeader]
      (Node.start "cp-1") = some s ∧ s.proc.role = .leader ∧
      s.calls () = .ret (.error (.status .failedPrecondition (notLeaderText "cp-1" "cp-2"))) :=
    ⟨_, rfl, rfl, rfl⟩
  have hreach : Reach (Fires (step "cp-1")) (Apart "cp-1" ()) (Node.start "cp-1") s :=
    (reach_of_replay hs).of_guarded apart_sound
  have hname : "cp-1" ≠ "" := by decide
  have hboth := redirected_elsewhere hname s ()
  have hleader := (hboth.1 (hreach.mono fun _ _ _ => trivial)).mp hr
  exact ⟨s, hreach, hr, hleader, hc, hboth.2 hreach "cp-2" hc⟩

/-- The node is elected between the two reads of a call. -/
theorem redirected_to_itself :
    ∃ s : Node Unit Unit, Reach (Fires (step "cp-1")) anyStep (Node.start "cp-1") s ∧
      s.calls () =
        .ret (.error (.status .failedPrecondition (notLeaderText "cp-1" "cp-1"))) := by
  obtain ⟨s, hs, hc⟩ : ∃ s : Node Unit Unit, replay (step "cp-1")
      [.read (), .update .becomeLeader, .read ()] (Node.start "cp-1") = some s ∧
      s.calls () =
        .ret (.error (.status .failedPrecondition (notLeaderText "cp-1" "cp-1"))) :=
    ⟨_, rfl, rfl⟩
  exact ⟨s, reach_of_replay hs, hc⟩

end Leibrix.Redirects

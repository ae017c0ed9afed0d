import Leibrix.Listeners
import Leibrix.Tasks

/-! `internal/cluster/membership_listener.go`: the queue between the callbacks of a
`MembershipListener` and the application. Each callback starts a goroutine that tries to
enqueue its event until it succeeds or its time is over, so events enter in the order in
which the goroutines succeed, not in that of the calls. -/
namespace Leibrix.EventQueue
open Leibrix.Transition Leibrix.Election Leibrix.Listeners

inductive Kind where
  | leader (type : EventType)
  | membership (type : MembershipEventType)
deriving DecidableEq

structure Event where
  type : Kind
  leader : Option LeaderEvent
  member : Option MembershipEvent
  fencing : Nat
  timestamp : Int
deriving DecidableEq

def onLeaderChange (ev : LeaderEvent) (now : Int) : Event :=
  ⟨.leader ev.type, some ev, none, ev.epoch, now⟩

def onMembershipChange (ev : MembershipEvent) (now : Int) : Event :=
  ⟨.membership ev.type, none, some ev, 0, now⟩

structure Sys where
  -- the goroutines of `tryAddEvent`, in the order of the calls, and the queue
  tasks : Tasks Event
  queue : List Event

def Sys.start : Sys := ⟨Tasks.empty _, []⟩

inductive Label where
  | leaderChange (ev : LeaderEvent) (now : Int)
  | membershipChange (ev : MembershipEvent) (now : Int)
  -- one `TryEnqueue`; after a failure `Retry` gives up if the time is over
  | tryEnqueue (n : Nat) (timeOver : Bool)
  | tryDequeue
deriving DecidableEq

def step (queueSize : Nat) (s : Sys) : Label → Option Sys
  | .leaderChange ev now => some { s with tasks := s.tasks.start (onLeaderChange ev now) }
  | .membershipChange ev now => some { s with tasks := s.tasks.start (onMembershipChange ev now) }
  | .tryEnqueue n timeOver =>
    if h : s.tasks.Running n then
      if s.queue.length < queueSize then
        some ⟨s.tasks.finish n h, s.queue ++ [s.tasks.task n h]⟩
      else some (if timeOver then { s with tasks := s.tasks.finish n h } else s)
    else none
  | .tryDequeue =>
    match s.queue with
    | _ :: rest => some { s with queue := rest }
    | [] => none

structure History where
  -- the calls whose events entered the queue, in that order
  entered : List Nat := []
  dequeued : List Event := []
  -- for each call, the goroutines that had finished when it was made
  earlier : List (List Nat) := []

def record (queueSize : Nat) (s : Sys) (l : Label) (h : History) : History :=
  match l with
  | .leaderChange _ _ | .membershipChange _ _ =>
    { h with earlier := h.earlier ++ [s.tasks.finished] }
  | .tryEnqueue n _ =>
    if s.queue.length < queueSize then { h with entered := h.entered ++ [n] } else h
  | .tryDequeue => { h with dequeued := h.dequeued ++ s.queue.take 1 }

def History.FinishedBefore (h : History) (m n : Nat) : Prop :=
  ∃ l, h.earlier[n]? = some l ∧ m ∈ l

def electedToken (ev : Event) : Option Nat :=
  if ev.type = .leader .leaderElected then some ev.fencing else none

structure Ordered (s : Sys) (h : History) : Prop where
  -- goroutines that had finished before a call enter before its own, if at all
  calls : h.earlier.length = s.tasks.started.length
  entered : ∀ n ∈ h.entered, n ∈ s.tasks.finished
  nodup : h.entered.Nodup
  line : h.dequeued ++ s.queue = h.entered.filterMap (s.tasks.started[·]?)
  earlier : ∀ m n, h.FinishedBefore m n → m ∈ s.tasks.finished
  order : ∀ m n, h.FinishedBefore m n → m ∈ h.entered → n ∈ h.entered →
    Tasks.Before h.entered m n

theorem ordered_start : Ordered Sys.start {} := by
  refine ⟨rfl, fun n hn => ?_, List.nodup_nil, rfl, fun m n hf => ?_, fun m n _ hm => ?_⟩
  · cases hn
  · obtain ⟨l, hl, -⟩ := hf
    cases hl
  · cases hm

variable {queueSize : Nat} {s t : Sys} {h : History}

/-- What had finished when the last call was made, or an earlier one. -/
theorem finishedBefore_append {finished : List Nat} {m n : Nat}
    (hf : History.FinishedBefore { h with earlier := h.earlier ++ [finished] } m n) :
    h.FinishedBefore m n ∨ n = h.earlier.length ∧ m ∈ finished := by
  obtain ⟨l, hl, hm⟩ := hf
  by_cases hn : n < h.earlier.length
  · exact .inl ⟨l, by rwa [List.getElem?_append_left hn] at hl, hm⟩
  · have hlt := (List.getElem?_eq_some_iff.mp hl).1
    have hlen : n = h.earlier.length := by
      rw [List.length_append, List.length_singleton] at hlt
      omega
    subst hlen
    rw [List.getElem?_concat_length] at hl
    cases hl
    exact .inr ⟨rfl, hm⟩

theorem Ordered.call (ho : Ordered s h) (ev : Event) :
    Ordered { s with tasks := s.tasks.start ev }
      { h with earlier := h.earlier ++ [s.tasks.finished] } := by
  refine ⟨by simp [Tasks.start, ho.calls], ho.entered, ho.nodup, ?_, fun m n hf => ?_,
    fun m n hf hm hn => ?_⟩
  · rw [ho.line]
    exact (Tasks.filterMap_start ho.entered ev).symm
  · rcases finishedBefore_append hf with hf | ⟨-, hm⟩
    · exact ho.earlier m n hf
    · exact hm
  · rcases finishedBefore_append hf with hf | ⟨hlen, -⟩
    · exact ho.order m n hf hm hn
    · -- the call that is being made has not entered anything yet
      have hlt := s.tasks.lt n (ho.entered n hn)
      rw [hlen, ho.calls] at hlt
      exact absurd hlt (Nat.lt_irrefl _)

theorem Ordered.enqueue (ho : Ordered s h) {n : Nat} (hr : s.tasks.Running n) :
    Ordered ⟨s.tasks.finish n hr, s.queue ++ [s.tasks.task n hr]⟩
      { h with entered := h.entered ++ [n] } := by
  -- a goroutine succeeds: those it comes after had finished before its call, and those still
  -- running had not
  have hn : n ∉ h.entered := fun hn => hr.2 (ho.entered n hn)
  refine ⟨ho.calls, fun m hm => ?_, ?_, ?_, fun m k hf => ?_, fun m k hf hm hk => ?_⟩
  · rcases List.mem_append.mp hm with hm | hm
    · exact List.mem_append_left _ (ho.entered m hm)
    · exact List.mem_append_right _ hm
  · rw [List.nodup_append_comm]
    simpa using ⟨hn, ho.nodup⟩
  · have hline : h.dequeued ++ s.queue = h.entered.filterMap (s.tasks.started[·]?) := ho.line
    simp [← List.append_assoc, hline, Tasks.finish, Tasks.task, List.getElem?_eq_getElem hr.1]
  · exact List.mem_append_left _ (ho.earlier m k hf)
  · have hmn : m ≠ n := fun he => hr.2 (he ▸ ho.earlier m k hf)
    have hold : m ∈ h.entered := by simpa [hmn] using hm
    by_cases hkn : k = n
    · rw [hkn]
      exact Tasks.before_append hold hn
    · have hk : k ∈ h.entered := by simpa [hkn] using hk
      exact (ho.order m k hf hold hk).append hold hk

theorem Ordered.giveUp (ho : Ordered s h) {n : Nat} (hr : s.tasks.Running n) :
    Ordered { s with tasks := s.tasks.finish n hr } h :=
  ⟨ho.calls, fun m hm => List.mem_append_left _ (ho.entered m hm), ho.nodup, ho.line,
    fun m n hf => List.mem_append_left _ (ho.earlier m n hf), ho.order⟩

theorem Ordered.step {l : Label} (ho : Ordered s h) (hs : step queueSize s l = some t) :
    Ordered t (record queueSize s l h) := by
  cases l with
  | leaderChange ev now =>
    cases hs
    exact ho.call _
  | membershipChange ev now =>
    cases hs
    exact ho.call _
  | tryEnqueue n timeOver =>
    simp only [EventQueue.step] at hs
    split at hs
    · rename_i hr
      split at hs
      · rename_i hroom
        cases hs
        simp only [record, if_pos hroom]
        exact ho.enqueue hr
      · rename_i hfull
        cases hs
        simp only [record, if_neg hfull]
        split
        · exact ho.giveUp hr
        · exact ho
    · cases hs
  | tryDequeue =>
    simp only [EventQueue.step] at hs
    split at hs
    · rename_i ev rest hq
      cases hs
      refine ⟨ho.calls, ho.entered, ho.nodup, ?_, ho.earlier, ho.order⟩
      have hline := ho.line
      rw [hq] at hline
      simpa [record, hq] using hline
    · cases hs

/-- An event enters the queue at most once and leaves it in the order of entering. It
enters before those of calls made after its goroutine had finished. So the tokens of
elections do not decrease if those of the calls do not and each of these calls is made
after the goroutines of the earlier ones have finished. -/
theorem dequeued_in_order {s : Sys × History}
    (h : Reach (Fires (recorded (step queueSize) (record queueSize))) anyStep (Sys.start, {}) s) :
    s.2.entered.Nodup ∧
    s.2.dequeued ++ s.1.queue = s.2.entered.filterMap (s.1.tasks.started[·]?) ∧
    (∀ m n, s.2.FinishedBefore m n → m ∈ s.2.entered → n ∈ s.2.entered →
      Tasks.Before s.2.entered m n) ∧
    ((∀ m n a b, m < n → (s.1.tasks.started[m]?).bind electedToken = some a →
        (s.1.tasks.started[n]?).bind electedToken = some b →
        a ≤ b ∧ s.2.FinishedBefore m n) →
      (s.2.dequeued.filterMap electedToken).Pairwise (· ≤ ·)) := by
  have ho : Ordered s.1 s.2 := by
    refine h.invariant (I := fun s => Ordered s.1 s.2) ordered_start ?_
    intro u l v hu _ hs
    obtain ⟨t, ht, rfl⟩ := Option.map_eq_some_iff.mp hs
    exact hu.step ht
  refine ⟨ho.nodup, ho.line, ho.order, fun hcalls => ?_⟩
  have htokens : ((s.2.entered.filterMap (s.1.tasks.started[·]?)).filterMap
      electedToken).Pairwise (· ≤ ·) := by
    rw [List.filterMap_filterMap, List.pairwise_filterMap]
    refine (Tasks.pairwise_before ho.nodup).imp_of_mem fun {m n} hm hn hmn a ha b hb => ?_
    rcases Nat.lt_trichotomy m n with hlt | heq | hgt
    · exact (hcalls m n a b hlt ha hb).1
    · exact absurd hmn (heq ▸ Nat.lt_irrefl _)
    · exact absurd hmn (ho.order n m (hcalls n m b a hgt hb ha).2 hn hm).not_before
  rw [← ho.line, List.filterMap_append] at htokens
  exact (List.pairwise_append.mp htokens).1

def elected (epoch : Nat) : LeaderEvent := ⟨.leaderElected, "cp-1", epoch⟩

/-- The second call is made after the goroutine of the first has finished. -/
theorem dequeued_in_order_spaced :
    ∃ s, Reach (Fires (recorded (step 4) (record 4))) anyStep (Sys.start, {}) s ∧
      s.2.dequeued = [onLeaderChange (elected 5) 100, onLeaderChange (elected 8) 101] ∧
      (s.2.dequeued.filterMap electedToken).Pairwise (· ≤ ·) := by
  obtain ⟨s, hs, hd, he, hst⟩ : ∃ s, replay (recorded (step 4) (record 4))
      [.leaderChange (elected 5) 100, .tryEnqueue 0 false, .leaderChange (elected 8) 101,
        .tryEnqueue 1 false, .tryDequeue, .tryDequeue] (Sys.start, {}) = some s ∧
      s.2.dequeued = [onLeaderChange (elected 5) 100, onLeaderChange (elected 8) 101] ∧
      s.2.earlier = [[], [0]] ∧
      s.1.tasks.started = [onLeaderChange (elected 5) 100, onLeaderChange (elected 8) 101] :=
    ⟨_, rfl, rfl, rfl, rfl⟩
  have hreach := reach_of_replay hs
  refine ⟨s, hreach, hd, (dequeued_in_order hreach).2.2.2 fun m n a b hmn ha hb => ?_⟩
  rw [hst] at ha hb
  obtain ⟨ev, hev, -⟩ := Option.bind_eq_some_iff.mp hb
  have hn : n < 2 := (List.getElem?_eq_some_iff.mp hev).1
  obtain ⟨rfl, rfl⟩ : m = 0 ∧ n = 1 := by omega
  obtain rfl : 5 = a := Option.some.inj ha
  obtain rfl : 8 = b := Option.some.inj hb
  exact ⟨by decide, [0], by rw [he]; rfl, by simp⟩

/-- The goroutine of the second call is the first to enqueue. -/
theorem dequeued_out_of_order :
    ∃ s, Reach (Fires (recorded (step 4) (record 4))) anyStep (Sys.start, {}) s ∧
      s.1.tasks.started.filterMap electedToken = [5, 8] ∧
      s.2.dequeued.filterMap electedToken = [8, 5] := by
  obtain ⟨s, hs, hp⟩ : ∃ s, replay (recorded (step 4) (record 4))
      [.leaderChange (elected 5) 100, .leaderChange (elected 8) 101, .tryEnqueue 1 false,
        .tryEnqueue 0 false, .tryDequeue, .tryDequeue] (Sys.start, {}) = some s ∧
      s.1.tasks.started.filterMap electedToken = [5, 8] ∧
      s.2.dequeued.filterMap electedToken = [8, 5] := ⟨_, rfl, rfl, rfl⟩
  exact ⟨s, reach_of_replay hs, hp⟩

end Leibrix.EventQueue

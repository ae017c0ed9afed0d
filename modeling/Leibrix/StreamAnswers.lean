import Leibrix.StreamLoop

/-! The answers to the messages of one stream. Each handler makes one, and takes it through
`Send` into the session's outbox, unless the session has ended by then. -/
namespace Leibrix.StreamAnswers
open Leibrix.Events Leibrix.Transition

variable {serverId : String} {s t : Sys} {l : Label} {h : History}

def Outgoing.task : Outgoing → Option Nat
  | .answer n _ => some n
  | .pushed _ => none

-- The messages whose answers are in the outbox or have left it.
def History.answered (h : History) : List Nat := h.outbox.accepted.filterMap Outgoing.task

def places (s : Sys) (h : History) (n : Nat) : Nat :=
  -- in how many places the answer to a message is: before `Send`, in `Send`, accepted, or refused
  (if (s.acks n).isSome then 1 else 0) +
    ((if (s.session.sends (.handler n)).isSome then 1 else 0) +
      (h.answered.count n + h.refused.count n))

def Carries (handled : Nat → Option Ack) : Sender → Outgoing → Prop
  | .handler n, msg => ∃ ack, msg = .answer n ack ∧ handled n = some ack
  | .push _, msg => msg.task = none

structure Answers (serverId : String) (s : Sys) (h : History) : Prop where
  count : ∀ n, places s h n = s.tasks.finished.count n
  handled : ∀ n ack, h.handled n = some ack → ∃ msg now st, s.tasks.started[n]? = some msg ∧
    ack = (handleEventAsync serverId now msg st).1
  acks : ∀ n ack, s.acks n = some ack → h.handled n = some ack
  sending : ∀ i msg, s.session.sends i = some msg → Carries h.handled i msg
  accepted : ∀ n ack, .answer n ack ∈ h.outbox.accepted → h.handled n = some ack
  refused : h.refused ≠ [] → s.session.closed = true ∨ s.session.done = true
  outbox : s.session.outboxClosed = true → s.session.closed = true

theorem answers_start : Answers serverId Sys.start {} := by
  constructor <;> simp [Sys.start, places, History.answered, Tasks.empty]

/-- A handler that is running has no answer anywhere. -/
theorem Answers.running {n : Nat} (hi : Answers serverId s h) (hn : s.tasks.Running n) :
    s.acks n = none ∧ s.session.sends (.handler n) = none ∧ n ∉ h.answered := by
  have hcount := hi.count n
  rw [List.count_eq_zero.mpr hn.2] at hcount
  simp only [places, Nat.add_eq_zero_iff, List.count_eq_zero] at hcount
  obtain ⟨ha, hs, hacc, -⟩ := hcount
  exact ⟨by simpa using ha, by simpa using hs, hacc⟩

theorem Answers.dispatch {msg : EventStreamMessage} {loop : Loop} (hi : Answers serverId s h) :
    Answers serverId { s with loop := loop, tasks := s.tasks.start msg } h := by
  refine ⟨hi.count, fun n ack hn => ?_, hi.acks, hi.sending, hi.accepted, hi.refused, hi.outbox⟩
  obtain ⟨msg', now, st, hmsg, hack⟩ := hi.handled n ack hn
  refine ⟨msg', now, st, ?_, hack⟩
  obtain ⟨hlt, -⟩ := List.getElem?_eq_some_iff.mp hmsg
  rw [Tasks.start, List.getElem?_append_left hlt]
  exact hmsg

theorem Answers.handle {n : Nat} {now : Int} {ack : Ack} {st st' : ControlPlaneStateStore}
    (hi : Answers serverId s h) (hn : s.tasks.Running n)
    (hack : ack = (handleEventAsync serverId now (s.tasks.task n hn) st).1) :
    Answers serverId
      { s with
        tasks := s.tasks.finish n hn
        acks := Function.update s.acks n (some ack)
        store := st' }
      { h with handled := Function.update h.handled n (some ack) } := by
  obtain ⟨hnone, hsend, hacc⟩ := hi.running hn
  -- no answer to this message is anywhere yet, and those to others stay where they are
  have hkeep : ∀ m ack', m ≠ n → h.handled m = some ack' →
      Function.update h.handled n (some ack) m = some ack' := by
    intro m ack' hm ha
    rw [Function.update_of_ne hm]
    exact ha
  refine ⟨fun m => ?_, fun m ack' hm => ?_, fun m ack' hm => ?_, fun i msg hm => ?_,
    fun m ack' hm => ?_, hi.refused, hi.outbox⟩
  · have hcount := hi.count m
    by_cases hmn : m = n
    · subst hmn
      simp only [places, hnone, Option.isSome_none, Bool.false_eq_true, if_false,
        Nat.zero_add] at hcount
      simp only [places, Function.update_self, Option.isSome_some, if_true, Tasks.finish,
        List.count_append, List.count_singleton_self, ← hcount, History.answered]
      omega
    · simpa [places, Tasks.finish, Function.update_of_ne hmn, List.count_append,
        List.count_singleton, Ne.symm hmn, History.answered] using hcount
  · by_cases hmn : m = n
    · subst hmn
      obtain rfl : ack = ack' := by simpa using hm
      exact ⟨s.tasks.task m hn, now, st, List.getElem?_eq_getElem hn.1, hack⟩
    · exact hi.handled m ack' (by simpa [Function.update_of_ne hmn] using hm)
  · by_cases hmn : m = n
    · subst hmn
      simpa using hm
    · exact hkeep m ack' hmn (hi.acks m ack' (by simpa [Function.update_of_ne hmn] using hm))
  · have hc := hi.sending i msg hm
    cases i with
    | push k => exact hc
    | handler m =>
      have hmn : m ≠ n := by
        rintro rfl
        rw [hsend] at hm
        cases hm
      obtain ⟨ack', hmsg, ha⟩ := hc
      exact ⟨ack', hmsg, hkeep m ack' hmn ha⟩
  · have hmn : m ≠ n := by
      rintro rfl
      exact hacc (List.mem_filterMap.mpr ⟨_, hm, rfl⟩)
    exact hkeep m ack' hmn (hi.accepted m ack' hm)

theorem Answers.ends {u : Outbox.Sys Sender Outgoing} {outbox : Outbox.History Outgoing}
    (hi : Answers serverId s h) (he : Ends s.session u) (hs : u.sends = s.session.sends)
    (ha : outbox.accepted = h.outbox.accepted) :
    Answers serverId { s with session := u } { h with outbox := outbox } := by
  refine ⟨fun n => ?_, hi.handled, hi.acks, fun i msg hm => ?_, fun n ack hm => ?_, fun hr => ?_,
    he.outbox hi.outbox⟩
  · simpa [places, History.answered, hs, ha] using hi.count n
  · exact hi.sending i msg (hs ▸ hm)
  · exact hi.accepted n ack (ha ▸ hm)
  · exact (hi.refused hr).imp he.closed he.done

theorem Answers.sending_setSend {i : Sender} {v : Option Outgoing} (hi : Answers serverId s h)
    (hv : ∀ msg, v = some msg → Carries h.handled i msg) (j : Sender) (msg : Outgoing)
    (hm : (s.session.setSend i v).sends j = some msg) : Carries h.handled j msg := by
  by_cases hj : j = i
  · subst hj
    exact hv msg (by simpa [Outbox.Sys.setSend] using hm)
  · exact hi.sending j msg (by simpa [Outbox.Sys.setSend, Function.update_of_ne hj] using hm)

theorem Answers.begin {n : Nat} {ack : Ack} (hi : Answers serverId s h)
    (hn : s.acks n = some ack) (hs : s.session.sends (.handler n) = none) :
    Answers serverId { s with
      session := s.session.setSend (.handler n) (some (.answer n ack))
      acks := Function.update s.acks n none } h := by
  refine ⟨fun m => ?_, hi.handled, fun m ack' hm => ?_, ?_, hi.accepted, hi.refused, hi.outbox⟩
  · rw [← hi.count m]
    by_cases hmn : m = n
    · subst hmn
      simp [places, Outbox.Sys.setSend, hn, hs]
    · simp [places, Outbox.Sys.setSend, hmn]
  · by_cases hmn : m = n
    · simp [hmn] at hm
    · exact hi.acks m ack' (by simpa [Function.update_of_ne hmn] using hm)
  · refine hi.sending_setSend fun msg hm => ?_
    cases hm
    exact ⟨ack, rfl, hi.acks n ack hn⟩

theorem Answers.late {n : Nat} {ack : Ack} (hi : Answers serverId s h)
    (hn : s.acks n = some ack) (hc : s.session.closed = true) :
    Answers serverId { s with acks := Function.update s.acks n none }
      { h with refused := h.refused ++ [n] } := by
  refine ⟨fun m => ?_, hi.handled, fun m ack' hm => ?_, hi.sending, hi.accepted, fun _ => .inl hc,
    hi.outbox⟩
  · rw [← hi.count m]
    by_cases hmn : m = n
    · subst hmn
      simp only [places, hn, Function.update_self, Option.isSome_none, Option.isSome_some,
        Bool.false_eq_true, if_false, if_true, List.count_append, List.count_singleton_self,
        History.answered]
      omega
    · simp [places, Ne.symm hmn, hmn, List.count_append, History.answered]
  · by_cases hmn : m = n
    · simp [hmn] at hm
    · exact hi.acks m ack' (by simpa [Function.update_of_ne hmn] using hm)

theorem Answers.push {k : Nat} {v : Option Outgoing} {outbox : Outbox.History Outgoing}
    {queue : List Outgoing} (hi : Answers serverId s h)
    (hv : ∀ msg, v = some msg → msg.task = none)
    (ha : ∃ pushed, outbox.accepted = h.outbox.accepted ++ pushed ∧
      ∀ msg ∈ pushed, msg.task = none) :
    Answers serverId { s with
        session := { s.session with outbox := queue }.setSend (.push k) v }
      { h with outbox := outbox } := by
  obtain ⟨pushed, ha, hp⟩ := ha
  refine ⟨fun n => ?_, hi.handled, hi.acks, hi.sending_setSend hv, fun n ack hm => ?_, hi.refused,
    hi.outbox⟩
  · rw [← hi.count n]
    have hnil : pushed.filterMap Outgoing.task = [] := List.filterMap_eq_nil_iff.mpr hp
    simp [places, Outbox.Sys.setSend, History.answered, ha, hnil]
  · rw [ha] at hm
    cases List.mem_append.mp hm with
    | inl hm => exact hi.accepted n ack hm
    | inr hm => cases hp _ hm

theorem Answers.accept {n : Nat} {msg : Outgoing} {outbox : Outbox.History Outgoing}
    {queue : List Outgoing} (hi : Answers serverId s h)
    (hm : s.session.sends (.handler n) = some msg)
    (ha : outbox.accepted = h.outbox.accepted ++ [msg]) :
    Answers serverId { s with
        session := { s.session with outbox := queue }.setSend (.handler n) none }
      { h with outbox := outbox } := by
  obtain ⟨ack, rfl, hack⟩ := hi.sending _ _ hm
  refine ⟨fun m => ?_, hi.handled, hi.acks, hi.sending_setSend (by simp), fun m ack' hmem => ?_,
    hi.refused, hi.outbox⟩
  · rw [← hi.count m]
    by_cases hmn : m = n
    · subst hmn
      have htask : [Outgoing.answer m ack].filterMap Outgoing.task = [m] := rfl
      simp only [places, Outbox.Sys.setSend, History.answered, ha, hm, Function.update_self,
        Option.isSome_none, Option.isSome_some, Bool.false_eq_true, if_false, if_true,
        List.filterMap_append, htask, List.count_append, List.count_singleton_self]
      omega
    · simp [places, Outbox.Sys.setSend, History.answered, ha, Outgoing.task, hmn,
        List.count_append, Ne.symm hmn]
  · rw [ha] at hmem
    cases List.mem_append.mp hmem with
    | inl hmem => exact hi.accepted m ack' hmem
    | inr hmem =>
      obtain ⟨rfl, rfl⟩ : m = n ∧ ack' = ack := by simpa using hmem
      exact hack

theorem Answers.refuse {n : Nat} {outbox : Outbox.History Outgoing} (hi : Answers serverId s h)
    (hm : (s.session.sends (.handler n)).isSome)
    (hc : s.session.done = true ∨ s.session.outboxClosed = true)
    (ha : outbox.accepted = h.outbox.accepted) :
    Answers serverId { s with session := s.session.setSend (.handler n) none }
      { h with refused := h.refused ++ [n], outbox := outbox } := by
  refine ⟨fun m => ?_, hi.handled, hi.acks, hi.sending_setSend (by simp), fun m ack hmem => ?_,
    fun _ => ?_, hi.outbox⟩
  · rw [← hi.count m]
    by_cases hmn : m = n
    · subst hmn
      simp only [places, Outbox.Sys.setSend, History.answered, ha, hm, Function.update_self,
        Option.isSome_none, Bool.false_eq_true, if_false, if_true, List.count_append,
        List.count_singleton_self]
      omega
    · simp [places, Outbox.Sys.setSend, History.answered, ha, hmn, List.count_append,
        Ne.symm hmn]
  · exact hi.accepted m ack (ha ▸ hmem)
  · exact hc.symm.imp hi.outbox id

theorem Answers.step (hi : Answers serverId s h) (hs : step serverId s l = some t) :
    Answers serverId t (record serverId s l h) := by
  cases moves_of_step hs with
  | receive | handOver | abandon | seeDone | seeClosed | elsewhere =>
    exact ⟨hi.count, hi.handled, hi.acks, hi.sending, hi.accepted, hi.refused, hi.outbox⟩
  | dispatch => exact hi.dispatch
  | handle n now hn =>
    simp only [record, dif_pos hn]
    exact hi.handle hn rfl
  | answer n ack u hn hu =>
    cases sends_of_step hu with
    | begin _ _ hc hfree =>
      simp only [record, hc, Bool.false_eq_true, if_false]
      exact hi.begin hn hfree
    | late _ _ hc =>
      simp only [record, hc, if_true]
      exact hi.late hn hc
    | refuse _ _ _ hl => simp at hl
    | keep _ _ _ _ hl => cases hl
  | push k eventId u hu =>
    cases sends_of_step hu with
    | begin => exact hi.push (by simp [Outgoing.task]) ⟨[], by simp⟩
    | late => exact hi
    | refuse _ _ _ hl => simp at hl
    | keep _ _ _ _ hl => cases hl
  | session l u hl hu =>
    cases sends_of_step hu with
    | begin => cases hl
    | late => cases hl
    | accept i msg hm =>
      cases i with
      | handler n =>
        simp only [record, refuses, List.append_nil]
        exact hi.accept hm (by simp [Outbox.record, hm])
      | push k =>
        simp only [record, refuses, List.append_nil]
        have hpush : msg.task = none := hi.sending _ _ hm
        exact hi.push (by simp) ⟨[msg], by simp [Outbox.record, hm], by simpa using hpush⟩
    | refuse _ i hm hl hc =>
      cases i with
      | handler n => cases hl <;> subst l <;> exact hi.refuse hm hc rfl
      | push k =>
        cases hl <;> subst l <;> simp only [record, refuses, List.append_nil] <;>
          exact hi.push (by simp) ⟨[], by simp [Outbox.record], by simp⟩
    | keep _ _ he hkeep _ hr ha =>
      simp only [record, hr, List.append_nil]
      exact hi.ends he hkeep (ha _)

theorem balance_step (hb : Outbox.Balance s.session h.outbox)
    (hs : step serverId s l = some t) :
    Outbox.Balance t.session (record serverId s l h).outbox := by
  cases moves_of_step hs with
  | receive | handOver | abandon | seeDone | seeClosed | elsewhere | dispatch => exact hb
  | handle n now hn =>
    simp only [record, dif_pos hn]
    exact hb
  | answer n ack u hn hu =>
    simp only [record]
    split <;> exact hb.step hu
  | push k eventId u hu => exact hb.step hu
  | session l u hl hu => exact hb.step hu

/-- No message is answered twice, in the outbox or on the stream, and an answer is what its
handler made of the message. What the outbox accepted is what `stream.Send` has been called
with, in that order, and what it still holds; the stream has those calls that returned nil.
While the session is open and its context is not done, a message whose handler is through
has been answered once. -/
theorem every_message_answered
    (hr : Reach (Fires (recorded (step serverId) (record serverId))) anyStep (Sys.start, {})
      (s, h)) :
    h.answered.Nodup ∧ h.outbox.carried.Sublist h.outbox.accepted ∧
      h.outbox.accepted = h.outbox.streamSends.map Prod.fst ++
        (s.session.writer.inFlight ++ s.session.outbox) ∧
      (∀ n ack, .answer n ack ∈ h.outbox.accepted → ∃ msg now st,
        s.tasks.started[n]? = some msg ∧ ack = (handleEventAsync serverId now msg st).1) ∧
      ∀ n ∈ s.tasks.finished, s.session.closed = false → s.session.done = false →
        s.acks n = none → s.session.sends (.handler n) = none → h.answered.count n = 1 := by
  obtain ⟨hi, hb⟩ : Answers serverId s h ∧ Outbox.Balance s.session h.outbox := by
    refine hr.invariant (I := fun x => Answers serverId x.1 x.2 ∧
      Outbox.Balance x.1.session x.2.outbox) ⟨answers_start, rfl, rfl⟩ ?_
    intro x l u hx _ hs
    obtain ⟨t, ht, rfl⟩ := Option.map_eq_some_iff.mp hs
    exact ⟨hx.1.step ht, balance_step hx.2 ht⟩
  refine ⟨List.nodup_iff_count_le_one.mpr fun n => ?_, hb.carried_sublist, hb.accepted,
    fun n ack hm => hi.handled n ack (hi.accepted n ack hm), ?_⟩
  · have hcount := hi.count n
    have honce := List.nodup_iff_count_le_one.mp s.tasks.nodup n
    rw [← hcount, places] at honce
    omega
  · intro n hn hclosed hdone hack hsend
    have hnone : h.refused = [] := by
      by_contra hne
      cases hi.refused hne with
      | inl hc => simp [hclosed] at hc
      | inr hd => simp [hdone] at hd
    have hcount := hi.count n
    rw [List.count_eq_one_of_mem s.tasks.nodup hn] at hcount
    simpa [places, hack, hsend, hnone] using hcount

/-- Three messages. The second is answered first, while the third is still being handled. -/
theorem every_message_answered_reversed : ∃ s h,
    Reach (Fires (recorded (step "cp-1") (record "cp-1"))) anyStep (Sys.start, {}) (s, h) ∧
      s.tasks.started.length = 3 ∧ h.answered = [1, 0] ∧ h.outbox.carried.length = 1 ∧
      h.answered.count 1 = 1 := by
  obtain ⟨s, h, hs, hn, hc, hd, hack, hsend, hlen, ha, hw⟩ : ∃ s h,
      replay (recorded (step "cp-1") (record "cp-1"))
        (take ⟨"a", .heartbeatEvent⟩ ++ take ⟨"b", .absent⟩ ++ take ⟨"c", .heartbeatEvent⟩ ++
          [.handle 1 7, .answer 1, .handle 0 8, .session (.enqueue (.handler 1)), .answer 0,
            .session (.enqueue (.handler 0)), .session .write, .session (.writeEnds true)])
        (Sys.start, {}) = some (s, h) ∧
      1 ∈ s.tasks.finished ∧ s.session.closed = false ∧ s.session.done = false ∧
      s.acks 1 = none ∧ s.session.sends (.handler 1) = none ∧ s.tasks.started.length = 3 ∧
      h.answered = [1, 0] ∧ h.outbox.carried.length = 1 := by
    refine ⟨_, _, rfl, ?_, rfl, rfl, rfl, rfl, rfl, rfl, rfl⟩
    decide
  have hr := reach_of_replay hs
  exact ⟨s, h, hr, hlen, ha, hw, (every_message_answered hr).2.2.2.2 1 hn hc hd hack hsend⟩

end Leibrix.StreamAnswers

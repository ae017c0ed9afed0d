import Leibrix.Outbox
import Leibrix.PullStatus

/-! One call of `CoordinateWorker` (`control_plane_service.go`), after `requireLeader`. One
goroutine reads from the stream and hands each result over to the loop, on a channel without
buffer; the loop starts a goroutine for each message; and these answer through the session's
outbox, into which others push as well. The session can end at any moment, with the stream
or by a `Close` of whoever has it. -/
namespace Leibrix.StreamAnswers
open Leibrix.Events Leibrix.Transition

inductive Received where
  | message (msg : EventStreamMessage)
  | eof
  | failure
deriving DecidableEq

inductive Outcome where
  -- what `CoordinateWorker` returns: nil, the error of `Recv`, or `FailedPrecondition`
  | ok | recvError | failedPrecondition
deriving DecidableEq

inductive Receiver where
  -- Where the goroutine of `receiveWorkerMessages` is. It closes the channel as it returns.
  | receiving
  | offering (r : Received)
  | returned
deriving DecidableEq

inductive Loop where
  | selecting
  | dispatching (msg : EventStreamMessage)
  | returned (outcome : Outcome)
deriving DecidableEq

inductive Sender where
  | handler (n : Nat)
  | push (k : Nat)
deriving DecidableEq

inductive Outgoing where
  | answer (n : Nat) (ack : Ack)
  | pushed (eventId : String)
deriving DecidableEq

structure Sys where
  receiver : Receiver := .receiving
  loop : Loop := .selecting
  tasks : Tasks EventStreamMessage := Tasks.empty _
  -- the answers of handlers that have not called `Send` yet
  acks : Nat → Option Ack := fun _ => none
  store : ControlPlaneStateStore := newControlPlaneStateStore
  session : Outbox.Sys Sender Outgoing := {}

def Sys.start : Sys := {}

inductive Label where
  | receive (r : Received)
  | handOver
  -- the receiver finds the session done instead of the loop
  | abandon
  | seeDone
  | seeClosed
  | dispatch
  | handle (n : Nat) (now : Int)
  | answer (n : Nat)
  | push (k : Nat) (eventId : String)
  | session (l : Outbox.Label Sender Outgoing)
  -- a message of another stream is handled
  | elsewhere (msg : EventStreamMessage) (now : Int)

def Received.receiver : Received → Receiver
  | .message _ => .receiving
  | .eof | .failure => .returned

def Received.loop : Received → Loop
  | .message msg => .dispatching msg
  | .eof => .returned .ok
  | .failure => .returned .recvError

def Received.crashes : Received → Bool
  | .message msg => PullStatus.crashes msg
  | _ => false

def isSend : Outbox.Label Sender Outgoing → Bool
  | .send _ _ => true
  | _ => false

def step (serverId : String) (s : Sys) : Label → Option Sys
  | .receive r => if s.receiver = .receiving then some { s with receiver := .offering r } else none
  | .handOver =>
    match s.receiver, s.loop with
    | .offering r, .selecting =>
      if r.crashes then none else some { s with receiver := r.receiver, loop := r.loop }
    | _, _ => none
  | .abandon =>
    match s.receiver with
    | .offering _ => if s.session.done then some { s with receiver := .returned } else none
    | _ => none
  | .seeDone =>
    if s.loop = .selecting ∧ s.session.done then
      some { s with loop := .returned .failedPrecondition }
    else none
  | .seeClosed =>
    if s.loop = .selecting ∧ s.receiver = .returned then some { s with loop := .returned .ok }
    else none
  | .dispatch =>
    match s.loop with
    | .dispatching msg => some { s with loop := .selecting, tasks := s.tasks.start msg }
    | _ => none
  | .handle n now =>
    if h : s.tasks.Running n then
      let handled := handleEventAsync serverId now (s.tasks.task n h) s.store
      some { s with
        tasks := s.tasks.finish n h
        acks := Function.update s.acks n (some handled.1)
        store := handled.2 }
    else none
  | .answer n =>
    match s.acks n with
    | some ack => (Outbox.step s.session (.send (.handler n) (.answer n ack))).map fun t =>
        { s with session := t, acks := Function.update s.acks n none }
    | none => none
  | .push k eventId =>
    (Outbox.step s.session (.send (.push k) (.pushed eventId))).map fun t =>
      { s with session := t }
  | .session l =>
    if isSend l then none else (Outbox.step s.session l).map fun t => { s with session := t }
  | .elsewhere msg now => some { s with store := (handleEventAsync serverId now msg s.store).2 }

structure History where
  -- what `Recv` returned, the answers computed, those whose `Send` returned an error, and what went
  -- into the outbox and out of it
  results : List Received := []
  handled : Nat → Option Ack := fun _ => none
  refused : List Nat := []
  outbox : Outbox.History Outgoing := {}

def refuses : Outbox.Label Sender Outgoing → List Nat
  | .giveUp (.handler n) | .recover (.handler n) => [n]
  | _ => []

def record (serverId : String) (s : Sys) (l : Label) (h : History) : History :=
  match l with
  | .receive r => { h with results := h.results ++ [r] }
  | .handle n now =>
    if hn : s.tasks.Running n then
      let ack := (handleEventAsync serverId now (s.tasks.task n hn) s.store).1
      { h with handled := Function.update h.handled n (some ack) }
    else h
  | .answer n => if s.session.closed then { h with refused := h.refused ++ [n] } else h
  | .session l => { h with
      refused := h.refused ++ refuses l
      outbox := Outbox.record s.session l h.outbox }
  | _ => h

section Session
variable {s t : Outbox.Sys Sender Outgoing} {l : Outbox.Label Sender Outgoing}

structure Ends (s t : Outbox.Sys Sender Outgoing) : Prop where
  closed : s.closed = true → t.closed = true
  done : s.done = true → t.done = true
  outbox : (s.outboxClosed = true → s.closed = true) → t.outboxClosed = true → t.closed = true

inductive Sends (s : Outbox.Sys Sender Outgoing) :
    Outbox.Label Sender Outgoing → Outbox.Sys Sender Outgoing → Prop
  | begin (i : Sender) (msg : Outgoing) (hc : s.closed = false) (hn : s.sends i = none) :
      Sends s (.send i msg) (s.setSend i (some msg))
  | late (i : Sender) (msg : Outgoing) (hc : s.closed = true) : Sends s (.send i msg) s
  | accept (i : Sender) (msg : Outgoing) (hm : s.sends i = some msg) :
      Sends s (.enqueue i) ({ s with outbox := s.outbox ++ [msg] }.setSend i none)
  | refuse (l : Outbox.Label Sender Outgoing) (i : Sender) (hm : (s.sends i).isSome)
      (hl : l = .giveUp i ∨ l = .recover i) (hc : s.done = true ∨ s.outboxClosed = true) :
      Sends s l (s.setSend i none)
  | keep (l : Outbox.Label Sender Outgoing) (t : Outbox.Sys Sender Outgoing) (he : Ends s t)
      (hs : t.sends = s.sends) (hl : isSend l = false) (hr : refuses l = [])
      (ha : ∀ h, (Outbox.record s l h).accepted = h.accepted) : Sends s l t

theorem sends_of_step (hs : Outbox.step s l = some t) : Sends s l t := by
  cases l with
  | send i msg =>
    simp only [Outbox.step, Option.ite_none_right_eq_some, Option.some.injEq] at hs
    obtain ⟨hn, rfl⟩ := hs
    split
    · rename_i hc
      exact .late i msg hc
    · rename_i hc
      exact .begin i msg (by simpa using hc) (by simpa using hn)
  | enqueue i =>
    cases hm : s.sends i with
    | none => simp [Outbox.step, hm] at hs
    | some msg =>
      simp only [Outbox.step, hm, Option.ite_none_right_eq_some, Option.some.injEq] at hs
      obtain ⟨-, rfl⟩ := hs
      exact .accept i msg hm
  | giveUp i =>
    simp only [Outbox.step, Option.ite_none_right_eq_some, Option.some.injEq] at hs
    obtain ⟨⟨hm, hd⟩, rfl⟩ := hs
    exact .refuse _ i hm (.inl rfl) (.inl hd)
  | recover i =>
    simp only [Outbox.step, Option.ite_none_right_eq_some, Option.some.injEq] at hs
    obtain ⟨⟨hm, hc⟩, rfl⟩ := hs
    exact .refuse _ i hm (.inr rfl) (.inr hc)
  | write | drainWrite | writeEnds | drainWriteEnds | drainTimesOut =>
    simp only [Outbox.step] at hs
    split at hs
    · obtain rfl := Option.some.inj hs
      exact .keep _ _ ⟨id, id, id⟩ rfl rfl rfl fun _ => rfl
    · cases hs
  | closeFlag =>
    simp only [Outbox.step, Option.ite_none_right_eq_some, Option.some.injEq] at hs
    obtain ⟨-, rfl⟩ := hs
    exact .keep _ _ ⟨fun _ => rfl, id, fun _ _ => rfl⟩ rfl rfl rfl fun _ => rfl
  | seeDone | seeClosed | drainEnds =>
    simp only [Outbox.step] at hs
    split at hs
    · simp only [Option.ite_none_right_eq_some, Option.some.injEq] at hs
      obtain ⟨-, rfl⟩ := hs
      exact .keep _ _ ⟨id, id, id⟩ rfl rfl rfl fun _ => rfl
    · cases hs
  | closeCancel =>
    simp only [Outbox.step] at hs
    split at hs
    · obtain rfl := Option.some.inj hs
      exact .keep _ _ ⟨fun _ => rfl, fun _ => rfl, fun _ _ => rfl⟩ rfl rfl rfl fun _ => rfl
    · cases hs
  | closeOutbox =>
    simp only [Outbox.step] at hs
    split at hs
    · obtain rfl := Option.some.inj hs
      exact .keep _ _ ⟨fun _ => rfl, id, fun _ _ => rfl⟩ rfl rfl rfl fun _ => rfl
    · cases hs
  | cancelStream =>
    obtain rfl := Option.some.inj hs
    exact .keep _ _ ⟨id, fun _ => rfl, id⟩ rfl rfl rfl fun _ => rfl
  | failed =>
    simp only [Outbox.step] at hs
    split at hs
    · obtain rfl := Option.some.inj hs
      exact .keep _ _ ⟨id, id, id⟩ rfl rfl rfl fun _ => rfl
    · obtain rfl := Option.some.inj hs
      exact .keep _ _ ⟨id, id, id⟩ rfl rfl rfl fun _ => rfl
    · cases hs

theorem Sends.ends (h : Sends s l t) : Ends s t := by
  cases h with
  | begin | late | accept | refuse => exact ⟨id, id, id⟩
  | keep _ _ he => exact he

end Session

inductive Moves (serverId : String) (s : Sys) : Label → Sys → Prop
  | receive (r : Received) (hr : s.receiver = .receiving) :
      Moves serverId s (.receive r) { s with receiver := .offering r }
  | handOver (r : Received) (hr : s.receiver = .offering r) (hl : s.loop = .selecting) :
      Moves serverId s .handOver { s with receiver := r.receiver, loop := r.loop }
  | abandon (r : Received) (hr : s.receiver = .offering r) (hd : s.session.done = true) :
      Moves serverId s .abandon { s with receiver := .returned }
  | seeDone (hl : s.loop = .selecting) (hd : s.session.done = true) :
      Moves serverId s .seeDone { s with loop := .returned .failedPrecondition }
  | seeClosed (hl : s.loop = .selecting) (hr : s.receiver = .returned) :
      Moves serverId s .seeClosed { s with loop := .returned .ok }
  | dispatch (msg : EventStreamMessage) (hl : s.loop = .dispatching msg) :
      Moves serverId s .dispatch { s with loop := .selecting, tasks := s.tasks.start msg }
  | handle (n : Nat) (now : Int) (hn : s.tasks.Running n) :
      Moves serverId s (.handle n now) { s with
        tasks := s.tasks.finish n hn
        acks := Function.update s.acks n
          (some (handleEventAsync serverId now (s.tasks.task n hn) s.store).1)
        store := (handleEventAsync serverId now (s.tasks.task n hn) s.store).2 }
  | answer (n : Nat) (ack : Ack) (t : Outbox.Sys Sender Outgoing) (hn : s.acks n = some ack)
      (ht : Outbox.step s.session (.send (.handler n) (.answer n ack)) = some t) :
      Moves serverId s (.answer n)
        { s with session := t, acks := Function.update s.acks n none }
  | push (k : Nat) (eventId : String) (t : Outbox.Sys Sender Outgoing)
      (ht : Outbox.step s.session (.send (.push k) (.pushed eventId)) = some t) :
      Moves serverId s (.push k eventId) { s with session := t }
  | session (l : Outbox.Label Sender Outgoing) (t : Outbox.Sys Sender Outgoing)
      (hl : isSend l = false) (ht : Outbox.step s.session l = some t) :
      Moves serverId s (.session l) { s with session := t }
  | elsewhere (msg : EventStreamMessage) (now : Int) :
      Moves serverId s (.elsewhere msg now)
        { s with store := (handleEventAsync serverId now msg s.store).2 }

variable {serverId : String} {s t : Sys} {l : Label} {h : History}

theorem moves_of_step (hs : step serverId s l = some t) : Moves serverId s l t := by
  cases l with
  | receive r =>
    simp only [step, Option.ite_none_right_eq_some, Option.some.injEq] at hs
    obtain ⟨hr, rfl⟩ := hs
    exact .receive r hr
  | handOver =>
    simp only [step] at hs
    split at hs
    · rename_i r hr hl
      split at hs
      · cases hs
      · obtain rfl := Option.some.inj hs
        exact .handOver r hr hl
    · cases hs
  | abandon =>
    simp only [step] at hs
    split at hs
    · rename_i r hr
      simp only [Option.ite_none_right_eq_some, Option.some.injEq] at hs
      obtain ⟨hd, rfl⟩ := hs
      exact .abandon r hr hd
    · cases hs
  | seeDone =>
    simp only [step, Option.ite_none_right_eq_some, Option.some.injEq] at hs
    obtain ⟨hl, rfl⟩ := hs
    exact .seeDone hl.1 hl.2
  | seeClosed =>
    simp only [step, Option.ite_none_right_eq_some, Option.some.injEq] at hs
    obtain ⟨hl, rfl⟩ := hs
    exact .seeClosed hl.1 hl.2
  | dispatch =>
    simp only [step] at hs
    split at hs
    · rename_i msg hl
      obtain rfl := Option.some.inj hs
      exact .dispatch msg hl
    · cases hs
  | handle n now =>
    simp only [step] at hs
    split at hs
    · rename_i hn
      obtain rfl := Option.some.inj hs
      exact .handle n now hn
    · cases hs
  | answer n =>
    simp only [step] at hs
    split at hs
    · rename_i ack hn
      obtain ⟨t, ht, rfl⟩ := Option.map_eq_some_iff.mp hs
      exact .answer n ack t hn ht
    · cases hs
  | push k eventId =>
    obtain ⟨t, ht, rfl⟩ := Option.map_eq_some_iff.mp hs
    exact .push k eventId t ht
  | session l =>
    simp only [step] at hs
    split at hs
    · cases hs
    · rename_i hl
      obtain ⟨t, ht, rfl⟩ := Option.map_eq_some_iff.mp hs
      exact .session l t (by simpa using hl) ht
  | elsewhere msg now =>
    obtain rfl := Option.some.inj hs
    exact .elsewhere msg now

section Results

def Loop.inHand : Loop → List EventStreamMessage
  | .dispatching msg => [msg]
  | _ => []

def Loop.EndedBy (done : Bool) (loop : Loop) : Prop :=
  ∀ outcome, loop = .returned outcome → done = true ∧ outcome ≠ .recvError

inductive Tail (done : Bool) : Receiver → Loop → List Received → Prop
  -- the last result of `Recv`, if the loop has not taken it as a message
  | receiving (loop : Loop) (hl : loop.EndedBy done) : Tail done .receiving loop []
  | offering (r : Received) (loop : Loop) (hl : loop.EndedBy done) :
      Tail done (.offering r) loop [r]
  -- handed over, and both have returned
  | handed (r : Received) (hr : r.receiver = .returned) : Tail done .returned r.loop [r]
  | abandoned (r : Received) (loop : Loop) (hl : loop.EndedBy done) (hd : done = true) :
      Tail done .returned loop [r]

theorem Loop.EndedBy.mono {done done' : Bool} {loop : Loop} (h : loop.EndedBy done)
    (hd : done = true → done' = true) : loop.EndedBy done' := by
  intro outcome ho
  exact ⟨hd (h outcome ho).1, (h outcome ho).2⟩

theorem Tail.mono {done done' : Bool} {receiver : Receiver} {loop : Loop} {tail : List Received}
    (h : Tail done receiver loop tail) (hd : done = true → done' = true) :
    Tail done' receiver loop tail := by
  cases h with
  | receiving _ hl => exact .receiving _ (hl.mono hd)
  | offering r _ hl => exact .offering r _ (hl.mono hd)
  | handed r hr => exact .handed r hr
  | abandoned r _ hl h => exact .abandoned r _ (hl.mono hd) (hd h)

theorem Tail.setLoop {done : Bool} {receiver : Receiver} {loop loop' : Loop}
    {tail : List Received} (h : Tail done receiver loop tail)
    (hin : ∀ outcome, loop ≠ .returned outcome) (hl : loop'.EndedBy done) :
    Tail done receiver loop' tail := by
  cases h with
  | receiving _ _ => exact .receiving _ hl
  | offering r _ _ => exact .offering r _ hl
  | handed r hr =>
    cases r with
    | message => cases hr
    | eof | failure => exact absurd rfl (hin _)
  | abandoned r _ _ hd => exact .abandoned r _ hl hd

/-- A receiver that has returned before the loop has found the session done. -/
theorem Tail.done_of_returned {done : Bool} {loop : Loop} {tail : List Received}
    (h : Tail done .returned loop tail) (hin : ∀ outcome, loop ≠ .returned outcome) :
    done = true := by
  cases h with
  | handed r hr =>
    cases r with
    | message => cases hr
    | eof | failure => exact absurd rfl (hin _)
  | abandoned _ _ _ hd => exact hd

theorem Tail.length_le {done : Bool} {receiver : Receiver} {loop : Loop} {tail : List Received}
    (h : Tail done receiver loop tail) : tail.length ≤ 1 := by
  cases h <;> simp

/-- What the loop has returned with. -/
theorem Tail.outcome {done : Bool} {receiver : Receiver} {loop : Loop} {tail : List Received}
    {outcome : Outcome} (h : Tail done receiver loop tail) (hl : loop = .returned outcome) :
    done = true ∧ outcome ≠ .recvError ∨
      ∃ r, tail = [r] ∧ r.receiver = .returned ∧ r.loop = .returned outcome := by
  cases h with
  | receiving _ he | offering _ _ he | abandoned _ _ he => exact .inl (he outcome hl)
  | handed r hr => exact .inr ⟨r, rfl, hr, hl⟩

def Handed (s : Sys) (results : List Received) : Prop :=
  -- the results of `Recv` are the messages dispatched, the one in the hands of the loop, and the
  -- tail
  ∃ tail, results = (s.tasks.started ++ s.loop.inHand).map .message ++ tail ∧
    Tail s.session.done s.receiver s.loop tail

theorem endedBy_of_ne {done : Bool} {loop : Loop} (h : ∀ outcome, loop ≠ .returned outcome) :
    loop.EndedBy done := fun outcome ho => absurd ho (h outcome)

theorem Handed.step {h : History} (hi : Handed s h.results)
    (hs : step serverId s l = some t) : Handed t (record serverId s l h).results := by
  obtain ⟨tail, hres, htail⟩ := hi
  cases moves_of_step hs with
  | receive r hr =>
    rw [hr] at htail
    cases htail with
    | receiving _ hl => exact ⟨[r], by simp [record, hres], .offering r _ hl⟩
  | handOver r hr hl =>
    rw [hr, hl] at htail
    rw [hl] at hres
    cases htail with
    | offering =>
      cases r with
      | message msg =>
        refine ⟨[], ?_, .receiving _ (endedBy_of_ne (by simp [Received.loop]))⟩
        simpa [record, Loop.inHand, Received.loop] using hres
      | eof => exact ⟨[.eof], hres, .handed .eof rfl⟩
      | failure => exact ⟨[.failure], hres, .handed .failure rfl⟩
  | abandon r hr hd =>
    rw [hr] at htail
    cases htail with
    | offering _ _ hl => exact ⟨[r], hres, .abandoned r _ hl hd⟩
  | seeDone hl hd =>
    rw [hl] at hres htail
    exact ⟨tail, hres, htail.setLoop (by simp) (by simp [Loop.EndedBy, hd])⟩
  | seeClosed hl hr =>
    rw [hl] at hres htail
    have hd : s.session.done = true := Tail.done_of_returned (hr ▸ htail) (by simp)
    exact ⟨tail, hres, htail.setLoop (by simp) (by simp [Loop.EndedBy, hd])⟩
  | dispatch msg hl =>
    rw [hl] at hres htail
    refine ⟨tail, ?_, htail.setLoop (by simp) (endedBy_of_ne (by simp))⟩
    simpa [record, Loop.inHand, Tasks.start] using hres
  | handle n now hn =>
    refine ⟨tail, ?_, htail⟩
    rw [record, dif_pos hn]
    exact hres
  | answer n ack u hn hu =>
    refine ⟨tail, ?_, htail.mono (sends_of_step hu).ends.done⟩
    simp only [record]
    split <;> exact hres
  | push k eventId u hu => exact ⟨tail, hres, htail.mono (sends_of_step hu).ends.done⟩
  | session l u hl hu => exact ⟨tail, hres, htail.mono (sends_of_step hu).ends.done⟩
  | elsewhere => exact ⟨tail, hres, htail⟩

theorem handed_start : Handed Sys.start [] :=
  ⟨[], rfl, .receiving _ (endedBy_of_ne (by simp [Sys.start]))⟩

/-- The messages are dispatched in the order in which they came, each once; at most two that
have come are not. The call returns nil if the client has ended the stream and everything
before that was dispatched, or if the session is done; it returns the error of `Recv` after
everything before that; and `FailedPrecondition` only if the session is done. -/
theorem coordinateWorker_returns
    (hr : Reach (Fires (recorded (step serverId) (record serverId))) anyStep (Sys.start, {})
      (s, h)) :
    (∃ rest, h.results = s.tasks.started.map .message ++ rest ∧ rest.length ≤ 2) ∧
      (s.loop = .returned .ok → s.session.done = true ∨
        h.results = s.tasks.started.map .message ++ [.eof]) ∧
      (s.loop = .returned .recvError → h.results = s.tasks.started.map .message ++ [.failure]) ∧
      (s.loop = .returned .failedPrecondition → s.session.done = true) := by
  have hi : Handed s h.results := by
    refine hr.invariant (I := fun x => Handed x.1 x.2.results) handed_start ?_
    intro x l u hx _ hs
    obtain ⟨t, ht, rfl⟩ := Option.map_eq_some_iff.mp hs
    exact hx.step ht
  obtain ⟨tail, hres, htail⟩ := hi
  refine ⟨⟨s.loop.inHand.map .message ++ tail, by simpa using hres, ?_⟩, fun hl => ?_, fun hl => ?_,
    fun hl => ?_⟩
  · have hlen := htail.length_le
    have hhand : s.loop.inHand.length ≤ 1 := by cases s.loop <;> simp [Loop.inHand]
    simp only [List.length_append, List.length_map]
    omega
  · obtain ⟨hd, -⟩ | ⟨r, rfl, -, hr⟩ := htail.outcome hl
    · exact .inl hd
    · cases r <;> cases hr
      exact .inr (by simpa [hl, Loop.inHand] using hres)
  · obtain ⟨-, hne⟩ | ⟨r, rfl, -, hr⟩ := htail.outcome hl
    · exact absurd rfl hne
    · cases r <;> cases hr
      simpa [hl, Loop.inHand] using hres
  · obtain ⟨hd, -⟩ | ⟨r, rfl, -, hr⟩ := htail.outcome hl
    · exact hd
    · cases r <;> cases hr

def take (msg : EventStreamMessage) : List Label := [.receive (.message msg), .handOver, .dispatch]

theorem coordinateWorker_returns_eof : ∃ s h,
    Reach (Fires (recorded (step "cp-1") (record "cp-1"))) anyStep (Sys.start, {}) (s, h) ∧
      s.loop = .returned .ok ∧ s.tasks.started = [⟨"a", .heartbeatEvent⟩] ∧
      h.results = s.tasks.started.map .message ++ [.eof] := by
  obtain ⟨s, h, hs, hl, hd, hm⟩ : ∃ s h, replay (recorded (step "cp-1") (record "cp-1"))
      (take ⟨"a", .heartbeatEvent⟩ ++ [.receive .eof, .handOver]) (Sys.start, {}) = some (s, h) ∧
      s.loop = .returned .ok ∧ s.session.done = false ∧
      s.tasks.started = [⟨"a", .heartbeatEvent⟩] := ⟨_, _, rfl, rfl, rfl, rfl⟩
  have hr := reach_of_replay hs
  refine ⟨s, h, hr, hl, hm, ((coordinateWorker_returns hr).2.1 hl).resolve_left ?_⟩
  simp [hd]

-- A session that ends while the receiver waits for the loop: the loop may find the channel closed,
-- and the client is told nothing of the change of leadership.
example : (replay (step "cp-1") [.receive (.message ⟨"a", .heartbeatEvent⟩),
    .session (.closeFlag false), .session .closeCancel, .abandon, .seeClosed] Sys.start).map
      (fun s => (s.loop, s.tasks.started)) = some (.returned .ok, []) := rfl

end Results

end Leibrix.StreamAnswers

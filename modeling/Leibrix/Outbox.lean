import Leibrix.Transition
import Mathlib.Logic.Function.Basic

/-! `events/session.go`: one session between the goroutines that send, the one that writes,
and the end of the session. The flag, the context and the channel are closed one after the
other, and the context ends with the stream as well. A step is one atomic operation, one
`select` or one call of `stream.Send`. -/
namespace Leibrix.Outbox
open Leibrix.Transition

def defaultSessionOutboxSize : Nat := 1024

inductive CloseStage where
  | flagged | cancelled | finished
deriving DecidableEq

inductive Exit where
  | clean | sendError | drainTimeout
deriving DecidableEq

inductive Writer (μ : Type) where
  -- at the `select` of the loop
  | waiting
  | sending (msg : μ)
  -- `stream.Send` has failed, `Close` is to be called
  | failing
  | draining
  | drainSending (msg : μ)
  | exited (how : Exit)
deriving DecidableEq

def Writer.hasExited {μ : Type} : Writer μ → Bool
  | .exited _ => true
  | _ => false

def Writer.hasFailed {μ : Type} : Writer μ → Bool
  | .failing => true
  | _ => false

def Writer.inFlight {μ : Type} : Writer μ → List μ
  | .sending msg | .drainSending msg => [msg]
  | _ => []

structure Sys (ν μ : Type) where
  -- with whether it is the writer that closes
  closing : Option (Bool × CloseStage) := none
  done : Bool := false
  outbox : List μ := []
  outboxClosed : Bool := false
  writer : Writer μ := .waiting
  -- the messages of the calls of `Send` that are at their `select`
  sends : ν → Option μ := fun _ => none

def Sys.closed {ν μ : Type} (s : Sys ν μ) : Bool := s.closing.isSome

inductive Label (ν μ : Type) where
  -- `Send` is called and reads the flag
  | send (i : ν) (msg : μ)
  -- its `select`: into the outbox, or the context is done
  | enqueue (i : ν)
  | giveUp (i : ν)
  -- the outbox is closed, and the panic is recovered
  | recover (i : ν)
  | closeFlag (byWriter : Bool)
  | closeCancel
  | closeOutbox
  -- the context of the stream ends
  | cancelStream
  | seeDone
  | seeClosed
  | write
  | writeEnds (ok : Bool)
  | failed
  | drainWrite
  | drainWriteEnds (ok : Bool)
  -- nothing is left, or the closed channel is empty
  | drainEnds
  | drainTimesOut

variable {ν μ : Type} [DecidableEq ν]

def Sys.setSend (s : Sys ν μ) (i : ν) (msg : Option μ) : Sys ν μ :=
  { s with sends := Function.update s.sends i msg }

def step (s : Sys ν μ) : Label ν μ → Option (Sys ν μ)
  | .send i msg =>
    if (s.sends i).isNone then some (if s.closed then s else s.setSend i (some msg)) else none
  | .enqueue i =>
    match s.sends i with
    | some msg =>
      if s.outboxClosed = false ∧ s.outbox.length < defaultSessionOutboxSize then
        some ({ s with outbox := s.outbox ++ [msg] }.setSend i none)
      else none
    | none => none
  | .giveUp i => if (s.sends i).isSome ∧ s.done then some (s.setSend i none) else none
  | .recover i => if (s.sends i).isSome ∧ s.outboxClosed then some (s.setSend i none) else none
  | .closeFlag byWriter =>
    if s.closing = none ∧ (byWriter → s.writer.hasFailed) then
      some { s with closing := some (byWriter, .flagged) }
    else none
  | .closeCancel =>
    match s.closing with
    | some (byWriter, .flagged) =>
      some { s with closing := some (byWriter, .cancelled), done := true }
    | _ => none
  | .closeOutbox =>
    match s.closing with
    | some (byWriter, .cancelled) =>
      some { s with closing := some (byWriter, .finished), outboxClosed := true }
    | _ => none
  | .cancelStream => some { s with done := true }
  | .seeDone =>
    match s.writer with
    | .waiting => if s.done then some { s with writer := .draining } else none
    | _ => none
  | .seeClosed =>
    match s.writer with
    | .waiting =>
      if s.outbox.isEmpty ∧ s.outboxClosed then some { s with writer := .exited .clean } else none
    | _ => none
  | .write =>
    match s.outbox, s.writer with
    | msg :: rest, .waiting => some { s with writer := .sending msg, outbox := rest }
    | _, _ => none
  | .writeEnds ok =>
    match s.writer with
    | .sending _ => some { s with writer := if ok then .waiting else .failing }
    | _ => none
  | .failed =>
    -- the writer's own `Close` runs to its end, any other only has to have begun
    match s.closing, s.writer with
    | some (false, _), .failing | some (true, .finished), .failing =>
      some { s with writer := .exited .sendError }
    | _, _ => none
  | .drainWrite =>
    match s.outbox, s.writer with
    | msg :: rest, .draining => some { s with writer := .drainSending msg, outbox := rest }
    | _, _ => none
  | .drainWriteEnds _ =>
    match s.writer with
    | .drainSending _ => some { s with writer := .draining }
    | _ => none
  | .drainEnds =>
    match s.writer with
    | .draining => if s.outbox.isEmpty then some { s with writer := .exited .clean } else none
    | _ => none
  | .drainTimesOut =>
    match s.writer with
    | .draining => some { s with writer := .exited .drainTimeout }
    | _ => none

structure History (μ : Type) where
  -- in the order in which they entered the outbox
  accepted : List μ := []
  -- passed to `stream.Send`
  written : List μ := []
  -- the calls of `stream.Send` that have returned, and whether they returned nil
  streamSends : List (μ × Bool) := []

def History.carried {μ : Type} (h : History μ) : List μ :=
  (h.streamSends.filter Prod.snd).map Prod.fst

def record (s : Sys ν μ) (l : Label ν μ) (h : History μ) : History μ :=
  match l with
  | .enqueue i => { h with accepted := h.accepted ++ (s.sends i).toList }
  | .write | .drainWrite => { h with written := h.written ++ s.outbox.take 1 }
  | .writeEnds ok | .drainWriteEnds ok =>
    { h with streamSends := h.streamSends ++ s.writer.inFlight.map (·, ok) }
  | _ => h

def whileWriting (s : Sys ν μ × History μ) : Label ν μ → Bool
  -- a `Send` puts its message into the outbox only while the writer is there
  | .enqueue _ => !s.1.writer.hasExited
  | _ => true

def WhileWriting (s : Sys ν μ × History μ) (l : Label ν μ) : Prop := whileWriting s l = true

inductive Moves (s : Sys ν μ) (l : Label ν μ) (t : Sys ν μ) : Prop
  -- what a step means for the messages: nothing, one more in the outbox, one passed on, a
  -- `stream.Send` that returns, or another turn of the writer, which returns cleanly only from an
  -- empty outbox
  | aside (ho : t.outbox = s.outbox) (hw : t.writer = s.writer) (hr : ∀ h, record s l h = h)
  | enqueue (i : ν) (msg : μ) (hl : l = .enqueue i) (ho : t.outbox = s.outbox ++ [msg])
      (hw : t.writer = s.writer)
      (hr : ∀ h, record s l h = { h with accepted := h.accepted ++ [msg] })
  | write (msg : μ) (ho : s.outbox = msg :: t.outbox) (hs : s.writer.inFlight = [])
      (ht : t.writer.inFlight = [msg])
      (hr : ∀ h, record s l h = { h with written := h.written ++ [msg] })
  | returns (msg : μ) (ok : Bool) (ho : t.outbox = s.outbox) (hs : s.writer.inFlight = [msg])
      (ht : t.writer.inFlight = []) (hw : t.writer.hasExited = false)
      (hr : ∀ h, record s l h = { h with streamSends := h.streamSends ++ [(msg, ok)] })
  | turn (ho : t.outbox = s.outbox) (hs : s.writer.inFlight = []) (ht : t.writer.inFlight = [])
      (hw : t.writer = .exited .clean → s.outbox = []) (hr : ∀ h, record s l h = h)

section Steps
variable {s t : Sys ν μ} {l : Label ν μ} {h : History μ}

theorem moves_of_step (hs : step s l = some t) : Moves s l t := by
  cases l with
  | send i msg =>
    simp only [step, Option.ite_none_right_eq_some, Option.some.injEq] at hs
    obtain ⟨-, rfl⟩ := hs
    split
    · exact .aside rfl rfl fun _ => rfl
    · exact .aside rfl rfl fun _ => rfl
  | enqueue i =>
    cases hm : s.sends i with
    | none => simp [step, hm] at hs
    | some msg =>
      simp only [step, hm, Option.ite_none_right_eq_some, Option.some.injEq] at hs
      obtain ⟨-, rfl⟩ := hs
      exact .enqueue i msg rfl rfl rfl fun h => by simp [record, hm]
  | write | drainWrite =>
    simp only [step] at hs
    split at hs
    · rename_i msg rest ho hw
      obtain rfl := Option.some.inj hs
      exact .write msg ho (by simp [hw, Writer.inFlight]) rfl fun h => by simp [record, ho]
    · cases hs
  | giveUp i | recover i | closeFlag byWriter =>
    simp only [step, Option.ite_none_right_eq_some, Option.some.injEq] at hs
    obtain ⟨-, rfl⟩ := hs
    exact .aside rfl rfl fun _ => rfl
  | closeCancel | closeOutbox =>
    simp only [step] at hs
    split at hs
    · obtain rfl := Option.some.inj hs
      exact .aside rfl rfl fun _ => rfl
    · cases hs
  | cancelStream =>
    obtain rfl := Option.some.inj hs
    exact .aside rfl rfl fun _ => rfl
  | seeClosed | drainEnds =>
    simp only [step] at hs
    split at hs
    · rename_i hw
      simp only [Option.ite_none_right_eq_some, Option.some.injEq] at hs
      obtain ⟨hc, rfl⟩ := hs
      exact .turn rfl (by simp [hw, Writer.inFlight]) rfl (fun _ => by simp_all) fun _ => rfl
    · cases hs
  | writeEnds ok =>
    simp only [step] at hs
    split at hs
    · rename_i msg hw
      obtain rfl := Option.some.inj hs
      refine .returns msg ok rfl (by simp [hw, Writer.inFlight]) ?_ ?_ fun _ => ?_
      · cases ok <;> rfl
      · cases ok <;> rfl
      · simp [record, hw, Writer.inFlight]
    · cases hs
  | drainWriteEnds ok =>
    simp only [step] at hs
    split at hs
    · rename_i msg hw
      obtain rfl := Option.some.inj hs
      exact .returns msg ok rfl (by simp [hw, Writer.inFlight]) rfl rfl fun _ => by
        simp [record, hw, Writer.inFlight]
    · cases hs
  | failed =>
    simp only [step] at hs
    split at hs
    · rename_i hw
      obtain rfl := Option.some.inj hs
      exact .turn rfl (by simp [hw, Writer.inFlight]) rfl (by simp) fun _ => rfl
    · rename_i hw
      obtain rfl := Option.some.inj hs
      exact .turn rfl (by simp [hw, Writer.inFlight]) rfl (by simp) fun _ => rfl
    · cases hs
  | seeDone =>
    simp only [step] at hs
    split at hs
    · rename_i hw
      simp only [Option.ite_none_right_eq_some, Option.some.injEq] at hs
      obtain ⟨-, rfl⟩ := hs
      exact .turn rfl (by simp [hw, Writer.inFlight]) rfl (by simp) fun _ => rfl
    · cases hs
  | drainTimesOut =>
    simp only [step] at hs
    split at hs
    · rename_i hw
      obtain rfl := Option.some.inj hs
      exact .turn rfl (by simp [hw, Writer.inFlight]) rfl (by simp) fun _ => rfl
    · cases hs

structure Balance (s : Sys ν μ) (h : History μ) : Prop where
  -- what was accepted is what was passed on and what the outbox still holds, and of what was passed
  -- on one `stream.Send` at most has not returned
  taken : h.accepted = h.written ++ s.outbox
  passed : h.written = h.streamSends.map Prod.fst ++ s.writer.inFlight

theorem Balance.step (hb : Balance s h) (hs : step s l = some t) : Balance t (record s l h) := by
  cases moves_of_step hs with
  | aside ho hw hr =>
    rw [hr]
    exact ⟨by rw [ho, hb.taken], by rw [hw, hb.passed]⟩
  | enqueue i msg hl ho hw hr =>
    rw [hr]
    exact ⟨by simp [ho, hb.taken], by rw [hw, hb.passed]⟩
  | write msg ho hin hout hr =>
    rw [hr]
    exact ⟨by simp [hb.taken, ho], by simp [hb.passed, hin, hout]⟩
  | returns msg ok ho hin hout hw hr =>
    rw [hr]
    exact ⟨by rw [ho, hb.taken], by simp [hb.passed, hin, hout]⟩
  | turn ho hin hout hw hr =>
    rw [hr]
    exact ⟨by rw [ho, hb.taken], by rw [hout, hb.passed, hin]⟩

omit [DecidableEq ν] in
theorem Balance.accepted (hb : Balance s h) :
    h.accepted = h.streamSends.map Prod.fst ++ (s.writer.inFlight ++ s.outbox) := by
  rw [hb.taken, hb.passed, List.append_assoc]

omit [DecidableEq ν] in
theorem Balance.carried_sublist (hb : Balance s h) : h.carried.Sublist h.accepted := by
  rw [hb.accepted]
  exact (List.filter_sublist.map _).trans (List.sublist_append_left _ _)

/-- After a clean return of the writer the outbox holds nothing. -/
theorem drained_step (hd : s.writer = .exited .clean → s.outbox = []) (ho : WhileWriting (s, h) l)
    (hs : step s l = some t) : t.writer = .exited .clean → t.outbox = [] := by
  intro he
  cases moves_of_step hs with
  | aside hout hw => rw [hout, hd (hw ▸ he)]
  | enqueue i msg hl hout hw =>
    subst hl
    simp [WhileWriting, whileWriting, ← hw, he, Writer.hasExited] at ho
  | write msg hout hin hfl => simp [he, Writer.inFlight] at hfl
  | returns msg ok hout hin hfl hw => simp [he, Writer.hasExited] at hw
  | turn hout hin hfl hw => rw [hout, hw he]

end Steps

/-- Once the writer has returned without an error of `stream.Send` and without the drain
running out of time, every accepted message was passed to `stream.Send`, in the order of
acceptance, whether or not calls of `Send` are still going on. -/
theorem accepted_written {s : Sys ν μ} {h : History μ}
    (hr : Reach (Fires (recorded step record)) WhileWriting ({}, {}) (s, h))
    (hw : s.writer = .exited .clean) : h.written = h.accepted := by
  obtain ⟨hb, hd⟩ : Balance s h ∧ (s.writer = .exited .clean → s.outbox = []) := by
    refine Reach.invariant (I := fun p => Balance p.1 p.2 ∧
      (p.1.writer = .exited .clean → p.1.outbox = [])) hr ⟨⟨rfl, rfl⟩, by simp⟩ ?_
    intro p l q hp ho hs
    obtain ⟨t, ht, rfl⟩ := Option.map_eq_some_iff.mp hs
    exact ⟨hp.1.step ht, drained_step hp.2 ho ht⟩
  rw [hb.taken, hd hw, List.append_nil]

/-- Two senders, one message each, and a writer that has one of them left to drain. -/
theorem accepted_written_close :
    ∃ s h, Reach (Fires (recorded step record)) WhileWriting
        (({} : Sys Bool String), {}) (s, h) ∧ s.writer = .exited .clean ∧
      h.accepted = ["ack 1", "ack 2"] ∧ h.written = h.accepted := by
  obtain ⟨⟨s, h⟩, hs, hw, ha⟩ : ∃ p, replay (guarded whileWriting (recorded step record))
      [.send true "ack 1", .send false "ack 2", .enqueue true, .write, .enqueue false,
        .writeEnds true, .closeFlag false, .closeCancel, .seeDone, .drainWrite,
        .drainWriteEnds true, .closeOutbox, .drainEnds] (({} : Sys Bool String), {}) = some p ∧
      p.1.writer = .exited .clean ∧ p.2.accepted = ["ack 1", "ack 2"] := ⟨_, rfl, rfl, rfl⟩
  have hr := Reach.of_guarded (fun _ _ hp => hp) (reach_of_replay hs)
  exact ⟨s, h, hr, hw, ha, accepted_written hr hw⟩

def Lost (s : Sys Unit String) (h : History String) : Prop :=
  -- a `Send` has returned nil, no other is going on, and the writer has returned as if it had
  -- written everything
  s.writer = .exited .clean ∧ s.sends () = none ∧ h.accepted = ["ack"] ∧ h.written = []

/-- `Send` has seen the session open; then the stream's context ends, or `Close` cancels the
session's, and the writer drains and returns before `Send` comes to its `select`. -/
theorem accepted_lost :
    (∃ s h, Reach (Fires (recorded step record)) anyStep ({}, {}) (s, h) ∧
      s.closed = false ∧ Lost s h) ∧
    ∃ s h, Reach (Fires (recorded step record)) anyStep ({}, {}) (s, h) ∧
      s.outboxClosed = true ∧ Lost s h := by
  constructor
  · obtain ⟨s, h, hs, hrest⟩ : ∃ s h, replay (recorded step record)
        [.send () "ack", .cancelStream, .seeDone, .drainEnds, .enqueue ()] ({}, {}) =
          some (s, h) ∧ s.closed = false ∧ Lost s h := ⟨_, _, rfl, rfl, rfl, rfl, rfl, rfl⟩
    exact ⟨s, h, reach_of_replay hs, hrest⟩
  · obtain ⟨s, h, hs, hrest⟩ : ∃ s h, replay (recorded step record)
        [.send () "ack", .closeFlag false, .closeCancel, .seeDone, .drainEnds, .enqueue (),
          .closeOutbox] ({}, {}) = some (s, h) ∧ s.outboxClosed = true ∧ Lost s h :=
      ⟨_, _, rfl, rfl, rfl, rfl, rfl, rfl⟩
    exact ⟨s, h, reach_of_replay hs, hrest⟩

end Leibrix.Outbox

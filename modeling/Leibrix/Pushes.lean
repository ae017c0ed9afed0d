import Leibrix.Outbox
import Leibrix.SessionCalls

/-! `ToWorker` and `Broadcast` of `session_manager.go`: messages the control plane sends on its
own account, by any number of callers, while sessions are registered, replaced, removed and
closed. A call reads the map and sends afterwards; `Broadcast` works through copies that
`Range` makes of the map, a few entries at a time. -/
namespace Leibrix.Pushes
open Leibrix.Transition

inductive Job (μ : Type) where
  | toWorker (worker : String) (msg : μ)
  | broadcast (msg : μ)

def Job.msg {μ : Type} : Job μ → μ
  | .toWorker _ msg => msg
  | .broadcast msg => msg

inductive SendError where
  -- "worker %s not connected"
  | notConnected (worker : String)
  -- "session closed"
  | closed
  -- "session closed: %w", with the error of the session's context
  | contextDone (err : String)
deriving DecidableEq

inductive Result where
  | sent
  | failed (err : SendError)
  | broadcast (successCount failCount : Nat)
deriving DecidableEq

structure Tour (ι : Type) where
  -- a `Range` under way: the keys that have been there ever since it began, the keys copied so far,
  -- and the copied entries it has still to come to
  must : Finset String
  copied : Finset String := ∅
  pending : List (String × ι) := []
  successCount : Nat := 0
  failCount : Nat := 0

inductive Pc (ι : Type) where
  -- where a call is; within `session.Send`, whether it is past the flag
  | idle
  | sending (checked : Bool) (worker : String) (session : ι) (tour : Option (Tour ι))
  | ranging (tour : Tour ι)
  | returned (result : Result)

-- sessions `ι`, callers `κ` of `SessionManager.Close`, calls `ν` that push messages, and
-- others `α` that call `Send` of a session, as the handlers of its stream do
structure Sys (ι κ ν α μ : Type) where
  manager : SessionManager.Sys ι κ := SessionManager.Sys.start ι κ
  session : ι → Outbox.Sys (ν ⊕ α) μ := fun _ => {}
  pc : ν → Pc ι := fun _ => .idle

inductive Label (ι κ ν α μ : Type) where
  | manager (l : SessionManager.Label ι κ)
  -- a step of the session, or of a `Send` that is not a push
  | session (i : ι) (l : Outbox.Label (ν ⊕ α) μ)
  | load (k : ν)
  | range (k : ν)
  | copy (k : ν) (workers : List String)
  | visit (k : ν)
  | check (k : ν)
  | put (k : ν)
  | giveUp (k : ν) (err : String)
  | recover (k : ν)
  | finish (k : ν)

def byPush {ν α μ : Type} : Outbox.Label (ν ⊕ α) μ → Bool
  | .send (.inl _) _ | .enqueue (.inl _) | .giveUp (.inl _) | .recover (.inl _) => true
  | _ => false

def Tour.keep {ι : Type} (keys : Finset String) (tour : Tour ι) : Tour ι :=
  { tour with must := tour.must ∩ keys }

def Pc.keep {ι : Type} (keys : Finset String) : Pc ι → Pc ι
  | .sending checked worker i tour => .sending checked worker i (tour.map (Tour.keep keys))
  | .ranging tour => .ranging (tour.keep keys)
  | pc => pc

def answered {ι : Type} : Option (Tour ι) → Option SendError → Pc ι
  | none, none => .returned .sent
  | none, some err => .returned (.failed err)
  | some tour, none => .ranging { tour with successCount := tour.successCount + 1 }
  | some tour, some _ => .ranging { tour with failCount := tour.failCount + 1 }

variable {ι κ ν α μ : Type} [DecidableEq ι] [DecidableEq κ] [DecidableEq ν] [DecidableEq α]

def Sys.goto (s : Sys ι κ ν α μ) (k : ν) (pc : Pc ι) : Sys ι κ ν α μ :=
  { s with pc := Function.update s.pc k pc }

def Sys.setSession (s : Sys ι κ ν α μ) (i : ι) (o : Outbox.Sys (ν ⊕ α) μ) : Sys ι κ ν α μ :=
  { s with session := Function.update s.session i o }

def Sys.lookup (s : Sys ι κ ν α μ) (worker : String) : Option ι := s.manager.sessions.lookup worker

variable (job : ν → Job μ)

def step (s : Sys ι κ ν α μ) : Label ι κ ν α μ → Option (Sys ι κ ν α μ)
  | .manager l => (SessionManager.step s.manager l).map fun m =>
      { s with manager := m, pc := fun k => (s.pc k).keep m.sessions.keys }
  | .session i l =>
    if byPush l then none else (Outbox.step (s.session i) l).map (s.setSession i)
  | .load k =>
    match s.pc k, job k with
    | .idle, .toWorker worker _ =>
      match s.lookup worker with
      | none => some (s.goto k (.returned (.failed (.notConnected worker))))
      | some i => some (s.goto k (.sending false worker i none))
    | _, _ => none
  | .range k =>
    match s.pc k, job k with
    | .idle, .broadcast _ => some (s.goto k (.ranging { must := s.manager.sessions.keys }))
    | _, _ => none
  | .copy k workers =>
    match s.pc k with
    | .ranging tour =>
      if tour.pending = [] ∧ workers.Nodup ∧
          ∀ w ∈ workers, w ∉ tour.copied ∧ (s.lookup w).isSome then
        some (s.goto k (.ranging { tour with
          copied := tour.copied ∪ workers.toFinset
          pending := workers.filterMap fun w => (s.lookup w).map (w, ·) }))
      else none
    | _ => none
  | .visit k =>
    match s.pc k with
    | .ranging tour =>
      match tour.pending with
      | (worker, i) :: rest =>
        some (s.goto k (.sending false worker i (some { tour with pending := rest })))
      | [] => none
    | _ => none
  | .check k =>
    match s.pc k with
    | .sending false worker i tour =>
      (Outbox.step (s.session i) (.send (.inl k) (job k).msg)).map fun o =>
        (s.setSession i o).goto k (if (s.session i).closed then answered tour (some .closed)
          else .sending true worker i tour)
    | _ => none
  | .put k =>
    match s.pc k with
    | .sending true _ i tour => (Outbox.step (s.session i) (.enqueue (.inl k))).map fun o =>
        (s.setSession i o).goto k (answered tour none)
    | _ => none
  | .giveUp k err =>
    match s.pc k with
    | .sending true _ i tour => (Outbox.step (s.session i) (.giveUp (.inl k))).map fun o =>
        (s.setSession i o).goto k (answered tour (some (.contextDone err)))
    | _ => none
  | .recover k =>
    match s.pc k with
    | .sending true _ i tour => (Outbox.step (s.session i) (.recover (.inl k))).map fun o =>
        (s.setSession i o).goto k (answered tour (some .closed))
    | _ => none
  | .finish k =>
    match s.pc k with
    | .ranging tour =>
      if tour.pending = [] ∧ tour.must ⊆ tour.copied then
        some (s.goto k (.returned (.broadcast tour.successCount tour.failCount)))
      else none
    | _ => none

structure History (ι ν μ : Type) where
  -- by `Register`
  stored : List (String × ι) := []
  -- the keys that have been in the map ever since the call's `Range` began
  present : ν → Finset String := fun _ => ∅
  -- the calls of `session.Send` a call has made, and those that have returned nil
  sends : ν → List (String × ι) := fun _ => []
  puts : ν → List (String × ι) := fun _ => []
  -- what a session took, in order: the message of a push, or one of the others
  arrivals : ι → List (ν ⊕ μ) := fun _ => []
  wire : ι → Outbox.History μ := fun _ => {}

def History.send (h : History ι ν μ) (k : ν) (p : String × ι) : History ι ν μ :=
  { h with sends := Function.update h.sends k (h.sends k ++ [p]) }

def History.put (h : History ι ν μ) (k : ν) (p : String × ι) (o : Outbox.History μ) :
    History ι ν μ :=
  { h with
    puts := Function.update h.puts k (h.puts k ++ [p])
    arrivals := Function.update h.arrivals p.2 (h.arrivals p.2 ++ [.inl k])
    wire := Function.update h.wire p.2 o }

def putByOther (o : Outbox.Sys (ν ⊕ α) μ) : Outbox.Label (ν ⊕ α) μ → List μ
  | .enqueue (.inr a) => (o.sends (.inr a)).toList
  | _ => []

def storedBy : SessionManager.Label ι κ → List (String × ι)
  | .register worker session => [(worker, session)]
  | _ => []

def record (s : Sys ι κ ν α μ) (l : Label ι κ ν α μ) (h : History ι ν μ) : History ι ν μ :=
  match l with
  | .manager l =>
    { h with
      stored := h.stored ++ storedBy l
      present := fun k => h.present k ∩
        ((SessionManager.step s.manager l).elim ∅ fun m => m.sessions.keys) }
  | .session i l =>
    { h with
      arrivals := Function.update h.arrivals i
        (h.arrivals i ++ (putByOther (s.session i) l).map .inr)
      wire := Function.update h.wire i (Outbox.record (s.session i) l (h.wire i)) }
  | .load k =>
    match job k with
    | .toWorker worker _ => (s.lookup worker).elim h fun i => h.send k (worker, i)
    | .broadcast _ => h
  | .range k => { h with present := Function.update h.present k s.manager.sessions.keys }
  | .visit k =>
    match s.pc k with
    | .ranging tour => tour.pending.head?.elim h fun p => h.send k p
    | _ => h
  | .put k =>
    match s.pc k with
    | .sending _ worker i _ =>
      h.put k (worker, i) (Outbox.record (s.session i) (.enqueue (.inl k)) (h.wire i))
    | _ => h
  | _ => h

inductive Moves (s : Sys ι κ ν α μ) (h : History ι ν μ) : Sys ι κ ν α μ → History ι ν μ → Prop
  | manager (l : SessionManager.Label ι κ) (m : SessionManager.Sys ι κ)
      (hm : SessionManager.step s.manager l = some m) :
      Moves s h { s with manager := m, pc := fun k => (s.pc k).keep m.sessions.keys }
        { h with
          stored := h.stored ++ storedBy l
          present := fun k => h.present k ∩ m.sessions.keys }
  | session (i : ι) (l : Outbox.Label (ν ⊕ α) μ) (o : Outbox.Sys (ν ⊕ α) μ) (hl : byPush l = false)
      (ho : Outbox.step (s.session i) l = some o) :
      Moves s h (s.setSession i o)
        { h with
          arrivals := Function.update h.arrivals i
            (h.arrivals i ++ (putByOther (s.session i) l).map .inr)
          wire := Function.update h.wire i (Outbox.record (s.session i) l (h.wire i)) }
  | absent (k : ν) (worker : String) (msg : μ) (hp : s.pc k = .idle)
      (hj : job k = .toWorker worker msg) :
      Moves s h (s.goto k (.returned (.failed (.notConnected worker)))) h
  | load (k : ν) (worker : String) (msg : μ) (i : ι) (hp : s.pc k = .idle)
      (hj : job k = .toWorker worker msg) (hw : s.lookup worker = some i) :
      Moves s h (s.goto k (.sending false worker i none)) (h.send k (worker, i))
  | range (k : ν) (msg : μ) (hp : s.pc k = .idle) (hj : job k = .broadcast msg) :
      Moves s h (s.goto k (.ranging { must := s.manager.sessions.keys }))
        { h with present := Function.update h.present k s.manager.sessions.keys }
  | copy (k : ν) (tour : Tour ι) (workers : List String) (hp : s.pc k = .ranging tour)
      (hn : tour.pending = []) (hnd : workers.Nodup)
      (hw : ∀ w ∈ workers, w ∉ tour.copied ∧ (s.lookup w).isSome) :
      Moves s h (s.goto k (.ranging { tour with
        copied := tour.copied ∪ workers.toFinset
        pending := workers.filterMap fun w => (s.lookup w).map (w, ·) })) h
  | visit (k : ν) (tour : Tour ι) (p : String × ι) (rest : List (String × ι))
      (hp : s.pc k = .ranging tour) (hn : tour.pending = p :: rest) :
      Moves s h (s.goto k (.sending false p.1 p.2 (some { tour with pending := rest })))
        (h.send k p)
  | check (k : ν) (worker : String) (i : ι) (tour : Option (Tour ι))
      (hp : s.pc k = .sending false worker i tour) :
      Moves s h ((s.setSession i ((s.session i).setSend (.inl k) (some (job k).msg))).goto k
        (.sending true worker i tour)) h
  | put (k : ν) (worker : String) (i : ι) (tour : Option (Tour ι)) (o : Outbox.Sys (ν ⊕ α) μ)
      (hp : s.pc k = .sending true worker i tour)
      (ho : Outbox.step (s.session i) (.enqueue (.inl k)) = some o) :
      Moves s h ((s.setSession i o).goto k (answered tour none))
        (h.put k (worker, i) (Outbox.record (s.session i) (.enqueue (.inl k)) (h.wire i)))
  | fail (k : ν) (checked : Bool) (worker : String) (i : ι) (tour : Option (Tour ι))
      (err : SendError) (hp : s.pc k = .sending checked worker i tour) :
      Moves s h ((s.setSession i (if checked then (s.session i).setSend (.inl k) none
        else s.session i)).goto k (answered tour (some err))) h
  | finish (k : ν) (tour : Tour ι) (hp : s.pc k = .ranging tour) (hn : tour.pending = [])
      (hm : tour.must ⊆ tour.copied) :
      Moves s h (s.goto k (.returned (.broadcast tour.successCount tour.failCount))) h

section Steps
variable {job} {s t : Sys ι κ ν α μ} {h : History ι ν μ} {l : Label ι κ ν α μ}

theorem moves_of_step (hs : step job s l = some t) : Moves job s h t (record job s l h) := by
  cases l with
  | manager l =>
    obtain ⟨m, hm, rfl⟩ := Option.map_eq_some_iff.mp hs
    simp only [record, hm, Option.elim_some]
    exact .manager l m hm
  | session i l =>
    cases hl : byPush l with
    | true => simp [step, hl] at hs
    | false =>
      obtain ⟨o, ho, rfl⟩ : ∃ o, Outbox.step (s.session i) l = some o ∧ s.setSession i o = t := by
        simpa [step, hl] using hs
      exact .session i l o hl ho
  | load k =>
    simp only [step] at hs
    split at hs
    · rename_i worker msg hp hj
      cases hw : s.lookup worker with
      | none =>
        obtain rfl : s.goto k (.returned (.failed (.notConnected worker))) = t := by
          simpa [hw] using hs
        simp only [record, hj, hw, Option.elim_none]
        exact .absent k worker msg hp hj
      | some i =>
        obtain rfl : s.goto k (.sending false worker i none) = t := by simpa [hw] using hs
        simp only [record, hj, hw, Option.elim_some]
        exact .load k worker msg i hp hj hw
    · cases hs
  | range k =>
    simp only [step] at hs
    split at hs
    · rename_i msg hp hj
      obtain rfl := Option.some.inj hs
      exact .range k msg hp hj
    · cases hs
  | copy k workers =>
    simp only [step] at hs
    split at hs
    · rename_i tour hp
      simp only [Option.ite_none_right_eq_some, Option.some.injEq] at hs
      obtain ⟨⟨hn, hnd, hw⟩, rfl⟩ := hs
      exact .copy k tour workers hp hn hnd hw
    · cases hs
  | visit k =>
    simp only [step] at hs
    split at hs
    · rename_i tour hp
      split at hs
      · rename_i worker i rest hn
        obtain rfl := Option.some.inj hs
        simp only [record, hp, hn, List.head?_cons, Option.elim_some]
        exact .visit k tour (worker, i) rest hp hn
      · cases hs
    · cases hs
  | check k =>
    simp only [step] at hs
    split at hs
    · rename_i worker i tour hp
      obtain ⟨o, ho, rfl⟩ := Option.map_eq_some_iff.mp hs
      simp only [Outbox.step, Option.ite_none_right_eq_some, Option.some.injEq] at ho
      obtain ⟨-, rfl⟩ := ho
      cases hc : (s.session i).closed with
      | true => exact .fail k false worker i tour .closed hp
      | false => exact .check k worker i tour hp
    · cases hs
  | put k =>
    simp only [step] at hs
    split at hs
    · rename_i worker i tour hp
      obtain ⟨o, ho, rfl⟩ := Option.map_eq_some_iff.mp hs
      simp only [record, hp]
      exact .put k worker i tour o hp ho
    · cases hs
  | giveUp k err =>
    simp only [step] at hs
    split at hs
    · rename_i worker i tour hp
      obtain ⟨o, ho, rfl⟩ := Option.map_eq_some_iff.mp hs
      simp only [Outbox.step, Option.ite_none_right_eq_some, Option.some.injEq] at ho
      obtain ⟨-, rfl⟩ := ho
      exact .fail k true worker i tour (.contextDone err) hp
    · cases hs
  | recover k =>
    simp only [step] at hs
    split at hs
    · rename_i worker i tour hp
      obtain ⟨o, ho, rfl⟩ := Option.map_eq_some_iff.mp hs
      simp only [Outbox.step, Option.ite_none_right_eq_some, Option.some.injEq] at ho
      obtain ⟨-, rfl⟩ := ho
      exact .fail k true worker i tour .closed hp
    · cases hs
  | finish k =>
    simp only [step] at hs
    split at hs
    · rename_i tour hp
      simp only [Option.ite_none_right_eq_some, Option.some.injEq] at hs
      obtain ⟨⟨hn, hm⟩, rfl⟩ := hs
      exact .finish k tour hp hn hm
    · cases hs

end Steps

end Leibrix.Pushes

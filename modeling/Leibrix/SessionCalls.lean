import Leibrix.Transition
import Leibrix.WorkerStreams

/-! `events/session_manager.go` on its own: any number of `Register`, `Unregister` and
`Close` calls, by anyone and for any sessions. `Register` and `Unregister` change the map
in one step and the counter in another; what a call has still to do after its first step
is listed in `pending`. -/
namespace Leibrix.SessionManager
open Leibrix.Transition
open Leibrix.WorkerStreams (Closing)

inductive Pending (ι : Type) where
  -- `Register` has replaced this session and closes it
  | closeOld (session : ι)
  -- `Register` has stored a session for a new worker: `sessionCnt.Add(1)`
  | count (worker : String)
  -- `Unregister` has deleted the entry: `sessionCnt.Add(-1)`
  | uncount (worker : String)
deriving DecidableEq

structure Sys (ι κ : Type) where
  -- sessions `ι`, and callers `κ` of `Close`
  sessions : Finmap fun _ : String => ι
  sessionCnt : Int
  closed : ι → Bool
  pending : List (Pending ι)
  closers : κ → Closing

def Sys.start (ι κ : Type) : Sys ι κ where
  sessions := ∅
  sessionCnt := 0
  closed _ := false
  pending := []
  closers _ := .resting

inductive Label (ι κ : Type) where
  | register (worker : String) (session : ι)
  | unregister (worker : String)
  | finish (op : Pending ι)
  -- a session is closed by someone else
  | closeSession (session : ι)
  | callClose (k : κ)
  | visit (k : κ) (worker : String)
  | clear (k : κ)
  | reset (k : κ)
deriving DecidableEq

variable {ι κ : Type} [DecidableEq ι] [DecidableEq κ]

def Sys.activeWorkerCount (s : Sys ι κ) : Int := s.sessionCnt

def Sys.close (s : Sys ι κ) (i : ι) : Sys ι κ :=
  { s with closed := Function.update s.closed i true }

def Sys.setCloser (s : Sys ι κ) (k : κ) (c : Closing) : Sys ι κ :=
  { s with closers := Function.update s.closers k c }

def Sys.loadAndStore (s : Sys ι κ) (worker : String) (session : ι) : Sys ι κ :=
  { s with
    sessions := s.sessions.insert worker session
    pending := (match s.sessions.lookup worker with
      | some old => .closeOld old
      | none => .count worker) :: s.pending }

def Sys.loadAndDelete (s : Sys ι κ) (worker : String) : Sys ι κ :=
  match s.sessions.lookup worker with
  | none => s
  | some _ => { s with
      sessions := s.sessions.erase worker
      pending := .uncount worker :: s.pending
      closers := fun k => (s.closers k).forget worker }

def Sys.clearAll (s : Sys ι κ) (k : κ) : Sys ι κ :=
  { s with
    sessions := ∅
    closers := Function.update (fun k => (s.closers k).forgetAll) k .cleared }

def Sys.perform (s : Sys ι κ) : Pending ι → Sys ι κ
  | .closeOld old => s.close old
  | .count _ => { s with sessionCnt := s.sessionCnt + 1 }
  | .uncount _ => { s with sessionCnt := s.sessionCnt - 1 }

def step (s : Sys ι κ) : Label ι κ → Option (Sys ι κ)
  | .register worker session => some (s.loadAndStore worker session)
  | .unregister worker => some (s.loadAndDelete worker)
  | .finish op =>
    if op ∈ s.pending then some ({ s with pending := s.pending.erase op }.perform op) else none
  | .closeSession session => some (s.close session)
  | .callClose k =>
    if s.closers k = .resting then some (s.setCloser k (.ranging s.sessions.keys ∅)) else none
  | .visit k worker =>
    match s.closers k, s.sessions.lookup worker with
    | .ranging must visited, some i =>
      if worker ∈ visited then none
      else some ((s.close i).setCloser k (.ranging must (insert worker visited)))
    | _, _ => none
  | .clear k =>
    match s.closers k with
    | .ranging must visited => if must ⊆ visited then some (s.clearAll k) else none
    | _ => none
  | .reset k =>
    if s.closers k = .cleared then
      some ({ s with sessionCnt := 0 }.setCloser k .resting)
    else none

inductive Moves (s : Sys ι κ) : Label ι κ → Sys ι κ → Prop
  | replace (worker : String) (session old : ι) (hw : s.sessions.lookup worker = some old) :
      Moves s (.register worker session) { s with
        sessions := s.sessions.insert worker session, pending := .closeOld old :: s.pending }
  | add (worker : String) (session : ι) (hw : s.sessions.lookup worker = none) :
      Moves s (.register worker session) { s with
        sessions := s.sessions.insert worker session, pending := .count worker :: s.pending }
  | absent (worker : String) (hw : s.sessions.lookup worker = none) :
      Moves s (.unregister worker) s
  | delete (worker : String) (session : ι) (hw : s.sessions.lookup worker = some session) :
      Moves s (.unregister worker) { s with
        sessions := s.sessions.erase worker
        pending := .uncount worker :: s.pending
        closers := fun k => (s.closers k).forget worker }
  | finish (op : Pending ι) (hop : op ∈ s.pending) :
      Moves s (.finish op) ({ s with pending := s.pending.erase op }.perform op)
  | closeSession (session : ι) : Moves s (.closeSession session) (s.close session)
  | callClose (k : κ) (hk : s.closers k = .resting) :
      Moves s (.callClose k) (s.setCloser k (.ranging s.sessions.keys ∅))
  | visit (k : κ) (worker : String) (i : ι) (must visited : Finset String)
      (hk : s.closers k = .ranging must visited) (hw : s.sessions.lookup worker = some i) :
      Moves s (.visit k worker) ((s.close i).setCloser k (.ranging must (insert worker visited)))
  | clear (k : κ) (must visited : Finset String) (hk : s.closers k = .ranging must visited)
      (hv : must ⊆ visited) : Moves s (.clear k) (s.clearAll k)
  | reset (k : κ) (hk : s.closers k = .cleared) :
      Moves s (.reset k) ({ s with sessionCnt := 0 }.setCloser k .resting)

theorem moves_of_step {s t : Sys ι κ} {l : Label ι κ} (h : step s l = some t) : Moves s l t := by
  cases l with
  | register worker session =>
    cases h
    unfold Sys.loadAndStore
    cases hw : s.sessions.lookup worker with
    | none => exact .add worker session hw
    | some old => exact .replace worker session old hw
  | unregister worker =>
    cases h
    unfold Sys.loadAndDelete
    cases hw : s.sessions.lookup worker with
    | none => exact .absent worker hw
    | some session => exact .delete worker session hw
  | finish op =>
    simp only [step] at h
    split at h
    · rename_i hop
      cases h
      exact .finish op hop
    · cases h
  | closeSession session =>
    cases h
    exact .closeSession session
  | callClose k =>
    simp only [step] at h
    split at h
    · rename_i hk
      cases h
      exact .callClose k hk
    · cases h
  | visit k worker =>
    simp only [step] at h
    split at h
    · rename_i must visited i hk hw
      split at h
      · cases h
      · cases h
        exact .visit k worker i must visited hk hw
    · cases h
  | clear k =>
    simp only [step] at h
    split at h
    · rename_i must visited hk
      split at h
      · rename_i hv
        cases h
        exact .clear k must visited hk hv
      · cases h
    · cases h
  | reset k =>
    simp only [step] at h
    split at h
    · rename_i hk
      cases h
      exact .reset k hk
    · cases h

end Leibrix.SessionManager

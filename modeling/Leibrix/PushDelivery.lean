import Leibrix.Pushes
import Mathlib.Data.List.Count

/-! No push is lost, doubled or sent to a stranger by the session manager: what the sessions
take is what the calls report. -/
namespace Leibrix.Pushes
open Leibrix.Transition

section Calls
variable {ι μ : Type} {job : Job μ} {stored stored' : List (String × ι)}
  {present keys : Finset String} {sends puts : List (String × ι)}

structure Touring (stored : List (String × ι)) (present : Finset String)
    (sends puts : List (String × ι)) (tour : Tour ι) (waiting : Nat) : Prop where
  must : tour.must = present
  copied : ∀ w, w ∈ tour.copied ↔ w ∈ (sends ++ tour.pending).map Prod.fst
  nodup : ((sends ++ tour.pending).map Prod.fst).Nodup
  pending : ∀ p ∈ tour.pending, p ∈ stored
  puts : puts.length = tour.successCount
  sends : sends.length = tour.successCount + tour.failCount + waiting

inductive Progress (job : Job μ) (stored : List (String × ι)) (present : Finset String) :
    List (String × ι) → List (String × ι) → Pc ι → Prop
  -- what one call has sent and put, by where it is
  | idle : Progress job stored present [] [] .idle
  | toWorker {worker : String} {msg : μ} (checked : Bool) (i : ι)
      (hj : job = .toWorker worker msg) :
      Progress job stored present [(worker, i)] [] (.sending checked worker i none)
  | sent {worker : String} {msg : μ} (i : ι) (hj : job = .toWorker worker msg) :
      Progress job stored present [(worker, i)] [(worker, i)] (.returned .sent)
  | failed {worker : String} {msg : μ} {sends : List (String × ι)} (err : SendError)
      (hj : job = .toWorker worker msg) (hn : sends = [] ∨ ∃ i, sends = [(worker, i)]) :
      Progress job stored present sends [] (.returned (.failed err))
  | ranging {msg : μ} {sends puts : List (String × ι)} {tour : Tour ι}
      (hj : job = .broadcast msg) (ht : Touring stored present sends puts tour 0)
      (hs : puts.Sublist sends) : Progress job stored present sends puts (.ranging tour)
  | visiting {msg : μ} {before puts : List (String × ι)} {p : String × ι} {tour : Tour ι}
      (checked : Bool) (hj : job = .broadcast msg)
      (ht : Touring stored present (before ++ [p]) puts tour 1) (hs : puts.Sublist before) :
      Progress job stored present (before ++ [p]) puts (.sending checked p.1 p.2 (some tour))
  | done {msg : μ} {sends puts : List (String × ι)} {ok fail : Nat} (hj : job = .broadcast msg)
      (hs : puts.Sublist sends) (hd : (sends.map Prod.fst).Nodup) (hok : puts.length = ok)
      (hall : sends.length = ok + fail) (hp : ∀ w ∈ present, w ∈ sends.map Prod.fst) :
      Progress job stored present sends puts (.returned (.broadcast ok fail))

def Reported (job : Job μ) (present : Finset String) (sends puts : List (String × ι)) :
    Result → Prop
  -- what the result of a call says about it
  | .sent => ∃ worker msg i, job = .toWorker worker msg ∧ puts = [(worker, i)]
  | .failed _ => (∃ worker msg, job = .toWorker worker msg) ∧ puts = []
  | .broadcast ok fail => (∃ msg, job = .broadcast msg) ∧ puts.length = ok ∧
      sends.length = ok + fail ∧ ∀ w ∈ present, w ∈ sends.map Prod.fst

theorem Touring.keep {tour : Tour ι} {waiting : Nat}
    (h : Touring stored present sends puts tour waiting) (hst : stored ⊆ stored') :
    Touring stored' (present ∩ keys) sends puts (tour.keep keys) waiting :=
  ⟨by rw [Tour.keep, h.must], h.copied, h.nodup, fun p hp => hst (h.pending p hp), h.puts,
    h.sends⟩

theorem Progress.keep {pc : Pc ι} (h : Progress job stored present sends puts pc)
    (hst : stored ⊆ stored') :
    Progress job stored' (present ∩ keys) sends puts (pc.keep keys) := by
  cases h with
  | idle => exact .idle
  | toWorker checked i hj => exact .toWorker checked i hj
  | sent i hj => exact .sent i hj
  | failed err hj hn => exact .failed err hj hn
  | ranging hj ht hs => exact .ranging hj (ht.keep hst) hs
  | visiting checked hj ht hs => exact .visiting checked hj (ht.keep hst) hs
  | done hj hs hd hok hall hp =>
    exact .done hj hs hd hok hall fun w hw => hp w (Finset.mem_inter.mp hw).1

theorem Progress.of_idle (h : Progress job stored present sends puts .idle) :
    sends = [] ∧ puts = [] := by
  cases h with
  | idle => exact ⟨rfl, rfl⟩

theorem Progress.pending {tour : Tour ι}
    (h : Progress job stored present sends puts (.ranging tour)) {p : String × ι}
    (hp : p ∈ tour.pending) : p ∈ stored := by
  cases h with
  | ranging hj ht hs => exact ht.pending p hp

theorem Progress.check {worker : String} {i : ι} {tour : Option (Tour ι)}
    (h : Progress job stored present sends puts (.sending false worker i tour)) :
    Progress job stored present sends puts (.sending true worker i tour) := by
  cases h with
  | toWorker checked i hj => exact .toWorker true i hj
  | visiting checked hj ht hs => exact .visiting true hj ht hs

theorem Progress.put {checked : Bool} {worker : String} {i : ι} {tour : Option (Tour ι)}
    (h : Progress job stored present sends puts (.sending checked worker i tour)) :
    Progress job stored present sends (puts ++ [(worker, i)]) (answered tour none) := by
  cases h with
  | toWorker checked i hj => exact .sent i hj
  | visiting checked hj ht hs =>
    refine .ranging hj ⟨ht.must, ht.copied, ht.nodup, ht.pending, ?_, ?_⟩
      (hs.append_right _)
    · simp [ht.puts]
    · have hl := ht.sends
      dsimp only
      omega

theorem Progress.fail {checked : Bool} {worker : String} {i : ι} {tour : Option (Tour ι)}
    (h : Progress job stored present sends puts (.sending checked worker i tour))
    (err : SendError) :
    Progress job stored present sends puts (answered tour (some err)) := by
  cases h with
  | toWorker checked i hj => exact .failed err hj (.inr ⟨i, rfl⟩)
  | visiting checked hj ht hs =>
    refine .ranging hj ⟨ht.must, ht.copied, ht.nodup, ht.pending, ht.puts, ?_⟩
      (hs.trans (List.sublist_append_left ..))
    have hl := ht.sends
    dsimp only
    omega

theorem Progress.copy {tour : Tour ι} {pending : List (String × ι)}
    (h : Progress job stored present sends puts (.ranging tour)) (hn : tour.pending = [])
    (hnd : (pending.map Prod.fst).Nodup)
    (hp : ∀ p ∈ pending, p.1 ∉ tour.copied ∧ p ∈ stored) :
    Progress job stored present sends puts (.ranging { tour with
      copied := tour.copied ∪ (pending.map Prod.fst).toFinset, pending := pending }) := by
  cases h with
  | ranging hj ht hs =>
    have hc : ∀ w, w ∈ tour.copied ↔ w ∈ sends.map Prod.fst := by simpa [hn] using ht.copied
    have hsends : (sends.map Prod.fst).Nodup := by simpa [hn] using ht.nodup
    refine .ranging hj ⟨ht.must, fun w => ?_, ?_, fun p hm => (hp p hm).2, ht.puts, ht.sends⟩ hs
    · simp only [List.map_append, List.mem_append, Finset.mem_union, List.mem_toFinset, hc]
    · rw [List.map_append, List.nodup_append]
      refine ⟨hsends, hnd, fun w hw w' hw' he => ?_⟩
      subst he
      obtain ⟨p, hm, rfl⟩ := List.mem_map.mp hw'
      exact (hp p hm).1 ((hc _).mpr hw)

theorem Progress.visit {tour : Tour ι} {p : String × ι} {rest : List (String × ι)}
    (h : Progress job stored present sends puts (.ranging tour)) (hn : tour.pending = p :: rest) :
    Progress job stored present (sends ++ [p]) puts
      (.sending false p.1 p.2 (some { tour with pending := rest })) := by
  cases h with
  | ranging hj ht hs =>
    refine .visiting false hj ⟨ht.must, fun w => ?_, ?_, fun q hq => ht.pending q ?_, ht.puts, ?_⟩
      hs
    · simpa [hn] using ht.copied w
    · simpa [hn] using ht.nodup
    · rw [hn]
      exact List.mem_cons_of_mem p hq
    · have hl := ht.sends
      simp only [List.length_append, List.length_singleton]
      omega

theorem Progress.finish {tour : Tour ι}
    (h : Progress job stored present sends puts (.ranging tour)) (hn : tour.pending = [])
    (hm : tour.must ⊆ tour.copied) :
    Progress job stored present sends puts
      (.returned (.broadcast tour.successCount tour.failCount)) := by
  cases h with
  | ranging hj ht hs =>
    refine .done hj hs (by simpa [hn] using ht.nodup) ht.puts ht.sends fun w hw => ?_
    rw [← ht.must] at hw
    simpa [hn] using (ht.copied w).mp (hm hw)

theorem Progress.sublist {pc : Pc ι} (h : Progress job stored present sends puts pc) :
    puts.Sublist sends := by
  cases h with
  | idle => exact .slnil
  | toWorker checked i hj => exact List.nil_sublist _
  | sent i hj => exact List.Sublist.refl _
  | failed err hj hn => exact List.nil_sublist _
  | ranging hj ht hs => exact hs
  | visiting checked hj ht hs => exact hs.trans (List.sublist_append_left ..)
  | done hj hs hd hok hall hp => exact hs

theorem Progress.nodup {pc : Pc ι} (h : Progress job stored present sends puts pc) :
    (sends.map Prod.fst).Nodup := by
  cases h with
  | idle => simp
  | toWorker checked i hj => simp
  | sent i hj => simp
  | failed err hj hn => rcases hn with rfl | ⟨i, rfl⟩ <;> simp
  | ranging hj ht hs => exact (List.map_append ▸ ht.nodup).of_append_left
  | visiting checked hj ht hs => exact (List.map_append ▸ ht.nodup).of_append_left
  | done hj hs hd hok hall hp => exact hd

theorem Progress.worker {pc : Pc ι} (h : Progress job stored present sends puts pc)
    {worker : String} {msg : μ} (hj : job = .toWorker worker msg) {p : String × ι}
    (hp : p ∈ sends) : p.1 = worker := by
  subst hj
  cases h with
  | idle => cases hp
  | toWorker checked i hj | sent i hj =>
    cases hj
    simp [List.mem_singleton.mp hp]
  | failed err hj hn =>
    cases hj
    rcases hn with rfl | ⟨i, rfl⟩
    · cases hp
    · simp [List.mem_singleton.mp hp]
  | ranging hj ht hs | visiting checked hj ht hs | done hj hs hd hok hall hpres => cases hj

theorem Progress.reported {r : Result}
    (h : Progress job stored present sends puts (.returned r)) :
    Reported job present sends puts r := by
  cases h with
  | sent i hj => exact ⟨_, _, i, hj, rfl⟩
  | failed err hj hn => exact ⟨⟨_, _, hj⟩, rfl⟩
  | done hj hs hd hok hall hp => exact ⟨⟨_, hj⟩, hok, hall, hp⟩

theorem map_fst_entries {find : String → Option ι} {workers : List String}
    (hw : ∀ w ∈ workers, (find w).isSome) :
    (workers.filterMap fun w => (find w).map (w, ·)).map Prod.fst = workers := by
  induction workers with
  | nil => rfl
  | cons w workers ih =>
    obtain ⟨i, hi⟩ := Option.isSome_iff_exists.mp (hw w (by simp))
    have hrest := ih fun v hv => hw v (by simp [hv])
    simp [hi, hrest]

end Calls

section Entries
variable {ι κ : Type} [DecidableEq ι] [DecidableEq κ]

/-- Only `Register` brings entries into the map. -/
theorem lookup_of_step {m m' : SessionManager.Sys ι κ} {l : SessionManager.Label ι κ}
    (hm : SessionManager.step m l = some m') {w : String} {i : ι}
    (hw : m'.sessions.lookup w = some i) : m.sessions.lookup w = some i ∨ (w, i) ∈ storedBy l := by
  cases SessionManager.moves_of_step hm with
  | replace worker session old ho | add worker session ho =>
    by_cases he : w = worker
    · subst he
      obtain rfl : session = i := by simpa using hw
      exact .inr (by simp [storedBy])
    · exact .inl (by simpa [Finmap.lookup_insert_of_ne _ he] using hw)
  | absent worker ho => exact .inl hw
  | delete worker session ho =>
    by_cases he : w = worker
    · subst he
      simp at hw
    · exact .inl (by simpa [Finmap.lookup_erase_ne he] using hw)
  | finish op hop => cases op <;> exact .inl hw
  | closeSession session => exact .inl hw
  | callClose k hk => exact .inl hw
  | visit k worker j must visited hk ho => exact .inl hw
  | clear k must visited hk hv => simp [SessionManager.Sys.clearAll] at hw
  | reset k hk => exact .inl hw

end Entries

section Outboxes
variable {ν α μ : Type} [DecidableEq ν] [DecidableEq α] {o o' : Outbox.Sys (ν ⊕ α) μ}
  {l : Outbox.Label (ν ⊕ α) μ} {h : Outbox.History μ}

/-- The others' calls leave the pushes at their `select`s alone. -/
theorem sends_of_step (hl : byPush l = false) (ho : Outbox.step o l = some o') :
    (∀ k, o'.sends (.inl k) = o.sends (.inl k)) ∧
      (Outbox.record o l h).accepted = h.accepted ++ putByOther o l := by
  cases l with
  | send i msg =>
    cases i with
    | inl k => cases hl
    | inr a =>
      refine ⟨fun k => ?_, (List.append_nil _).symm⟩
      simp only [Outbox.step, Option.ite_none_right_eq_some, Option.some.injEq] at ho
      obtain ⟨-, rfl⟩ := ho
      split
      · rfl
      · simp [Outbox.Sys.setSend]
  | enqueue i =>
    cases i with
    | inl k => cases hl
    | inr a =>
      refine ⟨fun k => ?_, rfl⟩
      simp only [Outbox.step] at ho
      split at ho
      · simp only [Option.ite_none_right_eq_some, Option.some.injEq] at ho
        obtain ⟨-, rfl⟩ := ho
        simp [Outbox.Sys.setSend]
      · cases ho
  | giveUp i | recover i =>
    cases i with
    | inl k => cases hl
    | inr a =>
      refine ⟨fun k => ?_, (List.append_nil _).symm⟩
      simp only [Outbox.step, Option.ite_none_right_eq_some, Option.some.injEq] at ho
      obtain ⟨-, rfl⟩ := ho
      simp [Outbox.Sys.setSend]
  | _ =>
    refine ⟨fun k => congrFun (?_ : o'.sends = o.sends) _, (List.append_nil _).symm⟩
    simp only [Outbox.step] at ho
    grind

end Outboxes

variable {ι κ ν α μ : Type} {job : ν → Job μ} {s t : Sys ι κ ν α μ} {h h' : History ι ν μ}

structure Sent (job : ν → Job μ) (s : Sys ι κ ν α μ) (h : History ι ν μ) : Prop where
  -- what is sent goes to sessions that `Register` has stored under the worker, and each call is
  -- where its sends and puts say
  entries : ∀ w i, s.lookup w = some i → (w, i) ∈ h.stored
  sends : ∀ k, ∀ p ∈ h.sends k, p ∈ h.stored
  progress : ∀ k, Progress (job k) h.stored (h.present k) (h.sends k) (h.puts k) (s.pc k)

theorem Sent.at {k : ν} {pc : Pc ι} (hi : Sent job s h) (hp : s.pc k = pc) :
    Progress (job k) h.stored (h.present k) (h.sends k) (h.puts k) pc := by
  rw [← hp]
  exact hi.progress k

variable [DecidableEq ν]

theorem Sent.goto {k : ν} {pc : Pc ι} (hi : Sent job s h) (he : h'.stored = h.stored)
    (hp : ∀ j, j ≠ k → h'.present j = h.present j) (hs : ∀ j, j ≠ k → h'.sends j = h.sends j)
    (hq : ∀ j, j ≠ k → h'.puts j = h.puts j) (hk : ∀ p ∈ h'.sends k, p ∈ h.stored)
    (hpc : Progress (job k) h.stored (h'.present k) (h'.sends k) (h'.puts k) pc)
    (hm : t.manager = s.manager) (ht : t.pc = s.pc) : Sent job (t.goto k pc) h' := by
  refine ⟨fun w i hw => ?_, fun j p hj => ?_, fun j => ?_⟩
  · rw [he]
    refine hi.entries w i ?_
    simpa [Sys.lookup, Sys.goto, hm] using hw
  · rw [he]
    by_cases hjk : j = k
    · subst hjk
      exact hk p hj
    · exact hi.sends j p (hs j hjk ▸ hj)
  · rw [he]
    by_cases hjk : j = k
    · subst hjk
      simpa [Sys.goto] using hpc
    · rw [hp j hjk, hs j hjk, hq j hjk]
      simpa [Sys.goto, hjk, ht] using hi.progress j

theorem Sent.turn {k : ν} {pc : Pc ι} (hi : Sent job s h)
    (hpc : Progress (job k) h.stored (h.present k) (h.sends k) (h.puts k) pc)
    (hm : t.manager = s.manager) (ht : t.pc = s.pc) : Sent job (t.goto k pc) h :=
  hi.goto rfl (fun _ _ => rfl) (fun _ _ => rfl) (fun _ _ => rfl) (hi.sends k) hpc hm ht

theorem Sent.send {k : ν} {pc : Pc ι} {p : String × ι} (hi : Sent job s h) (hp : p ∈ h.stored)
    (hpc : Progress (job k) h.stored (h.present k) (h.sends k ++ [p]) (h.puts k) pc) :
    Sent job (s.goto k pc) (h.send k p) := by
  refine hi.goto rfl (fun _ _ => rfl) (fun j hj => Function.update_of_ne hj ..)
    (fun _ _ => rfl) ?_ (by simpa [History.send] using hpc) rfl rfl
  intro q hq
  simp only [History.send, Function.update_self, List.mem_append, List.mem_singleton] at hq
  rcases hq with hq | rfl
  · exact hi.sends k q hq
  · exact hp

variable [DecidableEq ι]

def Pc.awaits (msg : μ) (i : ι) : Pc ι → Option μ
  | .sending true _ j _ => if j = i then some msg else none
  | _ => none

def arrivedMsg (job : ν → Job μ) : ν ⊕ μ → μ
  | .inl k => (job k).msg
  | .inr msg => msg

def History.timesTaken (h : History ι ν μ) (i : ι) (k : ν) : Nat :=
  ((h.arrivals i).filterMap Sum.getLeft?).count k

structure Taken (job : ν → Job μ) (s : Sys ι κ ν α μ) (h : History ι ν μ) : Prop where
  -- message by message: what is at a `select`, and what a session has taken
  waiting : ∀ i k, (s.session i).sends (.inl k) = (s.pc k).awaits (job k).msg i
  balance : ∀ i, Outbox.Balance (s.session i) (h.wire i)
  arrived : ∀ i, (h.wire i).accepted = (h.arrivals i).map (arrivedMsg job)
  counts : ∀ i k, h.timesTaken i k = ((h.puts k).map Prod.snd).count i

theorem awaits_keep (msg : μ) (i : ι) (keys : Finset String) (pc : Pc ι) :
    (pc.keep keys).awaits msg i = pc.awaits msg i := by
  cases pc with
  | sending checked worker j tour => cases checked <;> rfl
  | _ => rfl

theorem awaits_answered (msg : μ) (i : ι) (tour : Option (Tour ι)) (err : Option SendError) :
    (answered tour err).awaits msg i = none := by
  cases tour <;> cases err <;> rfl

theorem Taken.waiting_goto {k : ν} {pc : Pc ι} (ht : Taken job s h) (hpc : t.pc = s.pc)
    (hothers : ∀ i j, j ≠ k → (t.session i).sends (.inl j) = (s.session i).sends (.inl j))
    (hk : ∀ i, (t.session i).sends (.inl k) = pc.awaits (job k).msg i) (i : ι) (j : ν) :
    ((t.goto k pc).session i).sends (.inl j) = ((t.goto k pc).pc j).awaits (job j).msg i := by
  by_cases hj : j = k
  · subst hj
    simpa [Sys.goto] using hk i
  · simpa [Sys.goto, hj, hothers i j hj, hpc] using ht.waiting i j

theorem Taken.turn {k : ν} {pc : Pc ι} (ht : Taken job s h) (hw : h'.wire = h.wire)
    (ha : h'.arrivals = h.arrivals) (hq : h'.puts = h.puts)
    (hold : ∀ msg : μ, ∀ i, (s.pc k).awaits msg i = none)
    (hnew : ∀ msg : μ, ∀ i, pc.awaits msg i = none) : Taken job (s.goto k pc) h' := by
  refine ⟨ht.waiting_goto rfl (fun _ _ _ => rfl) fun i => ?_, ?_, ?_, ?_⟩
  · rw [ht.waiting, hold, hnew]
  · rw [hw]
    exact ht.balance
  · rw [hw, ha]
    exact ht.arrived
  · simp only [History.timesTaken, ha, hq]
    exact ht.counts

/-- A call that is within `Send` of session `i` touches this session only. -/
theorem Taken.waiting_session {k : ν} {i : ι} {checked : Bool} {worker : String}
    {tour : Option (Tour ι)} {o : Outbox.Sys (ν ⊕ α) μ} {pc : Pc ι} (ht : Taken job s h)
    (hp : s.pc k = .sending checked worker i tour)
    (hothers : ∀ j, j ≠ k → o.sends (.inl j) = (s.session i).sends (.inl j))
    (hk : o.sends (.inl k) = pc.awaits (job k).msg i)
    (hpc : ∀ i', i' ≠ i → pc.awaits (job k).msg i' = none) (i' : ι) (j : ν) :
    (((s.setSession i o).goto k pc).session i').sends (.inl j) =
      (((s.setSession i o).goto k pc).pc j).awaits (job j).msg i' := by
  refine ht.waiting_goto (t := s.setSession i o) rfl (fun i' j hj => ?_) (fun i' => ?_) i' j
  · by_cases hi : i' = i
    · subst hi
      simpa [Sys.setSession] using hothers j hj
    · simp [Sys.setSession, hi]
  · by_cases hi : i' = i
    · subst hi
      simpa [Sys.setSession] using hk
    · have hnone : (s.session i').sends (.inl k) = none := by
        rw [ht.waiting, hp]
        cases checked
        · rfl
        · exact if_neg fun he => hi he.symm
      simpa [Sys.setSession, hi, hpc i' hi] using hnone

theorem Taken.aside {k : ν} {i : ι} {checked : Bool} {worker : String} {tour : Option (Tour ι)}
    {o : Outbox.Sys (ν ⊕ α) μ} {pc : Pc ι} (ht : Taken job s h)
    (hp : s.pc k = .sending checked worker i tour)
    (hothers : ∀ j, j ≠ k → o.sends (.inl j) = (s.session i).sends (.inl j))
    (hk : o.sends (.inl k) = pc.awaits (job k).msg i)
    (hpc : ∀ i', i' ≠ i → pc.awaits (job k).msg i' = none)
    (hout : o.outbox = (s.session i).outbox) (hw : o.writer = (s.session i).writer) :
    Taken job ((s.setSession i o).goto k pc) h := by
  refine ⟨ht.waiting_session hp hothers hk hpc, fun i' => ?_, ht.arrived, ht.counts⟩
  by_cases hi : i' = i
  · subst hi
    have hb := ht.balance i'
    exact ⟨by simp [Sys.goto, Sys.setSession, hout, hb.taken],
      by simp [Sys.goto, Sys.setSession, hw, hb.passed]⟩
  · simpa [Sys.goto, Sys.setSession, hi] using ht.balance i'

variable [DecidableEq α]

theorem Taken.put {k : ν} {i : ι} {worker : String} {tour : Option (Tour ι)}
    {o : Outbox.Sys (ν ⊕ α) μ} (ht : Taken job s h) (hp : s.pc k = .sending true worker i tour)
    (ho : Outbox.step (s.session i) (.enqueue (.inl k)) = some o) :
    Taken job ((s.setSession i o).goto k (answered tour none))
      (h.put k (worker, i) (Outbox.record (s.session i) (.enqueue (.inl k)) (h.wire i))) := by
  have hmsg : (s.session i).sends (.inl k) = some (job k).msg := by
    rw [ht.waiting, hp]
    exact if_pos rfl
  have hbal := (ht.balance i).step ho
  simp only [Outbox.step, hmsg, Option.ite_none_right_eq_some, Option.some.injEq] at ho
  obtain ⟨-, rfl⟩ := ho
  refine ⟨ht.waiting_session hp (fun j hj => ?_) ?_ fun _ _ => awaits_answered .., ?_, ?_, ?_⟩
  · simp [Outbox.Sys.setSend, hj]
  · simp [Outbox.Sys.setSend, awaits_answered]
  · intro i'
    by_cases hi : i' = i
    · subst hi
      simpa [History.put, Sys.goto, Sys.setSession] using hbal
    · simpa [History.put, Sys.goto, Sys.setSession, hi] using ht.balance i'
  · intro i'
    by_cases hi : i' = i
    · subst hi
      simp [History.put, Outbox.record, hmsg, ht.arrived i', arrivedMsg]
    · simpa [History.put, hi] using ht.arrived i'
  · intro i' k'
    have hc := ht.counts i' k'
    by_cases hi : i' = i <;> by_cases hj : k' = k
    · subst hi hj
      simpa [History.put, History.timesTaken, List.filterMap_append] using hc
    · subst hi
      simpa [History.put, History.timesTaken, List.filterMap_append, hj, List.count_singleton,
        Ne.symm hj] using hc
    · subst hj
      simpa [History.put, History.timesTaken, hi, List.count_singleton, Ne.symm hi] using hc
    · simpa [History.put, History.timesTaken, hi, hj] using hc

variable [DecidableEq κ]

theorem Sent.step (hi : Sent job s h) (hm : Moves job s h t h') : Sent job t h' := by
  cases hm with
  | manager l m hm =>
    refine ⟨fun w i hw => ?_, fun k p hp => ?_, fun k => ?_⟩
    · rcases lookup_of_step hm hw with ho | hn
      · exact List.mem_append_left _ (hi.entries w i ho)
      · exact List.mem_append_right _ hn
    · exact List.mem_append_left _ (hi.sends k p hp)
    · exact (hi.progress k).keep (List.subset_append_left ..)
  | session i l o hl ho => exact ⟨hi.entries, hi.sends, hi.progress⟩
  | absent k worker msg hp hj =>
    obtain ⟨hs, hq⟩ := (hi.at hp).of_idle
    refine hi.turn ?_ rfl rfl
    rw [hs, hq]
    exact .failed _ hj (.inl rfl)
  | load k worker msg i hp hj hw =>
    obtain ⟨hs, hq⟩ := (hi.at hp).of_idle
    refine hi.send (hi.entries worker i hw) ?_
    rw [hs, hq]
    exact .toWorker false i hj
  | range k msg hp hj =>
    obtain ⟨hs, hq⟩ := (hi.at hp).of_idle
    refine hi.goto rfl (fun j hj => Function.update_of_ne hj ..) (fun _ _ => rfl)
      (fun _ _ => rfl) (hi.sends k) ?_ rfl rfl
    rw [hs, hq]
    exact .ranging hj ⟨by simp, by simp, by simp, by simp, rfl, rfl⟩ .slnil
  | copy k tour workers hp hn hnd hw =>
    have hfst := map_fst_entries fun w hm => (hw w hm).2
    refine hi.turn ?_ rfl rfl
    have hcopy := (hi.at hp).copy hn (hfst.symm ▸ hnd) fun p hm => ?_
    · rwa [hfst] at hcopy
    · obtain ⟨w, hmw, hpw⟩ := List.mem_filterMap.mp hm
      obtain ⟨i, hl, rfl⟩ := Option.map_eq_some_iff.mp hpw
      exact ⟨(hw w hmw).1, hi.entries w i hl⟩
  | visit k tour p rest hp hn =>
    have hk := hi.at hp
    exact hi.send (hk.pending (by simp [hn])) (hk.visit hn)
  | check k worker i tour hp => exact hi.turn (hi.at hp).check rfl rfl
  | put k worker i tour o hp ho =>
    refine hi.goto rfl (fun _ _ => rfl) (fun _ _ => rfl) (fun j hj => Function.update_of_ne hj ..)
      (hi.sends k) ?_ rfl rfl
    simpa [History.put] using (hi.at hp).put
  | fail k checked worker i tour err hp => exact hi.turn ((hi.at hp).fail err) rfl rfl
  | finish k tour hp hn hm => exact hi.turn ((hi.at hp).finish hn hm) rfl rfl

theorem Taken.step (ht : Taken job s h) (hm : Moves job s h t h') : Taken job t h' := by
  cases hm with
  | manager l m hm =>
    refine ⟨fun i k => ?_, ht.balance, ht.arrived, ht.counts⟩
    rw [awaits_keep]
    exact ht.waiting i k
  | session i l o hl ho =>
    obtain ⟨hsends, hacc⟩ := sends_of_step (h := h.wire i) hl ho
    refine ⟨fun i' k => ?_, fun i' => ?_, fun i' => ?_, fun i' k => ?_⟩ <;>
      by_cases hi : i' = i
    · subst hi
      simpa [Sys.setSession, hsends] using ht.waiting i' k
    · simpa [Sys.setSession, hi] using ht.waiting i' k
    · subst hi
      simpa [Sys.setSession] using (ht.balance i').step ho
    · simpa [Sys.setSession, hi] using ht.balance i'
    · subst hi
      have hmsg : arrivedMsg job ∘ Sum.inr = id := rfl
      simp [hacc, ht.arrived i', hmsg]
    · simpa [hi] using ht.arrived i'
    · subst hi
      have hnone : Sum.getLeft? ∘ (Sum.inr : μ → ν ⊕ μ) = fun _ => none := rfl
      simpa [History.timesTaken, List.filterMap_append, hnone] using ht.counts i' k
    · simpa [History.timesTaken, hi] using ht.counts i' k
  | absent k worker msg hp hj =>
    exact ht.turn rfl rfl rfl (by simp [hp, Pc.awaits]) (by simp [Pc.awaits])
  | load k worker msg i hp hj hw =>
    exact ht.turn rfl rfl rfl (by simp [hp, Pc.awaits]) (by simp [Pc.awaits])
  | range k msg hp hj =>
    exact ht.turn rfl rfl rfl (by simp [hp, Pc.awaits]) (by simp [Pc.awaits])
  | copy k tour workers hp hn hnd hw =>
    exact ht.turn rfl rfl rfl (by simp [hp, Pc.awaits]) (by simp [Pc.awaits])
  | visit k tour p rest hp hn =>
    exact ht.turn rfl rfl rfl (by simp [hp, Pc.awaits]) (by simp [Pc.awaits])
  | check k worker i tour hp =>
    refine ht.aside hp (fun j hj => ?_) ?_ (fun i' hi => if_neg fun he => hi he.symm) rfl rfl
    · simp [Outbox.Sys.setSend, hj]
    · simp [Outbox.Sys.setSend, Pc.awaits]
  | put k worker i tour o hp ho => exact ht.put hp ho
  | fail k checked worker i tour err hp =>
    cases checked with
    | true =>
      refine ht.aside hp (fun j hj => ?_) ?_ (fun _ _ => awaits_answered ..) rfl rfl
      · simp [Outbox.Sys.setSend, hj]
      · simp [Outbox.Sys.setSend, awaits_answered]
    | false =>
      refine ht.aside hp (fun j hj => rfl) ?_ (fun _ _ => awaits_answered ..) rfl rfl
      rw [awaits_answered]
      simpa [hp, Pc.awaits] using ht.waiting i k
  | finish k tour hp hn hm =>
    exact ht.turn rfl rfl rfl (by simp [hp, Pc.awaits]) (by simp [Pc.awaits])

structure Delivered (job : ν → Job μ) (s : Sys ι κ ν α μ) (h : History ι ν μ) : Prop where
  -- `stream.Send` is called with what the session took, in that order; the outbox has the rest
  order : ∀ i, (h.wire i).streamSends.map Prod.fst ++
    ((s.session i).writer.inFlight ++ (s.session i).outbox) =
      (h.arrivals i).map (arrivedMsg job)
  -- a stream has those of them for which `stream.Send` returned nil
  carried : ∀ i, (h.wire i).carried.Sublist ((h.arrivals i).map (arrivedMsg job))
  -- a session took a message once for every `Send` of it that returned nil
  counts : ∀ i k, h.timesTaken i k = ((h.puts k).map Prod.snd).count i
  -- no call sends to a worker twice, and only to sessions stored for the worker
  sends : ∀ k, (h.puts k).Sublist (h.sends k) ∧ ((h.sends k).map Prod.fst).Nodup ∧
    ∀ p ∈ h.sends k, p ∈ h.stored ∧ ∀ worker msg, job k = .toWorker worker msg → p.1 = worker
  -- a result is the truth about the call
  results : ∀ k r, s.pc k = .returned r →
    Reported (job k) (h.present k) (h.sends k) (h.puts k) r

/-- At every moment of every run, with any pushes, registrations, closings and answers of handlers
beside one another, messages are sent and passed on as `Delivered` says. -/
theorem pushes_delivered (hr : Reach (Fires (recorded (step job) (record job))) anyStep
    (({} : Sys ι κ ν α μ), {}) (s, h)) : Delivered job s h := by
  have hinv : Sent job s h ∧ Taken job s h := by
    refine Reach.invariant (I := fun p => Sent job p.1 p.2 ∧ Taken job p.1 p.2) hr ⟨?_, ?_⟩ ?_
    · refine ⟨fun w i hw => ?_, fun k p hp => ?_, fun k => .idle⟩
      · simp [Sys.lookup, SessionManager.Sys.start] at hw
      · cases hp
    · exact ⟨fun i k => rfl, fun i => ⟨rfl, rfl⟩, fun i => rfl, fun i k => rfl⟩
    · intro p l q hp _ hs
      obtain ⟨t, ht, rfl⟩ := Option.map_eq_some_iff.mp hs
      exact ⟨hp.1.step (moves_of_step ht), hp.2.step (moves_of_step ht)⟩
  obtain ⟨hsent, htaken⟩ := hinv
  refine ⟨fun i => ?_, fun i => ?_, htaken.counts, fun k => ?_,
    fun k r hp => (hsent.at hp).reported⟩
  · rw [← htaken.arrived, (htaken.balance i).accepted]
  · rw [← htaken.arrived]
    exact (htaken.balance i).carried_sublist
  · have hk := hsent.progress k
    exact ⟨hk.sublist, hk.nodup, fun p hp => ⟨hsent.sends k p hp, fun worker msg hj =>
      hk.worker hj hp⟩⟩

def drainJobs : Bool → Job String
  | true => .broadcast "drain"
  | false => .toWorker "w1" "assignment"

/-- `w1` reconnects after the broadcast has copied the map: its old session has the assignment,
its new one gets neither message. The stream of `w2` has a heartbeat's answer first, and fails
at the broadcast. -/
theorem pushes_delivered_reconnect :
    ∃ (s : Sys Nat Unit Bool Unit String) (h : History Nat Bool String),
      Reach (Fires (recorded (step drainJobs) (record drainJobs))) anyStep ({}, {}) (s, h) ∧
      s.pc true = .returned (.broadcast 1 1) ∧ s.pc false = .returned .sent ∧
      h.present true = {"w1", "w2"} ∧ h.arrivals 0 = [.inl false] ∧
      h.arrivals 1 = [.inr "ack", .inl true] ∧ h.arrivals 2 = [] ∧
      (h.wire 1).carried = ["ack"] ∧ Delivered drainJobs s h := by
  obtain ⟨⟨s, h⟩, hs, hrest⟩ : ∃ p, replay (recorded (step drainJobs) (record drainJobs))
      [.manager (.register "w1" 0), .manager (.register "w2" 1), .range true,
        .copy true ["w1", "w2"], .load false, .check false, .put false,
        .manager (.register "w1" 2), .manager (.finish (.closeOld 0)),
        .session 0 (.closeFlag false), .visit true, .check true, .visit true, .check true,
        .session 1 (.send (.inr ()) "ack"), .session 1 (.enqueue (.inr ())), .put true,
        .session 1 .write, .session 1 (.writeEnds true), .session 1 .write,
        .session 1 (.writeEnds false), .finish true]
      (({} : Sys Nat Unit Bool Unit String), {}) = some p ∧
      p.1.pc true = .returned (.broadcast 1 1) ∧ p.1.pc false = .returned .sent ∧
      p.2.present true = {"w1", "w2"} ∧ p.2.arrivals 0 = [.inl false] ∧
      p.2.arrivals 1 = [.inr "ack", .inl true] ∧ p.2.arrivals 2 = [] ∧
      (p.2.wire 1).carried = ["ack"] := ⟨_, rfl, rfl, rfl, by decide, rfl, rfl, rfl, rfl⟩
  have hr := reach_of_replay hs
  obtain ⟨hb, hw, hp, h0, h1, h2, hc⟩ := hrest
  exact ⟨s, h, hr, hb, hw, hp, h0, h1, h2, hc, pushes_delivered hr⟩

end Leibrix.Pushes

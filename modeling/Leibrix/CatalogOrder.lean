import Leibrix.LostRaces
import Leibrix.TenantCatalog

/-! The management RPCs called side by side. Their operations on etcd interleave in any way;
still the calls behave as if each were made at one moment between its beginning and its end:
an admission when it reads the quota, also if it saves only later. The one thing to exclude
is the write of a list that was absent when it was read and is there by now. -/
namespace Leibrix.CatalogOrder
open Leibrix.Proto Leibrix.EpochGenerator Leibrix.KeyValue Leibrix.TenantKeys Leibrix.Management
open Leibrix.Transition Leibrix.TenantCatalog

structure Sent where
  node : NodeConfig
  fuel : Nat
  request : Request

structure Service (ι β : Type) where
  -- the calls, the tenants they are for, and the catalog they begin with
  codec : Codec β
  sha256 : List UInt8 → List UInt8
  tenants : Set String
  calls : ι → Sent
  start : Catalog

variable {ι β : Type} (S : Service ι β)

def Service.serve (cat : Catalog) (i : ι) : Option (Catalog × Reply) :=
  cat.serve S.codec.equal S.sha256 (S.calls i).fuel (S.calls i).request

def Service.after (cat : Catalog) (i : ι) : Catalog := ((S.serve cat i).map (·.1)).getD cat

def Service.afterAll (order : List ι) : Catalog := order.foldl S.after S.start

def Service.prog (i : ι) : Rpc β Reply :=
  (S.calls i).request.prog (S.calls i).node S.codec S.sha256 (S.calls i).fuel

def Service.disturbs (i : ι) (e : Answer × LeaderView) : Bool :=
  e.1 != .done || ((S.calls i).node.hasLeadership && !e.2.isLeader)

def Service.creates (st : Store String β) (k : String) (_ : β) : Prop :=
  -- a list of epochs is created only where there is none
  ∀ t ∈ S.tenants, ∀ d, k = etcdTenantDatasetEpochKey t d → st.kvs k = none

def Service.pool (st : Store String β) : Pool ι String β LeaderView Reply :=
  ⟨⟨st, fun _ => false⟩, S.prog⟩

section Catalogs
variable {S} {cat cat' : Catalog} {i : ι} {request : AdmitDatasetRequest}

/-- A reply depends on the quotas only. -/
theorem decision_congr {fuel : Nat} (h : cat.quota = cat'.quota) :
    cat.decision S.sha256 fuel request = cat'.decision S.sha256 fuel request := by
  simp only [Catalog.decision, h]

theorem serve_congr (h : cat.quota = cat'.quota) :
    (S.serve cat i).map (·.2) = (S.serve cat' i).map (·.2) := by
  cases hr : (S.calls i).request with
  | admission request =>
    simp only [Service.serve, Catalog.serve, hr, decision_congr (S := S) h]
    cases cat'.decision S.sha256 (S.calls i).fuel request <;> rfl
  | upsert quota =>
    simp only [Service.serve, Catalog.serve, hr]
    cases quotaFault quota <;> rfl

theorem after_of_save {epochs : List EpochInfo} (hr : (S.calls i).request = .admission request)
    (hd : cat.decision S.sha256 (S.calls i).fuel request = .save epochs) :
    S.after cat i = cat.unite S.codec.equal request.tenantId request.datasetId epochs := by
  simp [Service.after, Service.serve, Catalog.serve, hr, hd]

theorem after_of_answer {r : Except RpcError AdmitDatasetResponse}
    (hr : (S.calls i).request = .admission request)
    (hd : cat.decision S.sha256 (S.calls i).fuel request = .answer r) :
    S.after cat i = cat := by
  simp [Service.after, Service.serve, Catalog.serve, hr, hd]

theorem after_of_upsert {quota : TenantQuota} (hr : (S.calls i).request = .upsert quota)
    (hf : quotaFault quota = none) : S.after cat i = cat.setQuota quota := by
  simp [Service.after, Service.serve, Catalog.serve, hr, hf]

/-- Only an upsert changes quotas. -/
theorem quota_after_admission (hr : (S.calls i).request = .admission request) :
    (S.after cat i).quota = cat.quota := by
  simp only [Service.after, Service.serve, Catalog.serve, hr]
  cases cat.decision S.sha256 (S.calls i).fuel request <;> rfl

theorem quota_after_congr (h : cat.quota = cat'.quota) :
    (S.after cat i).quota = (S.after cat' i).quota := by
  cases hr : (S.calls i).request with
  | admission request => rw [quota_after_admission hr, quota_after_admission hr, h]
  | upsert quota =>
    simp only [Service.after, Service.serve, Catalog.serve, hr]
    cases quotaFault quota <;> simp [Catalog.setQuota, h]

theorem quota_foldl_filter {took : ι → Bool} {log : List ι}
    (hlog : ∀ i ∈ log, ∀ quota, (S.calls i).request = .upsert quota → took i = true)
    (h : cat.quota = cat'.quota) :
    ((log.filter took).foldl S.after cat).quota = (log.foldl S.after cat').quota := by
  -- so admissions can be left out as far as the quotas go
  induction log generalizing cat cat' with
  | nil => exact h
  | cons i log ih =>
    rw [List.filter_cons, List.foldl_cons]
    split_ifs with ht
    · exact ih (fun j hj => hlog j (by simp [hj])) (quota_after_congr h)
    · refine ih (fun j hj => hlog j (by simp [hj])) ?_
      cases hr : (S.calls i).request with
      | admission request => rw [quota_after_admission hr, h]
      | upsert quota => exact absurd (hlog i (by simp) quota hr) ht

/-- A union commutes with every other call. -/
theorem after_unite (tenant dataset : String) (epochs : List EpochInfo) :
    S.after (cat.unite S.codec.equal tenant dataset epochs) i =
      (S.after cat i).unite S.codec.equal tenant dataset epochs := by
  have hq : (cat.unite S.codec.equal tenant dataset epochs).quota = cat.quota := rfl
  cases hr : (S.calls i).request with
  | admission request =>
    simp only [Service.after, Service.serve, Catalog.serve, hr, decision_congr (S := S) hq]
    cases cat.decision S.sha256 (S.calls i).fuel request with
    | stuck | answer r => rfl
    | save more =>
      simp only [Catalog.unite, Option.map_some, Option.getD_some, Catalog.mk.injEq, true_and]
      funext t d
      ext e
      simp only [Set.mem_ofPred_eq]
      tauto
  | upsert quota =>
    simp only [Service.after, Service.serve, Catalog.serve, hr]
    cases quotaFault quota <;> rfl

theorem foldl_unite (tenant dataset : String) (epochs : List EpochInfo) (order : List ι) :
    order.foldl S.after (cat.unite S.codec.equal tenant dataset epochs) =
      (order.foldl S.after cat).unite S.codec.equal tenant dataset epochs := by
  induction order generalizing cat with
  | nil => rfl
  | cons i order ih => rw [List.foldl_cons, after_unite, ih, List.foldl_cons]

end Catalogs

structure Ledger (ι : Type) where
  -- what the proof keeps beside the store: the calls in the order of their moments, which of them
  -- have taken effect, and which were disturbed
  log : List ι := []
  took : ι → Bool := fun _ => false
  rough : ι → Bool := fun _ => false

def Ledger.order (x : Ledger ι) : List ι := x.log.filter x.took

variable [DecidableEq ι]

def Ledger.hear (x : Ledger ι) (i : ι) (disturbed : Bool) : Ledger ι :=
  { x with rough := Function.update x.rough i (x.rough i || disturbed) }

def Ledger.enter (x : Ledger ι) (i : ι) (took : Bool) : Ledger ι :=
  { x with log := x.log ++ [i], took := Function.update x.took i took }

def Ledger.take (x : Ledger ι) (i : ι) : Ledger ι :=
  { x with took := Function.update x.took i true }

structure Ordered (st : Store String β) (x : Ledger ι) : Prop where
  nodup : x.log.Nodup
  entered : ∀ i, x.took i = true → i ∈ x.log
  upserts : ∀ i ∈ x.log, ∀ quota, (S.calls i).request = .upsert quota → x.took i = true
  shown : Shows S.codec S.tenants st (S.afterAll x.order)

structure Moved (l : ι × Answer × LeaderView) (w w' : Store String β × Ledger ι) : Prop where
  later : w.1.Later w'.1
  log : w'.2.log = w.2.log ∨ l.1 ∉ w.2.log ∧ w'.2.log = w.2.log ++ [l.1]
  took : ∀ j, j ≠ l.1 → w'.2.took j = w.2.took j
  kept : w.2.took l.1 = true → w'.2.took l.1 = true
  -- a call that changes a list of epochs has taken effect by that
  saved : ∀ t ∈ S.tenants, ∀ d, w'.1.kvs (etcdTenantDatasetEpochKey t d) ≠
    w.1.kvs (etcdTenantDatasetEpochKey t d) → w'.2.took l.1 = true
  rough : w'.2.rough = Function.update w.2.rough l.1 (w.2.rough l.1 || S.disturbs l.1 l.2)

structure Relied (i : ι) (w w' : Store String β × Ledger ι) : Prop where
  later : w.1.Later w'.1
  log : w.2.log <+: w'.2.log
  entered : i ∈ w'.2.log → i ∈ w.2.log
  took : w'.2.took i = w.2.took i
  rough : w'.2.rough i = w.2.rough i

variable {S} in
theorem Moved.relied {l : ι × Answer × LeaderView} {w w' : Store String β × Ledger ι} {i : ι}
    (h : Moved S l w w') (hi : l.1 ≠ i) : Relied i w w' := by
  refine ⟨h.later, ?_, ?_, h.took i (Ne.symm hi), ?_⟩
  · rcases h.log with hl | ⟨-, hl⟩ <;> simp [hl]
  · rcases h.log with hl | ⟨-, hl⟩
    · simp [hl]
    · simp [hl, Ne.symm hi]
  · rw [h.rough, Function.update_of_ne (Ne.symm hi)]

def Service.rules : Rules ι String β LeaderView (Ledger ι) where
  Inv w := Ordered S w.1 w.2
  Move := Moved S
  Rely := Relied
  putOk := S.creates
  rely_refl _ w := ⟨.refl w.1, List.prefix_refl _, id, rfl, rfl⟩
  rely_trans h h' := ⟨h.later.trans h'.later, h.log.trans h'.log, h.entered ∘ h'.entered,
    h'.took.trans h.took, h'.rough.trans h.rough⟩
  rely_of_move h hi := h.relied hi

section Orders
variable {S} {x : Ledger ι} {i : ι} {w : Store String β × Ledger ι} {st : Store String β}
  {e : Answer × LeaderView} {request : AdmitDatasetRequest} {epochs : List EpochInfo}

theorem filter_update_of_not_mem {took : ι → Bool} {log : List ι} (hi : i ∉ log) (b : Bool) :
    log.filter (Function.update took i b) = log.filter took := by
  refine List.filter_congr fun j hj => ?_
  rw [Function.update_of_ne]
  rintro rfl
  exact hi hj

theorem order_enter (hi : i ∉ x.log) (b : Bool) :
    (x.enter i b).order = x.order ++ [i].filter fun _ => b := by
  simp only [Ledger.order, Ledger.enter, List.filter_append, filter_update_of_not_mem hi]
  simp [List.filter_cons]

theorem afterAll_enter (hi : i ∉ x.log) :
    S.afterAll (x.enter i true).order = S.after (S.afterAll x.order) i := by
  simp [order_enter hi, Service.afterAll, List.foldl_append]

omit [DecidableEq ι] in
/-- The quotas are those of all calls that were entered. -/
theorem Ordered.quota (h : Ordered S st x) {before later : List ι}
    (hl : x.log = before ++ later) :
    (S.afterAll (before.filter x.took)).quota = (S.afterAll before).quota := by
  refine quota_foldl_filter (fun j hj => h.upserts j ?_) rfl
  rw [hl]
  exact List.mem_append_left later hj

omit [DecidableEq ι] in
theorem Ordered.took_of_not_mem (h : Ordered S st x) (hi : i ∉ x.log) : x.took i = false := by
  cases ht : x.took i with
  | false => rfl
  | true => exact absurd (h.entered i ht) hi

structure Decided (S : Service ι β) (x : Ledger ι) (i : ι) (request : AdmitDatasetRequest)
    (epochs : List EpochInfo) : Prop where
  -- the call has read a quota it may save under, and has not saved yet
  asked : (S.calls i).request = .admission request
  took : x.took i = false
  entered : ∃ before later, x.log = before ++ i :: later ∧
    (S.afterAll before).decision S.sha256 (S.calls i).fuel request = .save epochs

/-- The save counts as if it had been made when the quota was read. -/
theorem Ordered.afterAll_take (h : Ordered S st x) (hd : Decided S x i request epochs) :
    S.afterAll (x.take i).order =
      (S.afterAll x.order).unite S.codec.equal request.tenantId request.datasetId epochs := by
  obtain ⟨before, later, hl, hdec⟩ := hd.entered
  have hnodup := h.nodup
  rw [hl, List.nodup_append] at hnodup
  obtain ⟨-, hlater, hapart⟩ := hnodup
  have hb : i ∉ before := fun hm => hapart i hm i (by simp) rfl
  have hsave : (S.afterAll (before.filter x.took)).decision S.sha256 (S.calls i).fuel request =
      .save epochs := (decision_congr (h.quota hl)).trans hdec
  have htake : (x.take i).order = before.filter x.took ++ i :: later.filter x.took := by
    simp only [Ledger.order, Ledger.take, hl, List.filter_append, List.filter_cons,
      filter_update_of_not_mem hb, filter_update_of_not_mem (List.nodup_cons.mp hlater).1,
      Function.update_self, if_true]
  have horder : x.order = before.filter x.took ++ later.filter x.took := by
    simp [Ledger.order, hl, hd.took]
  rw [htake, horder, Service.afterAll, Service.afterAll, List.foldl_append, List.foldl_append,
    List.foldl_cons, ← foldl_unite]
  exact congrArg (List.foldl S.after · _) (after_of_save hd.asked hsave)

end Orders

section Landing
variable {S} {x : Ledger ι} {i : ι} {w : Store String β × Ledger ι} {st : Store String β}
  {e : Answer × LeaderView} {request : AdmitDatasetRequest} {epochs : List EpochInfo}
  {P : Store String β × Ledger ι → Prop}

theorem Ordered.hear (h : Ordered S st x) (disturbed : Bool) :
    Ordered S st (x.hear i disturbed) := ⟨h.nodup, h.entered, h.upserts, h.shown⟩

theorem Ordered.enter (h : Ordered S w.1 x) (hi : i ∉ x.log) {b : Bool}
    (hup : ∀ quota, (S.calls i).request = .upsert quota → b = true)
    (hs : Shows S.codec S.tenants st (S.afterAll (x.enter i b).order)) :
    Ordered S st (x.enter i b) := by
  refine ⟨?_, fun j hj => ?_, fun j hj quota hr => ?_, hs⟩
  · rw [Ledger.enter, List.nodup_append]
    refine ⟨h.nodup, by simp, fun a ha b hb hab => hi ?_⟩
    rwa [← List.mem_singleton.mp hb, ← hab]
  · by_cases he : j = i
    · simp [Ledger.enter, he]
    · have hj : x.took j = true := by simpa [Ledger.enter, Function.update_of_ne he] using hj
      simp [Ledger.enter, h.entered j hj]
  · by_cases he : j = i
    · subst he
      simpa [Ledger.enter] using hup quota hr
    · have hj : j ∈ x.log := by simpa [Ledger.enter, he] using hj
      simpa [Ledger.enter, Function.update_of_ne he] using h.upserts j hj quota hr

theorem Ordered.take (h : Ordered S w.1 x) (hd : Decided S x i request epochs)
    (hs : Shows S.codec S.tenants st
      ((S.afterAll x.order).unite S.codec.equal request.tenantId request.datasetId epochs)) :
    Ordered S st (x.take i) := by
  refine ⟨h.nodup, fun j hj => ?_, fun j hj quota hr => ?_, ?_⟩
  · by_cases he : j = i
    · obtain ⟨before, later, hl, -⟩ := hd.entered
      simp [Ledger.take, hl, he]
    · exact h.entered j (by simpa [Ledger.take, Function.update_of_ne he] using hj)
  · by_cases he : j = i
    · simp [Ledger.take, he]
    · simpa [Ledger.take, Function.update_of_ne he] using h.upserts j hj quota hr
  · rw [h.afterAll_take hd]
    exact hs

theorem lands_hear (h : Ordered S w.1 w.2) (hP : P (w.1, w.2.hear i (S.disturbs i e))) :
    S.rules.Lands (i, e) w w.1 P :=
  ⟨w.2.hear i (S.disturbs i e), h.hear _, ⟨.refl _, .inl rfl, fun _ _ => rfl, id,
    fun _ _ _ hne => absurd rfl hne, rfl⟩, hP⟩

theorem lands_enter (h : Ordered S w.1 w.2) (hi : i ∉ w.2.log) (b : Bool)
    (hup : ∀ quota, (S.calls i).request = .upsert quota → b = true) (hl : w.1.Later st)
    (hw : b = true ∨ st = w.1)
    (hs : Shows S.codec S.tenants st (S.afterAll (w.2.enter i b).order))
    (hP : P (st, (w.2.enter i b).hear i (S.disturbs i e))) : S.rules.Lands (i, e) w st P := by
  refine ⟨(w.2.enter i b).hear i (S.disturbs i e), (h.enter hi hup hs).hear _,
    ⟨hl, .inr ⟨hi, rfl⟩, fun _ hj => Function.update_of_ne hj _ _, fun ht => ?_,
      fun _ _ _ hne => ?_, rfl⟩, hP⟩
  · simp [h.took_of_not_mem hi] at ht
  · rcases hw with rfl | rfl
    · exact Function.update_self ..
    · exact absurd rfl hne

theorem lands_take (h : Ordered S w.1 w.2) (hd : Decided S w.2 i request epochs)
    (hl : w.1.Later st)
    (hs : Shows S.codec S.tenants st
      ((S.afterAll w.2.order).unite S.codec.equal request.tenantId request.datasetId epochs))
    (hP : P (st, (w.2.take i).hear i (S.disturbs i e))) : S.rules.Lands (i, e) w st P := by
  have htook : ((w.2.take i).hear i (S.disturbs i e)).took i = true := Function.update_self ..
  exact ⟨(w.2.take i).hear i (S.disturbs i e), (h.take hd hs).hear _,
    ⟨hl, .inl rfl, fun _ hj => Function.update_of_ne hj _ _, fun _ => htook,
      fun _ _ _ _ => htook, rfl⟩, hP⟩

end Landing

section Replies
variable {S} {x : Ledger ι} {i : ι} {w w' : Store String β × Ledger ι} {r : Reply}
  {request : AdmitDatasetRequest} {epochs : List EpochInfo}

variable (S) in
inductive Settled (x : Ledger ι) (i : ι) : Reply → Prop
  -- what a call may return
  | served {before later : List ι} {r : Reply} (ht : x.took i = true)
      (hl : x.log = before ++ i :: later)
      (hr : (S.serve (S.afterAll before) i).map (·.2) = some r) : Settled x i r
  -- it has taken effect and is reported as failed
  | late (ht : x.took i = true) (hx : x.rough i = true) (err : RpcError) :
      Settled x i ((S.calls i).request.error err)
  -- every catalog has this reply to it, and stays as it is
  | fixed {r : Reply} (ht : x.took i = false) (hr : ∀ cat, S.serve cat i = some (cat, r)) :
      Settled x i r
  | failed {r : Reply} (ht : x.took i = false) (hx : x.rough i = true) (hr : r.Failed) :
      Settled x i r
  | raced {request : AdmitDatasetRequest} (ht : x.took i = false)
      (hr : (S.calls i).request = .admission request) :
      Settled x i (.admission (.error (.save .concurrentModification)))

omit [DecidableEq ι] in
theorem Relied.fresh (hR : Relied i w w') (hi : i ∉ w.2.log) : i ∉ w'.2.log :=
  fun hm => hi (hR.entered hm)

omit [DecidableEq ι] in
theorem Relied.place {before later : List ι} (hR : Relied i w w')
    (hl : w.2.log = before ++ i :: later) : ∃ later', w'.2.log = before ++ i :: later' := by
  obtain ⟨more, hmore⟩ := hR.log
  exact ⟨later ++ more, by simp [← hmore, hl]⟩

omit [DecidableEq ι] in
theorem Relied.settled (hR : Relied i w w') (h : Settled S w.2 i r) : Settled S w'.2 i r := by
  cases h with
  | served ht hl hr =>
    obtain ⟨later', hl'⟩ := hR.place hl
    exact .served (hR.took.trans ht) hl' hr
  | late ht hx err => exact .late (hR.took.trans ht) (hR.rough.trans hx) err
  | fixed ht hr => exact .fixed (hR.took.trans ht) hr
  | failed ht hx hr => exact .failed (hR.took.trans ht) (hR.rough.trans hx) hr
  | raced ht hr => exact .raced (hR.took.trans ht) hr

omit [DecidableEq ι] in
theorem Relied.decided (hR : Relied i w w') (h : Decided S w.2 i request epochs) :
    Decided S w'.2 i request epochs := by
  obtain ⟨before, later, hl, hd⟩ := h.entered
  obtain ⟨later', hl'⟩ := hR.place hl
  exact ⟨h.asked, hR.took.trans h.took, before, later', hl', hd⟩

theorem Decided.hear (h : Decided S x i request epochs) (disturbed : Bool) :
    Decided S (x.hear i disturbed) i request epochs := ⟨h.asked, h.took, h.entered⟩

theorem keeps_settled {α : Type} {f : α → Reply} {a : α} (h : Settled S w.2 i (f a)) :
    (Prog.ret a : Rpc β α).keeps S.rules i (fun w a => Settled S w.2 i (f a)) w :=
  fun _ _ hR => Relied.settled hR h

omit [DecidableEq ι] in
theorem disturbs_of_ne {e : Answer × LeaderView} (h : e.1 ≠ .done) : S.disturbs i e = true := by
  simp [Service.disturbs, h]

@[simp] theorem hear_rough (disturbed : Bool) :
    (x.hear i disturbed).rough i = (x.rough i || disturbed) := by simp [Ledger.hear]

theorem settled_failed {e : Answer × LeaderView} (ht : x.took i = false) (he : e.1 ≠ .done)
    (hr : r.Failed) : Settled S (x.hear i (S.disturbs i e)) i r :=
  .failed ht (by simp [disturbs_of_ne he]) hr

theorem Decided.settled (h : Decided S x i request epochs) (disturbed : Bool) :
    Settled S ((x.take i).hear i disturbed) i (.admission (saveAnswer epochs (.ok ()))) := by
  obtain ⟨before, later, hl, hd⟩ := h.entered
  refine .served (by simp [Ledger.take, Ledger.hear]) hl ?_
  simp only [Service.serve, Catalog.serve, h.asked, hd]
  rfl

theorem settled_late {e : Answer × LeaderView} (ht : x.took i = true) (he : e.1 ≠ .done)
    (err : RpcError) :
    Settled S (x.hear i (S.disturbs i e)) i ((S.calls i).request.error err) := by
  have hrough : (x.hear i (S.disturbs i e)).rough i = true := by simp [disturbs_of_ne he]
  exact .late (x := x.hear i _) ht hrough err

theorem Decided.settled_late {e : Answer × LeaderView} (h : Decided S x i request epochs)
    (he : e.1 ≠ .done) (err : RpcError) :
    Settled S ((x.take i).hear i (S.disturbs i e)) i (.admission (.error err)) := by
  have hl := CatalogOrder.settled_late (S := S) (x := x.take i) (i := i) (by simp [Ledger.take])
    he err
  rwa [h.asked] at hl

/-- The moment of a call is when it is entered. -/
theorem settled_enter {disturbed : Bool}
    (hr : (S.serve (S.afterAll x.log) i).map (·.2) = some r) :
    Settled S ((x.enter i true).hear i disturbed) i r :=
  .served (by simp [Ledger.enter, Ledger.hear])
    (show (x.enter i true).log = x.log ++ i :: [] from rfl) hr

end Replies

end Leibrix.CatalogOrder

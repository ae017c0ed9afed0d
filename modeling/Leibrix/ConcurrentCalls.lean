import Leibrix.CatalogOrder

/-! Each RPC, verified alone against what the others may do, enters the order of the catalog at
one of its operations; so any interleaving of them is an order of whole calls. -/
namespace Leibrix.CatalogOrder
open Leibrix.Proto Leibrix.EpochGenerator Leibrix.KeyValue Leibrix.TenantKeys Leibrix.Management
open Leibrix.Transition Leibrix.TenantCatalog

variable {ι β : Type} [DecidableEq ι] {S : Service ι β}

def carryOut (c : Codec β) (request : AdmitDatasetRequest) :
    Decision → Rpc β (Except RpcError AdmitDatasetResponse)
  | .answer r => .ret r
  | .stuck => .stuck
  | .save epochs => (saveEpochs c request epochs).bind fun saved => .ret (saveAnswer epochs saved)

theorem admitWithQuota_eq (c : Codec β) (request : AdmitDatasetRequest) (quota : TenantQuota)
    (generated : Outcome (List EpochInfo)) :
    admitWithQuota c request quota generated =
      carryOut c request (quotaDecision quota generated) := by
  cases generated with
  | hang | panic msg | err msg => rfl
  | ok epochs =>
    simp only [admitWithQuota, quotaDecision]
    split_ifs
    · rfl
    · rw [Prog.bind_eq, carryOut]
      congr 1
      funext saved
      cases saved <;> rfl

section Programs
variable {i : ι} {w : Store String β × Ledger ι} {request : AdmitDatasetRequest}
  {epochs : List EpochInfo}

theorem getProtoMessage_keeps {α ρ : Type} {unmarshal : β → Except String α} {k : String}
    {f : Fetched β α → Rpc β ρ} {Q : Store String β × Ledger ι → ρ → Prop}
    (hdone : ∀ w', Ordered S w'.1 w'.2 → Relied i w w' → ∀ view,
      S.rules.Lands (i, .done, view) w' w'.1
        ((f (fetched unmarshal k (w'.1.kvs k))).keeps S.rules i Q))
    (hfail : ∀ w', Ordered S w'.1 w'.2 → Relied i w w' → ∀ e err, e.1 ≠ .done →
      S.rules.Lands (i, e) w' w'.1 ((f (.failed err)).keeps S.rules i Q)) :
    ((getProtoMessage unmarshal k).bind f).keeps S.rules i Q w := by
  intro w' hI hR view
  refine ⟨?_, fun a err ha => hfail w' hI hR (a, view) err ha⟩
  have hd := hdone w' hI hR view
  cases hk : w'.1.kvs k with
  | none =>
    rw [hk] at hd
    exact hd
  | some kv =>
    rw [hk] at hd
    simp only [fetched] at hd
    cases hu : unmarshal kv.value with
    | error err | ok msg =>
      simp only [hu] at hd ⊢
      exact hd

theorem requireLeader_keeps (hi : i ∉ w.2.log) :
    (requireLeader (S.calls i).node).keeps S.rules i
      (fun w r => i ∉ w.2.log ∧ ∀ err, r = .error err → w.2.rough i = true) w := by
  unfold requireLeader
  split
  · rename_i hl
    intro w₁ hI₁ hR₁ a view
    have hi₁ : i ∉ w₁.2.log := Relied.fresh hR₁ hi
    refine lands_hear hI₁ ?_
    dsimp only
    split
    · intro w₂ _ hR₂
      exact ⟨Relied.fresh hR₂ hi₁, by simp⟩
    · rename_i hv
      have hrough : (w₁.2.hear i (S.disturbs i (a, view))).rough i = true := by
        simp [Service.disturbs, hl, hv]
      intro w₂ hI₂ hR₂ a' view'
      have hi₂ : i ∉ w₂.2.log := Relied.fresh hR₂ hi₁
      have hrough₂ : (w₂.2.hear i (S.disturbs i (a', view'))).rough i = true := by
        rw [hear_rough, Relied.rough hR₂, hrough, Bool.true_or]
      refine lands_hear hI₂ ?_
      dsimp only
      split
      all_goals
        intro w₃ _ hR₃
        exact ⟨Relied.fresh hR₃ hi₂, fun _ _ => (Relied.rough hR₃).trans hrough₂⟩
  · intro w' _ hR
    exact ⟨Relied.fresh hR hi, by simp⟩

variable (hc : S.codec.Lawful) (hT : ∀ a ∈ S.tenants, ∀ b ∈ S.tenants, ¬Nested a b)
include hc hT

theorem saveEpochs_keeps (ht : request.tenantId ∈ S.tenants)
    (hd : Decided S w.2 i request epochs) :
    (saveEpochs S.codec request epochs).keeps S.rules i
      (fun w saved => Settled S w.2 i (.admission (saveAnswer epochs saved))) w := by
  rw [saveEpochs, Prog.bind_eq]
  refine getProtoMessage_keeps (fun w₁ hI₁ hR₁ view => ?_) fun w₁ hI₁ hR₁ e err he => ?_
  · have hd₁ := hR₁.decided hd
    cases hk : w₁.1.kvs (etcdTenantDatasetEpochKey request.tenantId request.datasetId) with
    | none =>
      refine lands_hear hI₁ ?_
      simp only [fetched, putProtoMessage, hc.marshalEpochs]
      intro w₂ hI₂ hR₂ view'
      have hd₂ : Decided S w₂.2 i request epochs := Relied.decided hR₂ (hd₁.hear _)
      have hI₂ : Ordered S w₂.1 w₂.2 := hI₂
      refine ⟨fun ho => ?_, fun err => ?_⟩
      · have hnone := ho _ ht _ rfl
        obtain ⟨new, hm⟩ := merged_put hc epochs (listed_of_none hnone)
        have hs := hI₂.shown.merged hT ht hm
        refine ⟨?_, fun err => ?_⟩
        · exact lands_take hI₂ hd₂ (w₂.1.later_put _ _) hs (keeps_settled (hd₂.settled _))
        · exact lands_take hI₂ hd₂ (w₂.1.later_put _ _) hs
            (keeps_settled (hd₂.settled_late (by simp) _))
      · exact lands_hear hI₂ (keeps_settled (settled_failed hd₂.took (by simp) (failed_error _)))
    | some kv =>
      obtain ⟨old, hold, -⟩ := hI₁.shown.epochs _ ht request.datasetId
      have hu : S.codec.unmarshalEpochs kv.value = .ok old := by
        cases hu : S.codec.unmarshalEpochs kv.value with
        | error err => simp [listed, hk, hu, Except.toOption] at hold
        | ok l => simpa [listed, hk, hu, Except.toOption] using hold
      simp only [fetched, hu]
      split
      · rename_i heq
        have hs := hI₁.shown.merged hT ht (merged_self hc hk hu heq)
        exact lands_take hI₁ hd₁ (.refl _) hs (keeps_settled (hd₁.settled _))
      · refine lands_hear hI₁ ?_
        intro w₂ hI₂ hR₂ view'
        have hd₂ : Decided S w₂.2 i request epochs := Relied.decided hR₂ (hd₁.hear _)
        have hI₂ : Ordered S w₂.1 w₂.2 := hI₂
        refine ⟨fun hr => ?_, fun _ => ?_, fun a err ha => ?_⟩
        · -- the list that was read is still there
          have hk₂ := (Relied.later hR₂).unchanged hk hr
          obtain ⟨new, hm⟩ := merged_put hc epochs (listed_of_some hk₂ hu)
          have hs := hI₂.shown.merged hT ht hm
          refine ⟨?_, fun err => ?_⟩
          · exact lands_take hI₂ hd₂ (w₂.1.later_put _ _) hs (keeps_settled (hd₂.settled _))
          · exact lands_take hI₂ hd₂ (w₂.1.later_put _ _) hs
              (keeps_settled (hd₂.settled_late (by simp) _))
        · exact lands_hear hI₂ (keeps_settled (.raced hd₂.took hd₂.asked))
        · exact lands_hear hI₂ (keeps_settled (settled_failed hd₂.took ha (failed_error _)))
  · exact lands_hear hI₁
      (keeps_settled (settled_failed (hR₁.decided hd).took he (failed_error _)))

theorem lands_decision (view : LeaderView) (ht : request.tenantId ∈ S.tenants)
    (hr : (S.calls i).request = .admission request) (hI : Ordered S w.1 w.2)
    (hi : i ∉ w.2.log) :
    S.rules.Lands (i, .done, view) w w.1
      ((carryOut S.codec request ((S.afterAll w.2.order).decision S.sha256 (S.calls i).fuel
        request)).keeps S.rules i fun w r => Settled S w.2 i (.admission r)) := by
  -- the quota has been read: this is the moment of an admission
  have hlog : (S.afterAll w.2.log).decision S.sha256 (S.calls i).fuel request =
      (S.afterAll w.2.order).decision S.sha256 (S.calls i).fuel request :=
    (decision_congr (hI.quota (List.append_nil _).symm)).symm
  cases hd : (S.afterAll w.2.order).decision S.sha256 (S.calls i).fuel request with
  | stuck => exact lands_hear hI trivial
  | answer r =>
    rw [hd] at hlog
    refine lands_enter hI hi true (fun _ _ => rfl) (.refl _) (.inl rfl) ?_ (keeps_settled ?_)
    · rw [afterAll_enter hi, after_of_answer hr hd]
      exact hI.shown
    · refine settled_enter ?_
      simp [Service.serve, Catalog.serve, hr, hlog]
  | save epochs =>
    rw [hd] at hlog
    refine lands_enter hI hi false (by simp [hr]) (.refl _) (.inr rfl) ?_ ?_
    · simpa [order_enter hi] using hI.shown
    · refine Prog.keeps_bind (saveEpochs_keeps hc hT ht ?_) fun w saved _ hs => keeps_settled hs
      exact ⟨hr, by simp [Ledger.enter, Ledger.hear], w.2.log, [], rfl, hlog⟩

theorem admitDataset_keeps (ht : request.tenantId ∈ S.tenants)
    (hr : (S.calls i).request = .admission request) (hi : i ∉ w.2.log) :
    (admitDataset (S.calls i).node S.codec S.sha256 (S.calls i).fuel request).keeps S.rules i
      (fun w r => Settled S w.2 i (.admission r)) w := by
  rw [admitDataset, Prog.bind_eq]
  refine Prog.keeps_bind (requireLeader_keeps hi) fun w₁ checked hI₁ hchecked => ?_
  obtain ⟨hi₁, hrough⟩ := hchecked
  have htook : w₁.2.took i = false := Ordered.took_of_not_mem hI₁ hi₁
  cases checked with
  | error err => exact keeps_settled (.failed htook (hrough err rfl) (failed_error _))
  | ok u =>
    dsimp only
    cases hv : validateAdmitRequest request with
    | error err =>
      refine keeps_settled (.fixed htook fun cat => ?_)
      simp [Service.serve, Catalog.serve, Catalog.decision, hr, hv]
    | ok u =>
      rw [Prog.bind_eq]
      refine getProtoMessage_keeps (fun w₂ hI₂ hR₂ view => ?_) fun w₂ hI₂ hR₂ e err he => ?_
      · have hl := lands_decision hc hT view ht hr hI₂ (hR₂.fresh hi₁)
        have hq := hI₂.shown.quota _ ht
        cases hk : w₂.1.kvs (etcdTenantQuotaKey request.tenantId) with
        | none =>
          have hn : (S.afterAll w₂.2.order).quota request.tenantId = none := by
            simpa [hk] using hq.symm
          simp only [Catalog.decision, hv, hn] at hl
          exact hl
        | some kv =>
          obtain ⟨q, hn, hu⟩ : ∃ q, (S.afterAll w₂.2.order).quota request.tenantId = some q ∧
              S.codec.unmarshalQuota kv.value = .ok q := by
            simpa [hk, Option.map_eq_some_iff, eq_comm] using hq.symm
          simp only [Catalog.decision, hv, hn] at hl
          simp only [fetched, hu, admitWithQuota_eq]
          exact hl
      · exact lands_hear hI₂ (keeps_settled (settled_failed
          (Ordered.took_of_not_mem hI₂ (hR₂.fresh hi₁)) he (failed_rejected _ _)))

theorem upsertTenantQuota_keeps {quota : TenantQuota} (ht : quota.tenantId ∈ S.tenants)
    (hr : (S.calls i).request = .upsert quota) (hi : i ∉ w.2.log) :
    (upsertTenantQuota (S.calls i).node S.codec quota).keeps S.rules i
      (fun w r => Settled S w.2 i (.upsert r)) w := by
  have hserve : ∀ cat, S.serve cat i = cat.serve S.codec.equal S.sha256 (S.calls i).fuel
      (.upsert quota) := fun cat => by rw [Service.serve, hr]
  rw [upsertTenantQuota, Prog.bind_eq]
  refine Prog.keeps_bind (requireLeader_keeps hi) fun w₁ checked hI₁ hchecked => ?_
  obtain ⟨hi₁, hrough⟩ := hchecked
  have htook : w₁.2.took i = false := Ordered.took_of_not_mem hI₁ hi₁
  cases checked with
  | error err =>
    exact keeps_settled (.failed htook (hrough err rfl) fun resp he => by cases he)
  | ok u =>
    dsimp only
    split_ifs with hid hneg
    · exact keeps_settled (.fixed htook fun cat => by
        simp only [hserve, Catalog.serve, quotaFault, if_pos hid])
    · exact keeps_settled (.fixed htook fun cat => by
        simp only [hserve, Catalog.serve, quotaFault, if_neg hid, if_pos hneg])
    · have hf : quotaFault quota = none := by simp only [quotaFault, if_neg hid, if_neg hneg]
      obtain ⟨b, hb, hu⟩ := hc.quota quota
      simp only [putProtoMessage, hb]
      intro w₂ hI₂ hR₂ view
      have hI₂ : Ordered S w₂.1 w₂.2 := hI₂
      have hi₂ : i ∉ w₂.2.log := Relied.fresh hR₂ hi₁
      have hs : Shows S.codec S.tenants (w₂.1.put (etcdTenantQuotaKey quota.tenantId) b)
          (S.afterAll (w₂.2.enter i true).order) := by
        rw [afterAll_enter hi₂, after_of_upsert hr hf]
        exact hI₂.shown.put_quota hT ht hu
      refine ⟨fun _ => ⟨?_, fun err => ?_⟩, fun err => ?_⟩
      · refine lands_enter hI₂ hi₂ true (fun _ _ => rfl) (w₂.1.later_put _ _) (.inl rfl) hs
          (keeps_settled (settled_enter ?_))
        simp [hserve, Catalog.serve, hf]
      · refine lands_enter hI₂ hi₂ true (fun _ _ => rfl) (w₂.1.later_put _ _) (.inl rfl) hs
          (keeps_settled ?_)
        have hlate := settled_late (S := S) (x := w₂.2.enter i true) (i := i)
          (e := (.late err, view)) (by simp [Ledger.enter]) (by simp) (.put err)
        rwa [hr] at hlate
      · exact lands_hear hI₂ (keeps_settled (settled_failed (hI₂.took_of_not_mem hi₂)
          (by simp) fun resp he => by cases he))

theorem prog_keeps (hS : ∀ i, (S.calls i).request.tenantId ∈ S.tenants) (hi : i ∉ w.2.log) :
    (S.prog i).keeps S.rules i (fun w r => Settled S w.2 i r) w := by
  have ht := hS i
  cases hr : (S.calls i).request with
  | admission request =>
    rw [hr] at ht
    rw [Service.prog, hr, Request.prog, Prog.bind_eq]
    exact Prog.keeps_bind (admitDataset_keeps hc hT ht hr hi) fun w r _ hs => keeps_settled hs
  | upsert quota =>
    rw [hr] at ht
    rw [Service.prog, hr, Request.prog, Prog.bind_eq]
    exact Prog.keeps_bind (upsertTenantQuota_keeps hc hT ht hr hi)
      fun w r _ hs => keeps_settled hs

end Programs

section Refusals
variable {c : Codec β} {request : AdmitDatasetRequest} {last : Option Nat}

theorem getProtoMessage_unlessRefused {α ρ : Type} {unmarshal : β → Except String α}
    {key k : String} {f : Fetched β α → Rpc β ρ} {Q : Option Nat → ρ → Prop}
    (hfail : ∀ err, (f (.failed err)).unlessRefused k Q none)
    (hdone : ∀ kv, (f (fetched unmarshal key kv)).unlessRefused k Q
      (if key = k then some (kv.elim 0 Versioned.modRevision) else none)) :
    ((getProtoMessage unmarshal key).bind f).unlessRefused k Q last := by
  refine ⟨hfail, fun kv => ?_⟩
  have hd := hdone kv
  cases kv with
  | none => exact hd
  | some kv =>
    simp only [fetched] at hd
    cases hu : unmarshal kv.value with
    | error err | ok msg =>
      simp only [hu] at hd ⊢
      exact hd

theorem saveEpochs_unlessRefused (epochs : List EpochInfo) :
    (saveEpochs c request epochs).unlessRefused
      (etcdTenantDatasetEpochKey request.tenantId request.datasetId)
      (fun _ saved => saved ≠ .error .concurrentModification) last := by
  -- the one transaction of a save is made right after the read of the list
  rw [saveEpochs, Prog.bind_eq]
  refine getProtoMessage_unlessRefused (fun err => ?_) fun kv => ?_
  · simp [Prog.unlessRefused]
  · rw [if_pos rfl]
    cases kv with
    | none =>
      simp only [fetched, putProtoMessage]
      cases c.marshalEpochs epochs with
      | error err => simp [Prog.unlessRefused, Prog.bind]
      | ok data =>
        intro a
        cases a <;> simp [Prog.unlessRefused, Prog.bind]
    | some kv =>
      simp only [fetched]
      cases c.unmarshalEpochs kv.value with
      | error err => simp [Prog.unlessRefused]
      | ok existing =>
        dsimp only
        split <;> simp [Prog.unlessRefused]

theorem carryOut_unlessRefused {d : Decision}
    (hd : ∀ r, d = .answer r → r ≠ .error (.save .concurrentModification)) :
    (carryOut c request d).unlessRefused
      (etcdTenantDatasetEpochKey request.tenantId request.datasetId)
      (fun _ r => r ≠ .error (.save .concurrentModification)) last := by
  cases d with
  | answer r => exact hd r rfl
  | stuck => trivial
  | save epochs =>
    refine Prog.unlessRefused_bind (Prog.unlessRefused_mono (saveEpochs_unlessRefused epochs) ?_)
    intro _ saved hs
    cases saved with
    | error err => simpa [saveAnswer, Prog.unlessRefused] using hs
    | ok u => simp [saveAnswer, Prog.unlessRefused]

theorem requireLeader_unlessRefused {k : String} (node : NodeConfig) :
    (requireLeader node : Rpc β _).unlessRefused k
      (fun _ r => r ≠ .error (.save .concurrentModification)) last := by
  unfold requireLeader
  split
  · intro view
    dsimp only
    split
    · simp [Prog.unlessRefused]
    · intro view'
      dsimp only
      split <;> simp [Prog.unlessRefused]
  · simp [Prog.unlessRefused]

theorem quotaDecision_answer {quota : TenantQuota} {generated : Outcome (List EpochInfo)}
    {r : Except RpcError AdmitDatasetResponse} (h : quotaDecision quota generated = .answer r) :
    ∃ resp, r = .ok resp := by
  cases generated with
  | hang | panic => cases h
  | err err =>
    cases h
    exact ⟨_, rfl⟩
  | ok epochs =>
    simp only [quotaDecision] at h
    split at h
    · cases h
      exact ⟨_, rfl⟩
    · cases h

theorem admitDataset_unlessRefused (node : NodeConfig) (sha256 : List UInt8 → List UInt8)
    (fuel : Nat) : (admitDataset node c sha256 fuel request).unlessRefused
      (etcdTenantDatasetEpochKey request.tenantId request.datasetId)
      (fun _ r => r ≠ .error (.save .concurrentModification)) last := by
  rw [admitDataset, Prog.bind_eq]
  refine Prog.unlessRefused_bind
    (Prog.unlessRefused_mono (requireLeader_unlessRefused node) fun last checked hc => ?_)
  cases checked with
  | error err => simpa [Prog.unlessRefused] using hc
  | ok u =>
    dsimp only
    cases validateAdmitRequest request with
    | error err => simp [Prog.unlessRefused]
    | ok u =>
      rw [Prog.bind_eq]
      refine getProtoMessage_unlessRefused (fun err => ?_) fun kv => ?_
      · simp [Prog.unlessRefused]
      · cases fetched c.unmarshalQuota (etcdTenantQuotaKey request.tenantId) kv with
        | failed err | absent err | malformed err => simp [Prog.unlessRefused]
        | found quota kv =>
          dsimp only
          rw [admitWithQuota_eq]
          refine carryOut_unlessRefused fun r hr => ?_
          obtain ⟨resp, rfl⟩ := quotaDecision_answer hr
          simp

end Refusals

section Runs
variable {labels : List (ι × Answer × LeaderView)} {w w' : Store String β × Ledger ι} {i : ι}

variable (S) in
def Service.Disturbed (labels : List (ι × Answer × LeaderView)) (i : ι) : Prop :=
  ∃ l ∈ labels, l.1 = i ∧ S.disturbs i l.2 = true

/-- Along a run, calls are entered by operations of their own, and only at the end. -/
theorem log_of_trace (h : Trace (fun w l => Moved S l w) w labels w') :
    ∃ rest, w'.2.log = w.2.log ++ rest ∧ ∀ i ∈ rest, ∃ l ∈ labels, l.1 = i := by
  induction h with
  | nil => exact ⟨[], by simp⟩
  | @snoc labels t u l _ hm ih =>
    obtain ⟨rest, hrest, hown⟩ := ih
    rcases hm.log with hl | ⟨-, hl⟩
    · refine ⟨rest, hl.trans hrest, fun i hi => ?_⟩
      obtain ⟨l', hl', he⟩ := hown i hi
      exact ⟨l', by simp [hl'], he⟩
    · refine ⟨rest ++ [l.1], by rw [hl, hrest, List.append_assoc], fun i hi => ?_⟩
      rcases List.mem_append.mp hi with hi | hi
      · obtain ⟨l', hl', he⟩ := hown i hi
        exact ⟨l', by simp [hl'], he⟩
      · exact ⟨l, by simp, (List.mem_singleton.mp hi).symm⟩

theorem took_of_trace (h : Trace (fun w l => Moved S l w) w labels w')
    (hi : w.2.took i = true) : w'.2.took i = true := by
  induction h with
  | nil => exact hi
  | @snoc labels t u l _ hm ih =>
    by_cases hl : i = l.1
    · subst hl
      exact hm.kept ih
    · exact (hm.took i hl).trans ih

theorem rough_of_trace (h : Trace (fun w l => Moved S l w) w labels w')
    (hw : w.2.rough i = false) (hi : w'.2.rough i = true) : S.Disturbed labels i := by
  induction h with
  | nil => simp [hw] at hi
  | @snoc labels t u l _ hm ih =>
    rw [hm.rough] at hi
    by_cases hl : l.1 = i
    · subst hl
      rw [Function.update_self, Bool.or_eq_true] at hi
      rcases hi with hi | hi
      · obtain ⟨l', hl', he⟩ := ih hi
        exact ⟨l', by simp [hl'], he⟩
      · exact ⟨l, by simp, rfl, hi⟩
    · rw [Function.update_of_ne (Ne.symm hl)] at hi
      obtain ⟨l', hl', he⟩ := ih hi
      exact ⟨l', by simp [hl'], he⟩

variable (S) in
inductive Answered (st : Store String β) (s : Pool ι String β LeaderView Reply)
    (labels : List (ι × Answer × LeaderView)) (order : List ι) (i : ι) : Reply → Prop
  -- what a call that has returned may have returned, given the order of the calls: what the catalog
  -- replies in its turn or would reply at any time, a failure after a disturbance, or that it was
  -- overtaken by a call in the order that saved to the same list
  | served {before later : List ι} {r : Reply} (ho : order = before ++ i :: later)
      (hr : (S.serve (S.afterAll before) i).map (·.2) = some r) : Answered st s labels order i r
  | late (ho : i ∈ order) (hd : S.Disturbed labels i) (err : RpcError) :
      Answered st s labels order i ((S.calls i).request.error err)
  | fixed {r : Reply} (ho : i ∉ order) (hr : ∀ cat, S.serve cat i = some (cat, r)) :
      Answered st s labels order i r
  | failed {r : Reply} (ho : i ∉ order) (hd : S.Disturbed labels i) (hr : r.Failed) :
      Answered st s labels order i r
  | raced {request : AdmitDatasetRequest} {j : ι} (ho : i ∉ order)
      (hr : (S.calls i).request = .admission request) (hj : j ∈ order)
      (hover : Overtaken S.creates (S.pool st) s i j
        (etcdTenantDatasetEpochKey request.tenantId request.datasetId) labels) :
      Answered st s labels order i (.admission (.error (.save .concurrentModification)))

theorem Settled.answered {st : Store String β} {s : Pool ι String β LeaderView Reply}
    {x : Ledger ι} {r : Reply} (h : Settled S x i r) (hI : Ordered S s.world.store x)
    (hx : ∀ i, x.rough i = true → S.Disturbed labels i)
    (hover : ∀ request, (S.calls i).request = .admission request →
      r = .admission (.error (.save .concurrentModification)) → ∃ j ∈ x.order,
        Overtaken S.creates (S.pool st) s i j
          (etcdTenantDatasetEpochKey request.tenantId request.datasetId) labels) :
    Answered S st s labels x.order i r := by
  have hnot : x.took i = false → i ∉ x.order := by
    intro ht hm
    simp [Ledger.order, ht] at hm
  cases h with
  | @served before later _ ht hl hr =>
    have ho : x.order = before.filter x.took ++ i :: later.filter x.took := by
      simp [Ledger.order, hl, ht]
    exact .served ho ((serve_congr (hI.quota hl)).trans hr)
  | late ht hr err =>
    exact .late (List.mem_filter.mpr ⟨hI.entered i ht, ht⟩) (hx i hr) err
  | fixed ht hr => exact .fixed (hnot ht) hr
  | failed ht hr hf => exact .failed (hnot ht) (hx i hr) hf
  | raced ht hr =>
    obtain ⟨j, hj, ho⟩ := hover _ hr rfl
    exact .raced (hnot ht) hr hj ho

omit [DecidableEq ι] in
theorem prog_unlessRefused {request : AdmitDatasetRequest}
    (hr : (S.calls i).request = .admission request) :
    (S.prog i).unlessRefused (etcdTenantDatasetEpochKey request.tenantId request.datasetId)
      (fun _ r => r ≠ .admission (.error (.save .concurrentModification))) none := by
  rw [Service.prog, hr, Request.prog, Prog.bind_eq]
  refine Prog.unlessRefused_bind (Prog.unlessRefused_mono (admitDataset_unlessRefused ..) ?_)
  intro _ r hne
  simpa [Prog.unlessRefused] using hne

/-- A call that overtakes another has taken effect. -/
theorem mem_order_of_overtaken {Q : ι → Store String β × Ledger ι → Reply → Prop}
    {s t : Pool ι String β LeaderView Reply} {j : ι} {tenant dataset : String}
    (hs : Accompanied S.rules Q s w) (hrun : Trace (Beside S.rules Q) (s, w) labels (t, w'))
    (ht : tenant ∈ S.tenants)
    (h : Overtaken S.creates s t i j (etcdTenantDatasetEpochKey tenant dataset) labels) :
    j ∈ w'.2.order := by
  obtain ⟨e, rest, w₁, w₂, hmove, hnew, hrest⟩ := h.exists_move hs hrun
  have hmoved : Moved S (j, e) w₁ w₂ := hmove
  have htook : w₂.2.took j = true := by
    refine hmoved.saved tenant ht dataset fun hsame => hnew ?_
    simp only [Store.modRevision, hsame]
  have hlate : w'.2.took j = true := took_of_trace hrest htook
  have hw' := hs.of_trace hrun
  exact List.mem_filter.mpr ⟨hw'.inv.entered j hlate, hlate⟩

/-- A call that has returned comes before one that has not begun. -/
theorem sublist_order_of_returned {st : Store String β} {s u : Pool ι String β LeaderView Reply}
    {before later : List (ι × Answer × LeaderView)} {j : ι} {r : Reply}
    (h : Trace (fun w l => Moved S l w) (st, {}) (before ++ later) w)
    (hlater : Trace (Meets S.creates) u later s) (hi : u.threads i = .ret r)
    (hj : ∀ l ∈ before, l.1 ≠ j) (him : i ∈ w.2.order) (hjm : j ∈ w.2.order) :
    [i, j].Sublist w.2.order := by
  obtain ⟨v, hv, hv'⟩ := h.split
  obtain ⟨first, hfirst, hfown⟩ := log_of_trace hv
  obtain ⟨rest, hrest, hrown⟩ := log_of_trace hv'
  have hlog : w.2.log = first ++ rest := by
    rw [hrest, hfirst]
    rfl
  obtain ⟨him, hit⟩ := List.mem_filter.mp him
  obtain ⟨hjm, hjt⟩ := List.mem_filter.mp hjm
  rw [hlog, List.mem_append] at him hjm
  -- `i` takes no step after `u`, and `j` took none before
  have hi' : i ∈ first := by
    refine him.resolve_right fun hm => ?_
    obtain ⟨l, hl, he⟩ := hrown i hm
    exact (returned_of_trace hi hlater).2 l hl he
  have hj' : j ∈ rest := by
    refine hjm.resolve_left fun hm => ?_
    obtain ⟨l, hl, he⟩ := hfown j hm
    exact hj l hl he
  have hsub : [i, j].Sublist w.2.log := by
    rw [hlog]
    exact (List.singleton_sublist.mpr hi').append (List.singleton_sublist.mpr hj')
  simpa [Ledger.order, hit, hjt] using hsub.filter w.2.took

end Runs

/-- Calls of the two RPCs for tenants none of which is nested in another, as many as there are
and interleaved operation by operation, where no list of epochs is created twice. Then some of
the calls have an order such that the store shows the catalog they lead to; a call that has
returned replied what the catalog replies in its turn, or it was disturbed, or a call of the
order saved to the list between its read and its transaction; and a call that had returned
before another began comes first. -/
theorem rpcs_linearizable (hc : S.codec.Lawful)
    (hT : ∀ a ∈ S.tenants, ∀ b ∈ S.tenants, ¬Nested a b)
    (hS : ∀ i, (S.calls i).request.tenantId ∈ S.tenants) {st : Store String β}
    (hst : Shows S.codec S.tenants st S.start) {labels : List (ι × Answer × LeaderView)}
    {s : Pool ι String β LeaderView Reply}
    (h : Trace (Meets S.creates) (S.pool st) labels s) :
    ∃ order : List ι, order.Nodup ∧
      Shows S.codec S.tenants s.world.store (S.afterAll order) ∧
      (∀ i r, s.threads i = .ret r → Answered S st s labels order i r) ∧
      ∀ before later u i j r, labels = before ++ later →
        Trace (Meets S.creates) (S.pool st) before u → Trace (Meets S.creates) u later s →
        u.threads i = .ret r → (∀ l ∈ before, l.1 ≠ j) → i ∈ order → j ∈ order →
        [i, j].Sublist order := by
  have hstart : Accompanied S.rules (fun i w r => Settled S w.2 i r) (S.pool st) (st, {}) :=
    ⟨rfl, ⟨.nil, by simp, by simp, hst⟩, fun i => prog_keeps hc hT hS (by simp)⟩
  obtain ⟨w, hrun⟩ := hstart.trace h
  have hw := hstart.of_trace hrun
  have hmoves : Trace (fun w l => Moved S l w) (st, {}) labels w :=
    hrun.map (f := Prod.snd) fun _ _ _ h => h.2.1
  have hI : Ordered S s.world.store w.2 := hw.store ▸ hw.inv
  have hrough := fun i => rough_of_trace (i := i) hmoves rfl
  refine ⟨w.2.order, hI.nodup.filter _, hI.shown, fun i r hi => ?_, ?_⟩
  · refine (hw.ret hi).answered hI hrough fun request hr hraced => ?_
    obtain ⟨j, hover⟩ := overtaken_of_trace (i := i) (prog_unlessRefused hr) h hi
      (by simpa using hraced)
    have ht := hS i
    rw [hr] at ht
    exact ⟨j, mem_order_of_overtaken hstart hrun ht hover, hover⟩
  · rintro before later u i j r rfl - hlater hi hj him hjm
    exact sublist_order_of_returned hmoves hlater hi hj him hjm

-- A quota, an admission of one day, a quota of one epoch, and two admissions of the next day.
def acmeService : Service (Fin 5) Payload where
  codec := payloadCodec
  sha256 := januarySha256
  tenants := {"acme"}
  calls := ![⟨leaderNode, 0, .upsert ⟨"acme", 10, 10, 1024⟩⟩,
    ⟨leaderNode, 2, .admission (januaryRequest 15 1)⟩,
    ⟨leaderNode, 0, .upsert ⟨"acme", 10, 1, 1024⟩⟩,
    ⟨leaderNode, 2, .admission (januaryRequest 16 1)⟩,
    ⟨leaderNode, 2, .admission (januaryRequest 16 1)⟩]
  start := Catalog.empty

-- The second quota is set after the first admission has read the first and before it saves. Both
-- later admissions have read the list when one of them saves.
def acmeLabels : List (Fin 5 × Answer × LeaderView) :=
  [0, 0, 1, 1, 3, 3, 4, 4, 2, 2, 1, 1, 3, 4, 3, 4].map fun i => (i, .done, ⟨true, "cp-1"⟩)

-- Quotas may be written at any time.
def acmePass (s : Pool (Fin 5) String Payload LeaderView Reply)
    (l : Fin 5 × Answer × LeaderView) : Bool :=
  match s.threads l.1 with
  | .put k _ _ => decide (k = etcdTenantQuotaKey "acme") || (s.world.store.kvs k).isNone
  | _ => true

theorem putsMeet_of_acmePass (s : Pool (Fin 5) String Payload LeaderView Reply)
    (l : Fin 5 × Answer × LeaderView) (h : acmePass s l = true) :
    PutsMeet acmeService.creates s l := by
  unfold PutsMeet
  split
  · trivial
  · rename_i k v next hput _
    rintro t rfl d rfl
    simp only [acmePass, hput, Bool.or_eq_true, decide_eq_true_eq, Option.isNone_iff_eq_none] at h
    exact h.resolve_left (quotaKey_ne_datasetKey "acme" d).symm
  · trivial

theorem rpcs_linearizable_acme :
    ∃ s resp order, resp.status = .accepted ∧
      Trace (Meets acmeService.creates) (acmeService.pool Store.empty) acmeLabels s ∧
      s.threads 1 = .ret (.admission (.ok resp)) ∧
      s.threads 4 = .ret (.admission (.error (.save .concurrentModification))) ∧ order.Nodup ∧
      Shows payloadCodec {"acme"} s.world.store (acmeService.afterAll order) ∧
      Answered acmeService Store.empty s acmeLabels order 1 (.admission (.ok resp)) ∧
      Answered acmeService Store.empty s acmeLabels order 4
        (.admission (.error (.save .concurrentModification))) := by
  obtain ⟨s, resp, hs, hi, hr, hraced⟩ : ∃ s resp,
      replay (guarded acmePass Pool.step) acmeLabels (acmeService.pool Store.empty) = some s ∧
      s.threads 1 = .ret (.admission (.ok resp)) ∧ resp.status = .accepted ∧
      s.threads 4 = .ret (.admission (.error (.save .concurrentModification))) :=
    ⟨_, _, rfl, rfl, rfl, rfl⟩
  have htrace := trace_of_replay putsMeet_of_acmePass hs
  have hapart : ∀ a ∈ acmeService.tenants, ∀ b ∈ acmeService.tenants, ¬Nested a b := by
    rintro a rfl b rfl
    decide
  have htenants : ∀ i, (acmeService.calls i).request.tenantId ∈ acmeService.tenants := by
    intro i
    fin_cases i <;> rfl
  obtain ⟨order, hn, hshow, hans, -⟩ :=
    rpcs_linearizable payloadCodec_lawful hapart htenants shows_empty htrace
  exact ⟨s, resp, order, hr, htrace, hi, hraced, hn, hshow, hans 1 _ hi, hans 4 _ hraced⟩

end Leibrix.CatalogOrder

import Leibrix.AdmitStore
import Leibrix.Interleave

/-! Any number of calls for one dataset, interleaved operation by operation. Along the
compare-and-swap path the stored list only grows; the write of the absent-key branch
compares nothing and is the one that can drop epochs. -/
namespace Leibrix.Management
open Leibrix.Proto Leibrix.EpochGenerator Leibrix.KeyValue Leibrix.TenantKeys
open Leibrix.Transition Leibrix.GoTime

variable {ι β : Type} [DecidableEq ι] {c : Codec β} {key : String}
  {w w' : World ι String β} {i : ι}

def Stores (c : Codec β) (st : Store String β) (key : String) (l : List EpochInfo) : Prop :=
  ∃ kv, st.kvs key = some kv ∧ c.unmarshalEpochs kv.value = .ok l

theorem Stores.unique {st : Store String β} {l m : List EpochInfo} (hl : Stores c st key l)
    (hm : Stores c st key m) : l = m := by
  obtain ⟨kv, hkv, hu⟩ := hl
  obtain ⟨kv', hkv', hu'⟩ := hm
  obtain rfl : kv = kv' := Option.some.inj (hkv.symm.trans hkv')
  exact Except.ok.inj (hu.symm.trans hu')

def Within (c : Codec β) (l m : List EpochInfo) : Prop :=
  ∀ e, UpTo.Mem c.equal e l → UpTo.Mem c.equal e m

def Kept (c : Codec β) (key : String) (w w' : World ι String β) : Prop :=
  -- what calls for one dataset may do to its key between two operations of another: a stored value
  -- stays or is replaced under a later revision, and its epochs remain
  ∀ kv, w.store.kvs key = some kv → ∃ kv', w'.store.kvs key = some kv' ∧
    kv.modRevision ≤ kv'.modRevision ∧ (kv'.modRevision = kv.modRevision → kv' = kv) ∧
    ∀ l, c.unmarshalEpochs kv.value = .ok l →
      ∃ l', c.unmarshalEpochs kv'.value = .ok l' ∧ Within c l l'

omit [DecidableEq ι] in
theorem Kept.refl (w : World ι String β) : Kept c key w w :=
  fun kv h => ⟨kv, h, Nat.le_refl _, fun _ => rfl, fun l hl => ⟨l, hl, fun _ he => he⟩⟩

omit [DecidableEq ι] in
theorem Kept.trans {w₁ w₂ w₃ : World ι String β} (h : Kept c key w₁ w₂)
    (h' : Kept c key w₂ w₃) : Kept c key w₁ w₃ := by
  intro kv hkv
  obtain ⟨kv', hkv', hle, heq, hl⟩ := h kv hkv
  obtain ⟨kv'', hkv'', hle', heq', hl'⟩ := h' kv' hkv'
  refine ⟨kv'', hkv'', Nat.le_trans hle hle', fun he => ?_, fun l hu => ?_⟩
  · have h1 : kv' = kv := heq (by omega)
    subst h1
    exact heq' he
  · obtain ⟨l', hu', hw⟩ := hl l hu
    obtain ⟨l'', hu'', hw'⟩ := hl' l' hu'
    exact ⟨l'', hu'', fun e he => hw' e (hw e he)⟩

omit [DecidableEq ι] in
theorem Kept.stores {l : List EpochInfo} (h : Kept c key w w') (hl : Stores c w.store key l) :
    ∃ l', Stores c w'.store key l' ∧ Within c l l' := by
  obtain ⟨kv, hkv, hu⟩ := hl
  obtain ⟨kv', hkv', -, -, hg⟩ := h kv hkv
  obtain ⟨l', hu', hw⟩ := hg l hu
  exact ⟨l', ⟨kv', hkv', hu'⟩, hw⟩

/-- A write keeps what was stored if its own list has all of it. -/
theorem kept_write {v : β} (h : ∀ l, Stores c w.store key l →
      ∃ l', c.unmarshalEpochs v = .ok l' ∧ Within c l l') :
    Kept c key w (w.write i key v) := by
  intro kv hkv
  have hrev : kv.modRevision ≤ w.store.revision := w.store.issued key kv hkv
  refine ⟨⟨v, w.store.revision + 1⟩, by simp [World.write], by simp; omega, fun he => ?_,
    fun l hu => h l ⟨kv, hkv, hu⟩⟩
  simp at he
  omega

theorem stores_write {v : β} {l : List EpochInfo} (h : c.unmarshalEpochs v = .ok l) :
    Stores c (w.write i key v).store key l :=
  ⟨_, w.store.put_kvs_self key v, h⟩

theorem kept_merge (hc : c.Lawful) {epochs l : List EpochInfo} (hl : Stores c w.store key l) :
    Kept c key w (w.write i key (c.bytesOf (mergeEpochs c.equal epochs l))) := by
  refine kept_write fun l' hl' => ?_
  obtain rfl := hl'.unique hl
  obtain ⟨m, hm, hmem⟩ := hc.merge_mem epochs l'
  exact ⟨m, hm, fun e he => (hmem e).mpr (.inr he)⟩

def SavePost (c : Codec β) (key : String) (i : ι) (epochs : List EpochInfo)
    (w : World ι String β) : Except SaveError Unit → Prop
  | .ok () => ∃ l, Stores c w.store key l ∧ Within c epochs l
  | .error .concurrentModification => w.wrote i = false
  | .error _ => True

omit [DecidableEq ι] in
theorem SavePost.stable {epochs : List EpochInfo} {r : Except SaveError Unit}
    (h : SavePost c key i epochs w r) (hk : Kept c key w w') (hi : w'.wrote i = w.wrote i) :
    SavePost c key i epochs w' r := by
  match r, h with
  | .ok (), ⟨l, hl, hw⟩ =>
    obtain ⟨l', hl', hw'⟩ := hk.stores hl
    exact ⟨l', hl', fun e he => hw' e (hw e he)⟩
  | .error .concurrentModification, h => exact hi.trans h
  | .error (.getFailed _), _ => trivial
  | .error (.putFailed _), _ => trivial
  | .error (.commitFailed _), _ => trivial

section Calls
variable {ρ τ : Type} {putOk : Store String β → String → β → Prop}
  {R : World ι String β → World ι String β → Prop} {Q : World ι String β → ρ → Prop}

theorem getProtoMessage_bind_rg {α : Type} {unmarshal : β → Except String α} {k : String}
    {f : Fetched β α → Rpc β ρ}
    (h : ∀ w' r, R w w' → w'.wrote i = w.wrote i → r.From unmarshal w'.store k →
      (f r).rg putOk R i Q w') :
    ((getProtoMessage unmarshal k).bind f).rg putOk R i Q w := by
  intro w' hw hi
  refine ⟨?_, fun e => h w' _ hw hi trivial⟩
  cases hk : w'.store.kvs k with
  | none => exact h w' _ hw hi hk
  | some kv =>
    cases hu : unmarshal kv.value with
    | error e =>
      simp only [hu]
      exact h w' _ hw hi trivial
    | ok msg =>
      simp only [hu]
      exact h w' _ hw hi ⟨hk, hu⟩

theorem requireLeader_bind_rg {node : NodeConfig} {f : Except RpcError Unit → Rpc β ρ}
    (hrefl : ∀ w, R w w) (htrans : ∀ {a b c}, R a b → R b c → R a c)
    (h : ∀ w' r, R w w' → w'.wrote i = w.wrote i → (f r).rg putOk R i Q w') :
    ((requireLeader node).bind f).rg putOk R i Q w := by
  unfold requireLeader
  split
  · intro w₁ hw₁ hi₁ view
    dsimp only
    split
    · exact h w₁ _ hw₁ hi₁
    · intro w₂ hw₂ hi₂ view'
      dsimp only
      split <;> exact h w₂ _ (htrans hw₁ hw₂) (hi₂.trans hi₁)
  · exact h w _ (hrefl w) rfl

/-- `saveEpochs` against any interference that keeps the stored epochs: its merge is
within the interference by `hmerge`, the write of the absent-key branch by `hput`. -/
theorem saveEpochs_rg (hc : c.Lawful) {request : AdmitDatasetRequest} {epochs : List EpochInfo}
    (hkey : etcdTenantDatasetEpochKey request.tenantId request.datasetId = key)
    (hkept : ∀ {w w'}, R w w' → Kept c key w w')
    (hmerge : ∀ w l, Stores c w.store key l →
      R w (w.write i key (c.bytesOf (mergeEpochs c.equal epochs l))))
    (hput : ∀ w₁ w₂, R w w₁ → w₁.store.kvs key = none → R w₁ w₂ →
      putOk w₂.store key (c.bytesOf epochs) → R w₂ (w₂.write i key (c.bytesOf epochs)))
    (hw : w.wrote i = false) :
    (saveEpochs c request epochs).rg putOk R i (SavePost c key i epochs) w := by
  have hret : ∀ {w : World ι String β} {r : Except SaveError Unit},
      SavePost c key i epochs w r →
      (Prog.ret r : Rpc β _).rg putOk R i (SavePost c key i epochs) w :=
    fun h w' hR hi => h.stable (hkept hR) hi
  rw [saveEpochs, Prog.bind_eq, hkey]
  refine getProtoMessage_bind_rg fun w₁ fetched hw₁ hi₁ hf => ?_
  cases fetched with
  | failed err => exact hret trivial
  | malformed err => exact hret trivial
  | absent err =>
    simp only [putProtoMessage, hc.marshalEpochs]
    intro w₂ hw₂ _
    refine ⟨fun ho => ⟨hput w₁ w₂ hw₁ hf hw₂ ho, hret ?_, fun e => hret trivial⟩,
      fun e => hret trivial⟩
    obtain ⟨l, hl, hs⟩ := hc.bytesOf epochs
    exact ⟨l, stores_write hl, fun e => (UpTo.Same.mem_iff hc.equal hs).mpr⟩
  | found existing kv =>
    obtain ⟨hkv, hu⟩ := hf
    dsimp only
    split
    · rename_i he
      have hp := areEpochSlicesEqual_perm he
      exact hret ⟨existing, ⟨kv, hkv, hu⟩, fun e => (hp.mem_iff hc.equal).mpr⟩
    · intro w₂ hw₂ hi₂
      refine ⟨fun hrev => ?_, fun _ => hret ((hi₂.trans hi₁).trans hw), fun e => hret trivial⟩
      -- an unchanged revision means that the list just read is still stored
      have hst : Stores c w₂.store key existing := by
        obtain ⟨kv', hkv', -, heq, -⟩ := hkept hw₂ kv hkv
        rw [Store.modRevision_of_some hkv'] at hrev
        exact ⟨kv, heq hrev ▸ hkv', hu⟩
      obtain ⟨l, hl, hm⟩ := hc.merge_mem epochs existing
      exact ⟨hmerge w₂ existing hst,
        hret ⟨l, stores_write hl, fun e he => (hm e).mpr (.inl he)⟩, fun e => hret trivial⟩

end Calls

section Exactness
variable {st : Store String β} {request : ι → AdmitDatasetRequest} {init : List EpochInfo}
  {epochs : ι → List EpochInfo} {s : Pool ι String β LeaderView (Except SaveError Unit)}

def startSaves (c : Codec β) (st : Store String β) (request : ι → AdmitDatasetRequest)
    (epochs : ι → List EpochInfo) : Pool ι String β LeaderView (Except SaveError Unit) :=
  ⟨⟨st, fun _ => false⟩, fun i => saveEpochs c (request i) (epochs i)⟩

def Exact (c : Codec β) (key : String) (init : List EpochInfo) (epochs : ι → List EpochInfo)
    (w : World ι String β) : Prop :=
  -- the stored epochs are the first ones and those of the calls that have written
  ∃ l, Stores c w.store key l ∧ ∀ e, UpTo.Mem c.equal e l ↔
    UpTo.Mem c.equal e init ∨ ∃ j, w.wrote j = true ∧ UpTo.Mem c.equal e (epochs j)

theorem exact_merge (hc : c.Lawful) {l : List EpochInfo} (hl : Stores c w.store key l)
    (h : Exact c key init epochs w) :
    Exact c key init epochs
      (w.write i key (c.bytesOf (mergeEpochs c.equal (epochs i) l))) := by
  obtain ⟨l₀, hl₀, hex⟩ := h
  obtain rfl := hl₀.unique hl
  obtain ⟨l', hl', hm⟩ := hc.merge_mem (epochs i) l₀
  refine ⟨l', stores_write hl', fun e => ?_⟩
  rw [hm, hex]
  constructor
  · rintro (he | he | ⟨j, hj, he⟩)
    · exact .inr ⟨i, by simp [World.write], he⟩
    · exact .inl he
    · refine .inr ⟨j, ?_, he⟩
      by_cases hji : j = i
      · simp [World.write, hji]
      · simpa [World.write, Function.update_of_ne hji] using hj
  · rintro (he | ⟨j, hj, he⟩)
    · exact .inr (.inl he)
    · by_cases hji : j = i
      · exact .inl (hji ▸ he)
      · exact .inr (.inr ⟨j, by simpa [World.write, Function.update_of_ne hji] using hj, he⟩)

def Merging (c : Codec β) (key : String) (init : List EpochInfo) (epochs : ι → List EpochInfo)
    (w w' : World ι String β) : Prop :=
  Kept c key w w' ∧ (Exact c key init epochs w → Exact c key init epochs w')

theorem saveEpochs_verified (epochs : ι → List EpochInfo) (hc : c.Lawful)
    (hst : Stores c st key init)
    (hkey : ∀ i, etcdTenantDatasetEpochKey (request i).tenantId (request i).datasetId = key) :
    Verified (fun _ _ _ => True) (Merging c key init epochs)
      (fun i => SavePost c key i (epochs i)) (startSaves c st request epochs) := by
  intro i
  refine saveEpochs_rg hc (hkey i) And.left (fun w l hl => ⟨kept_merge hc hl, exact_merge hc hl⟩)
    (fun w₁ w₂ hw₁ hnone _ _ => ?_) rfl
  -- the key is there from the start and stays, so nobody sees it absent
  obtain ⟨kv, hkv, -⟩ := hst
  obtain ⟨kv', hkv', -⟩ := hw₁.1 kv hkv
  simp [hnone] at hkv'

def Contributed (s : Pool ι String β LeaderView (Except SaveError Unit)) (i : ι) : Prop :=
  -- the call's write was carried out, or it returned without one being needed
  s.world.wrote i = true ∨ s.threads i = .ret (.ok ())

/-- The compare-and-swap merge is exact: from a well-formed list on, in every interleaving
the stored epochs are the first ones and those of the calls that have contributed, no
stored epoch is ever lost, and a call that lost the race has contributed nothing. -/
theorem saveEpochs_exact (hc : c.Lawful) (hst : Stores c st key init)
    (hkey : ∀ i, etcdTenantDatasetEpochKey (request i).tenantId (request i).datasetId = key)
    (h : Reach (Fires Pool.step) anyStep (startSaves c st request epochs) s) :
    ∃ l, Stores c s.world.store key l ∧
      (∀ e, UpTo.Mem c.equal e l ↔ UpTo.Mem c.equal e init ∨
        ∃ i, Contributed s i ∧ UpTo.Mem c.equal e (epochs i)) ∧
      (∀ t, Reach (Fires Pool.step) anyStep s t →
        ∃ l', Stores c t.world.store key l' ∧ Within c l l') ∧
      ∀ i, s.threads i = .ret (.error .concurrentModification) → ¬ Contributed s i := by
  have hrefl : ∀ w : World ι String β, Merging c key init epochs w w :=
    fun w => ⟨Kept.refl w, id⟩
  have htrans : ∀ {w₁ w₂ w₃ : World ι String β}, Merging c key init epochs w₁ w₂ →
      Merging c key init epochs w₂ w₃ → Merging c key init epochs w₁ w₃ :=
    fun h h' => ⟨h.1.trans h'.1, h'.2 ∘ h.2⟩
  have hputs : ∀ {s t : Pool ι String β LeaderView (Except SaveError Unit)},
      Reach (Fires Pool.step) anyStep s t →
      Reach (Fires Pool.step) (PutsMeet fun _ _ _ => True) s t := by
    refine fun h => h.mono fun s a _ => ?_
    unfold PutsMeet
    split <;> trivial
  obtain ⟨hR, hv⟩ := verified_reach hrefl htrans
    (saveEpochs_verified epochs hc hst hkey) (hputs h)
  have hstart : Exact c key init epochs (startSaves c st request epochs).world :=
    ⟨init, hst, by simp [startSaves]⟩
  obtain ⟨l, hl, hex⟩ := hR.2 hstart
  refine ⟨l, hl, fun e => ?_, fun t ht => ?_, fun i hi => ?_⟩
  · constructor
    · intro he
      rcases (hex e).mp he with he | ⟨i, hw, he⟩
      · exact .inl he
      · exact .inr ⟨i, .inl hw, he⟩
    · rintro (he | ⟨i, hw | hr, he⟩)
      · exact (hex e).mpr (.inl he)
      · exact (hex e).mpr (.inr ⟨i, hw, he⟩)
      · -- a call that returned without writing found its epochs stored
        obtain ⟨l', hl', hwithin⟩ := hv.ret hrefl hr
        obtain rfl := hl'.unique hl
        exact hwithin e he
  · exact (verified_reach hrefl htrans hv (hputs ht)).1.1.stores hl
  · have hw : s.world.wrote i = false := hv.ret hrefl hi
    rintro (hc | hc)
    · simp [hw] at hc
    · simp [hi] at hc

def stepsOf (calls : List Bool) : List (Bool × Answer × LeaderView) :=
  calls.map fun i => (i, .done, ⟨true, "cp-1"⟩)

def january15 : EpochInfo :=
  ⟨"1705276800000_b2bd25", some ⟨some ⟨1705276800, 0⟩, some ⟨1705363200, 0⟩⟩, ∅⟩

def january16 : EpochInfo :=
  ⟨"1705363200000_68925a", some ⟨some ⟨1705363200, 0⟩, some ⟨1705449600, 0⟩⟩, ∅⟩

/-- Both calls read the list, then both try to replace it: one of them contributes. -/
theorem saveEpochs_exact_january :
    ∃ s : Pool Bool String Payload LeaderView (Except SaveError Unit),
      Reach (Fires Pool.step) anyStep (startSaves payloadCodec januaryStore
        (fun _ => januaryRequest 15 1) fun i => if i then [] else [january15, january16]) s ∧
      s.threads true = .ret (.error .concurrentModification) ∧
      ∃ l, Stores payloadCodec s.world.store (etcdTenantDatasetEpochKey "acme" "sales") l ∧
        UpTo.Mem payloadCodec.equal january15 l ∧ ¬ Contributed s true := by
  obtain ⟨s, hs, hf, ht⟩ : ∃ s, replay Pool.step (stepsOf [false, true, false, true])
      (startSaves payloadCodec januaryStore (fun _ => januaryRequest 15 1)
        fun i => if i then [] else [january15, january16]) = some s ∧
      s.threads false = .ret (.ok ()) ∧ s.threads true = .ret (.error .concurrentModification) :=
    ⟨_, rfl, rfl, rfl⟩
  have hr := reach_of_replay hs
  have hst : Stores payloadCodec januaryStore (etcdTenantDatasetEpochKey "acme" "sales") _ :=
    ⟨_, rfl, rfl⟩
  have hkey : Bool → etcdTenantDatasetEpochKey (januaryRequest 15 1).tenantId
      (januaryRequest 15 1).datasetId = etcdTenantDatasetEpochKey "acme" "sales" := fun _ => rfl
  obtain ⟨l, hl, hex, -, hlost⟩ := saveEpochs_exact payloadCodec_lawful hst hkey hr
  have hmem : UpTo.Mem payloadCodec.equal january15 [january15, january16] :=
    UpTo.mem_of_mem payloadCodec_lawful.equal (by simp)
  exact ⟨s, hr, ht, l, hl, (hex _).mpr (.inr ⟨false, .inr hf, hmem⟩), hlost true ht⟩

end Exactness

section Admissions
variable {node : ι → NodeConfig} {sha256 : List UInt8 → List UInt8} {fuel : Nat}
  {st : Store String β} {request : ι → AdmitDatasetRequest} {tenant dataset : String}
  {s t : Pool ι String β LeaderView (Except RpcError AdmitDatasetResponse)}

def startAdmits (node : ι → NodeConfig) (c : Codec β) (sha256 : List UInt8 → List UInt8)
    (fuel : Nat) (st : Store String β) (request : ι → AdmitDatasetRequest) :
    Pool ι String β LeaderView (Except RpcError AdmitDatasetResponse) :=
  ⟨⟨st, fun _ => false⟩, fun i => admitDataset (node i) c sha256 fuel (request i)⟩

def PutCovers (c : Codec β) (st : Store String β) (k : String) (v : β) : Prop :=
  -- the list being put has every epoch of the list it replaces, if it replaces one
  ∀ l, Stores c st k l → ∃ l', c.unmarshalEpochs v = .ok l' ∧ Within c l l'

def AdmitPost (c : Codec β) (key : String) (w : World ι String β)
    (r : Except RpcError AdmitDatasetResponse) : Prop :=
  ∀ resp, r = .ok resp → resp.status = .accepted →
    ∃ epochs l, resp.epochs = some epochs ∧ Stores c w.store key l ∧ Within c epochs l

omit [DecidableEq ι] in
theorem AdmitPost.stable {r : Except RpcError AdmitDatasetResponse} (h : AdmitPost c key w r)
    (hk : Kept c key w w') : AdmitPost c key w' r := by
  intro resp hr ha
  obtain ⟨epochs, l, he, hl, hw⟩ := h resp hr ha
  obtain ⟨l', hl', hw'⟩ := hk.stores hl
  exact ⟨epochs, l', he, hl', fun e hm => hw' e (hw e hm)⟩

omit [DecidableEq ι] in
theorem admitPost_rejected (w : World ι String β) (context err : String) :
    AdmitPost c key w (.ok (rejected context err)) := by
  rintro resp ⟨⟩ ha
  simp [rejected] at ha

omit [DecidableEq ι] in
theorem admitPost_error (w : World ι String β) (err : RpcError) :
    AdmitPost c key w (.error err) := by
  rintro resp ⟨⟩

theorem ret_rg {r : Except RpcError AdmitDatasetResponse} (h : AdmitPost c key w r) :
    (Prog.ret r : Rpc β _).rg (PutCovers c) (Kept c key) i (AdmitPost c key) w :=
  fun _ hk _ => h.stable hk

theorem admitWithQuota_rg (hc : c.Lawful) {request : AdmitDatasetRequest}
    (hkey : etcdTenantDatasetEpochKey request.tenantId request.datasetId = key)
    (quota : TenantQuota) (generated : Outcome (List EpochInfo)) (hw : w.wrote i = false) :
    (admitWithQuota c request quota generated).rg (PutCovers c) (Kept c key) i
      (AdmitPost c key) w := by
  cases generated with
  | hang => trivial
  | panic msg => trivial
  | err msg => exact ret_rg (admitPost_rejected _ _ _)
  | ok epochs =>
    simp only [admitWithQuota]
    split
    · exact ret_rg (admitPost_rejected _ _ _)
    · have hsave : (saveEpochs c request epochs).rg (PutCovers c) (Kept c key) i
          (SavePost c key i epochs) w :=
        saveEpochs_rg hc hkey id (fun w l hl => kept_merge hc hl)
          (fun w₁ w₂ _ _ _ ho => kept_write ho) hw
      refine Prog.rg_bind _ _ _ _ Kept.refl (Prog.rg_mono hsave fun w' saved hs => ?_)
      cases saved with
      | error err => exact ret_rg (admitPost_error _ _)
      | ok u =>
        obtain ⟨l, hl, hwithin⟩ := hs
        refine ret_rg ?_
        rintro resp ⟨⟩ -
        exact ⟨epochs, l, rfl, hl, hwithin⟩

theorem admitDataset_verified (hc : c.Lawful)
    (hreq : ∀ i, (request i).tenantId = tenant ∧ (request i).datasetId = dataset) :
    Verified (PutCovers c) (Kept c (etcdTenantDatasetEpochKey tenant dataset))
      (fun _ => AdmitPost c (etcdTenantDatasetEpochKey tenant dataset))
      (startAdmits node c sha256 fuel st request) := by
  intro i
  obtain ⟨rfl, rfl⟩ := hreq i
  refine requireLeader_bind_rg Kept.refl Kept.trans fun w₁ checked _ hi₁ => ?_
  cases checked with
  | error err => exact ret_rg (admitPost_error _ _)
  | ok u =>
    dsimp only
    split
    · exact ret_rg (admitPost_rejected _ _ _)
    · refine getProtoMessage_bind_rg fun w₂ fetched _ hi₂ _ => ?_
      cases fetched with
      | failed err => exact ret_rg (admitPost_rejected _ _ _)
      | absent err => exact ret_rg (admitPost_rejected _ _ _)
      | malformed err => exact ret_rg (admitPost_rejected _ _ _)
      | found quota kv => exact admitWithQuota_rg hc rfl quota _ (hi₂.trans hi₁)

/-- No accepted admission is lost in a run whose unconditional writes each find the key
absent, or holding nothing that the list being put does not have. -/
theorem admitDataset_not_lost (hc : c.Lawful)
    (hreq : ∀ i, (request i).tenantId = tenant ∧ (request i).datasetId = dataset)
    (h : Reach (Fires Pool.step) (PutsMeet (PutCovers c))
      (startAdmits node c sha256 fuel st request) s)
    {resp : AdmitDatasetResponse} (hret : s.threads i = .ret (.ok resp))
    (hacc : resp.status = .accepted)
    (ht : Reach (Fires Pool.step) (PutsMeet (PutCovers c)) s t) :
    ∃ epochs l, resp.epochs = some epochs ∧
      Stores c t.world.store (etcdTenantDatasetEpochKey tenant dataset) l ∧
      ∀ e ∈ epochs, UpTo.Mem c.equal e l := by
  obtain ⟨-, hv⟩ := verified_reach Kept.refl Kept.trans (admitDataset_verified hc hreq) h
  obtain ⟨hk, -⟩ := verified_reach Kept.refl Kept.trans hv ht
  have hpost : AdmitPost c (etcdTenantDatasetEpochKey tenant dataset) s.world (.ok resp) :=
    hv.ret Kept.refl hret
  obtain ⟨epochs, l, he, hl, hw⟩ := (hpost.stable hk) resp rfl hacc
  exact ⟨epochs, l, he, hl, fun e hm => hw e (UpTo.mem_of_mem hc.equal hm)⟩

def raceStart (days : Int64) :
    Pool Bool String Payload LeaderView (Except RpcError AdmitDatasetResponse) :=
  startAdmits (fun _ => leaderNode) payloadCodec januarySha256 3 (acmeStore 10)
    fun i => if i then januaryRequest 16 days else januaryRequest 15 1

def putsFresh (s : Pool Bool String Payload LeaderView (Except RpcError AdmitDatasetResponse))
    (l : Bool × Answer × LeaderView) : Bool :=
  match s.threads l.1 with
  | .put k _ _ => (s.world.store.kvs k).isNone
  | _ => true

theorem putsMeet_of_putsFresh
    {s : Pool Bool String Payload LeaderView (Except RpcError AdmitDatasetResponse)}
    {l : Bool × Answer × LeaderView} (h : putsFresh s l = true) :
    PutsMeet (PutCovers payloadCodec) s l := by
  cases hp : s.threads l.1 with
  | put k v next =>
    have hnone : s.world.store.kvs k = none := by simpa [putsFresh, hp] using h
    have hcov : PutCovers payloadCodec s.world.store k v := by
      rintro l ⟨kv, hkv, -⟩
      simp [hnone] at hkv
    cases ha : l.2.1 <;> simp [PutsMeet, hp, ha, hcov]
  | _ => simp [PutsMeet, hp]

/-- One call after the other: the second merges into what the first has put. -/
theorem admitDataset_not_lost_january :
    ∃ t resp, Reach (Fires Pool.step) (PutsMeet (PutCovers payloadCodec)) (raceStart 2) t ∧
      t.threads false = .ret (.ok resp) ∧ resp.status = .accepted ∧
      (∃ resp', t.threads true = .ret (.ok resp') ∧ resp'.status = .accepted) ∧
      ∃ epochs l, resp.epochs = some epochs ∧
        Stores payloadCodec t.world.store (etcdTenantDatasetEpochKey "acme" "sales") l ∧
        ∀ e ∈ epochs, UpTo.Mem payloadCodec.equal e l := by
  obtain ⟨t, ht, resp, hr, ha, hsecond⟩ : ∃ t, replay (guarded putsFresh Pool.step)
      (stepsOf [false, false, false, false, true, true, true, true]) (raceStart 2) = some t ∧
      ∃ resp, t.threads false = .ret (.ok resp) ∧ resp.status = .accepted ∧
      ∃ resp', t.threads true = .ret (.ok resp') ∧ resp'.status = .accepted :=
    ⟨_, rfl, _, rfl, rfl, _, rfl, rfl⟩
  have hreach : Reach (Fires Pool.step) (PutsMeet (PutCovers payloadCodec)) (raceStart 2) t :=
    (reach_of_replay ht).of_guarded fun _ _ => putsMeet_of_putsFresh
  have hreq : ∀ i : Bool, (if i then januaryRequest 16 2 else januaryRequest 15 1).tenantId =
      "acme" ∧ (if i then januaryRequest 16 2 else januaryRequest 15 1).datasetId = "sales" := by
    decide
  exact ⟨t, resp, hreach, hr, ha, hsecond,
    admitDataset_not_lost payloadCodec_lawful hreq hreach hr ha .refl⟩

/-- Both calls find the key absent and put their lists: the epoch of the first one is
returned as accepted and is not stored. -/
theorem admitDataset_overwritten :
    ∃ t resp epochs l e, Reach (Fires Pool.step) anyStep (raceStart 1) t ∧
      t.threads false = .ret (.ok resp) ∧ resp.status = .accepted ∧
      resp.epochs = some epochs ∧ e ∈ epochs ∧
      Stores payloadCodec t.world.store (etcdTenantDatasetEpochKey "acme" "sales") l ∧
      ¬ UpTo.Mem payloadCodec.equal e l := by
  obtain ⟨t, ht, resp, hr, ha, e, he, e', hl, hne⟩ : ∃ t, replay Pool.step
      (stepsOf [false, true, false, true, false, true, false, true]) (raceStart 1) = some t ∧
      ∃ resp, t.threads false = .ret (.ok resp) ∧ resp.status = .accepted ∧
      ∃ e, resp.epochs = some [e] ∧
      ∃ e', Stores payloadCodec t.world.store (etcdTenantDatasetEpochKey "acme" "sales") [e'] ∧
        e.timeRange ≠ e'.timeRange :=
    ⟨_, rfl, _, rfl, rfl, _, rfl, _, ⟨_, rfl, rfl⟩, by decide +kernel⟩
  refine ⟨t, resp, _, _, e, reach_of_replay ht, hr, ha, he, by simp, hl, ?_⟩
  rintro ⟨y, hy, heq⟩
  obtain rfl : y = e' := by simpa using hy
  exact hne (congrArg EpochInfo.timeRange (of_decide_eq_true heq))

end Admissions
end Leibrix.Management

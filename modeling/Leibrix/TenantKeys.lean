import Mathlib.Data.List.Infix
import Mathlib.Data.String.Basic

/-! The two etcd key formats of `common_utils.go`. Identifiers stand between fixed
pieces as they are, so a tenant id that itself contains `/datasets` can reproduce a
key of another tenant; these are the only collisions. -/
namespace Leibrix.TenantKeys

def etcdTenantQuotaKey (tenantId : String) : String :=
  "/leibrix/tenants/" ++ tenantId ++ "/quota"

def etcdTenantDatasetEpochKey (tenantId dataSetId : String) : String :=
  "/leibrix/tenants/" ++ tenantId ++ "/datasets/" ++ dataSetId

def Nested (outer inner : String) : Prop :=
  -- `inner` is `outer` followed by `/datasets`, and then by nothing or by `/` and more
  (outer ++ "/datasets/").toList <+: (inner ++ "/").toList

instance (outer inner : String) : Decidable (Nested outer inner) :=
  inferInstanceAs (Decidable (_ <+: _))

def sep : List Char := ['/', 'd', 'a', 't', 'a', 's', 'e', 't', 's', '/']

theorem toList_quotaKey (a : String) : (etcdTenantQuotaKey a).toList =
    "/leibrix/tenants/".toList ++ (a.toList ++ '/' :: ['q', 'u', 'o', 't', 'a']) := by
  unfold etcdTenantQuotaKey
  rw [String.toList_append, String.toList_append, List.append_assoc]
  rfl

theorem toList_datasetKey (a d : String) : (etcdTenantDatasetEpochKey a d).toList =
    "/leibrix/tenants/".toList ++ (a.toList ++ (sep ++ d.toList)) := by
  unfold etcdTenantDatasetEpochKey
  rw [String.toList_append, String.toList_append, String.toList_append, List.append_assoc,
    List.append_assoc]
  rfl

theorem nested_iff {a b : String} : Nested a b ↔ a.toList ++ sep <+: b.toList ++ ['/'] := by
  unfold Nested
  rw [String.toList_append, String.toList_append]
  rfl

theorem quotaKey_inj {a b : String} : etcdTenantQuotaKey a = etcdTenantQuotaKey b ↔ a = b := by
  rw [← String.toList_inj, toList_quotaKey, toList_quotaKey, List.append_cancel_left_eq,
    List.append_cancel_right_eq, String.toList_inj]

theorem datasetKey_eq_iff {a b d e : String} :
    etcdTenantDatasetEpochKey a d = etcdTenantDatasetEpochKey b e ↔
      a.toList ++ (sep ++ d.toList) = b.toList ++ (sep ++ e.toList) := by
  rw [← String.toList_inj, toList_datasetKey, toList_datasetKey, List.append_cancel_left_eq]

theorem datasetKey_inj {a d e : String} :
    etcdTenantDatasetEpochKey a d = etcdTenantDatasetEpochKey a e ↔ d = e := by
  rw [datasetKey_eq_iff, List.append_cancel_left_eq, List.append_cancel_left_eq,
    String.toList_inj]

theorem quotaKey_eq_datasetKey_iff {a b e : String} :
    etcdTenantQuotaKey a = etcdTenantDatasetEpochKey b e ↔
      a.toList ++ '/' :: ['q', 'u', 'o', 't', 'a'] = b.toList ++ (sep ++ e.toList) := by
  rw [← String.toList_inj, toList_quotaKey, toList_datasetKey, List.append_cancel_left_eq]

theorem sep_overlap {u x : List Char} (hu : u ≠ []) (h : sep <+: u ++ '/' :: x) :
    sep <+: u ++ ['/'] := by
  -- the separator has a slash at its two ends only, so it cannot end inside `u`'s tail: laid over
  -- `u` and a slash it fits within them
  have hslash : u ++ ['/'] <+: u ++ '/' :: x := ⟨x, by simp⟩
  rcases List.prefix_or_prefix_of_prefix h hslash with hs | hs
  · exact hs
  · have hall : ∀ p ∈ sep.inits, p.getLast? = some '/' → p = ['/'] ∨ p = sep := by decide
    rcases hall _ ((List.mem_inits _ _).mpr hs) (by simp) with h1 | h2
    · exact absurd h1 (by simpa using hu)
    · exact h2 ▸ List.prefix_rfl

theorem nested_of_append {a b : String} {u x : List Char} (hb : b.toList = a.toList ++ u)
    (hu : u ≠ []) (h : sep <+: u ++ '/' :: x) : Nested a b := by
  rw [nested_iff, hb, List.append_assoc, List.prefix_append_right_inj]
  exact sep_overlap hu h

/-- A dataset key that two tenants share. -/
theorem nested_of_datasetKey_eq {a b d e : String} (hab : a ≠ b)
    (h : etcdTenantDatasetEpochKey a d = etcdTenantDatasetEpochKey b e) :
    Nested a b ∨ Nested b a := by
  rw [datasetKey_eq_iff] at h
  have hne : a.toList ≠ b.toList := fun he => hab (String.toList_inj.mp he)
  rcases List.append_eq_append_iff.mp h with ⟨u, hb, hu⟩ | ⟨u, ha, hu⟩
  · refine .inl (nested_of_append hb ?_ ⟨d.toList, hu⟩)
    rintro rfl
    exact hne (by simpa using hb.symm)
  · refine .inr (nested_of_append ha ?_ ⟨e.toList, hu⟩)
    rintro rfl
    exact hne (by simpa using ha)

/-- A quota key that is also a dataset key. -/
theorem nested_of_quotaKey_eq {a b e : String}
    (h : etcdTenantQuotaKey a = etcdTenantDatasetEpochKey b e) : Nested b a := by
  rw [quotaKey_eq_datasetKey_iff] at h
  rcases List.append_eq_append_iff.mp h with ⟨u, hb, hu⟩ | ⟨u, ha, hu⟩
  · have hl := congrArg List.length hu
    simp [sep] at hl
    omega
  · refine nested_of_append ha ?_ ⟨e.toList, hu⟩
    rintro rfl
    simp [sep] at hu

theorem quotaKey_ne_datasetKey (a e : String) :
    etcdTenantQuotaKey a ≠ etcdTenantDatasetEpochKey a e := by
  rw [Ne, quotaKey_eq_datasetKey_iff]
  simp [sep]

/-- Nested ids do collide: some dataset of the outer tenant has the inner one's quota
key, and some dataset of it has the key of any given dataset of the inner one. -/
theorem Nested.collides {a b : String} (h : Nested a b) (e : String) :
    (∃ d, d ≠ "" ∧ etcdTenantQuotaKey b = etcdTenantDatasetEpochKey a d) ∧
      ∃ d, d ≠ "" ∧ etcdTenantDatasetEpochKey b e = etcdTenantDatasetEpochKey a d := by
  obtain ⟨r, hr⟩ := nested_iff.mp h
  have hb : ∀ x, b.toList ++ '/' :: x = a.toList ++ (sep ++ (r ++ x)) := by
    intro x
    simpa using (congrArg (· ++ x) hr).symm
  have hne : ∀ c x, String.ofList (r ++ c :: x) ≠ "" := by
    intro c x he
    simpa using congrArg String.toList he
  refine ⟨⟨String.ofList (r ++ ['q', 'u', 'o', 't', 'a']), hne _ _, ?_⟩,
    ⟨String.ofList (r ++ 'd' :: (sep.drop 2 ++ e.toList)), hne _ _, ?_⟩⟩
  · rw [quotaKey_eq_datasetKey_iff, String.toList_ofList]
    exact hb _
  · rw [datasetKey_eq_iff, String.toList_ofList]
    exact hb _

end Leibrix.TenantKeys

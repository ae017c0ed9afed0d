import Mathlib.Algebra.Group.Nat.Defs
import Mathlib.Data.Char
import Mathlib.Data.List.Lex
import Mathlib.Data.Nat.Basic
import Mathlib.Order.Lattice

/-! Decimal numerals in the lexicographic order of texts. A numeral is followed by a mark
that is greater than every digit, so of two numerals of different length the longer one is
compared by its leading digits, and where these are the shorter numeral it comes first. -/
namespace Leibrix.Numerals

section Lists
variable {α β : Type*} [LinearOrder α] {a b x y : List α} {c d : α}

theorem append_lt_append_iff (h : a.length = b.length) :
    a ++ x < b ++ y ↔ a < b ∨ a = b ∧ x < y := by
  induction a generalizing b with
  | nil =>
    obtain rfl : b = [] := List.length_eq_zero_iff.mp h.symm
    simp
  | cons p a ih =>
    cases b with
    | nil => simp at h
    | cons q b =>
      simp only [List.cons_append, List.cons_lt_cons_iff, ih (Nat.succ.inj h), List.cons.injEq]
      tauto

omit [LinearOrder α] in
theorem exists_drop (hne : a ≠ b) (heq : b.take a.length = a) :
    ∃ q ∈ b, ∃ rest, b.drop a.length = q :: rest := by
  cases hdrop : b.drop a.length with
  | nil =>
    have htake : b.take a.length = b := List.take_of_length_le (List.drop_eq_nil_iff.mp hdrop)
    exact absurd (heq.symm.trans htake) hne
  | cons q rest => exact ⟨q, List.mem_of_mem_drop (hdrop ▸ List.mem_cons_self), rest, rfl⟩

/-- A marked list before one that is not shorter. -/
theorem marked_lt_iff (hle : a.length ≤ b.length) (hb : ∀ q ∈ b, q < c) (hne : a ≠ b) :
    a ++ c :: x < b ++ c :: y ↔ a < b.take a.length := by
  have hlen : a.length = (b.take a.length).length := by simp [hle]
  conv_lhs => rw [← List.take_append_drop a.length b, List.append_assoc]
  rw [append_lt_append_iff hlen]
  refine or_iff_left fun h => ?_
  obtain ⟨q, hmem, rest, hdrop⟩ := exists_drop hne h.1.symm
  have hq : q < c := hb q hmem
  rw [hdrop, List.cons_append, List.cons_lt_cons_iff] at h
  exact h.2.elim (fun hcq => lt_asymm hcq hq) fun hcq => hq.ne hcq.1.symm

/-- A marked list before one that is not longer. -/
theorem lt_marked_iff (hle : a.length ≤ b.length) (hb : ∀ q ∈ b, q < c) (hne : a ≠ b) :
    b ++ c :: x < a ++ c :: y ↔
      b.take a.length < a ∨ b.take a.length = a ∧ a.length < b.length := by
  have hlen : (b.take a.length).length = a.length := by simp [hle]
  conv_lhs => rw [← List.take_append_drop a.length b, List.append_assoc]
  rw [append_lt_append_iff hlen]
  refine or_congr_right (and_congr_right fun heq => ?_)
  obtain ⟨q, hmem, rest, hdrop⟩ := exists_drop hne heq
  have hq : q < c := hb q hmem
  have hlt : a.length < b.length := by
    by_contra hge
    rw [List.drop_eq_nil_of_le (not_lt.mp hge)] at hdrop
    cases hdrop
  simp [List.cons_lt_cons_iff, hdrop, hq, hlt]

/-- A map that keeps the order of the elements keeps that of the lists. -/
theorem map_lt_iff_on [LT β] (f : α → β) (s : α → Prop) (hirr : ∀ p : β, ¬p < p)
    (hf : ∀ p q, s p → s q → (f p < f q ↔ p < q)) (ha : ∀ p ∈ a, s p) (hb : ∀ q ∈ b, s q) :
    a.map f < b.map f ↔ a < b := by
  induction a generalizing b with
  | nil => cases b <;> simp
  | cons p a ih =>
    cases b with
    | nil => simp
    | cons q b =>
      have hp : s p := ha p List.mem_cons_self
      have hq : s q := hb q List.mem_cons_self
      have heq : f p = f q ↔ p = q := by
        constructor
        · intro h
          refine le_antisymm (not_lt.mp fun hlt => ?_) (not_lt.mp fun hlt => ?_)
          · exact hirr (f p) (h ▸ (hf q p hq hp).mpr hlt)
          · exact hirr (f q) (h ▸ (hf p q hp hq).mpr hlt)
        · exact fun h => h ▸ rfl
      rw [List.map_cons, List.map_cons, List.cons_lt_cons_iff, List.cons_lt_cons_iff,
        hf p q hp hq, heq, ih (fun r hr => ha r (List.mem_cons_of_mem _ hr))
          fun r hr => hb r (List.mem_cons_of_mem _ hr)]

end Lists

section Digits
variable {m n : Nat}

def width (n : Nat) : Nat := (Nat.toDigits 10 n).length

theorem toDigits_of_ge (h : 10 ≤ n) :
    Nat.toDigits 10 n = Nat.toDigits 10 (n / 10) ++ [(n % 10).digitChar] :=
  Nat.toDigits_of_base_le (by decide) h

theorem width_of_ge (h : 10 ≤ n) : width n = width (n / 10) + 1 := by
  simp [width, toDigits_of_ge h]

theorem width_of_lt (h : n < 10) : width n = 1 := by
  simp [width, Nat.toDigits_of_lt_base h]

theorem width_pos (n : Nat) : 0 < width n := Nat.length_toDigits_pos

theorem one_lt_width_iff : 1 < width n ↔ 10 ≤ n := by
  constructor
  · intro h
    by_contra hn
    rw [width_of_lt (not_le.mp hn)] at h
    exact lt_irrefl 1 h
  · intro h
    rw [width_of_ge h]
    exact Nat.succ_lt_succ (width_pos _)

theorem width_mono (h : m ≤ n) : width m ≤ width n := by
  have hn : n < 10 ^ width n := (Nat.length_toDigits_le_iff (by decide) (width_pos n)).mp le_rfl
  exact (Nat.length_toDigits_le_iff (by decide) (width_pos n)).mpr (h.trans_lt hn)

theorem take_toDigits {k : Nat} (hpos : 0 < k) (hk : k ≤ width n) :
    (Nat.toDigits 10 n).take k = Nat.toDigits 10 (n / 10 ^ (width n - k)) := by
  induction n using Nat.strongRecOn with
  | ind n ih =>
    rcases hk.eq_or_lt with rfl | hlt
    · simp [width]
    · have hn : 10 ≤ n := one_lt_width_iff.mp (by omega)
      have hw := width_of_ge hn
      have hle : k ≤ width (n / 10) := by omega
      rw [toDigits_of_ge hn, List.take_append_of_le_length hle, ih _ (by omega) hle,
        show width n - k = (width (n / 10) - k) + 1 by omega, Nat.pow_succ, Nat.mul_comm,
        Nat.div_div_eq_div_mul]

theorem digitChar_lt_iff (hm : m < 10) (hn : n < 10) : m.digitChar < n.digitChar ↔ m < n := by
  have hall : ∀ m < 10, ∀ n < 10, (m.digitChar < n.digitChar ↔ m < n) := by decide
  exact hall m hm n hn

theorem digitChar_inj (hm : m < 16) (hn : n < 16) (h : m.digitChar = n.digitChar) : m = n := by
  have hall : ∀ m < 16, ∀ n < 16, m.digitChar = n.digitChar → m = n := by decide
  exact hall m hm n hn h

theorem toDigits_inj {b : Nat} (hb : 1 < b) (hb16 : b ≤ 16)
    (h : Nat.toDigits b m = Nat.toDigits b n) : m = n := by
  have hone : ∀ {k : Nat}, (Nat.toDigits b k).length = 1 ↔ k < b := by
    intro k
    constructor
    · intro hk
      by_contra hge
      rw [Nat.toDigits_of_base_le hb (not_lt.mp hge), List.length_append] at hk
      have hpos := Nat.length_toDigits_pos (b := b) (n := k / b)
      simp at hk
    · intro hk
      rw [Nat.toDigits_of_lt_base hk, List.length_singleton]
  induction m using Nat.strongRecOn generalizing n with
  | ind m ih =>
    have hsame : m < b ↔ n < b := by rw [← hone, ← hone, h]
    by_cases hm : m < b
    · have hn := hsame.mp hm
      rw [Nat.toDigits_of_lt_base hm, Nat.toDigits_of_lt_base hn] at h
      exact digitChar_inj (by omega) (by omega) (List.cons.inj h).1
    · have hn : ¬n < b := mt hsame.mpr hm
      rw [Nat.toDigits_of_base_le hb (not_lt.mp hm),
        Nat.toDigits_of_base_le hb (not_lt.mp hn)] at h
      obtain ⟨hinit, hlast⟩ := List.append_inj' h rfl
      have hmb := Nat.mod_lt m (by omega : 0 < b)
      have hnb := Nat.mod_lt n (by omega : 0 < b)
      have hdiv := ih (m / b) (Nat.div_lt_self (by omega) hb) hinit
      have hmod := digitChar_inj (by omega) (by omega) (List.cons.inj hlast).1
      rw [← Nat.div_add_mod m b, ← Nat.div_add_mod n b, hdiv, hmod]

/-- Numerals of one length are ordered as their numbers. -/
theorem toDigits_lt_iff (h : width m = width n) :
    Nat.toDigits 10 m < Nat.toDigits 10 n ↔ m < n := by
  induction m using Nat.strongRecOn generalizing n with
  | ind m ih =>
    have hten : 10 ≤ m ↔ 10 ≤ n := by
      rw [← one_lt_width_iff, ← one_lt_width_iff, h]
    by_cases hm : m < 10
    · have hn : n < 10 := by omega
      rw [Nat.toDigits_of_lt_base hm, Nat.toDigits_of_lt_base hn, List.cons_lt_cons_iff,
        digitChar_lt_iff hm hn]
      simp
    · have hwm := width_of_ge (not_lt.mp hm)
      have hn : 10 ≤ n := hten.mp (not_lt.mp hm)
      have hwn := width_of_ge hn
      have hw : width (m / 10) = width (n / 10) := by omega
      rw [toDigits_of_ge (not_lt.mp hm), toDigits_of_ge hn, append_lt_append_iff hw,
        ih _ (by omega) hw, List.cons_lt_cons_iff,
        digitChar_lt_iff (Nat.mod_lt m (by decide)) (Nat.mod_lt n (by decide))]
      have hinj : Nat.toDigits 10 (m / 10) = Nat.toDigits 10 (n / 10) ↔ m / 10 = n / 10 :=
        ⟨toDigits_inj (by decide) (by decide), fun he => he ▸ rfl⟩
      rw [hinj]
      simp only [List.not_lt_nil, and_false, or_false]
      omega

/-- The number that the leading digits of the longer numeral make has the shorter one's
length. -/
theorem width_leading (h : m ≤ n) : width (n / 10 ^ (width n - width m)) = width m := by
  have hle := width_mono h
  rw [width, ← take_toDigits (width_pos m) hle, List.length_take]
  exact Nat.min_eq_left hle

variable {c : Char} {x y : List Char}

/-- The smaller number comes first if it is below the leading digits of the greater one. -/
theorem marked_toDigits_lt_iff (h : m < n) (hc : ∀ q ∈ Nat.toDigits 10 n, q < c) :
    Nat.toDigits 10 m ++ c :: x < Nat.toDigits 10 n ++ c :: y ↔
      m < n / 10 ^ (width n - width m) := by
  have hle := width_mono h.le
  have hne : Nat.toDigits 10 m ≠ Nat.toDigits 10 n :=
    fun he => h.ne (toDigits_inj (by decide) (by decide) he)
  rw [marked_lt_iff hle hc hne, ← toDigits_lt_iff (width_leading h.le).symm,
    ← take_toDigits (width_pos m) hle]
  rfl

/-- The greater number comes first if its leading digits are not above the smaller one. -/
theorem lt_marked_toDigits_iff (h : m < n) (hc : ∀ q ∈ Nat.toDigits 10 n, q < c) :
    Nat.toDigits 10 n ++ c :: x < Nat.toDigits 10 m ++ c :: y ↔
      n / 10 ^ (width n - width m) ≤ m := by
  have hle := width_mono h.le
  have hne : Nat.toDigits 10 m ≠ Nat.toDigits 10 n :=
    fun he => h.ne (toDigits_inj (by decide) (by decide) he)
  have htake : (Nat.toDigits 10 n).take (Nat.toDigits 10 m).length =
      Nat.toDigits 10 (n / 10 ^ (width n - width m)) := take_toDigits (width_pos m) hle
  rw [lt_marked_iff hle hc hne, htake, toDigits_lt_iff (width_leading h.le), le_iff_lt_or_eq]
  refine or_congr_right ⟨fun he => toDigits_inj (by decide) (by decide) he.1,
    fun he => ⟨by rw [he], ?_⟩⟩
  -- with as many digits, the leading ones would be the number itself
  refine lt_of_le_of_ne hle fun hw => ?_
  have hw : width m = width n := hw
  rw [hw, Nat.sub_self, Nat.pow_zero, Nat.div_one] at he
  exact h.ne' he

end Digits
end Leibrix.Numerals

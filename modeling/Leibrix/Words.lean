import Mathlib.Data.Int.Basic
import Mathlib.Data.Int.ModEq

/-! Signed 64-bit words as integers modulo 2⁶⁴. -/
namespace Leibrix.Words

theorem ofInt_add_mul (n k : Int) :
    Int64.ofInt (n + 18446744073709551616 * k) = Int64.ofInt n := by
  rw [← Int64.toInt_inj, Int64.toInt_ofInt, Int64.toInt_ofInt]
  exact Int.add_mul_bmod_self_left n 18446744073709551616 k

/-- The value of a word and what it was made from differ by a multiple of 2⁶⁴. -/
theorem toInt_ofInt_spec (n : Int) :
    (∃ k, (Int64.ofInt n).toInt = n + 18446744073709551616 * k) ∧
      -9223372036854775808 ≤ (Int64.ofInt n).toInt ∧
      (Int64.ofInt n).toInt < 9223372036854775808 := by
  refine ⟨⟨-n.bdiv 18446744073709551616, ?_⟩, Int64.le_toInt _, Int64.toInt_lt _⟩
  have h := Int.bmod_add_bdiv n 18446744073709551616
  rw [Int64.toInt_ofInt, show Int64.size = 18446744073709551616 from rfl]
  omega

theorem toInt_ofInt_of_mem {n : Int} (h0 : -9223372036854775808 ≤ n)
    (h1 : n < 9223372036854775808) : (Int64.ofInt n).toInt = n :=
  Int64.toInt_ofInt_of_le h0 h1

end Leibrix.Words

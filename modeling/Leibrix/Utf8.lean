import Leibrix.Numerals
import Mathlib.Data.String.Basic

/-! Texts as the bytes of their UTF-8 encoding. -/
namespace Leibrix.Utf8

theorem toList_loop (bytes : ByteArray) (i : Nat) (r : List UInt8) :
    ByteArray.toList.loop bytes i r = r.reverse ++ bytes.data.toList.drop i := by
  fun_induction ByteArray.toList.loop bytes i r with
  | case1 i r h ih =>
    have hi : bytes.get! i = bytes.data[i] := by simp [ByteArray.get!, getElem!_pos, h]
    have hget : bytes.data.toList.drop i = bytes.get! i :: bytes.data.toList.drop (i + 1) := by
      rw [List.drop_eq_getElem_cons (by simpa using h), hi, Array.getElem_toList]
    rw [ih, hget]
    simp
  | case2 i r h =>
    have hlen : bytes.data.toList.length ≤ i := by simpa using h
    simp [List.drop_eq_nil_of_le hlen]

theorem toUTF8_toList_inj {s s' : String} : s.toUTF8.toList = s'.toUTF8.toList ↔ s = s' := by
  constructor
  · intro h
    have hdata : s.toByteArray.data.toList = s'.toByteArray.data.toList := by
      simpa [ByteArray.toList, toList_loop] using h
    exact String.toByteArray_inj.mp (ByteArray.ext (Array.toList_inj.mp hdata))
  · rintro rfl
    rfl

-- Byte-wise lexicographic order.
def BytesLt (s t : String) : Prop := s.toUTF8.toList < t.toUTF8.toList

def Ascii (s : String) : Prop := ∀ c ∈ s.toList, c.toNat ≤ 127

variable {s t : String}

theorem toUTF8_of_ascii (h : Ascii s) :
    s.toUTF8.toList = s.toList.map fun c => UInt8.ofNat c.toNat := by
  have hbytes : s.toUTF8.toList = s.toList.flatMap String.utf8EncodeChar := by
    rw [String.toUTF8, ← String.utf8Encode_toList, List.utf8Encode]
    simp [ByteArray.toList, toList_loop]
  rw [hbytes, List.map_eq_flatMap]
  refine List.flatMap_congr fun c hc => ?_
  have hle := h c hc
  rw [String.utf8EncodeChar.eq_def]
  simp [hle]

theorem bytesLt_iff (hs : Ascii s) (ht : Ascii t) : BytesLt s t ↔ s.toList < t.toList := by
  rw [BytesLt, toUTF8_of_ascii hs, toUTF8_of_ascii ht]
  refine Numerals.map_lt_iff_on (fun c : Char => UInt8.ofNat c.toNat) (fun c => c.toNat ≤ 127)
    UInt8.lt_irrefl (fun p q hp hq => ?_) hs ht
  have hbyte : ∀ c : Char, c.toNat ≤ 127 → (UInt8.ofNat c.toNat).toNat = c.toNat := by
    intro c hc
    rw [UInt8.toNat_ofNat']
    omega
  rw [UInt8.lt_iff_toNat_lt, hbyte p hp, hbyte q hq, Char.lt_def, UInt32.lt_iff_toNat_lt]
  rfl

theorem ascii_append (hs : Ascii s) (ht : Ascii t) : Ascii (s ++ t) := by
  intro c hc
  rw [String.toList_append, List.mem_append] at hc
  exact hc.elim (hs c) (ht c)

end Leibrix.Utf8

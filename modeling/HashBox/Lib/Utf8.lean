import Mathlib.Data.String.Basic

/-!
# Texts as bytes

A text has at most as many characters as bytes, and a prefix of its bytes is a text exactly where it
ends between two characters.
-/

namespace Utf8

theorem length_le_utf8ByteSize (s : String) : s.length ≤ s.utf8ByteSize := by
  rw [← String.ofList_toList (s := s)]
  induction s.toList with
  | nil => exact Nat.zero_le _
  | cons c chars ih =>
    rw [String.ofList_cons, String.length_append, String.utf8ByteSize_append,
      String.length_singleton, String.utf8ByteSize_singleton]
    exact Nat.add_le_add c.utf8Size_pos ih

/-- **The texts that the bytes of a prefix are.** -/
theorem extract_eq_toUTF8 {value s : String} {max : Nat} (h : max ≤ value.utf8ByteSize) :
    value.toUTF8.extract 0 max = s.toUTF8 ↔
      ∃ t : String, value = s ++ t ∧ s.utf8ByteSize = max := by
  constructor
  · intro hs
    have hvalid : (⟨max⟩ : String.Pos.Raw).IsValid value :=
      String.Pos.Raw.isValid_iff_isValidUTF8_extract_zero.2 ⟨h, hs ▸ s.isValidUTF8⟩
    obtain ⟨s', t, rfl, hmax⟩ := String.Pos.Raw.isValid_iff_exists_append.1 hvalid
    have hsize : s'.utf8ByteSize = max := (congrArg String.Pos.Raw.byteIdx hmax).symm
    have hs' : s'.toUTF8 = s.toUTF8 := by
      rw [← hs]
      simp [← hsize, ByteArray.extract_append_eq_left]
    exact ⟨t, by rw [String.toByteArray_inj.1 hs'], String.toByteArray_inj.1 hs' ▸ hsize⟩
  · rintro ⟨t, rfl, rfl⟩
    simp [ByteArray.extract_append_eq_left]

end Utf8

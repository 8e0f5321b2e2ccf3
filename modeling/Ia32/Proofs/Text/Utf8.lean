import Mathlib
import Ia32.Text.Utf8

/-!
# UTF-8 bytes are read back

The bytes of a text are those of its characters, one character after another, and strict
reading gives the text back. Only the zero character has a zero byte, so cutting the bytes at
the first zero byte cuts the text at its first zero character.
-/

namespace Ia32

theorem utf8Bytes_eq_flatMap (s : String) :
    utf8Bytes s = s.toList.flatMap String.utf8EncodeChar := by
  rw [utf8Bytes, String.toUTF8_eq_toByteArray, ← String.utf8Encode_toList, List.utf8Encode,
    List.toList_data_toByteArray]

theorem utf8Bytes_ofList (s : List Char) :
    utf8Bytes (String.ofList s) = s.flatMap String.utf8EncodeChar := by
  rw [utf8Bytes_eq_flatMap, String.toList_ofList]

theorem utf8Bytes_eq_nil_iff (s : String) : utf8Bytes s = [] ↔ s = "" := by
  rw [utf8Bytes_eq_flatMap, List.flatMap_eq_nil_iff, ← String.toList_eq_nil_iff,
    List.eq_nil_iff_forall_not_mem]
  exact forall_congr' fun c => imp_congr_right fun _ => iff_of_false String.utf8EncodeChar_ne_nil id

/-- A text is read back from its bytes. -/
theorem Text.ofUtf8?_utf8Bytes (s : String) : Text.ofUtf8? (utf8Bytes s) = some s := by
  have hbytes : (⟨(utf8Bytes s).toArray⟩ : ByteArray) = s.toByteArray := rfl
  unfold Text.ofUtf8? String.fromUTF8?
  rw [hbytes, dif_pos s.isValidUTF8]
  rfl

/-- Well-formed bytes are those of the text that they are read as. -/
theorem Text.utf8Bytes_of_ofUtf8? {bytes : Bytes} {s : String} (h : Text.ofUtf8? bytes = some s) :
    utf8Bytes s = bytes := by
  unfold Text.ofUtf8? String.fromUTF8? at h
  split at h
  · cases h
    rfl
  · cases h

/-! ### Zero bytes -/

theorem UInt8.ofNat_ne_zero {n : Nat} (h : n % 256 ≠ 0) : UInt8.ofNat n ≠ 0 := by
  intro hzero
  have hnat := congrArg UInt8.toNat hzero
  rw [UInt8.toNat_ofNat'] at hnat
  exact h hnat

/-- A character that is not zero has no zero byte. -/
theorem ne_zero_of_mem_utf8EncodeChar {c : Char} (h : c ≠ '\x00') {b : UInt8}
    (hb : b ∈ String.utf8EncodeChar c) : b ≠ 0 := by
  have hpos : c.val.toNat ≠ 0 := fun hzero => h (Char.ext (UInt32.toNat_inj.mp hzero))
  have hmax : c.val.toNat < 0x110000 := by
    rcases c.valid with hlow | ⟨-, hhigh⟩
    · exact Nat.lt_trans hlow (by decide)
    · exact hhigh
  unfold String.utf8EncodeChar at hb
  dsimp only at hb
  split at hb
  case isTrue hone =>
    rw [List.mem_singleton.mp hb]
    exact UInt8.ofNat_ne_zero (by omega)
  case isFalse =>
    -- every byte of a longer form has its highest bit set
    split at hb
    · simp only [List.mem_cons, List.not_mem_nil, or_false] at hb
      rcases hb with rfl | rfl <;> exact UInt8.ofNat_ne_zero (by omega)
    · split at hb
      · simp only [List.mem_cons, List.not_mem_nil, or_false] at hb
        rcases hb with rfl | rfl | rfl <;> exact UInt8.ofNat_ne_zero (by omega)
      · simp only [List.mem_cons, List.not_mem_nil, or_false] at hb
        rcases hb with rfl | rfl | rfl | rfl <;> exact UInt8.ofNat_ne_zero (by omega)

/-- The part of a text in front of its first zero character. -/
def Text.beforeZero (s : String) : String :=
  String.ofList (s.toList.takeWhile (· != '\x00'))

theorem Text.beforeZero_eq_self_iff (s : String) :
    Text.beforeZero s = s ↔ '\x00' ∉ s.toList := by
  rw [Text.beforeZero, ← String.toList_inj, String.toList_ofList,
    List.takeWhile_eq_self_iff]
  constructor
  · intro h hmem
    simpa using h _ hmem
  · intro h c hc
    rw [bne_iff_ne]
    rintro rfl
    exact h hc

/-- The bytes in front of the first zero byte are those in front of the first zero character,
also when the text is filled up with zeros. -/
theorem takeWhile_utf8Bytes (s : String) (zeros : Nat) :
    (utf8Bytes s ++ List.replicate zeros 0).takeWhile (· != 0) = utf8Bytes (Text.beforeZero s) := by
  rw [Text.beforeZero, utf8Bytes_ofList, utf8Bytes_eq_flatMap]
  induction s.toList with
  | nil => cases zeros <;> rfl
  | cons c chars ih =>
      by_cases hc : c = '\x00'
      · subst hc
        rfl
      · have hbytes : ∀ b ∈ String.utf8EncodeChar c, (b != 0) = true := fun b hb =>
          bne_iff_ne.mpr (ne_zero_of_mem_utf8EncodeChar hc hb)
        rw [List.takeWhile_cons_of_pos (by simpa using hc), List.flatMap_cons, List.flatMap_cons,
          List.append_assoc, List.takeWhile_append_of_pos hbytes, ih]

end Ia32

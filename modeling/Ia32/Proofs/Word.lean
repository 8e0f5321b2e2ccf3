import Mathlib
import Ia32.Word

/-!
# Words, bytes and two's complement

A word and its four bytes determine each other, and so do a word and the number
it stands for in two's complement. A number outside that range comes back as the
number in the range that has the same 32 bits.
-/

namespace Ia32

theorem toNat_byteOfInt (v : Int) : (byteOfInt v).toNat = (v % 256).toNat := by
  unfold byteOfInt
  rw [UInt8.toNat_ofNat']
  omega

/-- A number that fits a byte survives the byte. -/
theorem signedByte_byteOfInt {v : Int} (hlow : -128 ≤ v) (hhigh : v ≤ 127) :
    signedByte (byteOfInt v) = v := by
  unfold signedByte
  rw [toNat_byteOfInt]
  split <;> omega

namespace Word

theorem toNat_ofInt (v : Int) : (ofInt v).toNat = (v % 4294967296).toNat := by
  unfold ofInt
  rw [UInt32.toNat_ofNat']
  omega

@[simp]
theorem ofInt_natCast (n : Nat) : ofInt n = UInt32.ofNat n := by
  apply UInt32.toNat_inj.mp
  rw [toNat_ofInt, UInt32.toNat_ofNat']
  omega

/-- The number that a 32-bit field holding `v` is read back as. -/
def wrap (v : Int) : Int :=
  if v < 2147483648 then v else v - 4294967296

theorem toSigned_ofInt {v : Int} (hlow : -2147483648 ≤ v) (hhigh : v ≤ 4294967295) :
    toSigned (ofInt v) = wrap v := by
  unfold toSigned wrap
  rw [toNat_ofInt]
  split <;> split <;> omega

@[simp]
theorem ofInt_toSigned (w : UInt32) : ofInt (toSigned w) = w := by
  apply UInt32.toNat_inj.mp
  rw [toNat_ofInt]
  have hlt := w.toNat_lt
  unfold toSigned
  split <;> omega

@[simp]
theorem ofInt_wrap (v : Int) : ofInt (wrap v) = ofInt v := by
  apply UInt32.toNat_inj.mp
  rw [toNat_ofInt, toNat_ofInt]
  unfold wrap
  split <;> omega

@[simp]
theorem length_toBytes (w : UInt32) : (toBytes w).length = 4 := rfl

/-- The bytes of a word, low byte first, give the word back. -/
theorem ofBytes_toBytes (w : UInt32) :
    ofBytes (UInt8.ofNat (w.toNat % 256)) (UInt8.ofNat (w.toNat / 256 % 256))
      (UInt8.ofNat (w.toNat / 65536 % 256)) (UInt8.ofNat (w.toNat / 16777216 % 256)) = w := by
  apply UInt32.toNat_inj.mp
  have hlt := w.toNat_lt
  simp only [ofBytes, UInt8.toNat_ofNat', UInt32.toNat_ofNat']
  omega

end Word

end Ia32

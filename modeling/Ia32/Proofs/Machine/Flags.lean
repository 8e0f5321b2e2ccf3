import Ia32.Machine.State
import Ia32.Proofs.Word

/-!
# Flags and the order of words

The sign of a result alone does not tell which of two words is smaller, because a difference may
leave the range of two's complement numbers. It does together with the overflow flag, which is
set exactly then. So every conditional jump behind a comparison asks for an order of numbers.
-/

namespace Ia32

namespace Word

theorem toSigned_bounds (w : UInt32) : -2147483648 ≤ toSigned w ∧ toSigned w < 2147483648 := by
  have hlt := w.toNat_lt
  unfold toSigned
  split <;> omega

/-- A word is determined by its signed value. -/
theorem toSigned_inj {a b : UInt32} (h : toSigned a = toSigned b) : a = b := by
  rw [← ofInt_toSigned a, h, ofInt_toSigned]

/-- A sum of words is the sum of their numbers, up to the numbers that a word stands for. -/
theorem toSigned_add (a b : UInt32) :
    ∃ k : Int, toSigned (a + b) = toSigned a + toSigned b + 4294967296 * k := by
  have ha := a.toNat_lt
  have hb := b.toNat_lt
  have hsum : (a + b).toNat = (a.toNat + b.toNat) % 4294967296 := UInt32.toNat_add a b
  refine ⟨(toSigned (a + b) - toSigned a - toSigned b) / 4294967296, ?_⟩
  unfold toSigned
  split <;> split <;> split <;> omega

/-- The same for a difference. -/
theorem toSigned_sub (a b : UInt32) :
    ∃ k : Int, toSigned (a - b) = toSigned a - toSigned b + 4294967296 * k := by
  obtain ⟨k, hk⟩ := toSigned_add (a - b) b
  rw [UInt32.sub_add_cancel] at hk
  exact ⟨-k, by omega⟩

/-- Whether a number has a two's complement form of 32 bits. -/
def Fits (v : Int) : Prop :=
  -2147483648 ≤ v ∧ v < 2147483648

end Word

open Word

/-- What a conditional jump asks of the two words that were compared. -/
def Mnemonic.Asks (op : Mnemonic) (a b : UInt32) : Prop :=
  match op with
  | .je => a = b
  | .jne => a ≠ b
  | .jl => toSigned a < toSigned b
  | .jge => toSigned a ≥ toSigned b
  | .jle => toSigned a ≤ toSigned b
  | .jg => toSigned a > toSigned b
  | _ => True

namespace Flags

/-! ### Signs -/

theorem isNegative_iff (w : UInt32) : isNegative w = true ↔ toSigned w < 0 := by
  have hlt := w.toNat_lt
  rw [isNegative, decide_eq_true_iff]
  unfold toSigned
  split <;> omega

/-- The sign is the highest bit. -/
theorem isNegative_eq_testBit (w : UInt32) : isNegative w = w.toNat.testBit 31 := by
  have hlt := w.toNat_lt
  rw [isNegative, Nat.testBit_eq_decide_div_mod_eq]
  apply decide_eq_decide.mpr
  omega

theorem isNegative_xor (a b : UInt32) : isNegative (a ^^^ b) = (isNegative a ^^ isNegative b) := by
  simp only [isNegative_eq_testBit, UInt32.toNat_xor, Nat.testBit_xor]

theorem isNegative_and (a b : UInt32) : isNegative (a &&& b) = (isNegative a && isNegative b) := by
  simp only [isNegative_eq_testBit, UInt32.toNat_and, Nat.testBit_and]

theorem isNegative_not (a : UInt32) : isNegative (~~~a) = !isNegative a := by
  have hlt := a.toNat_lt
  have hnot : (~~~a).toNat = 4294967295 - a.toNat := UInt32.toNat_not a
  rw [isNegative, isNegative, hnot, ← decide_not]
  apply decide_eq_decide.mpr
  omega

theorem xor_eq_true_iff {x y : Bool} {p q : Prop} (hx : x = true ↔ p) (hy : y = true ↔ q) :
    (x ^^ y) = true ↔ ¬(p ↔ q) := by
  rw [← hx, ← hy]
  cases x <;> cases y <;> decide

/-! ### Differences -/

/-- A difference overflows exactly if it is no number of 32 bits. -/
theorem sub_overflow_iff (a b : UInt32) :
    (sub a b).2.overflow = true ↔ ¬Fits (toSigned a - toSigned b) := by
  have hsigns : (sub a b).2.overflow =
      ((isNegative a ^^ isNegative b) && (isNegative a ^^ isNegative (a - b))) := by
    rw [← isNegative_xor, ← isNegative_xor, ← isNegative_and]
    rfl
  have ha := toSigned_bounds a
  have hb := toSigned_bounds b
  have hd := toSigned_bounds (a - b)
  obtain ⟨k, hk⟩ := toSigned_sub a b
  rw [hsigns, Bool.and_eq_true, xor_eq_true_iff (isNegative_iff a) (isNegative_iff b),
    xor_eq_true_iff (isNegative_iff a) (isNegative_iff _), Fits]
  omega

/-- The sign flag of a difference is the sign of the word, which may have overflowed. -/
theorem sub_sign_iff (a b : UInt32) : (sub a b).2.sign = true ↔ toSigned (a - b) < 0 :=
  isNegative_iff (a - b)

/-- The zero flag of a difference tells whether the words are equal. -/
theorem sub_zero_iff (a b : UInt32) : (sub a b).2.zero = true ↔ a = b := by
  change (a - b == 0) = true ↔ a = b
  rw [beq_iff_eq]
  constructor
  · intro h
    have hback := UInt32.sub_add_cancel a b
    rw [h, UInt32.zero_add] at hback
    exact hback.symm
  · rintro rfl
    exact UInt32.sub_self a

/-- The carry flag of a difference tells whether the first word is below the second one, without
signs. -/
theorem sub_carry_iff (a b : UInt32) : (sub a b).2.carry = true ↔ a.toNat < b.toNat := by
  change decide (a < b) = true ↔ _
  rw [decide_eq_true_iff, UInt32.lt_iff_toNat_lt]

/-- The sign of a difference is turned around exactly if it overflows. -/
theorem sub_signs_iff (a b : UInt32) :
    ((sub a b).2.sign != (sub a b).2.overflow) = true ↔ toSigned a < toSigned b := by
  have ha := toSigned_bounds a
  have hb := toSigned_bounds b
  have hd := toSigned_bounds (a - b)
  obtain ⟨k, hk⟩ := toSigned_sub a b
  change ((sub a b).2.sign ^^ (sub a b).2.overflow) = true ↔ _
  rw [xor_eq_true_iff (sub_sign_iff a b) (sub_overflow_iff a b), Fits]
  omega

/-- Behind a difference of two words a conditional jump is taken exactly if they are in the order
that it asks for. -/
theorem holds_sub_iff (op : Mnemonic) (a b : UInt32) :
    (sub a b).2.holds op = true ↔ op.Asks a b := by
  have hzero := sub_zero_iff a b
  have hsigns := sub_signs_iff a b
  have hsame : ((sub a b).2.sign == (sub a b).2.overflow) = true ↔ ¬toSigned a < toSigned b := by
    rw [← hsigns]
    cases (sub a b).2.sign <;> cases (sub a b).2.overflow <;> decide
  have hequal : a = b ↔ toSigned a = toSigned b := ⟨congrArg toSigned, toSigned_inj⟩
  cases op
  case je => exact hzero
  case jne =>
    rw [holds, Mnemonic.Asks, ne_eq, ← hzero, Bool.not_eq_true', Bool.not_eq_true]
  case jl => exact hsigns
  case jge =>
    rw [holds, Mnemonic.Asks, hsame]
    omega
  case jle =>
    rw [holds, Mnemonic.Asks, Bool.or_eq_true, hzero, hsigns, hequal]
    omega
  case jg =>
    rw [holds, Mnemonic.Asks, Bool.and_eq_true, hsame, Bool.not_eq_true', ← Bool.not_eq_true, hzero,
      hequal]
    omega
  all_goals exact iff_of_true rfl trivial

/-! ### Sums -/

/-- A sum overflows exactly if it is no number of 32 bits. -/
theorem add_overflow_iff (a b : UInt32) :
    (add a b).2.overflow = true ↔ ¬Fits (toSigned a + toSigned b) := by
  have hsigns : (add a b).2.overflow =
      (!(isNegative a ^^ isNegative b) && (isNegative a ^^ isNegative (a + b))) := by
    rw [← isNegative_xor, ← isNegative_xor, ← isNegative_not, ← isNegative_and]
    rfl
  have ha := toSigned_bounds a
  have hb := toSigned_bounds b
  have hs := toSigned_bounds (a + b)
  obtain ⟨k, hk⟩ := toSigned_add a b
  rw [hsigns, Bool.and_eq_true, Bool.not_eq_true', ← Bool.not_eq_true,
    xor_eq_true_iff (isNegative_iff a) (isNegative_iff b),
    xor_eq_true_iff (isNegative_iff a) (isNegative_iff _), Fits]
  omega

/-- The carry flag of a sum tells whether it goes past the highest word. -/
theorem add_carry_iff (a b : UInt32) :
    (add a b).2.carry = true ↔ 4294967296 ≤ a.toNat + b.toNat := by
  have ha := a.toNat_lt
  have hb := b.toNat_lt
  have hsum : (a + b).toNat = (a.toNat + b.toNat) % 4294967296 := UInt32.toNat_add a b
  change decide (a + b < a) = true ↔ _
  rw [decide_eq_true_iff, UInt32.lt_iff_toNat_lt]
  omega

/-- The sign flag of a sum is the sign of the word. -/
theorem add_sign_iff (a b : UInt32) : (add a b).2.sign = true ↔ toSigned (a + b) < 0 :=
  isNegative_iff (a + b)

/-- The zero flag of a sum tells whether the word is zero. -/
theorem add_zero_iff (a b : UInt32) : (add a b).2.zero = true ↔ a + b = 0 :=
  beq_iff_eq

end Flags

end Ia32

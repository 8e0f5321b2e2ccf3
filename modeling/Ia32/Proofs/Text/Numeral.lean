import Mathlib
import Ia32.Text.Numeral

/-!
# What numerals stand for

A numeral of a base is a run of one or more digits, of which the last one counts the ones. The
letters of both cases are digits. A text is read as a number exactly if it is a numeral of that
number, for every base up to sixteen.
-/

namespace Ia32.Text

variable {base : Nat}

/-- A character is a digit of a base with a value: the usual one, with letters in either case. -/
def IsDigit (base : Nat) (c : Char) (d : Nat) : Prop :=
  d < base ∧ (c = Nat.digitChar d ∨ c = (Nat.digitChar d).toUpper)

/-- A text is a numeral of a number in a base. -/
inductive Numeral (base : Nat) : List Char → Nat → Prop
  | one {c : Char} {d : Nat} (hd : IsDigit base c d) : Numeral base [c] d
  | snoc {s : List Char} {n : Nat} {c : Char} {d : Nat} (h : Numeral base s n)
      (hd : IsDigit base c d) : Numeral base (s ++ [c]) (base * n + d)

/-! ### Digits -/

/-- The value of a digit does not depend on the base, which only bounds it. -/
theorem digit?_iff_sixteen (hbase : base ≤ 16) {c : Char} {d : Nat} :
    digit? base c = some d ↔ d < base ∧ digit? 16 c = some d := by
  simp only [digit?, Option.ite_none_right_eq_some, Option.some.injEq]
  split
  · omega
  split
  · omega
  split <;> omega

theorem toNat_lt_of_digit? {c : Char} {d : Nat} (h : digit? 16 c = some d) : c.toNat < 128 := by
  have hle (a b : Char) : a ≤ b ↔ a.toNat ≤ b.toNat := by
    rw [Char.le_def, UInt32.le_iff_toNat_le]
    rfl
  simp only [digit?, hle, Char.reduceToNat, Option.ite_none_right_eq_some] at h
  obtain ⟨hlt, -⟩ := h
  split at hlt
  · omega
  split at hlt
  · omega
  split at hlt <;> omega

/-- The digits of a base are the characters that are read as one. -/
theorem digit?_eq_some_iff (hbase : base ≤ 16) {c : Char} {d : Nat} :
    digit? base c = some d ↔ IsDigit base c d := by
  have hread : ∀ n < 128, ∀ d < 16, digit? 16 (Char.ofNat n) = some d →
      Char.ofNat n = Nat.digitChar d ∨ Char.ofNat n = (Nat.digitChar d).toUpper := by decide +kernel
  have hwritten : ∀ d < 16, digit? 16 (Nat.digitChar d) = some d ∧
      digit? 16 (Nat.digitChar d).toUpper = some d := by decide
  rw [digit?_iff_sixteen hbase, IsDigit]
  refine and_congr_right fun hlt => ?_
  have hd : d < 16 := Nat.lt_of_lt_of_le hlt hbase
  constructor
  · intro h
    have hdigit := hread c.toNat (toNat_lt_of_digit? h) d hd
    rw [Char.ofNat_toNat] at hdigit
    exact hdigit h
  · rintro (rfl | rfl)
    · exact (hwritten d hd).1
    · exact (hwritten d hd).2

/-! ### Runs of digits -/

theorem digitsOnto?_append (value : Nat) (s t : List Char) :
    digitsOnto? base value (s ++ t) = (digitsOnto? base value s).bind (digitsOnto? base · t) := by
  induction s generalizing value with
  | nil => rfl
  | cons c s ih =>
      rw [List.cons_append, digitsOnto?, digitsOnto?]
      cases digit? base c with
      | none => rfl
      | some d => exact ih _

theorem natural?_snoc {s : List Char} (hs : s ≠ []) (c : Char) :
    natural? base (s ++ [c]) =
      (natural? base s).bind fun n => (digit? base c).map fun d => base * n + d := by
  have hnatural {t : List Char} (ht : t ≠ []) : natural? base t = digitsOnto? base 0 t := by
    cases t with
    | nil => exact absurd rfl ht
    | cons c t => rfl
  rw [hnatural hs, hnatural (List.append_ne_nil_of_left_ne_nil hs [c]), digitsOnto?_append]
  congr 1
  funext n
  rw [digitsOnto?]
  cases digit? base c <;> rfl

theorem natural?_singleton (c : Char) : natural? base [c] = digit? base c := by
  change digitsOnto? base 0 [c] = digit? base c
  rw [digitsOnto?]
  cases digit? base c with
  | none => rfl
  | some d => simp [digitsOnto?]

/-- What is read as a number is a numeral of it. -/
theorem numeral_of_natural? (hbase : base ≤ 16) {s : List Char} {n : Nat}
    (h : natural? base s = some n) : Numeral base s n := by
  induction s using List.reverseRecOn generalizing n with
  | nil => cases h
  | append_singleton s c ih =>
      by_cases hs : s = []
      · subst hs
        rw [List.nil_append, natural?_singleton] at h
        exact .one ((digit?_eq_some_iff hbase).mp h)
      · rw [natural?_snoc hs] at h
        obtain ⟨m, hm, h⟩ := Option.bind_eq_some_iff.mp h
        obtain ⟨d, hd, rfl⟩ := Option.map_eq_some_iff.mp h
        exact (ih hm).snoc ((digit?_eq_some_iff hbase).mp hd)

theorem Numeral.ne_nil {s : List Char} {n : Nat} (h : Numeral base s n) : s ≠ [] := by
  cases h <;> simp

/-- A numeral is read as its number. -/
theorem Numeral.natural? (hbase : base ≤ 16) {s : List Char} {n : Nat} (h : Numeral base s n) :
    natural? base s = some n := by
  induction h with
  | one hd => rw [natural?_singleton, (digit?_eq_some_iff hbase).mpr hd]
  | snoc h hd ih =>
      rw [natural?_snoc h.ne_nil, ih, (digit?_eq_some_iff hbase).mpr hd]
      rfl

/-- A text is read as a number exactly if it is a numeral of the number. -/
theorem natural?_eq_some_iff (hbase : base ≤ 16) {s : List Char} {n : Nat} :
    natural? base s = some n ↔ Numeral base s n :=
  ⟨numeral_of_natural? hbase, Numeral.natural? hbase⟩

theorem Numeral.isDigit {s : List Char} {n : Nat} (h : Numeral base s n) :
    ∀ c ∈ s, ∃ d, IsDigit base c d := by
  induction h with
  | one hd =>
      intro c hc
      rw [List.mem_singleton.mp hc]
      exact ⟨_, hd⟩
  | snoc h hd ih =>
      intro c hc
      rcases List.mem_append.mp hc with hc | hc
      · exact ih c hc
      · rw [List.mem_singleton.mp hc]
        exact ⟨_, hd⟩

/-- Decimal numerals have no letters. -/
theorem Numeral.isDecimal {s : List Char} {n : Nat} (h : Numeral 10 s n) :
    ∀ c ∈ s, c.isDigit = true := by
  have hdigits : ∀ d < 10, (Nat.digitChar d).isDigit = true ∧
      (Nat.digitChar d).toUpper.isDigit = true := by decide
  intro c hc
  obtain ⟨d, hd, rfl | rfl⟩ := h.isDigit c hc
  · exact (hdigits d hd).1
  · exact (hdigits d hd).2

/-- The numeral that is written for a number. -/
theorem numeral_toDigits (hbase : 1 < base) (n : Nat) : Numeral base (Nat.toDigits base n) n := by
  induction n using Nat.strongRecOn with
  | ind n ih =>
      rcases Nat.lt_or_ge n base with hn | hn
      · rw [Nat.toDigits_of_lt_base hn]
        exact .one ⟨hn, .inl rfl⟩
      · have hpos : 0 < n / base := Nat.div_pos hn (by omega)
        have hmod : n % base < base := Nat.mod_lt n (by omega)
        have hrest := ih (n / base) (Nat.div_lt_self (by omega) hbase)
        rw [← Nat.div_add_mod n base, ← Nat.toDigits_append_toDigits hbase hpos hmod,
          Nat.toDigits_of_lt_base hmod]
        exact hrest.snoc ⟨hmod, .inl rfl⟩

end Ia32.Text

import Mathlib
import Ia32.Text.Blank
import Ia32.Text.Lines
import Ia32.Text.Numeral

/-!
# Reading written text

Lines, trimming and decimal numerals: reading gives back what was written.
-/

namespace Ia32.Text

/-! ### Lines -/

/-- A character that ends no line belongs to the first one. -/
theorem lines_cons {c : Char} {rest line : List Char} {others : List (List Char)}
    (hfeed : c ≠ '\n') (hreturn : c ≠ '\r') (h : lines rest = line :: others) :
    lines (c :: rest) = (c :: line) :: others := by
  rw [lines.eq_4 c rest hfeed fun _ heq _ => hreturn heq, h]

/-- A text without line ends is the first line of what it starts. -/
theorem lines_append {line : List Char} (rest : List Char)
    (h : ∀ c ∈ line, c ≠ '\n' ∧ c ≠ '\r') : lines (line ++ '\n' :: rest) = line :: lines rest := by
  induction line with
  | nil => rw [List.nil_append, lines]
  | cons c line ih =>
      obtain ⟨hfeed, hreturn⟩ := h c List.mem_cons_self
      exact lines_cons hfeed hreturn (ih fun d hd => h d (List.mem_cons_of_mem c hd))

/-! ### Trimming -/

theorem trimStart_eq_self {s : List Char} (h : ∀ c ∈ s.head?, isBlank c = false) :
    trimStart s = s := by
  cases s with
  | nil => rfl
  | cons c rest => exact List.dropWhile_cons_of_neg (by simpa using h c rfl)

theorem trimEnd_eq_self {s : List Char} (h : ∀ c ∈ s.getLast?, isBlank c = false) :
    trimEnd s = s := by
  have hreverse : trimStart s.reverse = s.reverse :=
    trimStart_eq_self fun c hc => h c (by simpa using hc)
  rw [trimEnd, ← trimStart, hreverse, List.reverse_reverse]

/-- Text that neither starts nor ends with a blank. -/
structure Trimmed (s : List Char) : Prop where
  first : ∀ c ∈ s.head?, isBlank c = false
  last : ∀ c ∈ s.getLast?, isBlank c = false

/-- Trimmed text stays as it is. -/
theorem Trimmed.trim {s : List Char} (h : Trimmed s) : trim s = s := by
  rw [Text.trim, trimStart_eq_self h.first, trimEnd_eq_self h.last]

theorem trimmed_of_not_blank {s : List Char} (h : ∀ c ∈ s, isBlank c = false) : Trimmed s :=
  ⟨fun c hc => h c (List.mem_of_mem_head? hc), fun c hc => h c (List.mem_of_getLast? hc)⟩

/-- What stands between the ends does not matter. -/
theorem Trimmed.around {s t : List Char} (hs : Trimmed s) (hs' : s ≠ []) (middle : List Char)
    (ht : Trimmed t) (ht' : t ≠ []) : Trimmed (s ++ (middle ++ t)) := by
  constructor
  · intro c hc
    rw [List.head?_append, List.head?_eq_some_head hs', Option.some_or,
      ← List.head?_eq_some_head hs'] at hc
    exact hs.first c hc
  · intro c hc
    rw [List.getLast?_append, List.getLast?_append, List.getLast?_eq_some_getLast ht',
      Option.some_or, Option.some_or, ← List.getLast?_eq_some_getLast ht'] at hc
    exact ht.last c hc

theorem trim_cons_blank {c : Char} (s : List Char) (h : isBlank c = true) :
    trim (c :: s) = trim s := by
  rw [trim, trim, trimStart, List.dropWhile_cons_of_pos h, ← trimStart]

/-- Text of blanks only. -/
def Blanks (s : List Char) : Prop :=
  ∀ c ∈ s, isBlank c = true

theorem blanks_nil : Blanks [] := by
  simp [Blanks]

theorem Blanks.append {s t : List Char} (hs : Blanks s) (ht : Blanks t) : Blanks (s ++ t) := by
  intro c hc
  rcases List.mem_append.mp hc with hc | hc
  · exact hs c hc
  · exact ht c hc

/-- Blanks around a text are dropped. -/
theorem trim_around {before s after : List Char} (hbefore : Blanks before)
    (hs : Trimmed s) (hfull : s ≠ []) (hafter : Blanks after) :
    trim (before ++ (s ++ after)) = s := by
  have hfirst : trimStart (before ++ (s ++ after)) = s ++ after := by
    rw [trimStart, List.dropWhile_append_of_pos hbefore, ← trimStart]
    refine trimStart_eq_self fun c hc => hs.first c ?_
    rwa [List.head?_append_of_ne_nil _ hfull] at hc
  have hlast : trimEnd (s ++ after) = trimEnd s := by
    have hreverse : ∀ c ∈ after.reverse, isBlank c = true :=
      fun c hc => hafter c (List.mem_reverse.mp hc)
    rw [trimEnd, List.reverse_append, List.dropWhile_append_of_pos hreverse, trimEnd]
  rw [trim, hfirst, hlast, trimEnd_eq_self hs.last]

/-! ### Decimal numerals -/

theorem digit?_of_isDigit {c : Char} (h : c.isDigit = true) :
    digit? 10 c = some (c.toNat - '0'.toNat) := by
  have hrange : '0' ≤ c ∧ c ≤ '9' := by
    simpa [Char.isDigit, Char.le_def] using h
  have hle : c.toNat ≤ 57 := by
    simpa [Char.le_def, UInt32.le_iff_toNat_le] using hrange.2
  have hge : 48 ≤ c.toNat := by
    simpa [Char.le_def, UInt32.le_iff_toNat_le] using hrange.1
  rw [digit?, if_pos hrange]
  exact if_pos (show c.toNat - 48 < 10 by omega)

theorem digitsOnto?_of_isDigit {digits : List Char} (value : Nat)
    (h : ∀ c ∈ digits, c.isDigit = true) :
    digitsOnto? 10 value digits = some (Nat.ofDigitChars 10 digits value) := by
  induction digits generalizing value with
  | nil => simp [digitsOnto?]
  | cons c rest ih =>
      rw [digitsOnto?, digit?_of_isDigit (h c List.mem_cons_self), Nat.ofDigitChars_cons]
      exact ih _ fun d hd => h d (List.mem_cons_of_mem c hd)

theorem isDigit_of_mem_toDigits {n : Nat} {c : Char} (h : c ∈ Nat.toDigits 10 n) :
    c.isDigit = true :=
  Nat.isDigit_of_mem_toDigits (by decide) (by decide) h

/-- The decimal digits of a number are read as the number. -/
theorem natural?_toDigits (n : Nat) : natural? 10 (Nat.toDigits 10 n) = some n := by
  have hdigits := digitsOnto?_of_isDigit 0 fun c => isDigit_of_mem_toDigits (n := n) (c := c)
  rw [Nat.ofDigitChars_ten_toDigits] at hdigits
  cases hn : Nat.toDigits 10 n with
  | nil => exact absurd hn Nat.toDigits_ne_nil
  | cons c rest => rw [← hdigits, hn]; rfl

theorem integer?_toDigits (n : Nat) : integer? 10 (Nat.toDigits 10 n) = some (n : Int) := by
  have hnatural := natural?_toDigits n
  cases hn : Nat.toDigits 10 n with
  | nil => exact absurd hn Nat.toDigits_ne_nil
  | cons c rest =>
      have hc : c.isDigit = true := isDigit_of_mem_toDigits (n := n) (by simp [hn])
      rw [hn] at hnatural
      unfold integer?
      split
      case h_1 heq => cases heq; exact absurd hc (by decide)
      case h_2 heq => cases heq; exact absurd hc (by decide)
      case h_3 => rw [hnatural]; rfl

end Ia32.Text

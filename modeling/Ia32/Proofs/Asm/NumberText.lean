import Ia32.Asm.Number
import Ia32.Proofs.Text.Numeral

/-!
# What the numbers of assembly text spell

A number is a character in quotes, or a literal with an optional minus sign in front. Reading
follows this grammar except in two places: behind the mark of a base a second sign is taken for a
part of the digits, and the magnitude of a number must fit by itself, so that the least number
cannot be written. Where both meet, the negation overflows.
-/

namespace Ia32.Asm

/-- The letters that mark a base behind a zero. -/
def baseMarks : List (Char × Nat) :=
  [('x', 16), ('X', 16), ('o', 8), ('b', 2)]

/-- The least number of 64 bits in two's complement. -/
def leastNumber : Int := -9223372036854775808

/-- A text without its underscores. -/
def dropUnderscores (s : List Char) : List Char :=
  s.filter (· != '_')

/-- A literal without a sign: digits with any underscores among them. A decimal one starts with a
digit, others with a zero and the mark of their base. -/
inductive Literal : List Char → Nat → Prop
  | decimal {c : Char} {s : List Char} {n : Nat} (hc : c ≠ '_')
      (h : Text.Numeral 10 (dropUnderscores (c :: s)) n) : Literal (c :: s) n
  | marked {mark : Char} {base : Nat} {s : List Char} {n : Nat} (hmark : (mark, base) ∈ baseMarks)
      (h : Text.Numeral base (dropUnderscores s) n) : Literal ('0' :: mark :: s) n

/-- What a text spells by the grammar of numbers. -/
inductive Spells : List Char → Int → Prop
  | char {c : Char} (hc : c.toNat < 128) : Spells ['\'', c, '\''] c.toNat
  | plain {s : List Char} {n : Nat} (h : Literal s n) : Spells s n
  | minus {s : List Char} {n : Nat} (h : Literal s n) : Spells ('-' :: s) (-n)

/-- A literal with a sign behind the mark of its base, which the grammar does not have. -/
inductive SignedLiteral : List Char → Int → Prop
  | plus {mark : Char} {base : Nat} {s digits : List Char} {n : Nat}
      (hmark : (mark, base) ∈ baseMarks) (hs : dropUnderscores s = '+' :: digits)
      (h : Text.Numeral base digits n) : SignedLiteral ('0' :: mark :: s) n
  | minus {mark : Char} {base : Nat} {s digits : List Char} {n : Nat}
      (hmark : (mark, base) ∈ baseMarks) (hs : dropUnderscores s = '-' :: digits)
      (h : Text.Numeral base digits n) : SignedLiteral ('0' :: mark :: s) (-n)

/-- What a text with a sign behind the mark is read as, with an optional minus sign in front. -/
inductive SpellsSigned : List Char → Int → Prop
  | plain {s : List Char} {v : Int} (h : SignedLiteral s v) (hv : fitsNumber v) : SpellsSigned s v
  | minus {s : List Char} {v : Int} (h : SignedLiteral s v) (hv : fitsNumber v) :
      SpellsSigned ('-' :: s) (-v)

/-- A text is read by the grammar: without overflow, as the number that it spells if this fits. -/
def ReadAsSpelled (s : List Char) : Prop :=
  ∃ value? : Option Int, number? s = .ok value? ∧
    ∀ v, value? = some v ↔ Spells s v ∧ fitsNumber v

/-! ### Digits -/

theorem mem_baseMarks {mark : Char} {base : Nat} :
    (mark, base) ∈ baseMarks ↔ (mark = 'x' ∧ base = 16) ∨ (mark = 'X' ∧ base = 16) ∨
      (mark = 'o' ∧ base = 8) ∨ (mark = 'b' ∧ base = 2) := by
  simp [baseMarks]

theorem base_le_of_mem_baseMarks {mark : Char} {base : Nat} (h : (mark, base) ∈ baseMarks) :
    base ≤ 16 := by
  rw [mem_baseMarks] at h
  omega

/-- A mark belongs to one base, and is no decimal digit. -/
theorem mark_facts {mark : Char} {base : Nat} (h : (mark, base) ∈ baseMarks) :
    (∀ base', (mark, base') ∈ baseMarks → base' = base) ∧ mark ≠ '_' ∧
      Text.digit? 10 mark = none := by
  simp only [mem_baseMarks] at h ⊢
  rcases h with ⟨rfl, rfl⟩ | ⟨rfl, rfl⟩ | ⟨rfl, rfl⟩ | ⟨rfl, rfl⟩ <;>
    exact ⟨by simp, by decide, by decide⟩

theorem natural?_nondigit {base : Nat} {c : Char} (h : Text.digit? base c = none)
    (digits : List Char) : Text.natural? base (c :: digits) = none := by
  rw [Text.natural?, Text.digitsOnto?, h]
  simp

theorem digit?_sign {base : Nat} : Text.digit? base '+' = none ∧ Text.digit? base '-' = none := by
  constructor <;> simp [Text.digit?]

/-- A number with a sign is a numeral that may have one of the signs in front. -/
theorem integer?_eq_some_iff {base : Nat} (hbase : base ≤ 16) {s : List Char} {v : Int} :
    Text.integer? base s = some v ↔
      (∃ n : Nat, Text.Numeral base s n ∧ v = n) ∨
        (∃ digits n, s = '+' :: digits ∧ Text.Numeral base digits n ∧ v = n) ∨
        ∃ digits n, s = '-' :: digits ∧ Text.Numeral base digits n ∧ v = -(n : Int) := by
  simp only [← Text.natural?_eq_some_iff hbase]
  unfold Text.integer?
  -- a sign is no digit, so the three cases exclude each other
  split
  case h_1 digits =>
    rw [natural?_nondigit digit?_sign.2]
    constructor
    · intro h
      obtain ⟨m, hm, rfl⟩ := Option.map_eq_some_iff.mp h
      obtain ⟨n, hn, heq⟩ := Option.bind_eq_some_iff.mp hm
      cases heq
      exact .inr (.inr ⟨digits, n, rfl, hn, rfl⟩)
    · rintro (⟨n, hn, -⟩ | ⟨digits, n, heq, -⟩ | ⟨digits, n, heq, hn, rfl⟩)
      · cases hn
      · cases heq
      · cases heq
        rw [hn]
        rfl
  case h_2 digits =>
    rw [natural?_nondigit digit?_sign.1]
    constructor
    · intro h
      obtain ⟨n, hn, rfl⟩ := Option.map_eq_some_iff.mp h
      exact .inr (.inl ⟨digits, n, rfl, hn, rfl⟩)
    · rintro (⟨n, hn, -⟩ | ⟨digits, n, heq, hn, rfl⟩ | ⟨digits, n, heq, -⟩)
      · cases hn
      · cases heq
        rw [hn]
        rfl
      · cases heq
  case h_3 hminus hplus =>
    constructor
    · intro h
      obtain ⟨n, hn, rfl⟩ := Option.map_eq_some_iff.mp h
      exact .inl ⟨n, hn, rfl⟩
    · rintro (⟨n, hn, rfl⟩ | ⟨digits, n, rfl, -⟩ | ⟨digits, n, rfl, -⟩)
      · rw [hn]
        rfl
      · exact (hplus digits rfl).elim
      · exact (hminus digits rfl).elim

/-! ### Literals -/

theorem dropUnderscores_cons {c : Char} (hc : c ≠ '_') (s : List Char) :
    dropUnderscores (c :: s) = c :: dropUnderscores s :=
  List.filter_cons_of_pos (by simpa using hc)

theorem ne_nil_of_dropUnderscores {c : Char} {s digits : List Char}
    (h : dropUnderscores s = c :: digits) : s ≠ [] := by
  rintro rfl
  cases h

/-- Only digits and underscores stand in a literal of a base. -/
theorem not_mem_of_numeral {base : Nat} (hbase : base ≤ 16) {s : List Char} {n : Nat}
    (h : Text.Numeral base (dropUnderscores s) n) {c : Char} (hne : c ≠ '_')
    (hdigit : Text.digit? base c = none) : c ∉ s := by
  intro hc
  obtain ⟨d, hd⟩ := h.isDigit c (List.mem_filter.mpr ⟨hc, by simpa using hne⟩)
  rw [(Text.digit?_eq_some_iff hbase).mpr hd] at hdigit
  cases hdigit

theorem isDigit_of_numeral {c : Char} {s : List Char} {n : Nat} (hc : c ≠ '_')
    (h : Text.Numeral 10 (dropUnderscores (c :: s)) n) : c.isDigit = true := by
  rw [dropUnderscores_cons hc] at h
  exact h.isDecimal c List.mem_cons_self

/-- Behind a mark, digits of its base are read, with a sign in front of them if there is one. -/
theorem literal?_marked {mark : Char} {base : Nat} (hmark : (mark, base) ∈ baseMarks)
    {s : List Char} (hs : s ≠ []) :
    literal? ('0' :: mark :: s) = (Text.integer? base (dropUnderscores s)).filter fitsNumber := by
  obtain ⟨c, s, rfl⟩ := List.exists_cons_of_ne_nil hs
  rcases mem_baseMarks.mp hmark with ⟨rfl, rfl⟩ | ⟨rfl, rfl⟩ | ⟨rfl, rfl⟩ | ⟨rfl, rfl⟩ <;> rfl

/-- Without a mark, a literal begins with a decimal digit. -/
theorem literal?_decimal {c : Char} {s : List Char}
    (hmark : ∀ mark base t, (mark, base) ∈ baseMarks → t ≠ [] → c :: s ≠ '0' :: mark :: t) :
    literal? (c :: s) =
      if c.isDigit then (Text.integer? 10 (dropUnderscores (c :: s))).filter fitsNumber
      else none := by
  have hbase : literalBase (c :: s) = (10, c :: s) := by
    unfold literalBase
    split
    case h_1 d t heq => exact absurd heq (hmark 'x' 16 (d :: t) (by decide) (by simp))
    case h_2 d t heq => exact absurd heq (hmark 'X' 16 (d :: t) (by decide) (by simp))
    case h_3 d t heq => exact absurd heq (hmark 'o' 8 (d :: t) (by decide) (by simp))
    case h_4 d t heq => exact absurd heq (hmark 'b' 2 (d :: t) (by decide) (by simp))
    case h_5 => rfl
  rw [literal?, hbase]
  rfl

/-- A literal behind a mark is a numeral of its base, underscores left out. -/
theorem literal_marked_iff {mark : Char} {base : Nat} (hmark : (mark, base) ∈ baseMarks)
    {s : List Char} {n : Nat} :
    Literal ('0' :: mark :: s) n ↔ Text.Numeral base (dropUnderscores s) n := by
  obtain ⟨hunique, hunderscore, hdigit⟩ := mark_facts hmark
  refine ⟨fun h => ?_, .marked hmark⟩
  cases h with
  | decimal hc h =>
      -- the mark is no decimal digit
      exact absurd (by simp) (not_mem_of_numeral (by decide) h hunderscore hdigit)
  | marked hmark' h =>
      rw [← hunique _ hmark']
      exact h

/-- A signed literal behind a mark has its sign behind the mark. -/
theorem signedLiteral_marked_iff {mark : Char} {base : Nat} (hmark : (mark, base) ∈ baseMarks)
    {s : List Char} {v : Int} :
    SignedLiteral ('0' :: mark :: s) v ↔
      (∃ digits n, dropUnderscores s = '+' :: digits ∧ Text.Numeral base digits n ∧ v = n) ∨
        ∃ digits n, dropUnderscores s = '-' :: digits ∧ Text.Numeral base digits n ∧
          v = -(n : Int) := by
  obtain ⟨hunique, -, -⟩ := mark_facts hmark
  constructor
  · intro h
    cases h with
    | plus hmark' hs h => exact .inl ⟨_, _, hs, hunique _ hmark' ▸ h, rfl⟩
    | minus hmark' hs h => exact .inr ⟨_, _, hs, hunique _ hmark' ▸ h, rfl⟩
  · rintro (⟨digits, n, hs, h, rfl⟩ | ⟨digits, n, hs, h, rfl⟩)
    · exact .plus hmark hs h
    · exact .minus hmark hs h

/-- A literal is read as the number that it spells, with or without a sign behind the mark, if
the number fits. -/
theorem literal?_eq_some_iff {s : List Char} {v : Int} :
    literal? s = some v ↔
      fitsNumber v ∧ ((∃ n : Nat, Literal s n ∧ v = n) ∨ SignedLiteral s v) := by
  by_cases hs : ∃ mark base t, (mark, base) ∈ baseMarks ∧ t ≠ [] ∧ s = '0' :: mark :: t
  · obtain ⟨mark, base, t, hmark, ht, rfl⟩ := hs
    rw [literal?_marked hmark ht, Option.filter_eq_some_iff,
      integer?_eq_some_iff (base_le_of_mem_baseMarks hmark), signedLiteral_marked_iff hmark]
    simp only [literal_marked_iff hmark]
    exact and_comm
  · -- without a mark only a decimal literal is left
    have hsigned : ¬SignedLiteral s v := by
      intro h
      cases h with
      | plus hmark heq => exact hs ⟨_, _, _, hmark, ne_nil_of_dropUnderscores heq, rfl⟩
      | minus hmark heq => exact hs ⟨_, _, _, hmark, ne_nil_of_dropUnderscores heq, rfl⟩
    have hliteral {n : Nat} : Literal s n ↔
        ∃ c t, s = c :: t ∧ c ≠ '_' ∧ Text.Numeral 10 (dropUnderscores s) n := by
      constructor
      · intro h
        cases h with
        | decimal hc h => exact ⟨_, _, rfl, hc, h⟩
        | marked hmark h =>
            obtain ⟨d, digits, heq⟩ := List.exists_cons_of_ne_nil h.ne_nil
            exact absurd ⟨_, _, _, hmark, ne_nil_of_dropUnderscores heq, rfl⟩ hs
      · rintro ⟨c, t, rfl, hc, h⟩
        exact .decimal hc h
    cases s with
    | nil => simp [literal?, hsigned, hliteral]
    | cons c s =>
        rw [literal?_decimal fun mark base t hmark ht heq => hs ⟨mark, base, t, hmark, ht, heq⟩]
        constructor
        · intro h
          obtain ⟨hdigit, h⟩ := Option.ite_none_right_eq_some.mp h
          obtain ⟨h, hfits⟩ := Option.filter_eq_some_iff.mp h
          have hc : c ≠ '_' ∧ c ≠ '+' ∧ c ≠ '-' := by
            refine ⟨?_, ?_, ?_⟩ <;>
              · rintro rfl
                exact absurd hdigit (by decide)
          rw [integer?_eq_some_iff (by decide), dropUnderscores_cons hc.1] at h
          rcases h with ⟨n, hn, rfl⟩ | ⟨digits, n, heq, -⟩ | ⟨digits, n, heq, -⟩
          · rw [← dropUnderscores_cons hc.1] at hn
            exact ⟨hfits, .inl ⟨n, .decimal hc.1 hn, rfl⟩⟩
          · exact absurd (List.cons.inj heq).1 hc.2.1
          · exact absurd (List.cons.inj heq).1 hc.2.2
        · rintro ⟨hfits, ⟨n, hn, rfl⟩ | h⟩
          · obtain ⟨_, _, heq, hc, hn⟩ := hliteral.mp hn
            cases heq
            rw [if_pos (isDigit_of_numeral hc hn), Option.filter_eq_some_iff,
              integer?_eq_some_iff (by decide)]
            exact ⟨.inl ⟨n, hn, rfl⟩, hfits⟩
          · exact absurd h hsigned

/-- A literal begins with a digit. -/
theorem Literal.exists_digit {s : List Char} {n : Nat} (h : Literal s n) :
    ∃ c t, s = c :: t ∧ c.isDigit = true := by
  cases h with
  | decimal hc h => exact ⟨_, _, rfl, isDigit_of_numeral hc h⟩
  | marked => exact ⟨'0', _, rfl, by decide⟩

theorem SignedLiteral.exists_digit {s : List Char} {v : Int} (h : SignedLiteral s v) :
    ∃ c t, s = c :: t ∧ c.isDigit = true := by
  cases h with
  | plus => exact ⟨'0', _, rfl, by decide⟩
  | minus => exact ⟨'0', _, rfl, by decide⟩

/-- No literal has a sign behind its mark. -/
theorem Literal.not_signed {s : List Char} {n : Nat} (h : Literal s n) {v : Int} :
    ¬SignedLiteral s v := by
  intro hsigned
  have hdigit {base : Nat} (hbase : base ≤ 16) {c : Char} {digits : List Char}
      (hc : Text.digit? base c = none) : ¬Text.Numeral base (c :: digits) n := by
    rw [← Text.natural?_eq_some_iff hbase, natural?_nondigit hc]
    simp
  cases hsigned with
  | plus hmark hs =>
      rw [literal_marked_iff hmark, hs] at h
      exact hdigit (base_le_of_mem_baseMarks hmark) digit?_sign.1 h
  | minus hmark hs =>
      rw [literal_marked_iff hmark, hs] at h
      exact hdigit (base_le_of_mem_baseMarks hmark) digit?_sign.2 h

/-! ### Numbers -/

theorem between?_eq_some_iff {left right : Char} {s inner : List Char} :
    between? left right s = some inner ↔ s = left :: (inner ++ [right]) := by
  have hlast (t : List Char) : Text.dropLast? right t = some inner ↔ t = inner ++ [right] := by
    rw [Text.dropLast?, Option.ite_none_right_eq_some, Option.some.injEq]
    constructor
    · rintro ⟨hlast, rfl⟩
      exact (List.dropLast_append_getLast? right hlast).symm
    · rintro rfl
      simp
  cases s with
  | nil => simp [between?, Text.dropFirst?]
  | cons c s =>
      by_cases hc : c = left
      · simp [between?, Text.dropFirst?, hc, hlast]
      · simp [between?, Text.dropFirst?, hc]

/-- Only a single character of ASCII has a code. -/
theorem charCode?_eq_some_iff {s : List Char} {v : Int} :
    charCode? s = some v ↔ ∃ c : Char, s = [c] ∧ c.toNat < 128 ∧ v = c.toNat := by
  unfold charCode?
  split
  next c => simp [eq_comm]
  next hs =>
    constructor
    · intro h
      cases h
    · rintro ⟨c, rfl, -⟩
      exact (hs c rfl).elim

/-- Between quotes stands a character. -/
theorem number?_quoted (inner : List Char) :
    number? ('\'' :: (inner ++ ['\''])) = .ok (charCode? inner) := by
  unfold number?
  rw [between?_eq_some_iff.mpr rfl]

theorem fitsNumber_iff {v : Int} :
    fitsNumber v = true ↔ -9223372036854775808 ≤ v ∧ v ≤ 9223372036854775807 := by
  simp [fitsNumber]

/-- A minus negates the literal behind it, which can overflow. -/
theorem number?_minus (s : List Char) :
    number? ('-' :: s) =
      match literal? s with
      | some v => if fitsNumber (-v) then .ok (some (-v)) else .error .overflow
      | none => .ok none := rfl

/-- The negated literal must fit as well. -/
theorem number?_minus_eq_some_iff {s : List Char} {v : Int} :
    number? ('-' :: s) = .ok (some v) ↔ fitsNumber v ∧ literal? s = some (-v) := by
  rw [number?_minus]
  cases literal? s with
  | none => simp
  | some w =>
      by_cases hfits : fitsNumber (-w) = true
      · simp only [hfits, if_true, Except.ok.injEq, Option.some.injEq]
        constructor
        · rintro rfl
          exact ⟨hfits, (Int.neg_neg w).symm⟩
        · rintro ⟨-, rfl⟩
          exact Int.neg_neg v
      · simp only [hfits, Bool.false_eq_true, if_false, reduceCtorEq, Option.some.injEq, false_iff]
        rintro ⟨hv, rfl⟩
        exact hfits (by simpa using hv)

/-- Only the least number overflows when it is negated. -/
theorem number?_minus_eq_error_iff {s : List Char} :
    number? ('-' :: s) = .error .overflow ↔ literal? s = some leastNumber := by
  rw [number?_minus]
  cases hliteral : literal? s with
  | none => simp
  | some w =>
      have hw := fitsNumber_iff.mp (literal?_eq_some_iff.mp hliteral).1
      rw [leastNumber]
      by_cases hneg : fitsNumber (-w) = true
      · simp only [hneg, if_true, reduceCtorEq, Option.some.injEq, false_iff]
        rw [fitsNumber_iff] at hneg
        omega
      · simp only [hneg, Bool.false_eq_true, if_false, Option.some.injEq, true_iff]
        rw [fitsNumber_iff] at hneg
        omega

theorem number?_plain {s : List Char} (hquote : ∀ inner, s ≠ '\'' :: (inner ++ ['\'']))
    (hminus : ∀ t, s ≠ '-' :: t) : number? s = .ok (literal? s) := by
  have hbetween : between? '\'' '\'' s = none := by
    rw [Option.eq_none_iff_forall_ne_some]
    exact fun inner h => hquote inner (between?_eq_some_iff.mp h)
  unfold number?
  rw [hbetween]
  dsimp only
  split
  next t => exact absurd rfl (hminus t)
  next => rfl

/-- The texts in quotes spell characters only. -/
theorem spells_quoted_iff {inner : List Char} {v : Int} :
    Spells ('\'' :: (inner ++ ['\''])) v ↔
      ∃ c : Char, inner = [c] ∧ c.toNat < 128 ∧ v = c.toNat := by
  constructor
  · intro h
    generalize hs : '\'' :: (inner ++ ['\'']) = s at h
    cases h with
    | @char c hc =>
        have heq : inner ++ ['\''] = [c] ++ ['\''] := (List.cons.inj hs).2
        rw [List.append_cancel_right heq]
        exact ⟨c, rfl, hc, rfl⟩
    | plain h =>
        obtain ⟨c, t, rfl, hc⟩ := h.exists_digit
        cases hs
        exact absurd hc (by decide)
    | minus => cases hs
  · rintro ⟨c, rfl, hc, rfl⟩
    exact .char hc

theorem not_spellsSigned_quoted {s : List Char} {v : Int} : ¬SpellsSigned ('\'' :: s) v := by
  intro h
  generalize hs : '\'' :: s = t at h
  cases h with
  | plain h =>
      obtain ⟨c, t, rfl, hc⟩ := h.exists_digit
      cases hs
      exact absurd hc (by decide)
  | minus => cases hs

/-- The texts behind a minus sign spell negated literals. -/
theorem spells_minus_iff {s : List Char} {v : Int} :
    Spells ('-' :: s) v ↔ ∃ n : Nat, Literal s n ∧ v = -(n : Int) := by
  constructor
  · intro h
    generalize hs : '-' :: s = t at h
    cases h with
    | char => cases hs
    | plain h =>
        obtain ⟨c, t, rfl, hc⟩ := h.exists_digit
        cases hs
        exact absurd hc (by decide)
    | minus h =>
        cases hs
        exact ⟨_, h, rfl⟩
  · rintro ⟨n, h, rfl⟩
    exact .minus h

/-- A minus in front spells the negative of what is behind it. -/
theorem spellsSigned_minus_iff {s : List Char} {v : Int} :
    SpellsSigned ('-' :: s) v ↔ SignedLiteral s (-v) ∧ fitsNumber (-v) := by
  constructor
  · intro h
    generalize hs : '-' :: s = t at h
    cases h with
    | plain h =>
        obtain ⟨c, t, rfl, hc⟩ := h.exists_digit
        cases hs
        exact absurd hc (by decide)
    | minus h hv =>
        cases hs
        simpa using ⟨h, hv⟩
  · rintro ⟨h, hv⟩
    simpa using SpellsSigned.minus h hv

/-- Other texts spell literals without a sign in front. -/
theorem spells_plain_iff {s : List Char} (hquote : ∀ inner, s ≠ '\'' :: (inner ++ ['\'']))
    (hminus : ∀ t, s ≠ '-' :: t) {v : Int} : Spells s v ↔ ∃ n : Nat, Literal s n ∧ v = n := by
  constructor
  · intro h
    cases h with
    | char => exact absurd rfl (hquote [_])
    | plain h => exact ⟨_, h, rfl⟩
    | minus => exact absurd rfl (hminus _)
  · rintro ⟨n, h, rfl⟩
    exact .plain h

theorem spellsSigned_plain_iff {s : List Char} (hminus : ∀ t, s ≠ '-' :: t) {v : Int} :
    SpellsSigned s v ↔ SignedLiteral s v ∧ fitsNumber v := by
  constructor
  · intro h
    cases h with
    | plain h hv => exact ⟨h, hv⟩
    | minus => exact absurd rfl (hminus _)
  · rintro ⟨h, hv⟩
    exact .plain h hv

/-- The texts of numbers are apart from those with a sign behind the mark. -/
theorem Spells.not_spellsSigned {s : List Char} {v w : Int} (h : Spells s v) :
    ¬SpellsSigned s w := by
  cases h with
  | char => exact not_spellsSigned_quoted
  | plain h =>
      intro hsigned
      cases hsigned with
      | plain hsigned => exact h.not_signed hsigned
      | minus =>
          obtain ⟨c, t, heq, hc⟩ := h.exists_digit
          cases heq
          exact absurd hc (by decide)
  | minus h =>
      rw [spellsSigned_minus_iff]
      exact fun hsigned => h.not_signed hsigned.1

/-- The value of every text: a number that fits, except for the least one, and the number with
a sign behind the mark. -/
theorem number?_eq_some_iff {s : List Char} {v : Int} :
    number? s = .ok (some v) ↔
      fitsNumber v ∧ (Spells s v ∧ v ≠ leastNumber ∨ SpellsSigned s v) := by
  by_cases hquote : ∃ inner, s = '\'' :: (inner ++ ['\''])
  · obtain ⟨inner, rfl⟩ := hquote
    rw [number?_quoted, Except.ok.injEq, charCode?_eq_some_iff, spells_quoted_iff,
      or_iff_left not_spellsSigned_quoted, fitsNumber_iff, leastNumber]
    constructor
    · rintro ⟨c, hinner, hc, rfl⟩
      exact ⟨by omega, ⟨c, hinner, hc, rfl⟩, by omega⟩
    · rintro ⟨-, h, -⟩
      exact h
  by_cases hminus : ∃ t, s = '-' :: t
  · obtain ⟨t, rfl⟩ := hminus
    rw [number?_minus_eq_some_iff, spells_minus_iff, spellsSigned_minus_iff]
    refine and_congr_right fun hfits => ?_
    rw [fitsNumber_iff] at hfits
    rw [literal?_eq_some_iff, and_or_left, leastNumber]
    refine or_congr ?_ and_comm
    constructor
    · rintro ⟨hneg, n, hn, heq⟩
      rw [fitsNumber_iff] at hneg
      exact ⟨⟨n, hn, by omega⟩, by omega⟩
    · rintro ⟨⟨n, hn, rfl⟩, hleast⟩
      rw [fitsNumber_iff]
      exact ⟨by omega, n, hn, by omega⟩
  · have hquote' : ∀ inner, s ≠ '\'' :: (inner ++ ['\'']) := fun inner heq => hquote ⟨inner, heq⟩
    have hminus' : ∀ t, s ≠ '-' :: t := fun t heq => hminus ⟨t, heq⟩
    rw [number?_plain hquote' hminus', Except.ok.injEq, literal?_eq_some_iff,
      spells_plain_iff hquote' hminus', spellsSigned_plain_iff hminus']
    refine and_congr_right fun hfits => or_congr ?_ ?_
    · constructor
      · rintro ⟨n, hn, rfl⟩
        exact ⟨⟨n, hn, rfl⟩, by rw [leastNumber]; omega⟩
      · exact And.left
    · exact (and_iff_left hfits).symm

/-- Only the negation of the least number, spelled with a sign of its own, overflows. -/
theorem number?_eq_error_iff {s : List Char} :
    number? s = .error .overflow ↔ ∃ t, s = '-' :: t ∧ SignedLiteral t leastNumber := by
  by_cases hquote : ∃ inner, s = '\'' :: (inner ++ ['\''])
  · obtain ⟨inner, rfl⟩ := hquote
    rw [number?_quoted]
    simp
  by_cases hminus : ∃ t, s = '-' :: t
  · obtain ⟨t, rfl⟩ := hminus
    rw [number?_minus_eq_error_iff, literal?_eq_some_iff, leastNumber]
    constructor
    · rintro ⟨-, ⟨n, -, heq⟩ | hsigned⟩
      · omega
      · exact ⟨t, rfl, hsigned⟩
    · rintro ⟨_, heq, hsigned⟩
      cases heq
      exact ⟨by decide, .inr hsigned⟩
  · rw [number?_plain (fun inner heq => hquote ⟨inner, heq⟩) fun t heq => hminus ⟨t, heq⟩]
    constructor
    · intro h
      cases h
    · rintro ⟨t, heq, -⟩
      exact absurd ⟨t, heq⟩ hminus

/-- Numbers mean what they spell. A text overflows if and only if it negates the least number
spelled with a sign of its own. It is read as a number if and only if it spells this number, which
fits and is not the least one, or is a text with a sign behind the mark of its base. So a text is
read by the grammar exactly if it neither spells the least number nor has such a sign. -/
theorem number?_spells (s : List Char) :
    (number? s = .error .overflow ↔ ∃ t, s = '-' :: t ∧ SignedLiteral t leastNumber) ∧
      (∀ v, number? s = .ok (some v) ↔
        fitsNumber v ∧ (Spells s v ∧ v ≠ leastNumber ∨ SpellsSigned s v)) ∧
      (ReadAsSpelled s ↔ ¬Spells s leastNumber ∧ ∀ v, ¬SpellsSigned s v) := by
  refine ⟨number?_eq_error_iff, fun v => number?_eq_some_iff, ?_, ?_⟩
  · rintro ⟨value?, hread, hspelled⟩
    have hvalue {v : Int} : Spells s v ∧ fitsNumber v ↔
        fitsNumber v ∧ (Spells s v ∧ v ≠ leastNumber ∨ SpellsSigned s v) := by
      rw [← hspelled, ← number?_eq_some_iff, hread, Except.ok.injEq]
    refine ⟨fun hleast => ?_, fun v hsigned => ?_⟩
    · rcases (hvalue.mp ⟨hleast, by decide⟩).2 with ⟨-, hne⟩ | hsigned
      · exact hne rfl
      · exact hleast.not_spellsSigned hsigned
    · by_cases hfits : fitsNumber v = true
      · exact (hvalue.mpr ⟨hfits, .inr hsigned⟩).1.not_spellsSigned hsigned
      · -- the number only leaves the range by its negation
        cases hsigned with
        | plain h hv => exact hfits hv
        | @minus t w h hw =>
            rw [fitsNumber_iff] at hfits hw
            have hleast : w = leastNumber := by
              rw [leastNumber]
              omega
            have herror := number?_eq_error_iff.mpr ⟨t, rfl, hleast ▸ h⟩
            rw [hread] at herror
            cases herror
  · rintro ⟨hleast, hsigned⟩
    cases hread : number? s with
    | error e =>
        cases e
        obtain ⟨t, rfl, h⟩ := number?_eq_error_iff.mp hread
        exact absurd (.minus h (by decide)) (hsigned _)
    | ok value? =>
        refine ⟨value?, hread, fun v => ?_⟩
        rw [← Except.ok.injEq (ε := Overflow), ← hread, number?_eq_some_iff, and_comm,
          or_iff_left (hsigned v)]
        refine and_congr_left fun _ => and_iff_left_of_imp ?_
        rintro h rfl
        exact hleast h

/-- A sign behind the mark is read, the least number is not, and the negation of the least number
with such a sign overflows. -/
theorem number?_stray_sign :
    number? "0x-5".toList = .ok (some (-5)) ∧ (∀ v, ¬Spells "0x-5".toList v) ∧
      number? "-9223372036854775808".toList = .ok none ∧
      Spells "-9223372036854775808".toList leastNumber ∧
      number? "-0x-8000000000000000".toList = .error .overflow ∧
      ∀ v, ¬Spells "-0x-8000000000000000".toList v := by
  have hfive : SignedLiteral "0x-5".toList (-5) := by
    have hnumeral : Text.Numeral 16 ['5'] 5 :=
      (Text.natural?_eq_some_iff (by decide)).mp (by decide)
    exact .minus (by decide) (by decide) hnumeral
  have hleast : SignedLiteral "0x-8000000000000000".toList leastNumber := by
    have hnumeral : Text.Numeral 16 "8000000000000000".toList 9223372036854775808 :=
      (Text.natural?_eq_some_iff (by decide)).mp (by decide)
    exact .minus (by decide) (by decide) hnumeral
  have hdecimal : Literal "9223372036854775808".toList 9223372036854775808 :=
    .decimal (by decide) ((Text.natural?_eq_some_iff (by decide)).mp (by decide))
  exact ⟨by decide, fun v h => h.not_spellsSigned (.plain hfive (by decide)), by decide,
    .minus hdecimal, by decide, fun v h => h.not_spellsSigned (.minus hleast (by decide))⟩

end Ia32.Asm

import Ia32.Asm.Line
import Ia32.Proofs.Text.Reading

/-!
# Written operands are read back

The assembler reads the written form of an operand as that operand. A label only has to
be a name and no register.
-/

namespace Ia32.Asm

/-! ### Characters -/

/-- Text without blanks, quotes, commas and semicolons. -/
def Solid (s : List Char) : Prop :=
  ∀ c ∈ s, Text.isBlank c = false ∧ c ≠ '\'' ∧ c ≠ '"' ∧ c ≠ ';' ∧ c ≠ ','

/-- Text without blanks and quotes stays so when it is put together. -/
theorem Solid.append {s t : List Char} (hs : Solid s) (ht : Solid t) : Solid (s ++ t) := by
  intro c hc
  rcases List.mem_append.mp hc with hc | hc
  · exact hs c hc
  · exact ht c hc

theorem Solid.not_blank {s : List Char} (h : Solid s) : ∀ c ∈ s, Text.isBlank c = false :=
  fun c hc => (h c hc).1

/-- Nothing is trimmed from text without blanks. -/
theorem Solid.trimmed {s : List Char} (h : Solid s) : Text.Trimmed s :=
  Text.trimmed_of_not_blank h.not_blank

/-- The codes of the characters in names. -/
theorem toNat_isNameChar {c : Char} (h : isNameChar c = true) :
    (48 ≤ c.toNat ∧ c.toNat ≤ 57) ∨ (65 ≤ c.toNat ∧ c.toNat ≤ 90) ∨
      (97 ≤ c.toNat ∧ c.toNat ≤ 122) ∨ c.toNat = 95 ∨ c.toNat = 46 := by
  simp only [isNameChar, Char.isAlphanum, Char.isAlpha, Char.isUpper, Char.isLower, Char.isDigit,
    Bool.or_eq_true, Bool.and_eq_true, decide_eq_true_eq, beq_iff_eq, UInt32.le_iff_toNat_le,
    ge_iff_le] at h
  rcases h with ((h | h) | h) | h
  · rcases h with h | h
    · exact .inr (.inl h)
    · exact .inr (.inr (.inl h))
  · exact .inl h
  · subst h; decide
  · subst h; decide

theorem ne_of_toNat_ne {c d : Char} (h : c.toNat ≠ d.toNat) : c ≠ d :=
  fun heq => h (congrArg Char.toNat heq)

theorem isBlank_of_isNameChar {c : Char} (h : isNameChar c = true) : Text.isBlank c = false := by
  have hrange := toNat_isNameChar h
  simp only [Text.isBlank, Bool.or_eq_false_iff, Bool.and_eq_false_iff, decide_eq_false_iff_not,
    beq_eq_false_iff_ne]
  omega

theorem isNameChar_of_isName {s : List Char} (h : isName s = true) :
    ∀ c ∈ s, isNameChar c = true := by
  cases s with
  | nil => simp
  | cons c rest =>
      simp only [isName, isNameStart, Bool.and_eq_true, Bool.or_eq_true, List.all_eq_true] at h
      intro d hd
      rcases List.mem_cons.mp hd with rfl | hd
      · simp only [isNameChar, Char.isAlphanum, Bool.or_eq_true]
        rcases h.1 with (h | h) | h
        · exact .inl (.inl (.inl h))
        · exact .inl (.inr h)
        · exact .inr h
      · exact h.2 d hd

theorem isNameChar_of_isDigit {c : Char} (h : c.isDigit = true) : isNameChar c = true := by
  simp [isNameChar, Char.isAlphanum, h]

/-- Names of registers have the form of names. -/
theorem isName_reg (r : Reg) : isName r.name.toList = true := by
  cases r <;> decide

/-- Names of instructions have the form of names. -/
theorem isName_mnemonic (op : Mnemonic) : isName op.name.toList = true := by
  cases op <;> decide

/-- Characters of names, and signs. -/
def Plain (s : List Char) : Prop :=
  ∀ c ∈ s, isNameChar c = true ∨ isSign c = true

theorem Plain.append {s t : List Char} (hs : Plain s) (ht : Plain t) : Plain (s ++ t) := by
  intro c hc
  rcases List.mem_append.mp hc with hc | hc
  · exact hs c hc
  · exact ht c hc

theorem plain_of_isName {s : List Char} (h : isName s = true) : Plain s :=
  fun c hc => .inl (isNameChar_of_isName h c hc)

theorem plain_digits (n : Nat) : Plain (Nat.toDigits 10 n) :=
  fun _ hc => .inl (isNameChar_of_isDigit (Text.isDigit_of_mem_toDigits hc))

theorem plain_sign {c : Char} (h : isSign c = true) : Plain [c] :=
  fun _ hd => .inr (List.mem_singleton.mp hd ▸ h)

theorem toNat_of_plain {s : List Char} (h : Plain s) {c : Char} (hc : c ∈ s) :
    isNameChar c = true ∨ c.toNat = 43 ∨ c.toNat = 45 := by
  rcases h c hc with hname | hsign
  · exact .inl hname
  · simp only [isSign, Bool.or_eq_true, beq_iff_eq] at hsign
    rcases hsign with rfl | rfl
    · exact .inr (.inl rfl)
    · exact .inr (.inr rfl)

/-- Names and numbers have neither blanks nor quotes. -/
theorem Plain.solid {s : List Char} (h : Plain s) : Solid s := by
  intro c hc
  have hrange : isNameChar c = true ∨ c.toNat = 43 ∨ c.toNat = 45 := toNat_of_plain h hc
  have hblank : Text.isBlank c = false := by
    rcases hrange with hname | hsign
    · exact isBlank_of_isNameChar hname
    · simp only [Text.isBlank, Bool.or_eq_false_iff, Bool.and_eq_false_iff,
        decide_eq_false_iff_not, beq_eq_false_iff_ne]
      omega
  refine ⟨hblank, ?_, ?_, ?_, ?_⟩ <;>
  · apply ne_of_toNat_ne
    simp only [Char.reduceToNat]
    rcases hrange with hname | hsign
    · have := toNat_isNameChar hname
      omega
    · omega

/-! ### Numbers -/

/-- Decimal digits are read as their number, if it fits. -/
theorem literal?_digits (n : Nat) :
    literal? (Nat.toDigits 10 n) = (some (n : Int)).filter fitsNumber := by
  have hdigit {c : Char} (hc : c ∈ Nat.toDigits 10 n) := Text.isDigit_of_mem_toDigits hc
  have hinteger := Text.integer?_toDigits n
  have hfilter : (Nat.toDigits 10 n).filter (· != '_') = Nat.toDigits 10 n := by
    rw [List.filter_eq_self]
    rintro c hc
    have := hdigit hc
    simp only [bne_iff_ne]
    rintro rfl
    exact absurd this (by decide)
  have hbase : literalBase (Nat.toDigits 10 n) = (10, Nat.toDigits 10 n) := by
    unfold literalBase
    split
    case h_1 heq => exact absurd (hdigit (heq ▸ by simp : 'x' ∈ _)) (by decide)
    case h_2 heq => exact absurd (hdigit (heq ▸ by simp : 'X' ∈ _)) (by decide)
    case h_3 heq => exact absurd (hdigit (heq ▸ by simp : 'o' ∈ _)) (by decide)
    case h_4 heq => exact absurd (hdigit (heq ▸ by simp : 'b' ∈ _)) (by decide)
    case h_5 => rfl
  cases hn : Nat.toDigits 10 n with
  | nil => exact absurd hn Nat.toDigits_ne_nil
  | cons c rest =>
      rw [literal?, if_pos (hdigit (by rw [hn]; exact List.mem_cons_self)), ← hn, hbase]
      simp only [hfilter, hinteger]

theorem fitsNumber_natCast {n : Nat} : fitsNumber n = decide (n ≤ 9223372036854775807) := by
  rw [fitsNumber, Bool.eq_iff_iff]
  simp only [Bool.and_eq_true, decide_eq_true_eq]
  omega

theorem literal?_toDigits {n : Nat} (h : n ≤ 9223372036854775807) :
    literal? (Nat.toDigits 10 n) = some (n : Int) := by
  rw [literal?_digits, Option.filter_some, fitsNumber_natCast, if_pos (by simpa using h)]

/-- A number that needs more than 63 bits is not read. -/
theorem literal?_toDigits_of_lt {n : Nat} (h : 9223372036854775807 < n) :
    literal? (Nat.toDigits 10 n) = none := by
  rw [literal?_digits, Option.filter_some, fitsNumber_natCast, if_neg (by simpa using h)]

theorem between?_eq_none {left right c : Char} {rest : List Char} (h : c ≠ left) :
    between? left right (c :: rest) = none := by
  simp [between?, Text.dropFirst?, h]

theorem toList_toString_natCast (n : Nat) : (toString (n : Int)).toList = Nat.toDigits 10 n :=
  Nat.toList_repr

theorem toList_toString_neg {n : Nat} (h : 0 < n) :
    (toString (-(n : Int))).toList = '-' :: Nat.toDigits 10 n := by
  obtain ⟨m, rfl⟩ := Nat.exists_eq_succ_of_ne_zero (Nat.ne_of_gt h)
  change ("-" ++ Nat.repr (m + 1)).toList = _
  rw [String.toList_append, Nat.toList_repr]
  rfl

/-- Digits are neither a character nor a number with a prefix. -/
theorem number?_digits (n : Nat) :
    number? (Nat.toDigits 10 n) = .ok (literal? (Nat.toDigits 10 n)) := by
  cases hn : Nat.toDigits 10 n with
  | nil => exact absurd hn Nat.toDigits_ne_nil
  | cons c rest =>
      have hc : c.isDigit = true := Text.isDigit_of_mem_toDigits (n := n) (by simp [hn])
      have hquote : c ≠ '\'' := by rintro rfl; exact absurd hc (by decide)
      unfold number?
      rw [between?_eq_none hquote]
      dsimp only
      split
      case h_1 heq => cases heq; exact absurd hc (by decide)
      case h_2 => rfl

theorem number?_natCast {n : Nat} (h : n ≤ 9223372036854775807) :
    number? (Nat.toDigits 10 n) = .ok (some (n : Int)) := by
  rw [number?_digits, literal?_toDigits h]

/-- A number behind a minus sign is negated, so it has to fit before. -/
theorem number?_neg {n : Nat} (h : n ≤ 9223372036854775807) :
    number? ('-' :: Nat.toDigits 10 n) = .ok (some (-(n : Int))) := by
  unfold number?
  rw [between?_eq_none (by decide)]
  simp only [literal?_toDigits h]
  rw [if_pos]
  simp only [fitsNumber, Bool.and_eq_true, decide_eq_true_eq]
  omega

/-- Numbers are read back from their text, if they fit without their sign. -/
theorem number?_toString {v : Int} (h : v.natAbs ≤ 9223372036854775807) :
    number? (toString v).toList = .ok (some v) := by
  rcases Int.natAbs_eq v with hv | hv
  · rw [hv, toList_toString_natCast]
    exact number?_natCast h
  · by_cases hzero : v.natAbs = 0
    · rw [show v = ((0 : Nat) : Int) by omega, toList_toString_natCast]
      exact number?_natCast (Nat.zero_le _)
    · rw [hv, toList_toString_neg (Nat.pos_of_ne_zero hzero)]
      exact number?_neg h

/-- A number that does not fit is none, but its text does not overflow. -/
theorem number?_toString_of_lt {v : Int} (h : 9223372036854775807 < v.natAbs) :
    number? (toString v).toList = .ok none := by
  rcases Int.natAbs_eq v with hv | hv
  · rw [hv, toList_toString_natCast, number?_digits, literal?_toDigits_of_lt h]
  · rw [hv, toList_toString_neg (by omega)]
    unfold number?
    rw [between?_eq_none (by decide)]
    simp only [literal?_toDigits_of_lt h]

/-! ### Operands -/

/-- Registers are found by their names. -/
theorem ofName?_reg (r : Reg) : Reg.ofName? r.name.toList = some r := by
  cases r <;> decide

/-- Instructions are found by their names. -/
theorem ofName?_mnemonic (op : Mnemonic) : Mnemonic.ofName? op.name.toList = some op := by
  cases op <;> decide

/-- Operands that can be written and read back: numbers of 64 bits, and labels that
are no registers. -/
def Readable : Operand String → Prop
  | .reg _ | .mem _ => True
  | .imm v => v.natAbs ≤ 9223372036854775807
  | .label name => isName name.toList = true ∧ Reg.ofName? name.toList = none

/-- Operands whose written form is one solid piece: the labels are names, and no registers. -/
def Writable : Operand String → Prop
  | .reg _ | .mem _ | .imm _ => True
  | .label name => isName name.toList = true ∧ Reg.ofName? name.toList = none

/-- What is read back has a text in the first place. -/
theorem Readable.writable {a : Operand String} (h : Readable a) : Writable a := by
  cases a with
  | label name => exact h
  | _ => trivial

/-- The text of a displacement. -/
def displacement (d : Int) : List Char :=
  if d = 0 then [] else if d < 0 then (toString d).toList else '+' :: (toString d).toList

/-- Memory is written as its base and its displacement in brackets. -/
theorem toList_render_mem (m : Mem) :
    m.render.toList = '[' :: (m.base.name.toList ++ displacement m.disp.toInt ++ [']']) := by
  simp only [Mem.render, displacement, String.toList_append]
  split
  · rfl
  · split
    · rfl
    · rw [String.toList_append]
      rfl

theorem plain_toString (v : Int) : Plain (toString v).toList := by
  rcases Int.lt_or_le v 0 with hneg | hpos
  · rw [show v = -((-v).toNat : Int) by omega, toList_toString_neg (by omega)]
    exact (plain_sign rfl).append (plain_digits _)
  · rw [show v = (v.toNat : Int) by omega, toList_toString_natCast]
    exact plain_digits _

theorem plain_displacement (d : Int) : Plain (displacement d) := by
  unfold displacement
  split
  · simp [Plain]
  · split
    · exact plain_toString d
    · exact (plain_sign rfl).append (plain_toString d)

theorem plain_mem (m : Mem) : Plain (m.base.name.toList ++ displacement m.disp.toInt) :=
  (plain_of_isName (isName_reg m.base)).append (plain_displacement _)

/-- The text of an operand has neither blanks nor quotes. -/
theorem solid_render {a : Operand String} (h : Writable a) : Solid (a.render id).toList := by
  have hbracket {c : Char} (hc : c = '[' ∨ c = ']') : Solid [c] := by
    intro d hd
    rw [List.mem_singleton.mp hd]
    rcases hc with rfl | rfl <;> decide
  cases a with
  | reg r => exact (plain_of_isName (isName_reg r)).solid
  | mem m =>
      rw [Operand.render, toList_render_mem]
      exact (hbracket (.inl rfl)).append ((plain_mem m).solid.append (hbracket (.inr rfl)))
  | imm v => exact (plain_toString v).solid
  | label name => exact (plain_of_isName h.1).solid

/-- A displacement may have a plus sign in front of its number. -/
theorem readDisplacement_of_number {s : List Char} {v : Int} (hs : s ≠ [])
    (hnumber : number? ((Text.dropFirst? '+' s).getD s) = .ok (some v))
    (hrange : -2147483648 ≤ v ∧ v ≤ 2147483647) :
    readDisplacement s = pure (Int32.ofInt v) := by
  unfold readDisplacement
  rw [if_neg (by simpa using hs), hnumber]
  exact if_pos hrange

/-- Displacements are read back from their text. -/
theorem readDisplacement_displacement (d : Int32) :
    readDisplacement (displacement d.toInt) = pure d := by
  have hlow := d.le_toInt
  have hhigh := d.toInt_lt
  have hrange : -2147483648 ≤ d.toInt ∧ d.toInt ≤ 2147483647 := by omega
  unfold displacement
  split
  next hzero =>
    have hd : d = 0 := Int32.toInt_inj.mp (by simpa using hzero)
    rw [hd]
    rfl
  next hzero =>
    have hnumber := number?_toString (v := d.toInt) (by omega)
    split
    next hneg =>
      have htext : (toString d.toInt).toList = '-' :: Nat.toDigits 10 (-d.toInt).toNat := by
        rw [← toList_toString_neg (by omega)]
        congr 2
        omega
      rw [htext] at hnumber ⊢
      rw [readDisplacement_of_number (List.cons_ne_nil '-' (Nat.toDigits 10 (-d.toInt).toNat))
        hnumber hrange, Int32.ofInt_toInt]
    next =>
      rw [readDisplacement_of_number (List.cons_ne_nil '+' (toString d.toInt).toList) hnumber
        hrange, Int32.ofInt_toInt]

theorem isSign_of_isNameChar {c : Char} (h : isNameChar c = true) : isSign c = false := by
  have hrange := toNat_isNameChar h
  have hplus : c ≠ '+' := ne_of_toNat_ne (by simp only [Char.reduceToNat]; omega)
  have hminus : c ≠ '-' := ne_of_toNat_ne (by simp only [Char.reduceToNat]; omega)
  simp [isSign, hplus, hminus]

/-- A displacement is empty or starts with its sign. -/
theorem displacement_eq (d : Int) :
    displacement d = [] ∨ ∃ c rest, displacement d = c :: rest ∧ isSign c = true := by
  unfold displacement
  split
  · exact .inl rfl
  · split
    next hneg =>
      refine .inr ⟨'-', Nat.toDigits 10 (-d).toNat, ?_, rfl⟩
      rw [← toList_toString_neg (by omega)]
      congr 2
      omega
    · exact .inr ⟨'+', _, rfl, rfl⟩

/-- The displacement starts at the first sign, since registers have none in their names. -/
theorem splitDisplacement_mem (r : Reg) (d : Int) :
    splitDisplacement (r.name.toList ++ displacement d) = (r.name.toList, displacement d) := by
  have hname : ∀ c ∈ r.name.toList, (!isSign c) = true := fun c hc => by
    simp [isSign_of_isNameChar (isNameChar_of_isName (isName_reg r) c hc)]
  have hnonempty : r.name.toList ≠ [] := by cases r <;> decide
  have hsplit : (displacement d).takeWhile (!isSign ·) = [] ∧
      (displacement d).dropWhile (!isSign ·) = displacement d := by
    rcases displacement_eq d with heq | ⟨c, rest, heq, hsign⟩
    · simp [heq]
    · simp [heq, hsign]
  unfold splitDisplacement
  rw [List.takeWhile_append_of_pos hname, List.dropWhile_append_of_pos hname, hsplit.1, hsplit.2,
    List.append_nil]
  exact if_neg (by simpa using hnonempty)

/-- Memory operands are read back from their text. -/
theorem readMem_render (m : Mem) :
    readMem (m.base.name.toList ++ displacement m.disp.toInt) = pure m := by
  have hsolid := (plain_mem m).solid
  have hfilter : (m.base.name.toList ++ displacement m.disp.toInt).filter (!Text.isBlank ·) =
      m.base.name.toList ++ displacement m.disp.toInt :=
    List.filter_eq_self.mpr fun c hc => by simp [hsolid.not_blank c hc]
  unfold readMem
  rw [hfilter, splitDisplacement_mem]
  simp only [ofName?_reg, readDisplacement_displacement]
  rfl

theorem dropSize_eq_self {s : List Char} (h : Solid s) : dropSize s = s := by
  have hblank : Text.startsBlank (s.drop 5) = false := by
    cases hdrop : s.drop 5 with
    | nil => rfl
    | cons c rest => exact h.not_blank c (List.mem_of_mem_drop (hdrop ▸ List.mem_cons_self))
  simp [dropSize, hblank]

/-- Every name of a register starts with the same letter. -/
theorem ofName?_eq_none {c : Char} {rest : List Char} (h : c.toLower ≠ 'e') :
    Reg.ofName? (c :: rest) = none := by
  rw [Reg.ofName?, List.find?_eq_none]
  intro r _
  cases r <;> simp [Reg.name, Text.lower, Ne.symm h]

theorem toString_eq_cons (v : Int) :
    ∃ c rest, (toString v).toList = c :: rest ∧ (c = '-' ∨ c.isDigit = true) := by
  have hdigits (n : Nat) : ∃ c rest, Nat.toDigits 10 n = c :: rest ∧ c.isDigit = true := by
    cases hn : Nat.toDigits 10 n with
    | nil => exact absurd hn Nat.toDigits_ne_nil
    | cons c rest => exact ⟨c, rest, rfl, Text.isDigit_of_mem_toDigits (n := n) (by simp [hn])⟩
  rcases Int.lt_or_le v 0 with hneg | hpos
  · refine ⟨'-', Nat.toDigits 10 (-v).toNat, ?_, .inl rfl⟩
    rw [← toList_toString_neg (by omega)]
    congr 2
    omega
  · obtain ⟨c, rest, heq, hc⟩ := hdigits v.toNat
    refine ⟨c, rest, ?_, .inr hc⟩
    rw [← heq, ← toList_toString_natCast]
    congr 2
    omega

theorem toNat_isDigit {c : Char} (h : c.isDigit = true) : 48 ≤ c.toNat ∧ c.toNat ≤ 57 := by
  simp only [Char.isDigit, Bool.and_eq_true, decide_eq_true_eq, ge_iff_le,
    UInt32.le_iff_toNat_le] at h
  exact h

theorem toLower_of_isDigit {c : Char} (h : c.isDigit = true) : c.toLower = c := by
  have hrange := toNat_isDigit h
  unfold Char.toLower
  rw [dif_neg]
  intro hupper
  have : 65 ≤ c.toNat := by simpa [UInt32.le_iff_toNat_le] using hupper.1
  omega

theorem toNat_isNameStart {c : Char} (h : isNameStart c = true) :
    (65 ≤ c.toNat ∧ c.toNat ≤ 90) ∨ (97 ≤ c.toNat ∧ c.toNat ≤ 122) ∨ c.toNat = 95 ∨
      c.toNat = 46 := by
  simp only [isNameStart, Char.isAlpha, Char.isUpper, Char.isLower, Bool.or_eq_true,
    Bool.and_eq_true, decide_eq_true_eq, beq_iff_eq, UInt32.le_iff_toNat_le, ge_iff_le] at h
  rcases h with ((h | h) | h) | h
  · exact .inl h
  · exact .inr (.inl h)
  · subst h; decide
  · subst h; decide

/-- No name is read as a number. -/
theorem number?_of_isName {s : List Char} (h : isName s = true) : number? s = .ok none := by
  cases s with
  | nil => cases h
  | cons c rest =>
      simp only [isName, Bool.and_eq_true] at h
      have hrange := toNat_isNameStart h.1
      have hquote : c ≠ '\'' := ne_of_toNat_ne (by simp only [Char.reduceToNat]; omega)
      have hminus : c ≠ '-' := ne_of_toNat_ne (by simp only [Char.reduceToNat]; omega)
      have hdigit : c.isDigit = false := by
        refine Bool.eq_false_iff.mpr fun hdigit => ?_
        have := toNat_isDigit hdigit
        omega
      unfold number?
      rw [between?_eq_none hquote]
      dsimp only
      split
      case h_1 heq => exact absurd (List.cons.inj heq).1 hminus
      case h_2 => simp [literal?, hdigit]

/-- The text of a number that can be read is this number. Otherwise it is no operand. -/
theorem readOperand_number {v : Int} {value? : Option Int}
    (h : number? (toString v).toList = .ok value?) :
    readOperand (toString v).toList =
      (value?.map fun value => pure (.imm value)).getD
        (throw (.unreadableOperand (toString v))) := by
  have hsolid := (plain_toString v).solid
  obtain ⟨c, rest, htext, hc⟩ := toString_eq_cons v
  have hfirst : c ≠ '[' ∧ c.toLower ≠ 'e' ∧ isNameStart c = false := by
    rcases hc with rfl | hc
    · decide
    · have hrange := toNat_isDigit hc
      refine ⟨ne_of_toNat_ne (by simp only [Char.reduceToNat]; omega), ?_, ?_⟩
      · rw [toLower_of_isDigit hc]
        exact ne_of_toNat_ne (by simp only [Char.reduceToNat]; omega)
      · refine Bool.eq_false_iff.mpr fun hstart => ?_
        have := toNat_isNameStart hstart
        omega
  have hstring : String.ofList (c :: rest) = toString v := by rw [← htext, String.ofList_toList]
  unfold readOperand
  rw [hsolid.trimmed.trim, dropSize_eq_self hsolid]
  rw [htext] at h ⊢
  simp only [between?_eq_none hfirst.1, ofName?_eq_none hfirst.2.1, h]
  cases value? with
  | some value => rfl
  | none =>
      have hname : isName (c :: rest) = false := by rw [isName, hfirst.2.2, Bool.false_and]
      change (if isName (c :: rest) = true then _ else
        throw (.unreadableOperand (String.ofList (c :: rest))) : Reading (Operand String)) = _
      rw [hname, if_neg Bool.false_ne_true, hstring]
      rfl

/-- An operand is read back from its written form. -/
theorem readOperand_render {a : Operand String} (h : Readable a) :
    readOperand (a.render id).toList = pure a := by
  have hsolid := solid_render h.writable
  cases a with
  | imm v => exact readOperand_number (number?_toString h)
  | reg r =>
      unfold readOperand
      rw [hsolid.trimmed.trim, dropSize_eq_self hsolid]
      have hbracket : between? '[' ']' r.name.toList = none := by cases r <;> decide
      simp only [Operand.render, hbracket, ofName?_reg]
  | mem m =>
      unfold readOperand
      rw [hsolid.trimmed.trim, dropSize_eq_self hsolid]
      have hbracket : between? '[' ']' m.render.toList =
          some (m.base.name.toList ++ displacement m.disp.toInt) := by
        rw [toList_render_mem]
        simp [between?, Text.dropFirst?, Text.dropLast?]
      simp only [Operand.render, hbracket, readMem_render]
      rfl
  | label name =>
      unfold readOperand
      rw [hsolid.trimmed.trim, dropSize_eq_self hsolid]
      obtain ⟨hname, hreg⟩ := h
      have hbracket : between? '[' ']' name.toList = none := by
        cases htext : name.toList with
        | nil => rfl
        | cons c rest =>
            rw [htext, isName, Bool.and_eq_true] at hname
            have hrange := toNat_isNameStart hname.1
            exact between?_eq_none (ne_of_toNat_ne (by simp only [Char.reduceToNat]; omega))
      simp only [Operand.render, id, hbracket, hreg, number?_of_isName hname]
      change (if isName name.toList = true then pure (Operand.label (String.ofList name.toList))
        else _ : Reading (Operand String)) = _
      rw [if_pos hname, String.ofList_toList]

end Ia32.Asm

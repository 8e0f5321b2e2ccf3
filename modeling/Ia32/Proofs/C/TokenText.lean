import Ia32.Proofs.Asm.OperandText
import Ia32.Proofs.C.Lexical
import Ia32.Proofs.C.Onward
import Ia32.Proofs.Text.Numeral

/-!
# Written tokens are scanned back

Tokens that are spelled one after another, with a gap between each two of them, are scanned as
these tokens, each on the line on which its first character stands. A cursor walks over them and
stays at the end. A gap is any mixture of blanks and comments that end with their line.
-/

namespace Ia32.C

/-- Blanks, and comments up to the end of their line. -/
inductive Gap : List Char → Prop
  | nil : Gap []
  | blank {c : Char} {s : List Char} (hc : Text.isBlank c) (h : Gap s) : Gap (c :: s)
  | comment {body s : List Char} (hbody : '\n' ∉ body) (h : Gap s) :
      Gap ('/' :: '/' :: (body ++ '\n' :: s))

/-- The spelling of the tokens that have only one. -/
def TokenKind.spelling? : TokenKind → Option String
  | .notEqual => some "!="
  | .assign => some "="
  | .plus => some "+"
  | .star => some "*"
  | .semicolon => some ";"
  | .comma => some ","
  | .lparen => some "("
  | .rparen => some ")"
  | .lbrace => some "\x7b"
  | .rbrace => some "\x7d"
  | .less => some "<"
  | .kwInt => some "int"
  | .kwChar => some "char"
  | .kwVoid => some "void"
  | .kwMain => some "main"
  | .kwReturn => some "return"
  | .kwIf => some "if"
  | .kwElse => some "else"
  | .kwSyscall => some "syscall"
  | .kwWhile => some "while"
  | _ => none

/-- How tokens are spelled. Numbers fit a word and are decimal or hexadecimal, an identifier is a
word that spells no other token, and the content of a string has no quote. -/
inductive Spelled : TokenKind → List Char → Prop
  | fixed {kind : TokenKind} {s : String} (h : kind.spelling? = some s) : Spelled kind s.toList
  | ident {name : String} (hword : IsWord name)
      (hname : ∀ kind : TokenKind, kind.spelling? ≠ some name) : Spelled (.ident name) name.toList
  | decimal {s : List Char} {n : Nat} (h : Text.Numeral 10 s n) (hn : n < 2 ^ 32) :
      Spelled (.number n) s
  | hexadecimal {x : Char} {s : List Char} {n : Nat} (hx : x = 'x' ∨ x = 'X')
      (h : Text.Numeral 16 s n) (hn : n < 2 ^ 32) : Spelled (.number n) ('0' :: x :: s)
  | text {content : String} (h : '"' ∉ content.toList) :
      Spelled (.text content) ('"' :: (content.toList ++ ['"']))

/-- A token with its spelling and the gap in front of it. -/
structure SpelledToken where
  gap : List Char
  kind : TokenKind
  spelling : List Char

/-- The text of a piece. -/
def SpelledToken.text (p : SpelledToken) : List Char :=
  p.gap ++ p.spelling

/-- The text of pieces one after another. -/
def textOf (pieces : List SpelledToken) : List Char :=
  pieces.flatMap SpelledToken.text

/-- Spelled tokens with gaps, of which only the first may be empty. -/
structure Printed (pieces : List SpelledToken) : Prop where
  spelled : ∀ p ∈ pieces, Spelled p.kind p.spelling
  gaps : ∀ p ∈ pieces, Gap p.gap
  apart : ∀ p ∈ pieces.tail, p.gap ≠ []

/-- A token of a text that starts on a line, with the line of its first character. -/
def tokenAt? (line : Nat) (pieces : List SpelledToken) (k : Nat) : Option Token :=
  pieces[k]?.map fun p => ⟨p.kind, line + Scan.lineEnds (textOf (pieces.take k) ++ p.gap)⟩

/-- A spelled token is neither the end nor invalid. -/
theorem Spelled.valid {kind : TokenKind} {s : List Char} (h : Spelled kind s) :
    kind ≠ .eof ∧ ∀ cause, kind ≠ .invalid cause := by
  cases h with
  | fixed h =>
      constructor
      · rintro rfl
        cases h
      · rintro cause rfl
        cases h
  | _ => exact ⟨by simp, by simp⟩

/-- What is behind the first token is printed as well. -/
theorem Printed.tail {p : SpelledToken} {pieces : List SpelledToken} (h : Printed (p :: pieces)) :
    Printed pieces where
  spelled q hq := h.spelled q (List.mem_cons_of_mem p hq)
  gaps q hq := h.gaps q (List.mem_cons_of_mem p hq)
  apart q hq := h.apart q (List.mem_of_mem_tail hq)

namespace Scan

/-! ### Gaps -/

/-- Line ends are counted one text after the other. -/
theorem lineEnds_append (s t : List Char) : lineEnds (s ++ t) = lineEnds s + lineEnds t :=
  List.count_append

/-- The line number goes up at line ends only. -/
theorem lineAfter_eq (line : Nat) (c : Char) : lineAfter line c = line + lineEnds [c] := by
  by_cases h : c = '\n'
  · simp [lineAfter, lineEnds, h]
  · simp [lineAfter, lineEnds, h]

theorem lineEnds_eq_zero {s : List Char} (h : '\n' ∉ s) : lineEnds s = 0 :=
  List.count_eq_zero.mpr h

/-- A comment is skipped up to the end of its line. -/
theorem skipTrivia_comment {body : List Char} (hbody : '\n' ∉ body) (line : Nat)
    (rest : List Char) :
    skipTrivia true line (body ++ '\n' :: rest) = skipTrivia false (line + 1) rest := by
  induction body with
  | nil => simp [skipTrivia, lineAfter]
  | cons c body ih =>
      rw [List.mem_cons, not_or] at hbody
      obtain ⟨hc, hbody⟩ := hbody
      have hne : (c != '\n') = true := by simpa using Ne.symm hc
      rw [List.cons_append, skipTrivia, if_pos rfl, hne, lineAfter, if_neg (Ne.symm hc)]
      exact ih hbody

/-- A gap is skipped, and its line ends are counted. -/
theorem skipTrivia_gap {gap : List Char} (h : Gap gap) (line : Nat) (rest : List Char) :
    skipTrivia false line (gap ++ rest) = skipTrivia false (line + lineEnds gap) rest := by
  induction h generalizing line with
  | nil => rfl
  | @blank c s hc h ih =>
      rw [List.cons_append, skipTrivia, if_neg Bool.false_ne_true, if_pos hc, ih, lineAfter_eq,
        Nat.add_assoc, ← lineEnds_append]
      rfl
  | @comment body s hbody h ih =>
      have hslash : skipTrivia false line ('/' :: '/' :: (body ++ '\n' :: s) ++ rest) =
          skipTrivia true line (body ++ '\n' :: (s ++ rest)) := by
        simp [skipTrivia, lineAfter, show Text.isBlank '/' = false from by decide]
      have hcount : lineEnds ('/' :: '/' :: (body ++ '\n' :: s)) = 1 + lineEnds s := by
        rw [show '/' :: '/' :: (body ++ '\n' :: s) = ['/', '/'] ++ body ++ ['\n'] ++ s by simp,
          lineEnds_append, lineEnds_append, lineEnds_append, lineEnds_eq_zero hbody]
        rfl
      rw [hslash, skipTrivia_comment hbody, ih, hcount, Nat.add_assoc]

/-- In front of a token nothing is skipped. -/
theorem skipTrivia_token {c : Char} (hblank : Text.isBlank c = false) (hslash : c ≠ '/')
    (line : Nat) (rest : List Char) : skipTrivia false line (c :: rest) = (line, c :: rest) := by
  simp [skipTrivia, hblank, hslash]

/-! ### What follows a token -/

/-- A text that does not go on with a letter, a digit or an underscore. -/
def Closed (rest : List Char) : Prop :=
  ∀ c ∈ rest.head?, isWordChar c = false

theorem isBlank_of_isWordChar {c : Char} (h : isWordChar c = true) : Text.isBlank c = false := by
  refine Asm.isBlank_of_isNameChar ?_
  rw [Asm.isNameChar]
  exact (Bool.or_eq_true _ _).mpr (.inl h)

/-- A gap that is not empty closes the token in front of it. -/
theorem closed_append {gap : List Char} (h : Gap gap) {rest : List Char}
    (hrest : gap = [] → Closed rest) : Closed (gap ++ rest) := by
  cases h with
  | nil => exact hrest rfl
  | blank hc =>
      intro c hhead
      cases hhead
      refine Bool.eq_false_iff.mpr fun hword => ?_
      rw [isBlank_of_isWordChar hword] at hc
      cases hc
  | comment =>
      intro c hhead
      cases hhead
      decide

/-- The longest run of characters of a class is what stands in front of a character outside. -/
theorem span_append {p : Char → Bool} {s : List Char} (hs : ∀ c ∈ s, p c = true)
    (rest : List Char) (hrest : ∀ c ∈ rest.head?, p c = false) :
    (s ++ rest).takeWhile p = s ∧ (s ++ rest).dropWhile p = rest := by
  have hnone : rest.takeWhile p = [] ∧ rest.dropWhile p = rest := by
    cases rest with
    | nil => exact ⟨rfl, rfl⟩
    | cons c rest =>
        have hc := hrest c rfl
        exact ⟨List.takeWhile_cons_of_neg (by simp [hc]), List.dropWhile_cons_of_neg (by simp [hc])⟩
  rw [List.takeWhile_append_of_pos hs, List.dropWhile_append_of_pos hs, hnone.1, hnone.2,
    List.append_nil]
  exact ⟨rfl, rfl⟩

/-! ### Words -/

theorem ne_of_start {c : Char} (h : (c.isAlpha || c == '_') = true) {d : Char}
    (hd : (d.isAlpha || d == '_') = false) : c ≠ d := by
  rintro rfl
  rw [h] at hd
  cases hd

theorem ofSymbol?_of_start {c : Char} (h : (c.isAlpha || c == '_') = true) :
    TokenKind.ofSymbol? c = none := by
  unfold TokenKind.ofSymbol?
  split <;> first | rfl | exact absurd h (by decide)

theorem isDigit_of_start {c : Char} (h : (c.isAlpha || c == '_') = true) : c.isDigit = false := by
  have hname : Asm.isNameStart c = true := by
    rw [Asm.isNameStart, h, Bool.true_or]
  have hrange := Asm.toNat_isNameStart hname
  refine Bool.eq_false_iff.mpr fun hdigit => ?_
  have := Asm.toNat_isDigit hdigit
  omega

/-- A word is scanned as a whole. -/
theorem front_word {c : Char} {word rest : List Char} (hc : (c.isAlpha || c == '_') = true)
    (hword : word.all isWordChar) (hrest : Closed rest) :
    front c (word ++ rest) = ⟨.ofWord (String.ofList (c :: word)), 0, rest⟩ := by
  have hchars : ∀ d ∈ c :: word, isWordChar d = true :=
    List.forall_mem_cons.mpr ⟨isWordChar_of_start hc, List.all_eq_true.mp hword⟩
  obtain ⟨htake, hdrop⟩ := span_append hchars rest hrest
  rw [List.cons_append] at htake hdrop
  have hexclamation : c ≠ '!' := ne_of_start hc (by decide)
  have hquote : c ≠ '"' := ne_of_start hc (by decide)
  unfold front
  rw [if_neg (fun h => hexclamation h.1), ofSymbol?_of_start hc]
  dsimp only
  rw [isDigit_of_start hc, if_neg Bool.false_ne_true, if_neg hquote, if_pos hc, htake, hdrop]
  rfl

/-- A word that spells no other token is an identifier. -/
theorem ofWord_ident {name : String} (h : ∀ kind : TokenKind, kind.spelling? ≠ some name) :
    TokenKind.ofWord name = .ident name := by
  have hkeyword : ∀ entry ∈ TokenKind.keywords, entry.2.spelling? = some entry.1 := by decide
  have hlookup : TokenKind.keywords.lookup name = none := by
    rw [List.lookup_eq_none_iff]
    intro entry hentry
    rw [bne_iff_ne]
    rintro rfl
    exact h entry.2 (hkeyword entry hentry)
  rw [TokenKind.ofWord, hlookup]
  rfl

/-! ### Numbers -/

/-- Digits of a numeral that nothing spoils stand for its number. -/
theorem numberOf_numeral {base : Nat} (hbase : base ≤ 16) {digits : List Char} {n : Nat}
    (h : Text.Numeral base digits n) (hn : n < 2 ^ 32) (lexeme : List Char) {rest : List Char}
    (hrest : Closed rest) : numberOf lexeme base digits rest = (.number n, rest) := by
  have htail := span_append (p := isWordChar) (s := []) (by simp) rest hrest
  rw [List.nil_append] at htail
  have hmax : (some n).filter (· ≤ maxNumber) = some n := by
    rw [Option.filter_some, if_pos]
    rw [decide_eq_true_eq, maxNumber]
    omega
  simp [numberOf, htail.1, htail.2, h.ne_nil, h.natural? hbase, hmax]

/-- Decimal digits are read as their number up to the next character that is no part of a word. -/
theorem number_decimal {s : List Char} {n : Nat} (h : Text.Numeral 10 s n) (hn : n < 2 ^ 32)
    {rest : List Char} (hrest : Closed rest) : number (s ++ rest) = (.number n, rest) := by
  have hdigits := h.isDecimal
  have hspan := span_append hdigits rest fun c hc => by
    have hword := hrest c hc
    simp only [isWordChar, Char.isAlphanum, Bool.or_eq_false_iff] at hword
    exact hword.1.2
  have hdecimal : numberOf ((s ++ rest).takeWhile Char.isDigit) 10
      ((s ++ rest).takeWhile Char.isDigit) ((s ++ rest).dropWhile Char.isDigit) =
        (.number n, rest) := by
    rw [hspan.1, hspan.2, numberOf_numeral (by decide) h hn s hrest]
  -- The second character is a digit or closes the number: the literal is not hexadecimal.
  have hmark : ∀ x t, s ++ rest = '0' :: x :: t → ¬(x = 'x' ∨ x = 'X') := by
    intro x t heq hx
    have hword : isWordChar x = true := by rcases hx with rfl | rfl <;> decide
    rcases s with _ | ⟨c, _ | ⟨d, s⟩⟩
    · exact h.ne_nil rfl
    · cases heq
      rw [hrest x rfl] at hword
      cases hword
    · cases heq
      have hdigit := hdigits x (by simp)
      rcases hx with rfl | rfl <;> exact absurd hdigit (by decide)
  unfold number
  split
  case h_1 x t heq =>
    rw [if_neg (hmark x t heq)]
    exact hdecimal
  case h_2 => exact hdecimal

theorem isWordChar_of_isHexDigit {c : Char} (h : isHexDigit c = true) : isWordChar c = true := by
  have hdigits : ∀ d < 16, isWordChar (Nat.digitChar d) = true ∧
      isWordChar (Nat.digitChar d).toUpper = true := by decide
  obtain ⟨d, hd⟩ := Option.isSome_iff_exists.mp h
  obtain ⟨hlt, rfl | rfl⟩ := (Text.digit?_eq_some_iff (Nat.le_refl 16)).mp hd
  · exact (hdigits d hlt).1
  · exact (hdigits d hlt).2

theorem isHexDigit_of_numeral {s : List Char} {n : Nat} (h : Text.Numeral 16 s n) :
    ∀ c ∈ s, isHexDigit c = true := by
  intro c hc
  obtain ⟨d, hd⟩ := h.isDigit c hc
  rw [isHexDigit, (Text.digit?_eq_some_iff (Nat.le_refl 16)).mpr hd, Option.isSome_some]

theorem number_hexadecimal {x : Char} (hx : x = 'x' ∨ x = 'X') {s : List Char} {n : Nat}
    (h : Text.Numeral 16 s n) (hn : n < 2 ^ 32) {rest : List Char} (hrest : Closed rest) :
    number ('0' :: x :: (s ++ rest)) = (.number n, rest) := by
  have hspan := span_append (isHexDigit_of_numeral h) rest fun c hc => by
    refine Bool.eq_false_iff.mpr fun hhex => ?_
    have hword := hrest c hc
    rw [isWordChar_of_isHexDigit hhex] at hword
    cases hword
  simp only [number, if_pos hx, hspan.1, hspan.2]
  exact numberOf_numeral (Nat.le_refl 16) h hn _ hrest

/-! ### Tokens in front -/

/-- Behind nothing that is skipped, a spelling is scanned as a token up to a rest. -/
def Scanned (kind : TokenKind) (s rest : List Char) : Prop :=
  ∃ c t, s = c :: t ∧ Text.isBlank c = false ∧ c ≠ '/' ∧
    front c (t ++ rest) = ⟨kind, lineEnds s, rest⟩

theorem lineEnds_of_isWordChar {s : List Char} (h : ∀ c ∈ s, isWordChar c = true) :
    lineEnds s = 0 :=
  lineEnds_eq_zero fun hmem => absurd (h _ hmem) (by decide)

theorem ne_slash_of_isWordChar {c : Char} (h : isWordChar c = true) : c ≠ '/' := by
  rintro rfl
  exact absurd h (by decide)

/-- A word is scanned as a keyword or an identifier, in the line it stands in. -/
theorem scanned_word {name : String} (hword : IsWord name) {rest : List Char}
    (hrest : Closed rest) : Scanned (.ofWord name) name.toList rest := by
  obtain ⟨c, word, hname, hc, hall⟩ := hword
  have hchars : ∀ d ∈ name.toList, isWordChar d = true := by
    rw [hname]
    exact List.forall_mem_cons.mpr ⟨isWordChar_of_start hc, List.all_eq_true.mp hall⟩
  refine ⟨c, word, hname, isBlank_of_isWordChar (isWordChar_of_start hc),
    ne_slash_of_isWordChar (isWordChar_of_start hc), ?_⟩
  rw [front_word hc hall hrest, ← hname, String.ofList_toList, lineEnds_of_isWordChar hchars]

/-- A single character that is a token of its own is scanned as that token. -/
theorem front_symbol {c : Char} {kind : TokenKind} (h : TokenKind.ofSymbol? c = some kind)
    (rest : List Char) : front c rest = ⟨kind, 0, rest⟩ := by
  have hexclamation : c ≠ '!' := by
    rintro rfl
    cases h
  simp [front, hexclamation, h, Lexeme.inLine]

theorem isWordChar_of_isDigit {c : Char} (h : c.isDigit = true) : isWordChar c = true := by
  simp [isWordChar, Char.isAlphanum, h]

theorem ofSymbol?_of_isDigit {c : Char} (h : c.isDigit = true) : TokenKind.ofSymbol? c = none := by
  unfold TokenKind.ofSymbol?
  split <;> first | rfl | exact absurd h (by decide)

theorem front_digit {c : Char} (h : c.isDigit = true) (rest : List Char) :
    front c rest = .inLine (number (c :: rest)) := by
  have hexclamation : c ≠ '!' := by
    rintro rfl
    exact absurd h (by decide)
  simp [front, hexclamation, ofSymbol?_of_isDigit h, h]

/-- A text of word characters that is read as a number. -/
theorem scanned_number {c : Char} {s rest : List Char} {n : Nat} (hc : c.isDigit = true)
    (hs : ∀ d ∈ s, isWordChar d = true) (h : number (c :: (s ++ rest)) = (.number n, rest)) :
    Scanned (.number n) (c :: s) rest := by
  have hword := isWordChar_of_isDigit hc
  refine ⟨c, s, rfl, isBlank_of_isWordChar hword, ne_slash_of_isWordChar hword, ?_⟩
  rw [front_digit hc, h, lineEnds_of_isWordChar (List.forall_mem_cons.mpr ⟨hword, hs⟩)]
  rfl

/-- A string is scanned with all of its line ends. -/
theorem scanned_text {content : String} (h : '"' ∉ content.toList) (rest : List Char) :
    Scanned (.text content) ('"' :: (content.toList ++ ['"'])) rest := by
  have hcontent : ∀ c ∈ content.toList, (c != '"') = true := by
    intro c hc
    rw [bne_iff_ne]
    rintro rfl
    exact h hc
  have hspan := span_append hcontent ('"' :: rest) (by simp)
  have hlines : lineEnds ('"' :: (content.toList ++ ['"'])) = lineEnds content.toList := by
    rw [← List.singleton_append, lineEnds_append, lineEnds_append]
    simp [lineEnds]
  refine ⟨'"', content.toList ++ ['"'], rfl, by decide, by decide, ?_⟩
  rw [hlines, List.append_assoc, List.singleton_append]
  have hfront : ∀ t, front '"' t = text t := fun t => by
    simp [front, TokenKind.ofSymbol?, show ('"').isDigit = false from by decide]
  rw [hfront, text, hspan.1, hspan.2]
  simp

/-- A token that has one spelling is a symbol or a word. -/
theorem spelling?_cases {kind : TokenKind} {s : String} (h : kind.spelling? = some s) :
    (∃ c, s.toList = [c] ∧ Text.isBlank c = false ∧ c ≠ '/' ∧ c ≠ '\n' ∧
        TokenKind.ofSymbol? c = some kind) ∨
      (kind = .notEqual ∧ s.toList = ['!', '=']) ∨ (IsWord s ∧ TokenKind.ofWord s = kind) := by
  cases kind
  all_goals cases h
  case notEqual => exact .inr (.inl ⟨rfl, by decide⟩)
  case assign => exact .inl ⟨'=', by decide⟩
  case plus => exact .inl ⟨'+', by decide⟩
  case star => exact .inl ⟨'*', by decide⟩
  case semicolon => exact .inl ⟨';', by decide⟩
  case comma => exact .inl ⟨',', by decide⟩
  case lparen => exact .inl ⟨'(', by decide⟩
  case rparen => exact .inl ⟨')', by decide⟩
  case lbrace => exact .inl ⟨'\x7b', by decide⟩
  case rbrace => exact .inl ⟨'\x7d', by decide⟩
  case less => exact .inl ⟨'<', by decide⟩
  all_goals exact .inr (.inr ⟨⟨_, _, rfl, by decide, by decide⟩, by decide⟩)

/-- A token with one spelling is scanned from that spelling. -/
theorem scanned_fixed {kind : TokenKind} {s : String} (h : kind.spelling? = some s)
    {rest : List Char} (hrest : Closed rest) : Scanned kind s.toList rest := by
  rcases spelling?_cases h with
    ⟨c, hs, hblank, hslash, hnewline, hsymbol⟩ | ⟨rfl, hs⟩ | ⟨hword, rfl⟩
  · refine ⟨c, [], hs, hblank, hslash, ?_⟩
    rw [front_symbol hsymbol, hs, lineEnds_eq_zero (by simpa using hnewline.symm)]
    rfl
  · refine ⟨'!', ['='], hs, by decide, by decide, ?_⟩
    rw [hs]
    rfl
  · exact scanned_word hword hrest

/-- Every spelling is scanned as its token. -/
theorem scanned_of_spelled {kind : TokenKind} {s : List Char} (h : Spelled kind s)
    {rest : List Char} (hrest : Closed rest) : Scanned kind s rest := by
  cases h with
  | fixed h => exact scanned_fixed h hrest
  | ident hword hname =>
      have hscanned := scanned_word hword hrest
      rwa [ofWord_ident hname] at hscanned
  | decimal h hn =>
      obtain ⟨c, t, rfl⟩ := List.exists_cons_of_ne_nil h.ne_nil
      obtain ⟨hc, ht⟩ := List.forall_mem_cons.mp h.isDecimal
      exact scanned_number hc (fun d hd => isWordChar_of_isDigit (ht d hd))
        (number_decimal h hn hrest)
  | @hexadecimal x s n hx h hn =>
      refine scanned_number (by decide) ?_ (number_hexadecimal hx h hn hrest)
      refine List.forall_mem_cons.mpr ⟨by rcases hx with rfl | rfl <;> decide, fun c hc => ?_⟩
      exact isWordChar_of_isHexDigit (isHexDigit_of_numeral h c hc)
  | text h => exact scanned_text h rest

/-- Every token but those of broken text and of texts with a quote has a spelling. -/
theorem exists_spelled {kind : TokenKind} (hlexical : kind.Lexical)
    (hvalid : ∀ cause, kind ≠ .invalid cause)
    (htext : ∀ content, kind = .text content → '"' ∉ content.toList) : ∃ s, Spelled kind s := by
  cases kind
  case ident name =>
    obtain ⟨hword, hkeyword⟩ := hlexical
    refine ⟨name.toList, .ident hword fun kind hkind => ?_⟩
    obtain ⟨c, rest, hname, hc, -⟩ := hword
    rcases spelling?_cases hkind with ⟨d, hd, -, -, -, hsymbol⟩ | ⟨-, hd⟩ | ⟨-, rfl⟩
    · cases hname.symm.trans hd
      rw [ofSymbol?_of_start hc] at hsymbol
      cases hsymbol
    · cases hname.symm.trans hd
      exact absurd hc (by decide)
    · rw [TokenKind.ofWord, hkeyword] at hkind
      cases hkind
  case number value =>
    refine ⟨Nat.toDigits 10 value, .decimal (Text.numeral_toDigits (by decide) value) ?_⟩
    exact Nat.lt_succ_of_le hlexical
  case text content => exact ⟨_, .text (htext content rfl)⟩
  case invalid cause => exact absurd rfl (hvalid cause)
  case eof => exact hlexical.elim
  all_goals exact ⟨_, .fixed rfl⟩

/-! ### Runs of tokens -/

theorem textOf_cons (p : SpelledToken) (pieces : List SpelledToken) :
    textOf (p :: pieces) = p.gap ++ (p.spelling ++ textOf pieces) := by
  rw [textOf, List.flatMap_cons, SpelledToken.text, List.append_assoc]
  rfl

theorem tokenAt?_succ (line : Nat) (p : SpelledToken) (pieces : List SpelledToken) (k : Nat) :
    tokenAt? line (p :: pieces) (k + 1) = tokenAt? (line + lineEnds p.text) pieces k := by
  unfold tokenAt?
  rw [List.getElem?_cons_succ]
  refine congrArg (Option.map · pieces[k]?) (funext fun q => ?_)
  rw [List.take_succ_cons, textOf, List.flatMap_cons, List.append_assoc, lineEnds_append,
    Nat.add_assoc]
  rfl

/-- Behind a token a gap or the end of the text follows. -/
theorem closed_behind {p : SpelledToken} {pieces : List SpelledToken} (h : Printed (p :: pieces))
    {last : List Char} (hlast : Gap last) : Closed (textOf pieces ++ last) := by
  have hend : Closed [] := fun c hc => by cases hc
  cases pieces with
  | nil =>
      rw [show textOf [] ++ last = last ++ [] by simp [textOf]]
      exact closed_append hlast fun _ => hend
  | cons q pieces =>
      have happart := h.apart q List.mem_cons_self
      rw [textOf_cons, List.append_assoc]
      exact closed_append (h.gaps q (by simp)) fun hnil => absurd hnil happart

/-- A piece in front of a text is scanned first. -/
theorem scanFrom_cons {p : SpelledToken} {rest : List Char} (hspelled : Spelled p.kind p.spelling)
    (hgap : Gap p.gap) (hrest : Closed rest) (fuel line : Nat) :
    scanFrom (fuel + 1) line (p.gap ++ (p.spelling ++ rest)) =
      let others := scanFrom fuel (line + lineEnds p.text) rest
      ⟨⟨p.kind, line + lineEnds p.gap⟩ :: others.tokens, others.lastLine⟩ := by
  obtain ⟨c, t, hs, hblank, hslash, hfront⟩ := scanned_of_spelled hspelled hrest
  have hskip : skipTrivia false line (p.gap ++ (p.spelling ++ rest)) =
      (line + lineEnds p.gap, c :: (t ++ rest)) := by
    rw [skipTrivia_gap hgap, hs]
    exact skipTrivia_token hblank hslash _ _
  rw [scanFrom, hskip]
  dsimp only
  rw [hfront, SpelledToken.text, lineEnds_append, ← Nat.add_assoc]

/-- The scanner finds the printed tokens, each in its line. -/
theorem scanFrom_textOf {pieces : List SpelledToken} (h : Printed pieces) {last : List Char}
    (hlast : Gap last) (fuel line : Nat) (hfuel : (textOf pieces ++ last).length < fuel) :
    (∀ k, (scanFrom fuel line (textOf pieces ++ last)).tokens[k]? = tokenAt? line pieces k) ∧
      (scanFrom fuel line (textOf pieces ++ last)).lastLine =
        line + lineEnds (textOf pieces ++ last) := by
  induction pieces generalizing fuel line with
  | nil =>
      -- only a gap is left, so the scanner stops
      have hskip := skipTrivia_gap hlast line []
      rw [List.append_nil] at hskip
      obtain ⟨fuel, rfl⟩ := Nat.exists_eq_add_of_lt hfuel
      have hscan (fuel : Nat) : scanFrom (fuel + 1) line last = ⟨[], line + lineEnds last⟩ := by
        rw [scanFrom, hskip]
        rfl
      rw [textOf, List.flatMap_nil, List.nil_append, hscan]
      exact ⟨fun k => rfl, rfl⟩
  | cons p pieces ih =>
      have hspelled := h.spelled p List.mem_cons_self
      obtain ⟨c, t, hs, -⟩ := scanned_of_spelled hspelled (closed_behind h hlast)
      have hlength : (textOf pieces ++ last).length < fuel - 1 := by
        rw [textOf_cons, hs] at hfuel
        simp only [List.length_append, List.length_cons] at hfuel ⊢
        omega
      obtain ⟨fuel, rfl⟩ := Nat.exists_eq_add_of_lt (Nat.zero_lt_of_lt hfuel)
      rw [Nat.zero_add] at hlength ⊢
      obtain ⟨htokens, hline⟩ := ih h.tail fuel (line + lineEnds p.text) hlength
      rw [textOf_cons, List.append_assoc, List.append_assoc,
        scanFrom_cons hspelled (h.gaps p List.mem_cons_self) (closed_behind h hlast)]
      constructor
      · intro k
        cases k with
        | zero => rfl
        | succ k => rw [tokenAt?_succ, ← htokens k, List.getElem?_cons_succ]
      · dsimp only
        rw [hline, Nat.add_assoc, ← lineEnds_append, SpelledToken.text, List.append_assoc]

end Scan

/-! ### The cursor -/

namespace Cursor

/-- Over tokens that are valid, a cursor takes one after another and stays at the end. -/
theorem current_iterate_next {tokens : List Token} (lastLine : Nat)
    (htokens : ∀ token ∈ tokens, token.kind ≠ .eof ∧ ∀ cause, token.kind ≠ .invalid cause)
    (diagnostics : List Diagnostic) (k : Nat) :
    (next^[k] (settle lastLine diagnostics tokens)).current =
        tokens[k]?.getD ⟨.eof, lastLine⟩ ∧
      (next^[k] (settle lastLine diagnostics tokens)).diagnostics = diagnostics := by
  induction tokens generalizing k with
  | nil =>
      have hstays : next (settle lastLine diagnostics []) = settle lastLine diagnostics [] :=
        next_of_eof rfl
      rw [Function.iterate_fixed hstays]
      exact ⟨rfl, rfl⟩
  | cons token tokens ih =>
      obtain ⟨⟨heof, hvalid⟩, htokens⟩ := List.forall_mem_cons.mp htokens
      have hsettle : settle lastLine diagnostics (token :: tokens) =
          ⟨token, tokens, lastLine, diagnostics⟩ := by
        rw [settle]
        split
        next cause heq => exact absurd heq (hvalid cause)
        · rfl
      cases k with
      | zero => simp [hsettle]
      | succ k =>
          have hnext : next ⟨token, tokens, lastLine, diagnostics⟩ =
              settle lastLine diagnostics tokens := next_of_ne_eof heof
          rw [Function.iterate_succ_apply, hsettle, hnext]
          exact ih htokens k

end Cursor

/-! ### Printed texts -/

/-- Printed tokens are scanned back: there are these tokens and no others, each on the line on
which its first character stands, and a cursor takes them in order without a remark and then stays
at the end of the text. -/
theorem scan_printed {pieces : List SpelledToken} (h : Printed pieces) {last : List Char}
    (hlast : Gap last) :
    let scan := Scan.ofSource (String.ofList (textOf pieces ++ last))
    (∀ k, scan.tokens[k]? = tokenAt? 1 pieces k) ∧
      ∀ k, (Cursor.next^[k] (Cursor.ofScan scan)).current =
          (tokenAt? 1 pieces k).getD ⟨.eof, 1 + Scan.lineEnds (textOf pieces ++ last)⟩ ∧
        (Cursor.next^[k] (Cursor.ofScan scan)).diagnostics = [] := by
  intro scan
  obtain ⟨htokens, hline⟩ := Scan.scanFrom_textOf h hlast
    ((textOf pieces ++ last).length + 1) 1 (Nat.lt_succ_self _)
  have hscan : scan = Scan.scanFrom ((textOf pieces ++ last).length + 1) 1
      (textOf pieces ++ last) := by
    simp only [scan, Scan.ofSource, String.toList_ofList]
  rw [← hscan] at htokens hline
  have hvalid : ∀ token ∈ scan.tokens,
      token.kind ≠ .eof ∧ ∀ cause, token.kind ≠ .invalid cause := by
    intro token htoken
    obtain ⟨k, hk⟩ := List.mem_iff_getElem?.mp htoken
    rw [htokens k] at hk
    obtain ⟨p, hp, rfl⟩ := Option.map_eq_some_iff.mp hk
    exact (h.spelled p (List.mem_of_getElem? hp)).valid
  refine ⟨htokens, fun k => ?_⟩
  have hcursor := Cursor.current_iterate_next scan.lastLine hvalid [] k
  rw [htokens k, hline] at hcursor
  rwa [Cursor.ofScan, hline]

/-- Tokens between comments and other blanks than spaces. -/
def remarkedPieces : List SpelledToken :=
  [⟨[], .kwInt, "int".toList⟩,
    ⟨' ' :: '/' :: '/' :: ("a \"comment\" != int".toList ++ ['\n']), .ident "mainly",
      "mainly".toList⟩,
    ⟨['\u00a0', '\n'], .notEqual, "!=".toList⟩,
    ⟨[' '], .number 255, ['0', 'x', 'F', 'f']⟩,
    ⟨['\t'], .text "// no\ncomment", '"' :: ("// no\ncomment".toList ++ ['"'])⟩,
    ⟨[' '], .number 7, ['0', '0', '7']⟩]

theorem printed_remarkedPieces : Printed remarkedPieces where
  spelled := by
    have hseven : Text.Numeral 10 ['0', '0', '7'] 7 :=
      (Text.natural?_eq_some_iff (by decide)).mp (by decide)
    have hbyte : Text.Numeral 16 ['F', 'f'] 255 :=
      (Text.natural?_eq_some_iff (by decide)).mp (by decide)
    have hword : IsWord "mainly" := ⟨'m', "ainly".toList, by decide, by decide, by decide⟩
    have hname : ∀ kind : TokenKind, kind.spelling? ≠ some "mainly" := by
      intro kind
      cases kind <;> simp [TokenKind.spelling?]
    simp only [remarkedPieces, List.forall_mem_cons, List.not_mem_nil, false_imp_iff,
      implies_true, and_true]
    exact ⟨.fixed rfl, .ident hword hname, .fixed rfl, .hexadecimal (.inl rfl) hbyte (by decide),
      .text (by decide), .decimal hseven (by decide)⟩
  gaps := by
    have hspace : Gap [' '] := .blank (by decide) .nil
    simp only [remarkedPieces, List.forall_mem_cons, List.not_mem_nil, false_imp_iff,
      implies_true, and_true]
    exact ⟨.nil, .blank (by decide) (.comment (by decide) .nil),
      .blank (by decide) (.blank (by decide) .nil), hspace, .blank (by decide) .nil, hspace⟩
  apart := by decide

theorem scan_remarkedPieces :
    let source := "int //a \"comment\" != int\nmainly\u00a0\n!= 0xFf\t\"// no\ncomment\" 007\n"
    (Scan.ofSource source).tokens =
        [⟨.kwInt, 1⟩, ⟨.ident "mainly", 2⟩, ⟨.notEqual, 3⟩, ⟨.number 255, 3⟩,
          ⟨.text "// no\ncomment", 3⟩, ⟨.number 7, 4⟩] ∧
      (Cursor.next^[8] (Cursor.ofScan (Scan.ofSource source))).current = ⟨.eof, 5⟩ := by
  have hlast : Gap ['\n'] := .blank (by decide) .nil
  have hsource : String.ofList (textOf remarkedPieces ++ ['\n']) =
      "int //a \"comment\" != int\nmainly\u00a0\n!= 0xFf\t\"// no\ncomment\" 007\n" := by decide
  obtain ⟨htokens, hcursor⟩ := scan_printed printed_remarkedPieces hlast
  rw [hsource] at htokens hcursor
  refine ⟨List.ext_getElem? fun k => ?_, (hcursor 8).1.trans (by decide)⟩
  rw [htokens]
  match k with
  | 0 | 1 | 2 | 3 | 4 | 5 => decide
  | k + 6 => rfl

end Ia32.C

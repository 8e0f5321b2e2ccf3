import Mathlib
import Ia32.C.Names

/-!
# Tokens of source texts

What every token that comes out of a source text satisfies: numbers fit a word, and
identifiers are words other than the keywords. The end of the text is no token of it.
-/

namespace Ia32.C

/-- A letter or an underscore, followed by letters, digits and underscores. -/
def IsWord (name : String) : Prop :=
  ∃ c rest, name.toList = c :: rest ∧ (c.isAlpha || c == '_') ∧ rest.all Scan.isWordChar

/-- The tokens that scanning produces. -/
def TokenKind.Lexical : TokenKind → Prop
  | .ident name => IsWord name ∧ TokenKind.keywords.lookup name = none
  | .number value => value ≤ Scan.maxNumber
  | .eof => False
  | _ => True

namespace Scan

theorem lexical_numberOf (lexeme : List Char) (base : Nat) (digits after : List Char) :
    (numberOf lexeme base digits after).1.Lexical := by
  simp only [numberOf]
  split
  · trivial
  · split
    case h_1 value hvalue =>
      obtain ⟨-, hle⟩ := Option.filter_eq_some_iff.mp hvalue
      simpa [TokenKind.Lexical] using hle
    case h_2 => trivial

theorem lexical_number (s : List Char) : (number s).1.Lexical := by
  unfold number
  split
  · split
    · exact lexical_numberOf _ _ _ _
    · exact lexical_numberOf _ _ _ _
  · exact lexical_numberOf _ _ _ _

theorem isWordChar_of_start {c : Char} (h : (c.isAlpha || c == '_') = true) : isWordChar c := by
  simp only [Bool.or_eq_true, beq_iff_eq, isWordChar, Char.isAlphanum] at h ⊢
  rcases h with h | h
  · exact .inl (.inl h)
  · exact .inr h

theorem lexical_ofWord {c : Char} {rest : List Char} (h : (c.isAlpha || c == '_') = true) :
    (TokenKind.ofWord (String.ofList ((c :: rest).takeWhile isWordChar))).Lexical := by
  have hword : IsWord (String.ofList ((c :: rest).takeWhile isWordChar)) := by
    refine ⟨c, rest.takeWhile isWordChar, ?_, h, ?_⟩
    · rw [String.toList_ofList, List.takeWhile_cons_of_pos (isWordChar_of_start h)]
    · exact List.all_takeWhile
  generalize String.ofList _ = word at hword
  unfold TokenKind.ofWord
  cases hlookup : TokenKind.keywords.lookup word with
  | none => exact ⟨hword, hlookup⟩
  | some kind =>
      have hkeyword : ∀ entry ∈ TokenKind.keywords, entry.2.Lexical := by
        simp [TokenKind.keywords, TokenKind.Lexical]
      obtain ⟨entry, hentry, hkind⟩ : ∃ entry ∈ TokenKind.keywords, entry.2 = kind := by
        rw [List.lookup_eq_some_iff] at hlookup
        obtain ⟨front, back, hsplit, -⟩ := hlookup
        exact ⟨(word, kind), by rw [hsplit]; simp, rfl⟩
      exact hkind ▸ hkeyword entry hentry

theorem lexical_ofSymbol? {c : Char} {kind : TokenKind} (h : TokenKind.ofSymbol? c = some kind) :
    kind.Lexical := by
  unfold TokenKind.ofSymbol? at h
  split at h <;> first | (cases h; trivial) | cases h

/-- Every token is one the scanner can make. -/
theorem lexical_front (c : Char) (rest : List Char) : (front c rest).kind.Lexical := by
  unfold front
  split
  · trivial
  split
  case h_1 kind hkind => exact lexical_ofSymbol? hkind
  split
  · exact lexical_number _
  split
  · unfold text
    dsimp only
    split <;> trivial
  split
  next h => exact lexical_ofWord h
  · trivial

theorem lexical_scanFrom (fuel line : Nat) (s : List Char) :
    ∀ token ∈ (scanFrom fuel line s).tokens, token.kind.Lexical := by
  induction fuel generalizing line s with
  | zero => simp [scanFrom]
  | succ fuel ih =>
      unfold scanFrom
      split
      · simp
      case h_2 line' c rest _ =>
        intro token htoken
        rcases List.mem_cons.mp htoken with rfl | htoken
        · exact lexical_front c rest
        · exact ih _ _ token htoken

/-- Scanning produces lexical tokens only. -/
theorem lexical_ofSource (source : String) :
    ∀ kind ∈ (ofSource source).tokens.map Token.kind, kind.Lexical := by
  intro kind hkind
  obtain ⟨token, htoken, rfl⟩ := List.mem_map.mp hkind
  exact lexical_scanFrom _ _ _ token htoken

end Scan

end Ia32.C

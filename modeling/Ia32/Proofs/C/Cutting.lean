import Ia32.Proofs.C.Termination
import Ia32.Proofs.C.TokenText

/-!
# Cutting a text into its tokens

A source text is made of its tokens, of what stands in front of each of them, and of what stands
behind the last one. A token of a text without invalid ones can be replaced by a blank: the other
tokens stay what they are, since a blank closes the word in front of it.
-/

namespace Ia32.C

deriving instance DecidableEq for SpelledToken

namespace Scan

variable {c : Char} {s t rest rest' : List Char}

/-! ### Tokens in other surroundings -/

theorem closed_dropWhile (s : List Char) : Closed (s.dropWhile isWordChar) := by
  intro c hc
  have hhead := List.head?_dropWhile_not isWordChar s
  rwa [hc] at hhead

/-- A number that nothing spoils has nothing of a word behind it. -/
theorem numberOf_valid {lexeme digits after : List Char} {base : Nat} (hbase : base ≤ 16)
    (hvalid : ∀ cause, (numberOf lexeme base digits after).1 ≠ .invalid cause) :
    Closed after ∧ ∃ n, n < 2 ^ 32 ∧ Text.Numeral base digits n ∧
      numberOf lexeme base digits after = (.number n, after) := by
  simp only [numberOf] at hvalid
  split at hvalid
  · exact absurd rfl (hvalid _)
  next hclean =>
    obtain ⟨htail, -⟩ := not_or.mp (mt (Bool.or_eq_true _ _).mpr hclean)
    have hnone : after.takeWhile isWordChar = [] := by simpa using htail
    have hclosed : Closed after := by
      have hsplit := List.takeWhile_append_dropWhile (p := isWordChar) (l := after)
      rw [hnone, List.nil_append] at hsplit
      rw [← hsplit]
      exact closed_dropWhile after
    split at hvalid
    next value hvalue =>
      obtain ⟨hvalue, hle⟩ := Option.filter_eq_some_iff.mp hvalue
      have hnumeral := (Text.natural?_eq_some_iff hbase).mp hvalue
      have hlt : value < 2 ^ 32 := Nat.lt_succ_of_le (of_decide_eq_true hle)
      exact ⟨hclosed, value, hlt, hnumeral, numberOf_numeral hbase hnumeral hlt lexeme hclosed⟩
    next => exact absurd rfl (hvalid _)

/-- A valid number is the same in front of any other text that does not go on with a word. -/
theorem number_valid (hvalid : ∀ cause, (number s).1 ≠ .invalid cause) :
    ∃ t n, s = t ++ (number s).2 ∧ Closed (number s).2 ∧ (number s).1 = .number n ∧ t ≠ [] ∧
      ∀ rest', Closed rest' → number (t ++ rest') = (.number n, rest') := by
  by_cases hexadecimal : ∃ x rest, s = '0' :: x :: rest ∧ (x = 'x' ∨ x = 'X')
  · obtain ⟨x, rest, rfl, hx⟩ := hexadecimal
    have heq : number ('0' :: x :: rest) = numberOf ('0' :: x :: rest.takeWhile isHexDigit) 16
        (rest.takeWhile isHexDigit) (rest.dropWhile isHexDigit) := by
      simp only [number, if_pos hx]
    rw [heq] at hvalid ⊢
    obtain ⟨hclosed, n, hn, hnumeral, hnumber⟩ := numberOf_valid (Nat.le_refl 16) hvalid
    rw [hnumber]
    refine ⟨'0' :: x :: rest.takeWhile isHexDigit, n, ?_, hclosed, rfl, List.cons_ne_nil _ _,
      fun rest' hrest' => number_hexadecimal hx hnumeral hn hrest'⟩
    rw [List.cons_append, List.cons_append, List.takeWhile_append_dropWhile]
  · have heq : number s = numberOf (s.takeWhile Char.isDigit) 10 (s.takeWhile Char.isDigit)
        (s.dropWhile Char.isDigit) := by
      unfold number
      split
      next x rest => rw [if_neg fun hx => hexadecimal ⟨x, rest, rfl, hx⟩]
      next => rfl
    rw [heq] at hvalid ⊢
    obtain ⟨hclosed, n, hn, hnumeral, hnumber⟩ := numberOf_valid (by decide) hvalid
    rw [hnumber]
    exact ⟨s.takeWhile Char.isDigit, n, List.takeWhile_append_dropWhile.symm, hclosed, rfl,
      hnumeral.ne_nil, fun rest' hrest' => number_decimal hnumeral hn hrest'⟩

theorem front_quote (rest : List Char) : front '"' rest = text rest := by
  simp [front, TokenKind.ofSymbol?, show ('"').isDigit = false from by decide]

/-- A string that is closed is the same in front of any other text. -/
theorem text_valid (hvalid : ∀ cause, (text s).kind ≠ .invalid cause) :
    ∃ t, s = t ++ (text s).rest ∧
      ∀ rest', text (t ++ rest') = ⟨(text s).kind, (text s).lineEnds, rest'⟩ := by
  have hsplit := (List.takeWhile_append_dropWhile (p := (· != '"')) (l := s)).symm
  have hhead := List.head?_dropWhile_not (· != '"') s
  have hbody : ∀ c ∈ s.takeWhile (· != '"'), (c != '"') = true :=
    fun c hc => List.mem_takeWhile_imp (p := (· != '"')) hc
  simp only [text] at hvalid ⊢
  split at hvalid
  next quote rest hrest =>
    rw [hrest] at hsplit hhead
    obtain rfl : quote = '"' := by simpa using hhead
    refine ⟨s.takeWhile (· != '"') ++ ['"'], ?_, fun rest' => ?_⟩
    · rw [List.append_assoc]
      exact hsplit
    · have hspan := span_append hbody ('"' :: rest') (by simp)
      rw [List.append_assoc, List.singleton_append, hspan.1, hspan.2]
  next => exact absurd rfl (hvalid _)

/-- A token that is not invalid is the same in front of any other text, if that goes on with a
word only where the old one did. -/
theorem front_valid (hvalid : ∀ cause, (front c rest).kind ≠ .invalid cause) :
    ∃ t, rest = t ++ (front c rest).rest ∧
      ∀ rest', (Closed (front c rest).rest → Closed rest') →
        front c (t ++ rest') = ⟨(front c rest).kind, (front c rest).lineEnds, rest'⟩ := by
  by_cases hunequal : c = '!' ∧ rest.head? = some '='
  · obtain ⟨rfl, hhead⟩ := hunequal
    obtain ⟨more, rfl⟩ : ∃ more, rest = '=' :: more := by
      cases rest with
      | nil => cases hhead
      | cons d more => exact ⟨more, by rw [Option.some.inj hhead]⟩
    exact ⟨['='], rfl, fun rest' _ => rfl⟩
  cases hsymbol : TokenKind.ofSymbol? c with
  | some kind =>
      rw [front_symbol hsymbol]
      exact ⟨[], rfl, fun rest' _ => front_symbol hsymbol rest'⟩
  | none =>
      by_cases hdigit : c.isDigit = true
      · rw [front_digit hdigit] at hvalid ⊢
        obtain ⟨t, n, hsplit, hclosed, hkind, hne, hsame⟩ := number_valid hvalid
        obtain ⟨d, t, rfl⟩ := List.exists_cons_of_ne_nil hne
        obtain ⟨rfl, hrest⟩ := List.cons.inj hsplit
        refine ⟨t, hrest, fun rest' hrest' => ?_⟩
        rw [front_digit hdigit, ← List.cons_append, hsame rest' (hrest' hclosed)]
        simp [Lexeme.inLine, hkind]
      by_cases hquote : c = '"'
      · rw [hquote, front_quote] at hvalid ⊢
        obtain ⟨t, hsplit, hsame⟩ := text_valid hvalid
        exact ⟨t, hsplit, fun rest' _ => (front_quote _).trans (hsame rest')⟩
      by_cases hstart : (c.isAlpha || c == '_') = true
      · have hword := isWordChar_of_start hstart
        have hall : (rest.takeWhile isWordChar).all isWordChar := List.all_takeWhile
        have hfront := front_word hstart hall (closed_dropWhile rest)
        rw [List.takeWhile_append_dropWhile] at hfront
        rw [hfront]
        exact ⟨_, List.takeWhile_append_dropWhile.symm, fun rest' hrest' =>
          front_word hstart hall (hrest' (closed_dropWhile rest))⟩
      · refine absurd ?_ (hvalid (.unexpectedCharacter c))
        simp [front, hunequal, hsymbol, hdigit, hquote, hstart, Lexeme.inLine]

/-! ### Gaps -/

theorem skipTrivia_snd (inComment : Bool) (line line' : Nat) (s : List Char) :
    (skipTrivia inComment line s).2 = (skipTrivia inComment line' s).2 := by
  induction s generalizing inComment line line' with
  | nil => rfl
  | cons c s ih =>
      unfold skipTrivia
      split
      · exact ih _ _ _
      split
      · exact ih _ _ _
      split
      · exact ih _ _ _
      · rfl

/-- What is skipped in front of a character is a gap, behind the rest of a comment if the text
starts in one. -/
theorem exists_gap (inComment : Bool) (line : Nat)
    (h : (skipTrivia inComment line s).2 = c :: rest) :
    Text.isBlank c = false ∧ ¬ (c = '/' ∧ rest.head? = some '/') ∧
      ∃ gap, Gap gap ∧ (inComment = false → s = gap ++ c :: rest) ∧
        (inComment = true → ∃ body, '\n' ∉ body ∧ s = body ++ '\n' :: (gap ++ c :: rest)) := by
  fun_induction skipTrivia inComment line s with
  | case1 => cases h
  | case2 line d s ih =>
      obtain ⟨hblank, hslash, gap, hgap, hplain, hcomment⟩ := ih h
      refine ⟨hblank, hslash, gap, hgap, (by simp), fun _ => ?_⟩
      by_cases hd : d = '\n'
      · exact ⟨[], by simp, by rw [hd, hplain (by simp [hd])]; rfl⟩
      · obtain ⟨body, hbody, rfl⟩ := hcomment (by simpa using hd)
        exact ⟨d :: body, by simp [hbody, Ne.symm hd], rfl⟩
  | case3 inComment line d s hcomment hd ih =>
      obtain ⟨hblank, hslash, gap, hgap, hplain, -⟩ := ih h
      exact ⟨hblank, hslash, d :: gap, .blank hd hgap, fun _ => by rw [hplain rfl]; rfl,
        fun h => absurd h hcomment⟩
  | case4 inComment line d s hcomment _ hd ih =>
      obtain ⟨hblank, hslash, gap, hgap, -, hbody⟩ := ih h
      obtain ⟨body, hline, rfl⟩ := hbody rfl
      -- the comment starts with the second slash
      obtain ⟨rfl, hhead⟩ := hd
      cases body with
      | nil => exact absurd hhead (by simp)
      | cons slash body =>
          obtain rfl : slash = '/' := by simpa using hhead
          have hrest : '\n' ∉ body := fun h => hline (List.mem_cons_of_mem _ h)
          exact ⟨hblank, hslash, _, .comment hrest hgap, fun _ => by simp,
            fun h => absurd h hcomment⟩
  | case5 inComment line d s hcomment hblank hslash =>
      obtain ⟨rfl, rfl⟩ := List.cons.inj h
      exact ⟨Bool.eq_false_iff.mpr hblank, hslash, [], .nil, fun _ => rfl,
        fun h => absurd h hcomment⟩

/-! ### Kinds of tokens -/

/-- The kinds of the tokens of a text. -/
def kindsOf (s : List Char) : List TokenKind :=
  (scanFrom (s.length + 1) 1 s).tokens.map Token.kind

theorem kinds_scanFrom_succ (fuel line : Nat) (s : List Char) :
    (scanFrom (fuel + 1) line s).tokens.map Token.kind =
      match (skipTrivia false line s).2 with
      | [] => []
      | c :: rest => (front c rest).kind ::
          (scanFrom fuel ((skipTrivia false line s).1 + (front c rest).lineEnds)
            (front c rest).rest).tokens.map Token.kind := by
  rw [scanFrom]
  split
  next h => rw [h]; rfl
  next h => rw [h]; rfl

/-- The kinds of the tokens do not depend on the number of the line, nor on the fuel. -/
theorem kinds_scanFrom {fuel : Nat} (line : Nat) (h : s.length < fuel) :
    (scanFrom fuel line s).tokens.map Token.kind = kindsOf s := by
  have hline (fuel line line' : Nat) (s : List Char) :
      (scanFrom fuel line s).tokens.map Token.kind =
        (scanFrom fuel line' s).tokens.map Token.kind := by
    induction fuel generalizing line line' s with
    | zero => rfl
    | succ fuel ih =>
        rw [kinds_scanFrom_succ, kinds_scanFrom_succ, skipTrivia_snd false line line' s]
        split
        · rfl
        · rw [ih _ _ _]
  rw [kindsOf, scanFrom_eq h (Nat.lt_succ_self _), hline]

theorem kindsOf_of_nil (h : (skipTrivia false 1 s).2 = []) : kindsOf s = [] := by
  rw [kindsOf, kinds_scanFrom_succ, h]

theorem kindsOf_of_cons (h : (skipTrivia false 1 s).2 = c :: rest) :
    kindsOf s = (front c rest).kind :: kindsOf (front c rest).rest := by
  have hlt : (front c rest).rest.length < s.length := length_rest_lt (Prod.ext rfl h)
  rw [kindsOf, kinds_scanFrom_succ, h]
  exact congrArg _ (kinds_scanFrom _ hlt)

/-- A gap in front has no tokens. -/
theorem kindsOf_gap {gap : List Char} (hgap : Gap gap) (s : List Char) :
    kindsOf (gap ++ s) = kindsOf s := by
  have hskip : (skipTrivia false 1 (gap ++ s)).2 = (skipTrivia false 1 s).2 := by
    rw [skipTrivia_gap hgap]
    exact skipTrivia_snd _ _ _ _
  cases hrest : (skipTrivia false 1 s).2 with
  | nil => rw [kindsOf_of_nil hrest, kindsOf_of_nil (hskip.trans hrest)]
  | cons c rest => rw [kindsOf_of_cons hrest, kindsOf_of_cons (hskip.trans hrest)]

/-- A text that has a valid token in front: the gap, the token, and what is behind it. The token
stays the same in front of other texts. -/
theorem exists_token (h : (skipTrivia false 1 s).2 = c :: rest)
    (hvalid : ∀ cause, (front c rest).kind ≠ .invalid cause) :
    ∃ gap t, Gap gap ∧ s = gap ++ c :: rest ∧ rest = t ++ (front c rest).rest ∧
      ∀ rest', (Closed (front c rest).rest → Closed rest') →
        kindsOf (gap ++ (c :: (t ++ rest'))) = (front c rest).kind :: kindsOf rest' := by
  obtain ⟨hblank, hslash, gap, hgap, hsplit, -⟩ := exists_gap false 1 h
  obtain ⟨t, hrest, hsame⟩ := front_valid hvalid
  refine ⟨gap, t, hgap, hsplit rfl, hrest, fun rest' hrest' => ?_⟩
  have hne : c ≠ '/' := by
    rintro rfl
    refine hvalid (.unexpectedCharacter '/') ?_
    simp [front, TokenKind.ofSymbol?, Lexeme.inLine, show ('/').isDigit = false from by decide,
      show ('/').isAlpha = false from by decide]
  have hskip : (skipTrivia false 1 (c :: (t ++ rest'))).2 = c :: (t ++ rest') := by
    rw [skipTrivia_token hblank hne]
  rw [kindsOf_gap hgap, kindsOf_of_cons hskip, hsame rest' hrest']

/-! ### Cutting -/

/-- What a text has in front of an end of it. -/
def inFront (s rest : List Char) : List Char :=
  s.take (s.length - rest.length)

theorem inFront_append (s rest : List Char) : inFront (s ++ rest) rest = s := by
  simp [inFront]

/-- A text is what is in front of its end, and the end. -/
theorem inFront_of_suffix (h : rest <:+ s) : inFront s rest ++ rest = s := by
  obtain ⟨t, rfl⟩ := h
  rw [inFront_append]

/-- The tokens of a text with their spellings and what stands in front of each, and the text
behind the last one. -/
def cutFrom : Nat → List Char → List SpelledToken × List Char
  | 0, s => ([], s)
  | fuel + 1, s =>
      match (skipTrivia false 1 s).2 with
      | [] => ([], s)
      | c :: rest =>
          let lexeme := front c rest
          let others := cutFrom fuel lexeme.rest
          (⟨inFront s (c :: rest), lexeme.kind, inFront (c :: rest) lexeme.rest⟩ :: others.1,
            others.2)

/-- The pieces of a source text. -/
def cut (source : String) : List SpelledToken × List Char :=
  cutFrom (source.toList.length + 1) source.toList

theorem cutFrom_of_cons (fuel : Nat) (h : (skipTrivia false 1 s).2 = c :: rest) :
    cutFrom (fuel + 1) s =
      (⟨inFront s (c :: rest), (front c rest).kind, inFront (c :: rest) (front c rest).rest⟩ ::
        (cutFrom fuel (front c rest).rest).1, (cutFrom fuel (front c rest).rest).2) := by
  rw [cutFrom, h]

theorem cutFrom_of_nil (fuel : Nat) (h : (skipTrivia false 1 s).2 = []) :
    cutFrom (fuel + 1) s = ([], s) := by
  rw [cutFrom, h]

/-- The pieces make up the text, and they are its tokens. -/
theorem cutFrom_spec {fuel : Nat} (hfuel : s.length < fuel) :
    textOf (cutFrom fuel s).1 ++ (cutFrom fuel s).2 = s ∧
      (cutFrom fuel s).1.map SpelledToken.kind = kindsOf s := by
  induction fuel generalizing s with
  | zero => exact absurd hfuel (Nat.not_lt_zero _)
  | succ fuel ih =>
      cases hskip : (skipTrivia false 1 s).2 with
      | nil =>
          rw [cutFrom_of_nil fuel hskip, kindsOf_of_nil hskip]
          exact ⟨rfl, rfl⟩
      | cons c rest =>
          have hlt : (front c rest).rest.length < s.length := length_rest_lt (Prod.ext rfl hskip)
          obtain ⟨htext, hkinds⟩ := ih (s := (front c rest).rest) (by omega)
          have hgap : inFront s (c :: rest) ++ c :: rest = s :=
            inFront_of_suffix (hskip ▸ skipTrivia_suffix false 1 s)
          have hspelling : inFront (c :: rest) (front c rest).rest ++ (front c rest).rest =
              c :: rest :=
            inFront_of_suffix ((rest_front_suffix c rest).trans (List.suffix_cons c rest))
          rw [cutFrom_of_cons fuel hskip, kindsOf_of_cons hskip]
          refine ⟨?_, congrArg _ hkinds⟩
          rw [textOf_cons, List.append_assoc, List.append_assoc, htext, hspelling, hgap]

/-- A token of a text without invalid ones is replaced by a space: the other tokens are the same
as before. -/
theorem kindsOf_blanked {fuel : Nat} (hfuel : s.length < fuel)
    (hvalid : ∀ kind ∈ kindsOf s, ∀ cause, kind ≠ .invalid cause)
    {before behind : List SpelledToken} {piece : SpelledToken}
    (h : (cutFrom fuel s).1 = before ++ piece :: behind) :
    kindsOf (textOf (before ++ { piece with spelling := [' '] } :: behind) ++ (cutFrom fuel s).2) =
        before.map SpelledToken.kind ++ behind.map SpelledToken.kind ∧
      (Closed s → Closed
        (textOf (before ++ { piece with spelling := [' '] } :: behind) ++ (cutFrom fuel s).2)) := by
  induction fuel generalizing s before with
  | zero => exact absurd hfuel (Nat.not_lt_zero _)
  | succ fuel ih =>
      cases hskip : (skipTrivia false 1 s).2 with
      | nil =>
          rw [cutFrom_of_nil fuel hskip] at h
          simp at h
      | cons c rest =>
          rw [kindsOf_of_cons hskip] at hvalid
          obtain ⟨hfirst, hothers⟩ := List.forall_mem_cons.mp hvalid
          obtain ⟨gap, t, hgap, hs, hrest, hsame⟩ := exists_token hskip hfirst
          have hlt : (front c rest).rest.length < s.length := length_rest_lt (Prod.ext rfl hskip)
          have hshort : (front c rest).rest.length < fuel := by omega
          obtain ⟨htext, hkinds⟩ := cutFrom_spec hshort
          have hcut : cutFrom (fuel + 1) s = (⟨gap, (front c rest).kind, c :: t⟩ ::
              (cutFrom fuel (front c rest).rest).1, (cutFrom fuel (front c rest).rest).2) := by
            have hgap' : inFront s (c :: rest) = gap :=
              (congrArg (inFront · (c :: rest)) hs).trans (inFront_append _ _)
            have hspelling : inFront (c :: rest) (front c rest).rest = c :: t :=
              (congrArg (inFront · (front c rest).rest) (congrArg (List.cons c) hrest)).trans
                (inFront_append (c :: t) _)
            rw [cutFrom_of_cons fuel hskip, hgap', hspelling]
          rw [hcut] at h ⊢
          cases before with
          | nil =>
              -- the token that is blanked becomes part of the gap behind it
              obtain ⟨rfl, rfl⟩ := List.cons.inj h
              have hclosed : Closed (' ' :: (front c rest).rest) := by
                intro d hd
                cases hd
                decide
              have hblank : Gap [' '] := .blank (by decide) .nil
              simp only [List.nil_append, textOf_cons, List.append_assoc, List.cons_append, htext]
              refine ⟨?_, fun _ => closed_append hgap fun _ => hclosed⟩
              rw [kindsOf_gap hgap, hkinds]
              exact kindsOf_gap hblank _
          | cons first before =>
              obtain ⟨rfl, hbehind⟩ := List.cons.inj h
              obtain ⟨hkinds', hclosed⟩ := ih hshort hothers hbehind
              simp only [List.cons_append, textOf_cons, List.append_assoc]
              refine ⟨?_, fun hs' => ?_⟩
              · -- this token ends where it did, because what follows is still closed
                rw [hsame _ hclosed, hkinds']
                rfl
              · intro d hd
                refine hs' d ?_
                rw [hs]
                cases gap with
                | nil => exact hd
                | cons _ gap => exact hd

end Scan

end Ia32.C

import Ia32.Proofs.C.Sums

/-!
# Braces among tokens

Statements end at semicolons and braces. `Balanced` says that the braces among some tokens match
each other, and `recover` says which of the tokens ahead are left when the rest of a broken
statement has been skipped. Skipping never leaves the braces that it starts in.
-/

namespace Ia32.C

/-- No token ends a statement or opens a block. -/
def Plain (tokens : List TokenKind) : Prop :=
  ∀ kind ∈ tokens, kind.isPlain = true

/-- Tokens whose braces match each other. -/
inductive Balanced : List TokenKind → Prop
  | nil : Balanced []
  | other {kind : TokenKind} {rest : List TokenKind} (hopen : kind ≠ .lbrace)
      (hclose : kind ≠ .rbrace) (h : Balanced rest) : Balanced (kind :: rest)
  | group {inner rest : List TokenKind} (hinner : Balanced inner) (hrest : Balanced rest) :
      Balanced (.lbrace :: (inner ++ .rbrace :: rest))

/-- What is left of some tokens when the rest of a broken statement inside `depth` open braces
is skipped. -/
def recover : Nat → List TokenKind → List TokenKind
  | _, [] => []
  | 0, .rbrace :: rest => .rbrace :: rest
  | 1, .rbrace :: rest => rest
  | depth + 2, .rbrace :: rest => recover (depth + 1) rest
  | depth, .lbrace :: rest => recover (depth + 1) rest
  | 0, .semicolon :: rest => rest
  | depth, _ :: rest => recover depth rest

variable {front inner rest tokens : List TokenKind} {kind : TokenKind} {depth : Nat}

/-! ### Plain tokens -/

namespace TokenKind

theorem isPlain_eq_false (h : kind.isPlain = false) :
    kind = .lbrace ∨ kind = .rbrace ∨ kind = .semicolon := by
  cases kind <;> simp_all [isPlain]

theorem ne_of_isPlain (h : kind.isPlain = true) :
    kind ≠ .lbrace ∧ kind ≠ .rbrace ∧ kind ≠ .semicolon := by
  refine ⟨?_, ?_, ?_⟩ <;> rintro rfl <;> cases h

end TokenKind

namespace Plain

theorem nil : Plain [] := nofun

theorem cons_iff : Plain (kind :: rest) ↔ kind.isPlain = true ∧ Plain rest :=
  List.forall_mem_cons

theorem append_iff : Plain (front ++ rest) ↔ Plain front ∧ Plain rest :=
  List.forall_mem_append

/-- Plain tokens in front of one that is not plain do not reach behind it. -/
theorem split {taken behind : List TokenKind} (h : Plain taken) (hkind : kind.isPlain = false)
    (heq : front ++ kind :: rest = taken ++ behind) :
    ∃ front', front = taken ++ front' ∧ behind = front' ++ kind :: rest := by
  rcases List.append_eq_append_iff.mp heq with ⟨more, rfl, hbehind⟩ | ⟨front', hfront, hbehind⟩
  · cases more with
    | nil => exact ⟨[], by simp, hbehind.symm⟩
    | cons other more =>
        obtain ⟨rfl, -⟩ := List.cons.inj hbehind
        have hother := h kind (by simp)
        rw [hkind] at hother
        cases hother
  · exact ⟨front', hfront, hbehind⟩

end Plain

/-! ### Balanced tokens -/

namespace Balanced

/-- Tokens without braces are balanced. -/
theorem of_plain (h : Plain tokens) : Balanced tokens := by
  induction tokens with
  | nil => exact .nil
  | cons kind rest ih =>
      obtain ⟨hkind, hrest⟩ := Plain.cons_iff.mp h
      obtain ⟨hopen, hclose, -⟩ := TokenKind.ne_of_isPlain hkind
      exact .other hopen hclose (ih hrest)

theorem append (h : Balanced front) (h' : Balanced rest) : Balanced (front ++ rest) := by
  induction h with
  | nil => exact h'
  | other hopen hclose _ ih => exact .other hopen hclose ih
  | group hinner _ _ ih =>
      rw [List.cons_append, List.append_assoc, List.cons_append]
      exact .group hinner ih

/-- Balanced tokens do not begin with a closing brace. -/
theorem of_cons (h : Balanced (kind :: rest)) (hkind : kind ≠ .lbrace) :
    kind ≠ .rbrace ∧ Balanced rest := by
  cases h with
  | other hopen hclose hrest => exact ⟨hclose, hrest⟩
  | group => exact absurd rfl hkind

/-- An opening brace has its closing one, with balanced tokens on both sides of it. -/
theorem of_lbrace (h : Balanced (.lbrace :: tokens)) :
    ∃ inner rest, tokens = inner ++ .rbrace :: rest ∧ Balanced inner ∧ Balanced rest := by
  cases h with
  | other hopen => exact absurd rfl hopen
  | group hinner hrest => exact ⟨_, _, rfl, hinner, hrest⟩

/-- Plain tokens in front can be left out. -/
theorem of_append_plain (h : Balanced (front ++ rest)) (hfront : Plain front) : Balanced rest := by
  induction front with
  | nil => exact h
  | cons kind front ih =>
      obtain ⟨hkind, hmore⟩ := Plain.cons_iff.mp hfront
      exact ih (h.of_cons (TokenKind.ne_of_isPlain hkind).1).2 hmore

/-- A brace among balanced tokens has one that closes it. -/
theorem exists_closing {before behind : List TokenKind}
    (h : Balanced (before ++ .lbrace :: behind)) :
    ∃ inner rest, behind = inner ++ .rbrace :: rest ∧ Balanced inner := by
  generalize htokens : before ++ .lbrace :: behind = tokens at h
  induction h generalizing before behind with
  | nil => simp at htokens
  | @other kind rest hopen _ _ ih =>
      cases before with
      | nil => exact absurd (List.cons.inj htokens).1.symm hopen
      | cons _ before => exact ih (List.cons.inj htokens).2
  | @group inner rest hinner hrest ihinner ihrest =>
      cases before with
      | nil => exact ⟨inner, rest, (List.cons.inj htokens).2, hinner⟩
      | cons _ before =>
          -- the brace is in front of the closing brace of the first group, or behind it
          rcases List.append_eq_append_iff.mp (List.cons.inj htokens).2 with
            ⟨more, hmore, heq⟩ | ⟨more, hmore, heq⟩
          · cases more with
            | nil => cases heq
            | cons _ more =>
                obtain ⟨rfl, rfl⟩ := List.cons.inj heq
                obtain ⟨inner', rest', rfl, hinner'⟩ := ihinner hmore.symm
                exact ⟨inner', rest' ++ .rbrace :: rest, List.append_assoc _ _ _, hinner'⟩
          · cases more with
            | nil => cases heq
            | cons _ more => exact ihrest (List.cons.inj heq).2.symm

end Balanced

/-- Tokens of which no beginning closes more braces than it opens, but for some. -/
def Nested (depth : Nat) (tokens : List TokenKind) : Prop :=
  ∀ part, part <+: tokens → part.count .rbrace ≤ part.count .lbrace + depth

namespace Nested

theorem nil : Nested depth [] := by
  intro part hpart
  rw [List.prefix_nil.mp hpart]
  exact Nat.zero_le _

theorem cons {depth' : Nat} (h : Nested depth' rest)
    (hkind : [kind].count .rbrace + depth' ≤ [kind].count .lbrace + depth) :
    Nested depth (kind :: rest) := by
  intro part hpart
  cases part with
  | nil => exact Nat.zero_le _
  | cons first part =>
      obtain ⟨rfl, hmore⟩ := List.cons_prefix_cons.mp hpart
      have hrest := h part hmore
      rw [← List.singleton_append, List.count_append, List.count_append]
      omega

end Nested

/-! ### What is left behind a broken statement -/

theorem recover_of_plain (h : kind.isPlain = true) :
    recover depth (kind :: rest) = recover depth rest := by
  cases depth <;> cases kind <;> first | rfl | cases h

/-- A recovery passes over plain tokens. -/
theorem recover_append_plain (h : Plain front) :
    recover depth (front ++ rest) = recover depth rest := by
  induction front with
  | nil => rfl
  | cons kind front ih =>
      obtain ⟨hkind, hfront⟩ := Plain.cons_iff.mp h
      rw [List.cons_append, recover_of_plain hkind, ih hfront]

/-- Inside braces, semicolons are skipped as well. -/
theorem recover_of_other (hopen : kind ≠ .lbrace) (hclose : kind ≠ .rbrace) :
    recover (depth + 1) (kind :: rest) = recover (depth + 1) rest := by
  cases kind <;> first | rfl | contradiction

/-- Inside braces, balanced tokens are skipped. -/
theorem recover_append_balanced (h : Balanced inner) :
    recover (depth + 1) (inner ++ rest) = recover (depth + 1) rest := by
  induction h generalizing depth rest with
  | nil => rfl
  | other hopen hclose _ ih => rw [List.cons_append, recover_of_other hopen hclose, ih]
  | @group inner more _ _ ihinner ihmore =>
      calc recover (depth + 1) (.lbrace :: (inner ++ .rbrace :: more) ++ rest)
          = recover (depth + 2) (inner ++ .rbrace :: (more ++ rest)) := by
            rw [List.cons_append, List.append_assoc]
            rfl
        _ = recover (depth + 2) (.rbrace :: (more ++ rest)) := ihinner
        _ = recover (depth + 1) rest := ihmore

/-- It ends behind the first semicolon. -/
theorem recover_semicolon (h : Plain front) : recover 0 (front ++ .semicolon :: rest) = rest := by
  rw [recover_append_plain h]
  rfl

/-- It ends in front of a closing brace that it has not seen opened. -/
theorem recover_rbrace (h : Plain front) :
    recover 0 (front ++ .rbrace :: rest) = .rbrace :: rest := by
  rw [recover_append_plain h]
  rfl

/-- It ends behind the first group in braces. -/
theorem recover_group (h : Plain front) (hinner : Balanced inner) :
    recover 0 (front ++ .lbrace :: (inner ++ .rbrace :: rest)) = rest := by
  have hopen : recover 0 (.lbrace :: (inner ++ .rbrace :: rest)) =
      recover 1 (inner ++ .rbrace :: rest) := rfl
  rw [recover_append_plain h, hopen, recover_append_balanced hinner]
  rfl

/-- Braces that are never closed are skipped with everything behind them. -/
theorem recover_inside (tokens : List TokenKind) :
    (∃ inner rest, tokens = inner ++ .rbrace :: rest ∧ Balanced inner) ∨
      ∀ depth, recover (depth + 1) tokens = [] := by
  induction hlength : tokens.length using Nat.strong_induction_on generalizing tokens with
  | _ n ih =>
      cases tokens with
      | nil => exact .inr fun depth => rfl
      | cons kind rest =>
          have hrest := ih rest.length (by rw [← hlength]; exact Nat.lt_succ_self _) rest rfl
          by_cases hclose : kind = .rbrace
          · exact .inl ⟨[], rest, by rw [hclose]; rfl, .nil⟩
          by_cases hopen : kind = .lbrace
          · subst hopen
            rcases hrest with ⟨inner, behind, rfl, hinner⟩ | hopen
            · -- the group is closed, and what is behind it decides
              have hbehind := ih behind.length (by simp at hlength; omega) behind rfl
              rcases hbehind with ⟨inner', behind', rfl, hinner'⟩ | hopen
              · refine .inl ⟨.lbrace :: (inner ++ .rbrace :: inner'), behind', ?_,
                  .group hinner hinner'⟩
                simp
              · refine .inr fun depth => ?_
                have hskip : recover (depth + 1) (.lbrace :: (inner ++ .rbrace :: behind)) =
                    recover (depth + 2) (inner ++ .rbrace :: behind) := rfl
                rw [hskip, recover_append_balanced hinner]
                exact hopen depth
            · exact .inr fun depth => hopen (depth + 1)
          · rcases hrest with ⟨inner, behind, rfl, hinner⟩ | hend
            · exact .inl ⟨kind :: inner, behind, rfl, .other hopen hclose hinner⟩
            · refine .inr fun depth => ?_
              rw [← hend depth]
              cases kind <;> first | rfl | contradiction

/-- What is skipped closes no more braces than it opens, at no point. -/
theorem exists_recover (depth : Nat) (tokens : List TokenKind) :
    ∃ taken, tokens = taken ++ recover depth tokens ∧ Nested depth taken := by
  have hcons {kind : TokenKind} {depth : Nat} {rest left : List TokenKind} (depth' : Nat)
      (hkind : [kind].count .rbrace + depth' ≤ [kind].count .lbrace + depth)
      (h : ∃ taken, rest = taken ++ left ∧ Nested depth' taken) :
      ∃ taken, kind :: rest = taken ++ left ∧ Nested depth taken := by
    obtain ⟨taken, rfl, hnested⟩ := h
    exact ⟨kind :: taken, rfl, hnested.cons hkind⟩
  have hhere (left : List TokenKind) (depth : Nat) :
      ∃ taken, left = taken ++ left ∧ Nested depth taken := ⟨[], rfl, .nil⟩
  fun_induction recover depth tokens with
  | case1 | case2 => exact hhere _ _
  | case3 rest => exact hcons 0 (by simp) (hhere rest 0)
  | case4 depth rest ih => exact hcons (depth + 1) (by simp; omega) ih
  | case5 depth rest ih => exact hcons (depth + 1) (by simp) ih
  | case6 rest => exact hcons 0 (by simp) (hhere rest 0)
  | case7 depth kind rest hzero hone hmore hopen _ ih =>
      have hclose : kind ≠ .rbrace := by
        rintro rfl
        match depth with
        | 0 => exact hzero rfl rfl
        | 1 => exact hone rfl rfl
        | depth + 2 => exact hmore depth rfl rfl
      refine hcons depth ?_ ih
      rw [List.count_singleton, if_neg (by simpa using hclose)]
      omega

/-- Where the tokens behind a broken statement begin: at the end, in front of a brace that closes
nothing, behind the first semicolon, or behind the first group in braces. -/
theorem recover_cases (tokens : List TokenKind) :
    ∃ taken, tokens = taken ++ recover 0 tokens ∧ Nested 0 taken ∧
      (recover 0 tokens = [] ∨
        ((∃ rest, recover 0 tokens = .rbrace :: rest) ∧ Plain taken) ∨
        (∃ front, taken = front ++ [.semicolon] ∧ Plain front) ∨
        ∃ front inner, taken = front ++ .lbrace :: (inner ++ [.rbrace]) ∧ Plain front ∧
          Balanced inner) := by
  obtain ⟨taken, htaken, hnested⟩ := exists_recover 0 tokens
  refine ⟨taken, htaken, hnested, ?_⟩
  have hsplit : tokens = tokens.takeWhile TokenKind.isPlain ++
      tokens.dropWhile TokenKind.isPlain := List.takeWhile_append_dropWhile.symm
  have hfront : Plain (tokens.takeWhile TokenKind.isPlain) := fun kind => List.mem_takeWhile_imp
  generalize tokens.takeWhile TokenKind.isPlain = front at hsplit hfront
  cases hbehind : tokens.dropWhile TokenKind.isPlain with
  | nil =>
      rw [hbehind, List.append_nil] at hsplit
      have hend : recover 0 (front ++ []) = recover 0 [] := recover_append_plain hfront
      rw [List.append_nil, ← hsplit] at hend
      exact .inl hend
  | cons kind behind =>
      have hne : tokens.dropWhile TokenKind.isPlain ≠ [] := by
        rw [hbehind]
        nofun
      have hkind := List.head_dropWhile_not TokenKind.isPlain hne
      simp only [hbehind, List.head_cons] at hkind
      replace hkind := TokenKind.isPlain_eq_false hkind
      rw [hbehind] at hsplit
      subst hsplit
      rcases hkind with rfl | rfl | rfl
      · rcases recover_inside behind with ⟨inner, rest, rfl, hinner⟩ | hopen
        · refine .inr (.inr (.inr ⟨front, inner, ?_, hfront, hinner⟩))
          rw [recover_group hfront hinner] at htaken
          refine List.append_cancel_right (htaken.symm.trans ?_)
          simp
        · refine .inl ?_
          rw [recover_append_plain hfront]
          exact hopen 0
      · rw [recover_rbrace hfront] at htaken ⊢
        exact .inr (.inl ⟨⟨behind, rfl⟩, List.append_cancel_right htaken ▸ hfront⟩)
      · refine .inr (.inr (.inl ⟨front, ?_, hfront⟩))
        rw [recover_semicolon hfront] at htaken
        refine List.append_cancel_right (htaken.symm.trans ?_)
        simp

/-! ### Cursors -/

namespace Cursor

theorem isInvalid_settle (lastLine : Nat) (diagnostics : List Diagnostic) (tokens : List Token) :
    (settle lastLine diagnostics tokens).kind.isInvalid = false := by
  obtain ⟨skipped, -, ⟨-, hsettle⟩ | ⟨token, rest, -, hvalid, hsettle⟩⟩ :=
    exists_settle lastLine diagnostics tokens
  · rw [hsettle]
    rfl
  · rw [hsettle]
    unfold TokenKind.isInvalid
    split
    next cause hcause => exact absurd hcause (hvalid cause)
    next => rfl

/-- A move never ends on an invalid token. -/
theorem isInvalid_next {c : Cursor} (heof : c.kind ≠ .eof) : c.next.kind.isInvalid = false := by
  rw [next_of_ne_eof heof]
  exact isInvalid_settle _ _ _

theorem validTokens_of_eof {c : Cursor} (h : c.kind = .eof) : c.validTokens = [] := by
  rw [validTokens, tokens_eq_nil h, List.filter_nil]

/-- A move takes the current token, unless that is invalid. -/
theorem validTokens_of_ne_eof {c : Cursor} (heof : c.kind ≠ .eof) :
    c.validTokens = [c.kind].filter (!·.isInvalid) ++ c.next.validTokens := by
  rw [next_of_ne_eof heof, validTokens_settle, validTokens, tokens, List.map_cons,
    List.takeWhile_cons_of_pos (by simpa [kind] using heof), ← List.filter_append]
  rfl

/-- Skipping goes by the valid tokens ahead, and never runs out of its bound. -/
theorem validTokens_skipStatement {fuel : Nat} (depth : Nat) {c : Cursor} (h : c.remaining < fuel) :
    (skipStatement fuel depth c).validTokens = recover depth c.validTokens := by
  have hmove {c : Cursor} {kind : TokenKind} (hkind : c.kind = kind) (heof : kind ≠ .eof)
      (hvalid : kind.isInvalid = false) : c.validTokens = kind :: c.next.validTokens := by
    rw [validTokens_next (hkind ▸ heof) (hkind ▸ hvalid), hkind]
  have hless {c : Cursor} {fuel : Nat} (heof : c.kind ≠ .eof) (h : c.remaining < fuel + 1) :
      c.next.remaining < fuel := by
    have := remaining_next_lt heof
    omega
  -- one case for each branch of the loop, in its order
  fun_induction skipStatement fuel depth c with
  | case1 => exact absurd h (Nat.not_lt_zero _)
  | case2 fuel depth c hkind =>
      rw [validTokens_of_eof hkind]
      cases depth <;> rfl
  | case3 fuel c hkind =>
      rw [hmove hkind (by simp) rfl]
      rfl
  | case4 fuel c hkind =>
      rw [hmove hkind (by simp) rfl]
      rfl
  | case5 fuel c hkind depth hdepth ih =>
      obtain ⟨depth, rfl⟩ := Nat.exists_eq_succ_of_ne_zero hdepth
      rw [ih (hless (by simp [hkind]) h), hmove hkind (by simp) rfl]
      rfl
  | case6 fuel depth c hkind ih =>
      rw [ih (hless (by simp [hkind]) h), hmove hkind (by simp) rfl]
      cases depth <;> rfl
  | case7 fuel c hkind =>
      rw [hmove hkind (by simp) rfl]
      rfl
  | case8 fuel depth c hkind hdepth ih =>
      obtain ⟨depth, rfl⟩ := Nat.exists_eq_succ_of_ne_zero hdepth
      rw [ih (hless (by simp [hkind]) h), hmove hkind (by simp) rfl]
      rfl
  | case9 fuel depth c heof hclose hopen hsemicolon ih =>
      -- any other token is passed over, and an invalid one is not counted on either side
      rw [ih (hless heof h), validTokens_of_ne_eof heof]
      cases hvalid : c.kind.isInvalid with
      | true => simp [hvalid]
      | false =>
          have hplain : c.kind.isPlain = true := by
            refine Bool.not_eq_false _ |>.mp fun hends => ?_
            rcases TokenKind.isPlain_eq_false hends with hkind | hkind | hkind
            · exact hopen hkind
            · exact hclose hkind
            · exact hsemicolon hkind
          simp [hvalid, recover_of_plain hplain]

/-- The cursor does on its tokens what a recovery does, where invalid ones do not count. -/
theorem validTokens_synchronize (c : Cursor) :
    c.synchronize.validTokens = recover 0 c.validTokens :=
  validTokens_skipStatement 0 (Nat.lt_succ_self _)

/-- Any bound above the number of tokens left skips the same. -/
theorem skipStatement_eq {fuel fuel' depth : Nat} {c : Cursor} (h : c.remaining < fuel)
    (h' : c.remaining < fuel') : skipStatement fuel depth c = skipStatement fuel' depth c := by
  induction fuel generalizing c fuel' depth with
  | zero => exact absurd h (Nat.not_lt_zero _)
  | succ fuel ih =>
      obtain ⟨fuel', rfl⟩ : ∃ n, fuel' = n + 1 := ⟨fuel' - 1, by omega⟩
      by_cases heof : c.kind = .eof
      · simp only [skipStatement, heof]
      have hlt := remaining_next_lt heof
      have hnext (depth : Nat) : skipStatement fuel depth c.next =
          skipStatement fuel' depth c.next :=
        ih (by omega) (by omega)
      simp only [skipStatement, hnext]

/-- Behind a broken statement stands a token that is not invalid. -/
theorem isInvalid_synchronize (c : Cursor) : c.synchronize.kind.isInvalid = false := by
  have hskip (fuel depth : Nat) (c : Cursor) (h : c.remaining < fuel) :
      (skipStatement fuel depth c).kind.isInvalid = false := by
    have hless {c : Cursor} {fuel : Nat} (heof : c.kind ≠ .eof) (h : c.remaining < fuel + 1) :
        c.next.remaining < fuel := by
      have := remaining_next_lt heof
      omega
    fun_induction skipStatement fuel depth c with
    | case1 => exact absurd h (Nat.not_lt_zero _)
    | case2 _ _ c hkind | case3 _ c hkind => simp [hkind, TokenKind.isInvalid]
    | case4 _ c hkind | case7 _ c hkind => exact isInvalid_next (by simp [hkind])
    | case5 _ c hkind _ _ ih | case6 _ _ c hkind ih | case8 _ _ c hkind _ ih =>
        exact ih (hless (by simp [hkind]) h)
    | case9 _ _ c heof _ _ _ ih => exact ih (hless heof h)
  exact hskip _ _ c (Nat.lt_succ_self _)

/-- The token that a cursor stands on is the first one ahead. -/
theorem kind_of_validTokens {c : Cursor} (hvalid : c.kind.isInvalid = false) :
    (c.validTokens = [] ↔ c.kind = .eof) ∧
      ∀ kind rest, c.validTokens = kind :: rest → c.kind = kind ∧ c.next.validTokens = rest := by
  by_cases heof : c.kind = .eof
  · rw [validTokens_of_eof heof]
    exact ⟨by simp [heof], nofun⟩
  · rw [validTokens_next heof hvalid]
    exact ⟨by simp [heof], fun kind rest h => List.cons.inj h⟩

end Cursor

end Ia32.C

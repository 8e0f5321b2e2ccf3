import Mathlib
import Ia32.C.Cursor

/-!
# Cursors that move on

Whatever the compiler does, its cursor moves on token by token and remarks are added, never
taken back. A remark about an invalid token is made by the move that passes the token, and by
nothing else, so that the remarks made and the invalid tokens ahead always add up to the
same.
-/

namespace Ia32.C

/-- The remark about a token, if it is invalid. -/
def Token.remark? (token : Token) : Option Diagnostic :=
  match token.kind with
  | .invalid cause => some ⟨.lexical, token.line, cause.message⟩
  | _ => none

/-- The remarks about the invalid ones of some tokens. -/
def remarksOn (tokens : List Token) : List Diagnostic :=
  tokens.filterMap Token.remark?

/-- The remarks about tokens, among others. -/
def lexicalOf (diagnostics : List Diagnostic) : List Diagnostic :=
  diagnostics.filter (·.severity = .lexical)

theorem Token.severity_of_remark? {token : Token} {d : Diagnostic} (h : token.remark? = some d) :
    d.severity = .lexical := by
  unfold remark? at h
  split at h
  · cases h
    rfl
  · cases h

/-- Remarks on tokens are lexical ones. -/
theorem severity_of_mem_remarksOn {tokens : List Token} {d : Diagnostic}
    (h : d ∈ remarksOn tokens) : d.severity = .lexical := by
  obtain ⟨token, -, htoken⟩ := List.mem_filterMap.mp h
  exact Token.severity_of_remark? htoken

theorem lexicalOf_remarksOn (tokens : List Token) :
    lexicalOf (remarksOn tokens) = remarksOn tokens := by
  refine List.filter_eq_self.mpr fun d hd => ?_
  exact decide_eq_true (severity_of_mem_remarksOn hd)

namespace Cursor

/-! ### Settling -/

/-- Settling passes the invalid tokens in front, with a remark about each. -/
theorem exists_settle (lastLine : Nat) (diagnostics : List Diagnostic) (tokens : List Token) :
    ∃ skipped, (∀ token ∈ skipped, ∃ cause, token.kind = .invalid cause) ∧
      ((tokens = skipped ∧
          settle lastLine diagnostics tokens =
            ⟨⟨.eof, lastLine⟩, [], lastLine, diagnostics ++ remarksOn skipped⟩) ∨
        ∃ token rest, tokens = skipped ++ token :: rest ∧
          (∀ cause, token.kind ≠ .invalid cause) ∧
          settle lastLine diagnostics tokens =
            ⟨token, rest, lastLine, diagnostics ++ remarksOn skipped⟩) := by
  induction tokens generalizing diagnostics with
  | nil => exact ⟨[], by simp, .inl ⟨rfl, by simp [settle, remarksOn]⟩⟩
  | cons token rest ih =>
      cases hkind : token.kind
      -- an invalid token is reported and skipped, any other one is where the cursor settles
      case invalid cause =>
        obtain ⟨skipped, hskipped, hsettle⟩ :=
          ih (diagnostics ++ [⟨.lexical, token.line, cause.message⟩])
        have hremark : remarksOn (token :: skipped) =
            ⟨.lexical, token.line, cause.message⟩ :: remarksOn skipped := by
          rw [remarksOn, List.filterMap_cons_some (by rw [Token.remark?, hkind])]
          rfl
        have hstep : settle lastLine diagnostics (token :: rest) =
            settle lastLine (diagnostics ++ [⟨.lexical, token.line, cause.message⟩]) rest := by
          rw [settle, hkind]
        refine ⟨token :: skipped, ?_, ?_⟩
        · exact List.forall_mem_cons.mpr ⟨⟨cause, hkind⟩, hskipped⟩
        rw [hstep, hremark]
        rcases hsettle with ⟨rfl, hsettle⟩ | ⟨first, behind, rfl, hvalid, hsettle⟩
        · exact .inl ⟨rfl, by rw [hsettle]; simp⟩
        · exact .inr ⟨first, behind, rfl, hvalid, by rw [hsettle]; simp⟩
      all_goals
        refine ⟨[], by simp, .inr ⟨token, rest, rfl, fun cause h => ?_, ?_⟩⟩
        · rw [hkind] at h
          cases h
        · simp [settle, hkind, remarksOn]

/-- Settling leaves no more tokens than there are. -/
theorem remaining_settle_le (lastLine : Nat) (diagnostics : List Diagnostic) (tokens : List Token) :
    (settle lastLine diagnostics tokens).remaining ≤ tokens.length := by
  obtain ⟨skipped, -, ⟨-, hsettle⟩ | ⟨token, rest, rfl, -, hsettle⟩⟩ :=
    exists_settle lastLine diagnostics tokens
  · rw [hsettle]
    exact Nat.zero_le _
  · rw [hsettle, remaining, List.length_append, List.length_cons]
    split
    · exact Nat.zero_le _
    · exact Nat.le_add_left (rest.length + 1) skipped.length

theorem remaining_congr {c c' : Cursor} (hcurrent : c'.current = c.current)
    (hrest : c'.rest = c.rest) : c'.remaining = c.remaining := by
  unfold remaining kind
  rw [hcurrent, hrest]

/-! ### One move -/

/-- The cursor never moves behind the end. -/
theorem next_of_eof {c : Cursor} (h : c.kind = .eof) : c.next = c :=
  if_pos h

/-- Anywhere else it settles on the next token. -/
theorem next_of_ne_eof {c : Cursor} (h : c.kind ≠ .eof) :
    c.next = settle c.lastLine c.diagnostics c.rest :=
  if_neg h

/-- In front of the end of the text, a move takes a token. -/
theorem remaining_next_lt {c : Cursor} (h : c.kind ≠ .eof) : c.next.remaining < c.remaining := by
  have hle := remaining_settle_le c.lastLine c.diagnostics c.rest
  have hremaining : c.remaining = c.rest.length + 1 := if_neg h
  rw [next_of_ne_eof h]
  omega

/-- Moving on keeps all remarks. -/
theorem diagnostics_next (c : Cursor) : c.diagnostics <+: c.next.diagnostics := by
  by_cases h : c.kind = .eof
  · simp only [next_of_eof h, List.prefix_rfl]
  · rw [next_of_ne_eof h]
    obtain ⟨skipped, -, ⟨-, hsettle⟩ | ⟨token, rest, -, -, hsettle⟩⟩ :=
      exists_settle c.lastLine c.diagnostics c.rest
    all_goals
      rw [hsettle]
      exact List.prefix_append _ _

/-! ### Any number of moves -/

/-- How a cursor gets from one place to another: token by token, with remarks on the way that
are not about tokens. -/
inductive Onward (c : Cursor) : Cursor → Prop
  | refl : Onward c c
  | next {c' : Cursor} (h : Onward c c') : Onward c c'.next
  | report {c' : Cursor} (h : Onward c c') {d : Diagnostic} (hd : d.severity ≠ .lexical) :
      Onward c (c'.report d)

namespace Onward

variable {c c' c'' : Cursor}

/-- Onward and further onward. -/
theorem trans (h : Onward c c') (h' : Onward c' c'') : Onward c c'' := by
  induction h' with
  | refl => exact h
  | next _ ih => exact ih.next
  | report _ hd ih => exact ih.report hd

/-- Remarks are only added. -/
theorem diagnostics (h : Onward c c') : c.diagnostics <+: c'.diagnostics := by
  induction h with
  | refl => exact List.prefix_rfl
  | @next c' _ ih => exact ih.trans (diagnostics_next c')
  | report _ _ ih => exact ih.trans (List.prefix_append _ _)

/-- A cursor stays on its token, or it takes tokens. -/
theorem stays_or_moves (h : Onward c c') :
    (c'.current = c.current ∧ c'.rest = c.rest) ∨ c'.remaining < c.remaining := by
  induction h with
  | refl => exact .inl ⟨rfl, rfl⟩
  | @next c' _ ih =>
      by_cases heof : c'.kind = .eof
      · rwa [next_of_eof heof]
      · have hlt := remaining_next_lt heof
        rcases ih with ⟨hcurrent, hrest⟩ | ih
        · exact .inr (Nat.lt_of_lt_of_eq hlt (remaining_congr hcurrent hrest))
        · exact .inr (Nat.lt_trans hlt ih)
  | report _ _ ih => exact ih

/-- Further on there are no more tokens left. -/
theorem remaining_le (h : Onward c c') : c'.remaining ≤ c.remaining := by
  rcases h.stays_or_moves with ⟨hcurrent, hrest⟩ | hlt
  · exact Nat.le_of_eq (remaining_congr hcurrent hrest)
  · exact Nat.le_of_lt hlt

end Onward

/-- The remarks about tokens made so far, and those that lie ahead. -/
def lexicalRemarks (c : Cursor) : List Diagnostic :=
  lexicalOf c.diagnostics ++ remarksOn c.rest

/-- Settling reports the invalid tokens that it drops, and those ahead can be told from the tokens.
-/
theorem lexicalRemarks_settle (lastLine : Nat) (diagnostics : List Diagnostic)
    (tokens : List Token) :
    (settle lastLine diagnostics tokens).lexicalRemarks =
      lexicalOf diagnostics ++ remarksOn tokens := by
  have hsplit (skipped : List Token) : lexicalOf (diagnostics ++ remarksOn skipped) =
      lexicalOf diagnostics ++ remarksOn skipped := by
    rw [lexicalOf, List.filter_append]
    exact congrArg (_ ++ ·) (lexicalOf_remarksOn skipped)
  obtain ⟨skipped, -, ⟨rfl, hsettle⟩ | ⟨token, rest, rfl, hvalid, hsettle⟩⟩ :=
    exists_settle lastLine diagnostics tokens
  · rw [hsettle, lexicalRemarks, hsplit]
    exact List.append_nil _
  · have hnone : token.remark? = none := by
      unfold Token.remark?
      split
      next cause hcause => exact absurd hcause (hvalid cause)
      next => rfl
    rw [hsettle, lexicalRemarks, hsplit, remarksOn, remarksOn, remarksOn, List.filterMap_append,
      List.filterMap_cons_none hnone, List.append_assoc]

/-- The remarks about tokens do not depend on how far the cursor has moved. -/
theorem Onward.lexicalRemarks {c c' : Cursor} (h : Onward c c') :
    c'.lexicalRemarks = c.lexicalRemarks := by
  induction h with
  | refl => rfl
  | @next c' _ ih =>
      by_cases heof : c'.kind = .eof
      · rwa [next_of_eof heof]
      · rw [next_of_ne_eof heof, lexicalRemarks_settle, ← ih]
        rfl
  | @report c' _ d hd ih =>
      have hremark : lexicalOf (c'.diagnostics ++ [d]) = lexicalOf c'.diagnostics := by
        simp [lexicalOf, List.filter_append, hd]
      rw [← ih, Cursor.lexicalRemarks, Cursor.lexicalRemarks]
      exact congrArg (· ++ _) hremark

/-- The end of the text is not among the tokens, and nothing is behind it. -/
structure Ends (c : Cursor) : Prop where
  rest : ∀ token ∈ c.rest, token.kind ≠ .eof
  last : c.kind = .eof → c.rest = []

theorem ends_settle {lastLine : Nat} {diagnostics : List Diagnostic} {tokens : List Token}
    (h : ∀ token ∈ tokens, token.kind ≠ .eof) : (settle lastLine diagnostics tokens).Ends := by
  obtain ⟨skipped, -, ⟨-, hsettle⟩ | ⟨token, rest, rfl, -, hsettle⟩⟩ :=
    exists_settle lastLine diagnostics tokens
  · rw [hsettle]
    exact ⟨by simp, fun _ => rfl⟩
  · rw [hsettle]
    obtain ⟨-, hbehind⟩ := List.forall_mem_append.mp h
    obtain ⟨htoken, hrest⟩ := List.forall_mem_cons.mp hbehind
    exact ⟨hrest, fun heof => absurd heof htoken⟩

/-- The end stays the end. -/
theorem Onward.ends {c c' : Cursor} (h : Onward c c') (hends : c.Ends) : c'.Ends := by
  induction h with
  | refl => exact hends
  | @next c' _ ih =>
      by_cases heof : c'.kind = .eof
      · rwa [next_of_eof heof]
      · rw [next_of_ne_eof heof]
        exact ends_settle ih.rest
  | report _ _ ih => exact ⟨ih.rest, ih.last⟩

/-! ### Skipping a statement -/

/-- A skipped statement is behind the cursor, whatever the fuel. -/
theorem onward_skipStatement (fuel depth : Nat) (c : Cursor) :
    c.Onward (skipStatement fuel depth c) := by
  have hnext (c : Cursor) : c.Onward c.next := Onward.refl.next
  fun_induction skipStatement fuel depth c with
  | case1 | case2 | case3 => exact .refl
  | case4 => exact hnext _
  | case7 => exact hnext _
  | case5 _ _ _ _ _ ih | case6 _ _ _ _ ih | case8 _ _ _ _ _ ih | case9 _ _ _ _ _ _ _ ih =>
      exact (hnext _).trans ih

/-- A recovery moves onward. -/
theorem onward_synchronize (c : Cursor) : c.Onward c.synchronize :=
  onward_skipStatement _ _ c

/-- In front of a closing brace a recovery takes nothing. -/
theorem synchronize_of_rbrace {c : Cursor} (h : c.kind = .rbrace) : c.synchronize = c := by
  unfold synchronize skipStatement
  rw [h]

/-- A skipped statement has a token, except in front of a brace and at the end of the text. -/
theorem remaining_synchronize_lt {c : Cursor} (hbrace : c.kind ≠ .rbrace) (heof : c.kind ≠ .eof) :
    c.synchronize.remaining < c.remaining := by
  have hmoved {c' : Cursor} (h : c.next.Onward c') : c'.remaining < c.remaining :=
    Nat.lt_of_le_of_lt h.remaining_le (remaining_next_lt heof)
  unfold synchronize skipStatement
  split
  next h => exact absurd h heof
  next h => exact absurd h hbrace
  next => exact hmoved (onward_skipStatement _ _ _)
  next => exact hmoved .refl
  next => exact hmoved (onward_skipStatement _ _ _)

end Cursor

end Ia32.C

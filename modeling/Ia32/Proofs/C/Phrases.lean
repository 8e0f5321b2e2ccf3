import Ia32.Proofs.C.Recognition
import Ia32.Proofs.C.Unambiguous

/-!
# What the parts of statements spell

What the compiler recognizes of expressions, arguments and the statements without statements
inside, construct by construct. Where a construct may go on, as an expression does in front of
a plus, it is the longest one; in front of the token that has to follow, it is any.
-/

namespace Ia32.C.CompileM

open Piece

variable {n : Nat} {c : Compiler} {rest : List TokenKind}

/-! ### Expressions -/

/-- A number is expected and recognized. -/
theorem recognizes_expectNumber (what : String) :
    Recognizes n (expectNumber what) fun tokens rest =>
      ∃ value, tokens = .number value :: rest := by
  refine recognizes_token TokenKind.number ?_ ?_
  · exact fun _ => ⟨nofun, _, fun _ => inferInstance, rfl⟩
  · intro kind hkind
    refine ⟨what, ?_⟩
    split
    next value => exact absurd rfl (hkind value)
    next => rfl

/-- A name is expected and recognized. -/
theorem recognizes_expectIdent :
    Recognizes n expectIdent fun tokens rest => ∃ name, tokens = .ident name :: rest := by
  refine recognizes_token TokenKind.ident ?_ ?_
  · exact fun _ => ⟨nofun, _, fun _ => inferInstance, rfl⟩
  · intro kind hkind
    refine ⟨"identifier", ?_⟩
    split
    next name => exact absurd rfl (hkind name)
    next => rfl

/-- The one token of a primary. -/
def primaryToken : Primary → TokenKind
  | .number value => .number value
  | .named name => .ident name

/-- Exactly the primaries are recognized as such. -/
theorem recognizes_primary :
    Recognizes n primary fun tokens rest => ∃ p : Primary, tokens = p.piece.tokens ++ rest := by
  refine .of_line fun line => (recognizes_token primaryToken ?_ ?_).congr ?_
  · rintro (value | name)
    · exact ⟨nofun, _, fun _ => inferInstance, rfl⟩
    · exact ⟨nofun, _, fun _ => inferInstance, rfl⟩
  · intro kind hkind
    refine ⟨"number or identifier", ?_⟩
    split
    next value => exact absurd rfl (hkind (.number value))
    next name => exact absurd rfl (hkind (.named name))
    next => rfl
  · refine fun tokens rest => exists_congr fun p => ?_
    cases p with
    | number value => exact Iff.rfl
    | named name => exact Iff.rfl

/-- The tokens of additions. -/
def addendTokens (values : List Nat) : List TokenKind :=
  values.flatMap fun value => [.plus, .number value]

theorem length_addendTokens (values : List Nat) :
    (addendTokens values).length = 2 * values.length := by
  induction values with
  | nil => rfl
  | cons value values ih =>
      change (addendTokens values).length + 2 = _
      rw [ih, List.length_cons]
      omega

/-- Additions in front of tokens, as many as there are up to a limit. -/
def Addends (limit : Nat) (tokens rest : List TokenKind) : Prop :=
  ∃ values : List Nat, values.length ≤ limit ∧ tokens = addendTokens values ++ rest ∧
    (values.length < limit → rest.head? ≠ some .plus)

/-- The loop takes the addends there are, as many as its fuel allows. -/
theorem recognizes_additions (fuel : Nat) : Recognizes n (additions fuel) (Addends fuel) := by
  induction fuel with
  | zero =>
      refine (recognizes_pure _).congr fun tokens rest => ⟨?_, ?_⟩
      · rintro rfl
        exact ⟨[], Nat.le_refl 0, rfl, fun h => absurd h (Nat.lt_irrefl 0)⟩
      · rintro ⟨values, hlimit, h, -⟩
        rwa [List.length_eq_zero_iff.mp (Nat.le_zero.mp hlimit)] at h
  | succ fuel ih =>
      unfold additions
      refine (recognizes_accept_ite (by nofun)
        ((recognizes_expectNumber _).bind fun _ => ih.before_silent)
        (recognizes_pure _)).congr fun tokens rest => ⟨?_, ?_⟩
      · rintro (⟨_, rfl, _, ⟨value, rfl⟩, values, hlimit, rfl, hend⟩ | ⟨hhead, rfl⟩)
        · exact ⟨value :: values, Nat.succ_le_succ hlimit, rfl,
            fun h => hend (Nat.lt_of_succ_lt_succ h)⟩
        · exact ⟨[], Nat.zero_le _, rfl, fun _ => hhead⟩
      · rintro ⟨values, hlimit, rfl, hend⟩
        cases values with
        | nil => exact .inr ⟨hend (Nat.zero_lt_succ fuel), rfl⟩
        | cons value values =>
            exact .inl ⟨_, rfl, _, ⟨value, rfl⟩, values, Nat.le_of_succ_le_succ hlimit, rfl,
              fun h => hend (Nat.succ_lt_succ h)⟩

/-- All additions in front of tokens. -/
def AllAddends (tokens rest : List TokenKind) : Prop :=
  ∃ values, tokens = addendTokens values ++ rest ∧ rest.head? ≠ some .plus

/-- A limit that the tokens cannot exceed is none. -/
theorem addends_iff {limit : Nat} {tokens : List TokenKind} (h : tokens.length ≤ limit) :
    Addends limit tokens rest ↔ AllAddends tokens rest := by
  constructor
  · rintro ⟨values, hlimit, rfl, hend⟩
    refine ⟨values, rfl, ?_⟩
    rw [List.length_append, length_addendTokens] at h
    cases rest with
    | nil => nofun
    | cons kind rest =>
        rw [List.length_cons] at h
        exact hend (by omega)
  · rintro ⟨values, rfl, hend⟩
    rw [List.length_append, length_addendTokens] at h
    exact ⟨values, by omega, rfl, fun _ => hend⟩

/-- The longest expression in front of tokens. -/
def Expression (tokens rest : List TokenKind) : Prop :=
  ∃ e : Expr, tokens = e.piece.tokens ++ rest ∧ rest.head? ≠ some .plus

/-- Exactly the expressions are recognized as such. -/
theorem recognizes_expression : Recognizes n expression Expression := by
  unfold expression
  refine (recognizes_primary.bind (?_ : ∀ first, Recognizes n _ AllAddends)).congr ?_
  · refine fun first => .of_peek fun c hc hn rest => ?_
    split
    next hplus =>
      exact Recognizes.of_remaining (fun m => (recognizes_additions m).before_silent)
        (fun m tokens rest h => addends_iff h) c hc hn rest
    next hother =>
      rw [reaches_pure hc]
      constructor
      · rintro rfl
        exact ⟨[], rfl, fun h => hother ((hc.proper.head?_eq (by nofun)).mp h)⟩
      · rintro ⟨values, htokens, -⟩
        cases values with
        | nil => exact htokens
        | cons value values => exact absurd (hc.proper.kind_eq htokens).1 hother
  · intro tokens rest
    have hspelled (first : Primary) (values : List Nat) :
        (Expr.mk first values).piece.tokens ++ rest =
          first.piece.tokens ++ (addendTokens values ++ rest) := List.append_assoc _ _ _
    constructor
    · rintro ⟨_, ⟨first, rfl⟩, values, rfl, hend⟩
      exact ⟨⟨first, values⟩, (hspelled first values).symm, hend⟩
    · rintro ⟨⟨first, values⟩, rfl, hend⟩
      exact ⟨_, ⟨first, hspelled first values⟩, values, rfl, hend⟩

/-! ### Arguments -/

/-- Expressions behind commas in front of tokens, as many as there are up to a limit. -/
def Further (limit : Nat) (tokens rest : List TokenKind) : Prop :=
  ∃ arguments : List Expr, arguments.length ≤ limit ∧
    tokens = (furtherArguments arguments).tokens ++ rest ∧
    (arguments.length < limit → rest.head? ≠ some .comma) ∧
    (arguments ≠ [] → rest.head? ≠ some .plus)

theorem further_zero {tokens : List TokenKind} : Further 0 tokens rest ↔ tokens = rest := by
  constructor
  · rintro ⟨arguments, hlimit, h, -⟩
    rwa [List.length_eq_zero_iff.mp (Nat.le_zero.mp hlimit)] at h
  · rintro rfl
    exact ⟨[], Nat.le_refl 0, rfl, fun h => absurd h (Nat.lt_irrefl 0), fun h => absurd rfl h⟩

/-- One more argument, or none. -/
theorem further_succ {limit : Nat} {tokens : List TokenKind} :
    Further (limit + 1) tokens rest ↔
      (∃ behind, tokens = .comma :: behind ∧
        ∃ behind', Expression behind behind' ∧ Further limit behind' rest) ∨
      (tokens.head? ≠ some .comma ∧ tokens = rest) := by
  constructor
  · rintro ⟨arguments, hlimit, rfl, hcomma, hplus⟩
    cases arguments with
    | nil => exact .inr ⟨hcomma (Nat.zero_lt_succ limit), rfl⟩
    | cons e es =>
        have hend := hplus (List.cons_ne_nil e es)
        -- the first expression ends in front of the next comma, or where all of them do
        refine .inl ⟨_, tokens_furtherArguments e es rest, _, ⟨e, rfl, ?_⟩, es,
          Nat.le_of_succ_le_succ hlimit, rfl, fun h => hcomma (Nat.succ_lt_succ h), fun _ => hend⟩
        cases es with
        | nil => exact hend
        | cons e' es => rw [tokens_furtherArguments]; nofun
  · rintro (⟨_, rfl, _, ⟨e, rfl, hend⟩, es, hlimit, rfl, hcomma, hplus⟩ | ⟨hhead, rfl⟩)
    · refine ⟨e :: es, Nat.succ_le_succ hlimit, (tokens_furtherArguments e es rest).symm,
        fun h => hcomma (Nat.lt_of_succ_lt_succ h), fun _ => ?_⟩
      cases es with
      | nil => exact hend
      | cons e' es => exact hplus (List.cons_ne_nil e' es)
    · exact ⟨[], Nat.zero_le _, rfl, fun _ => hhead, fun h => absurd rfl h⟩

/-- A trap takes no more arguments than there are registers for them. -/
theorem recognizes_syscallArguments (regs : List Reg) :
    Recognizes n (syscallArguments regs) (Further regs.length) := by
  induction regs with
  | nil => exact (recognizes_pure _).congr fun _ _ => further_zero.symm
  | cons r regs ih =>
      unfold syscallArguments
      exact (recognizes_accept_ite (by nofun)
        (recognizes_expression.bind fun _ => ih.before_silent) (recognizes_pure _)).congr
          fun _ _ => further_succ.symm

/-- A call takes the further arguments there are, as many as its fuel allows. -/
theorem recognizes_moreArguments (fuel : Nat) :
    Recognizes n (moreArguments fuel) (Further fuel) := by
  induction fuel with
  | zero => exact (recognizes_pure _).congr fun _ _ => further_zero.symm
  | succ fuel ih =>
      unfold moreArguments
      exact (recognizes_accept_ite (by nofun)
        (recognizes_expression.bind fun _ => ih.before_silent) (recognizes_pure _)).congr
          fun _ _ => further_succ.symm

theorem length_furtherArguments (es : List Expr) :
    es.length ≤ (furtherArguments es).tokens.length := by
  induction es with
  | nil => exact Nat.le_refl 0
  | cons e es ih =>
      have htokens := congrArg List.length (tokens_furtherArguments e es [])
      simp only [List.append_nil, List.length_cons, List.length_append] at htokens
      rw [htokens, List.length_cons]
      omega

/-- A limit that the tokens cannot exceed is none. -/
theorem further_iff {limit : Nat} {tokens : List TokenKind} (h : tokens.length ≤ limit) :
    Further limit tokens rest ↔ ∃ es, tokens = (furtherArguments es).tokens ++ rest ∧
      rest.head? ≠ some .comma ∧ (es ≠ [] → rest.head? ≠ some .plus) := by
  constructor
  · rintro ⟨es, hlimit, rfl, hcomma, hplus⟩
    refine ⟨es, rfl, ?_, hplus⟩
    have hlength := length_furtherArguments es
    rw [List.length_append] at h
    cases rest with
    | nil => nofun
    | cons kind rest =>
        rw [List.length_cons] at h
        exact hcomma (by omega)
  · rintro ⟨es, rfl, hcomma, hplus⟩
    have hlength := length_furtherArguments es
    rw [List.length_append] at h
    exact ⟨es, by omega, rfl, fun _ => hcomma, hplus⟩

/-- Exactly the traps are recognized behind their keyword. -/
theorem recognizes_openSyscall :
    Recognizes n openSyscall fun tokens rest => ∃ t : Trap, tokens = t.piece.tokens ++ rest := by
  unfold openSyscall
  refine ((recognizes_expect (by simp) _).bind fun _ =>
    (recognizes_expect (by simp) _).bind fun _ => (recognizes_expectNumber _).bind fun _ =>
      (recognizes_syscallArguments _).bind fun _ =>
        (recognizes_expect (by simp) _).before_silent).congr fun tokens rest => ⟨?_, ?_⟩
  · rintro ⟨_, rfl, _, rfl, _, ⟨number, rfl⟩, _, ⟨es, hlimit, rfl, -⟩, rfl⟩
    refine ⟨⟨number, es, hlimit⟩, ?_⟩
    simp [Trap.piece, spelled]
  · rintro ⟨⟨number, es, hlimit⟩, rfl⟩
    refine ⟨.lparen :: .number number :: ((furtherArguments es).tokens ++ .rparen :: rest), ?_,
      _, rfl, _, ⟨number, rfl⟩, _, ⟨es, hlimit, rfl, fun _ => by simp, fun _ => by simp⟩, rfl⟩
    simp [Trap.piece, spelled]

/-! ### Statements without statements inside -/

/-- The longest right-hand side in front of tokens. -/
def RightSide (tokens rest : List TokenKind) : Prop :=
  (∃ t : Trap, tokens = t.piece.tokens ++ rest) ∨ Expression tokens rest

/-- An expression begins with none of the tokens that tell the other phrases apart. -/
theorem Expression.head? {tokens : List TokenKind} (h : Expression tokens rest) :
    tokens.head? ≠ some .kwSyscall ∧ tokens.head? ≠ some .rparen ∧
      tokens.head? ≠ some .semicolon := by
  obtain ⟨e, rfl, -⟩ := h
  exact e.head?_tokens rest

/-- Behind the sign of an assignment stands a right side, whatever the target. -/
theorem recognizes_assignment (target : CompileM (Option Place)) [Silent target] :
    Recognizes n (assignment target) RightSide := by
  refine .of_peek fun c hc hn rest => ?_
  split
  next hkind =>
    rw [@reaches_before_silent _ _ _ _ _
      (fun _ => @Acts.bind _ _ _ _ _ _ fun place? => by split <;> infer_instance),
      recognizes_openSyscall c hc hn rest]
    constructor
    · exact .inl
    · rintro (htrap | hexpr)
      · exact htrap
      · exact absurd ((hc.proper.head?_eq (by simp)).mpr hkind) hexpr.head?.1
  next hkind =>
    rw [@reaches_before_silent _ _ _ _ _
      (fun _ => @Acts.bind _ _ _ _ _ _ fun place? => by split <;> infer_instance),
      recognizes_expression c hc hn rest]
    constructor
    · exact .inr
    · rintro (⟨t, htokens⟩ | hexpr)
      · exact absurd (hc.proper.kind_eq htokens).1 hkind
      · exact hexpr

/-- In front of a semicolon, no right-hand side goes on. -/
theorem rightSide_semicolon {tokens : List TokenKind} :
    RightSide tokens (.semicolon :: rest) ↔
      ∃ r : Rhs, tokens = r.piece.tokens ++ .semicolon :: rest := by
  constructor
  · rintro (⟨t, h⟩ | ⟨e, h, -⟩)
    · exact ⟨.trap t, h⟩
    · exact ⟨.expr e, h⟩
  · rintro ⟨e | t, h⟩
    · exact .inr ⟨e, h, nofun⟩
    · exact .inl ⟨t, h⟩

/-- An action with a token behind it. -/
theorem Recognizes.before {α β : Type} {act : CompileM α} {f : α → Unit → CompileM β}
    {relation : List TokenKind → List TokenKind → Prop} (h : Recognizes n act relation)
    {kind : TokenKind} (hkind : kind ≠ .eof) (what : String) [Steady act]
    [∀ a u, Silent (f a u)] [∀ a u, Steady (f a u)] :
    Recognizes n (act >>= fun a => expect kind what >>= f a) fun tokens rest =>
      relation tokens (kind :: rest) := by
  refine (h.bind fun a => (recognizes_expect hkind what).before_silent).congr fun tokens rest => ?_
  constructor
  · rintro ⟨_, hact, rfl⟩
    exact hact
  · exact fun hact => ⟨_, hact, rfl⟩

/-- A string constant or an initial value, with the semicolon behind it. -/
def Initial (tokens rest : List TokenKind) : Prop :=
  (∃ content, tokens = .text content :: .semicolon :: rest) ∨
    ∃ r : Rhs, tokens = r.piece.tokens ++ .semicolon :: rest

/-- An initial value is a string or a right side, whatever the type. -/
theorem recognizes_initializer (line : Nat) (name : String) (type : CType) :
    Recognizes n (initializer line name type) Initial := by
  refine .of_peek fun c hc hn rest => ?_
  split
  next content hkind =>
    rw [(recognizes_expect (by simp) _).before_silent.behind_advance hc hn hkind (by simp)]
    constructor
    · rintro ⟨_, htokens, rfl⟩
      exact .inl ⟨content, htokens⟩
    · rintro (⟨content', htokens⟩ | ⟨r, htokens⟩)
      · have hcontent := (hc.proper.kind_eq htokens).1
        rw [hkind] at hcontent
        exact ⟨_, hcontent ▸ htokens, rfl⟩
      · -- no right-hand side starts with a text
        refine absurd ?_ (r.head?_tokens content (.semicolon :: rest)).1
        rw [← htokens]
        exact (hc.proper.head?_eq (by simp)).mpr hkind
  next hother =>
    refine (Recognizes.of_get (fun c0 =>
      (recognizes_assignment _).before (by simp) _) c hc hn rest).trans ?_
    rw [rightSide_semicolon]
    constructor
    · exact .inr
    · rintro (⟨content, htokens⟩ | hright)
      · exact absurd (hc.proper.kind_eq htokens).1 (hother content)
      · exact hright

/-- What is behind the name of a declaration. -/
def Declared (tokens rest : List TokenKind) : Prop :=
  (∃ behind, tokens = .assign :: behind ∧ Initial behind rest) ∨ tokens = .semicolon :: rest

/-- A declaration has a name behind its type, and an initial value or nothing behind the name. -/
theorem recognizes_declarationTail (line : Nat) (type : CType) :
    Recognizes n (do
      let name ← expectIdent
      if ← accept .assign then initializer line name type
      else
        expect .semicolon "`;` or `=`"
        let _ ← declareVariable line name type
        return {}) fun tokens rest =>
      ∃ name behind, tokens = .ident name :: behind ∧ Declared behind rest := by
  refine (recognizes_expectIdent.bind fun name => recognizes_accept_ite (by nofun)
    (recognizes_initializer line name type)
    (recognizes_expect (by nofun) _).before_silent).congr fun tokens rest => ⟨?_, ?_⟩
  · rintro ⟨behind, ⟨name, rfl⟩, hinitial | ⟨-, hdeclared⟩⟩
    · exact ⟨name, behind, rfl, .inl hinitial⟩
    · exact ⟨name, behind, rfl, .inr hdeclared⟩
  · rintro ⟨name, behind, rfl, hinitial | rfl⟩
    · exact ⟨behind, ⟨name, rfl⟩, .inl hinitial⟩
    · exact ⟨_, ⟨name, rfl⟩, .inr ⟨nofun, rfl⟩⟩

/-- The simple statements that start in one way. -/
def Leading (lead : Lead) (tokens rest : List TokenKind) : Prop :=
  ∃ s : Simple, s.lead = lead ∧ tokens = s.piece.tokens ++ rest

/-- Declarations by the parts of their types. -/
theorem leading_declaration {tokens : List TokenKind} :
    Leading .declaration tokens rest ↔
      ∃ (isChar isPointer : Bool) (name : String) (behind : List TokenKind),
        tokens = (if isChar then .kwChar else .kwInt) ::
          ((if isPointer then [.star] else []) ++ .ident name :: behind) ∧
        Declared behind rest := by
  constructor
  · rintro ⟨s, hlead, rfl⟩
    cases s with
    | declare type name =>
        refine ⟨type.isChar, type.isPointer, name, _, ?_, .inr rfl⟩
        simp [Simple.piece, CType.tokens, spelled, assigned]
    | constant type name content =>
        refine ⟨type.isChar, type.isPointer, name, _, ?_, .inl ⟨_, rfl, .inl ⟨content, rfl⟩⟩⟩
        simp [Simple.piece, CType.tokens, spelled]
    | declareWith type name value =>
        refine ⟨type.isChar, type.isPointer, name, _, ?_, .inl ⟨_, rfl, .inr ⟨value, rfl⟩⟩⟩
        simp [Simple.piece, CType.tokens, spelled, assigned]
    | _ => cases hlead
  · rintro ⟨isChar, isPointer, name, behind, rfl, hdeclared⟩
    have htype : (CType.ofParts isChar isPointer).tokens =
        (if isChar then .kwChar else .kwInt) :: (if isPointer then [.star] else []) := by
      cases isChar <;> cases isPointer <;> rfl
    rcases hdeclared with ⟨_, rfl, ⟨content, rfl⟩ | ⟨value, rfl⟩⟩ | rfl
    · refine ⟨.constant (.ofParts isChar isPointer) name content, rfl, ?_⟩
      simp [Simple.piece, htype, spelled]
    · refine ⟨.declareWith (.ofParts isChar isPointer) name value, rfl, ?_⟩
      simp [Simple.piece, htype, spelled, assigned]
    · refine ⟨.declare (.ofParts isChar isPointer) name, rfl, ?_⟩
      simp [Simple.piece, htype, spelled, assigned]

section

variable (hc : c.Unbroken)
include hc

/-- A token that leads a declaration is read as one. -/
theorem reaches_declaration (hkind : c.cursor.kind.lead = some .declaration) :
    Reaches declaration c rest ↔ Leading .declaration c.cursor.tokens rest := by
  have htail (isChar : Bool) : Recognizes c.cursor.remaining (do
      let isPointer ← accept .star
      let name ← expectIdent
      if ← accept .assign then initializer c.cursor.line name (.ofParts isChar isPointer)
      else
        expect .semicolon "`;` or `=`"
        let _ ← declareVariable c.cursor.line name (.ofParts isChar isPointer)
        return ({} : Code)) fun tokens rest =>
          ∃ (isPointer : Bool) (name : String) (behind : List TokenKind),
            tokens = (if isPointer then [.star] else []) ++ .ident name :: behind ∧
              Declared behind rest := by
    refine (recognizes_accept (by nofun) (recognizes_declarationTail _ _)
      (recognizes_declarationTail _ _)).congr fun tokens rest => ⟨?_, ?_⟩
    · rintro (⟨_, rfl, name, behind, rfl, hdeclared⟩ | ⟨-, name, behind, rfl, hdeclared⟩)
      · exact ⟨true, name, behind, rfl, hdeclared⟩
      · exact ⟨false, name, behind, rfl, hdeclared⟩
    · rintro ⟨_ | _, name, behind, rfl, hdeclared⟩
      · exact .inr ⟨nofun, name, behind, rfl, hdeclared⟩
      · exact .inl ⟨_, rfl, name, behind, rfl, hdeclared⟩
  have hfirst : ∃ isChar : Bool, c.cursor.kind = if isChar then .kwChar else .kwInt := by
    cases hc' : c.cursor.kind <;> rw [hc'] at hkind <;> first
      | exact ⟨true, rfl⟩
      | exact ⟨false, rfl⟩
      | cases hkind
  obtain ⟨isChar, hfirst⟩ := hfirst
  rw [leading_declaration]
  refine ((htail (decide (c.cursor.kind = .kwChar))).behind_advance hc (Nat.le_refl _) hfirst
    (by cases isChar <;> nofun)).trans ⟨?_, ?_⟩
  · rintro ⟨_, htokens, isPointer, name, behind, rfl, hdeclared⟩
    exact ⟨isChar, isPointer, name, behind, htokens, hdeclared⟩
  · rintro ⟨isChar', isPointer, name, behind, htokens, hdeclared⟩
    have hsame := (hc.proper.kind_eq htokens).1
    rw [hfirst] at hsame
    exact ⟨_, hsame ▸ htokens, isPointer, name, behind, rfl, hdeclared⟩

/-- A star leads a store through a pointer. -/
theorem reaches_pointerAssignment (hkind : c.cursor.kind = .star) :
    Reaches pointerAssignment c rest ↔ Leading .store c.cursor.tokens rest := by
  have htail (line : Nat) : Recognizes c.cursor.remaining (do
      let name ← expectIdent
      let pointer? ← pointerOperand line name
      expect .assign "`=`"
      let code ← assignment (return pointer?.map .pointee)
      expect .semicolon "`;`"
      return code) fun tokens rest => ∃ (name : String) (r : Rhs),
        tokens = .ident name :: .assign :: (r.piece.tokens ++ .semicolon :: rest) := by
    refine (recognizes_expectIdent.bind fun name => .behind_silent fun pointer? =>
      (recognizes_expect (by nofun) _).bind fun _ =>
        (recognizes_assignment _).before (by nofun) _).congr fun tokens rest => ⟨?_, ?_⟩
    · rintro ⟨_, ⟨name, rfl⟩, _, rfl, hright⟩
      obtain ⟨r, rfl⟩ := rightSide_semicolon.mp hright
      exact ⟨name, r, rfl⟩
    · rintro ⟨name, r, rfl⟩
      exact ⟨_, ⟨name, rfl⟩, _, rfl, rightSide_semicolon.mpr ⟨r, rfl⟩⟩
  refine ((htail c.cursor.line).behind_advance hc (Nat.le_refl _) hkind (by nofun)).trans ⟨?_, ?_⟩
  · rintro ⟨_, htokens, name, r, rfl⟩
    refine ⟨.storeThrough name r, rfl, ?_⟩
    rw [htokens]
    simp [Simple.piece, spelled, looked]
  · rintro ⟨s, hlead, htokens⟩
    cases s with
    | storeThrough name r =>
        refine ⟨_, ?_, name, r, rfl⟩
        rw [htokens]
        simp [Simple.piece, spelled, looked]
    | _ => cases hlead

/-- The keyword of a return leads one. -/
theorem reaches_returnStatement (hkind : c.cursor.kind = .kwReturn) :
    Reaches returnStatement c rest ↔ Leading .exit c.cursor.tokens rest := by
  have htail : Recognizes c.cursor.remaining (do
      if ← accept .semicolon then return .exit (.imm 0)
      else
        let value ← expression
        expect .semicolon "`;`"
        return value.code ++ .exit value.operand) fun tokens rest =>
          tokens = .semicolon :: rest ∨
            ∃ e : Expr, tokens = e.piece.tokens ++ .semicolon :: rest := by
    refine (recognizes_accept_ite (by nofun) (recognizes_pure _)
      (recognizes_expression.before (by nofun) _)).congr fun tokens rest => ⟨?_, ?_⟩
    · rintro (⟨_, rfl, rfl⟩ | ⟨-, e, rfl, -⟩)
      · exact .inl rfl
      · exact .inr ⟨e, rfl⟩
    · rintro (rfl | ⟨e, rfl⟩)
      · exact .inl ⟨_, rfl, rfl⟩
      · exact .inr ⟨(e.head?_tokens _).2.2, e, rfl, nofun⟩
  refine (htail.behind_advance hc (Nat.le_refl _) hkind (by nofun)).trans ⟨?_, ?_⟩
  · rintro ⟨_, htokens, rfl | ⟨e, rfl⟩⟩
    · exact ⟨.exit none, rfl, htokens⟩
    · refine ⟨.exit (some e), rfl, ?_⟩
      rw [htokens]
      simp [Simple.piece, spelled]
  · rintro ⟨s, hlead, htokens⟩
    cases s with
    | exit status =>
        cases status with
        | none => exact ⟨_, htokens, .inl rfl⟩
        | some e =>
            refine ⟨_, ?_, .inr ⟨e, rfl⟩⟩
            rw [htokens]
            simp [Simple.piece, spelled]
    | _ => cases hlead

theorem reaches_syscallStatement :
    Reaches syscallStatement c rest ↔ Leading .trap c.cursor.tokens rest := by
  refine (recognizes_openSyscall.before (by nofun) _ c hc (Nat.le_refl _) rest).trans ⟨?_, ?_⟩
  · rintro ⟨t, htokens⟩
    refine ⟨.trap t, rfl, ?_⟩
    rw [htokens]
    simp [Simple.piece, spelled]
  · rintro ⟨s, hlead, htokens⟩
    cases s with
    | trap t =>
        refine ⟨t, ?_⟩
        rw [htokens]
        simp [Simple.piece, spelled]
    | _ => cases hlead

end

/-- The arguments of a call, up to the parenthesis behind them. -/
def Arguments (tokens rest : List TokenKind) : Prop :=
  (tokens.head? = some .rparen ∧ tokens = rest) ∨
    ∃ e es, tokens = (argumentList (e :: es)).tokens ++ rest ∧ rest.head? ≠ some .comma ∧
      rest.head? ≠ some .plus

/-- Exactly the lists of arguments are recognized as such. -/
theorem recognizes_arguments : Recognizes n arguments Arguments := by
  have htail : Recognizes n (do
      let first ← expression
      return first :: (← moreArguments (← remaining))) fun tokens rest =>
        ∃ e es, tokens = (argumentList (e :: es)).tokens ++ rest ∧ rest.head? ≠ some .comma ∧
          rest.head? ≠ some .plus := by
    refine (recognizes_expression.bind fun first => .of_remaining
      (fun m => (recognizes_moreArguments m).before_silent)
      fun m tokens rest h => further_iff h).congr fun tokens rest => ⟨?_, ?_⟩
    · rintro ⟨_, ⟨e, rfl, hend⟩, es, rfl, hcomma, hplus⟩
      refine ⟨e, es, (List.append_assoc _ _ _).symm, hcomma, ?_⟩
      cases es with
      | nil => exact hend
      | cons e' es => exact hplus (List.cons_ne_nil e' es)
    · rintro ⟨e, es, rfl, hcomma, hplus⟩
      refine ⟨(furtherArguments es).tokens ++ rest, ⟨e, List.append_assoc _ _ _, ?_⟩, es, rfl,
        hcomma, fun _ => hplus⟩
      cases es with
      | nil => exact hplus
      | cons e' es => rw [tokens_furtherArguments]; nofun
  refine .of_peek fun c hc hn rest => ?_
  split
  next hkind =>
    rw [reaches_pure hc]
    constructor
    · exact fun h => .inl ⟨(hc.proper.head?_eq (by nofun)).mpr hkind, h⟩
    · rintro (⟨-, h⟩ | ⟨e, es, htokens, -⟩)
      · exact h
      · have hhead := (e.head?_tokens ((furtherArguments es).tokens ++ rest)).2.1
        rw [← List.append_assoc] at hhead
        exact absurd ((hc.proper.head?_eq (by nofun)).mpr hkind) (htokens ▸ hhead)
  next hkind =>
    rw [htail c hc hn rest]
    constructor
    · exact .inr
    · rintro (⟨hhead, -⟩ | h)
      · exact absurd ((hc.proper.head?_eq (by nofun)).mp hhead) hkind
      · exact h

/-- Arguments in front of a closing parenthesis are all of them. -/
theorem arguments_rparen {tokens : List TokenKind} :
    Arguments tokens (.rparen :: rest) ↔
      ∃ es, tokens = (argumentList es).tokens ++ .rparen :: rest := by
  constructor
  · rintro (⟨-, h⟩ | ⟨e, es, h, -⟩)
    · exact ⟨[], h⟩
    · exact ⟨e :: es, h⟩
  · rintro ⟨_ | ⟨e, es⟩, rfl⟩
    · exact .inl ⟨rfl, rfl⟩
    · exact .inr ⟨e, es, rfl, nofun, nofun⟩

/-- A call is its arguments, a parenthesis and a semicolon behind the opening one. -/
theorem recognizes_callStatement (line : Nat) (name : String) :
    Recognizes n (callStatement line name) fun tokens rest =>
      ∃ es, tokens = (argumentList es).tokens ++ .rparen :: .semicolon :: rest := by
  unfold callStatement
  refine (recognizes_arguments.bind fun values => (recognizes_expect (by nofun) _).bind fun _ =>
    (recognizes_expect (by nofun) _).before_silent).congr fun tokens rest => ⟨?_, ?_⟩
  · rintro ⟨_, harguments, _, rfl, rfl⟩
    exact arguments_rparen.mp harguments
  · exact fun h => ⟨_, arguments_rparen.mpr h, _, rfl, rfl⟩

/-- An assignment is its sign, a right side and a semicolon. -/
theorem recognizes_variableAssignment (line : Nat) (name : String) :
    Recognizes n (variableAssignment line name) fun tokens rest =>
      ∃ r : Rhs, tokens = .assign :: (r.piece.tokens ++ .semicolon :: rest) := by
  have htail (isConstant : Bool) : Recognizes n (do
      let code ← assignment (assignedVariable line name isConstant)
      expect .semicolon "`;`"
      return code) fun tokens rest => RightSide tokens (.semicolon :: rest) :=
    (recognizes_assignment _).before (by nofun) _
  unfold variableAssignment
  refine ((recognizes_expect (by nofun) _).bind (?_ : ∀ _, Recognizes n _ fun tokens rest =>
    RightSide tokens (.semicolon :: rest))).congr fun tokens rest => ⟨?_, ?_⟩
  · refine fun _ => .of_get fun c => ?_
    exact .ite (.behind_silent fun _ => htail _) (htail _)
  · rintro ⟨_, rfl, hright⟩
    obtain ⟨r, rfl⟩ := rightSide_semicolon.mp hright
    exact ⟨r, rfl⟩
  · rintro ⟨r, rfl⟩
    exact ⟨_, rfl, rightSide_semicolon.mpr ⟨r, rfl⟩⟩

/-- The word `main` is a keyword, so no identifier spells it. -/
theorem ident_eq_nameToken {name : String} (h : (TokenKind.ident name).Proper) :
    .ident name = nameToken name := by
  have hkeyword := h.1.2
  unfold nameToken
  split
  next hmain =>
    subst hmain
    cases hkeyword
  next => rfl

/-- Behind a name stands a call or an assignment. -/
theorem reaches_nameStatement (hc : c.Unbroken) {name : String}
    (hkind : c.cursor.kind = nameToken name) (line : Nat) :
    Reaches (nameStatement line name) c rest ↔ Leading .name c.cursor.tokens rest := by
  have htail : Recognizes c.cursor.remaining (do
      if ← accept .lparen then callStatement line name else variableAssignment line name)
        fun tokens rest =>
          (∃ es, tokens = .lparen :: ((argumentList es).tokens ++ .rparen :: .semicolon :: rest)) ∨
            ∃ r : Rhs, tokens = .assign :: (r.piece.tokens ++ .semicolon :: rest) := by
    refine (recognizes_accept_ite (by nofun) (recognizes_callStatement line name)
      (recognizes_variableAssignment line name)).congr fun tokens rest => ⟨?_, ?_⟩
    · rintro (⟨_, rfl, es, rfl⟩ | ⟨-, hassign⟩)
      · exact .inl ⟨es, rfl⟩
      · exact .inr hassign
    · rintro (⟨es, rfl⟩ | ⟨r, rfl⟩)
      · exact .inl ⟨_, rfl, es, rfl⟩
      · exact .inr ⟨nofun, r, rfl⟩
  have hne : nameToken name ≠ .eof := by
    unfold nameToken
    split <;> nofun
  refine (htail.behind_advance hc (Nat.le_refl _) hkind hne).trans ⟨?_, ?_⟩
  · rintro ⟨_, htokens, ⟨es, rfl⟩ | ⟨r, rfl⟩⟩
    · refine ⟨.call name es, rfl, ?_⟩
      rw [htokens]
      simp [Simple.piece, spelled]
    · refine ⟨.assign name r, rfl, ?_⟩
      rw [htokens]
      simp [Simple.piece, spelled, assigned]
  · rintro ⟨s, hlead, htokens⟩
    have hname {name' : String} {behind : List TokenKind}
        (h : c.cursor.tokens = nameToken name' :: behind) : name' = name :=
      nameToken_inj ((hc.proper.kind_eq h).1.symm.trans hkind)
    cases s with
    | call name' es =>
        have hspelled : c.cursor.tokens = nameToken name' ::
            .lparen :: ((argumentList es).tokens ++ .rparen :: .semicolon :: rest) := by
          rw [htokens]
          simp [Simple.piece, spelled]
        exact ⟨_, hname hspelled ▸ hspelled, .inl ⟨es, rfl⟩⟩
    | assign name' r =>
        have hspelled : c.cursor.tokens = nameToken name' ::
            .assign :: (r.piece.tokens ++ .semicolon :: rest) := by
          rw [htokens]
          simp [Simple.piece, spelled, assigned]
        exact ⟨_, hname hspelled ▸ hspelled, .inr ⟨r, rfl⟩⟩
    | _ => cases hlead

end Ia32.C.CompileM

import Ia32.Proofs.C.Blocks

/-!
# Tokens spell one program

No two programs have the same tokens. Every construct is read off the front of the tokens
that it spells: what follows an expression is no plus, what follows statements is the brace
that closes them.
-/

namespace Ia32.C

open Piece

/-! ### Expressions -/

theorem nameToken_inj {a b : String} (h : nameToken a = nameToken b) : a = b := by
  unfold nameToken at h
  split at h <;> split at h
  next ha hb => exact ha.trans hb.symm
  next => cases h
  next => cases h
  next => exact TokenKind.ident.inj h

/-- A primary is one token, which tells what it is. -/
theorem Primary.tokens_cancel {p q : Primary} {s t : List TokenKind}
    (h : p.piece.tokens ++ s = q.piece.tokens ++ t) : p = q ∧ s = t := by
  cases p <;> cases q <;> simp [piece, spelled, looked] at h ⊢ <;> exact h

/-- Addends end where no plus follows. -/
theorem addends_cancel {a b : List Nat} {s t : List TokenKind} (hs : s.head? ≠ some .plus)
    (ht : t.head? ≠ some .plus)
    (h : a.flatMap (fun value => [TokenKind.plus, .number value]) ++ s =
      b.flatMap (fun value => [TokenKind.plus, .number value]) ++ t) : a = b ∧ s = t := by
  induction a generalizing b with
  | nil =>
      cases b with
      | nil => exact ⟨rfl, h⟩
      | cons value b =>
          rw [List.flatMap_nil, List.nil_append] at h
          exact absurd (congrArg List.head? h) hs
  | cons value a ih =>
      cases b with
      | nil =>
          rw [List.flatMap_nil, List.nil_append] at h
          exact absurd (congrArg List.head? h.symm) ht
      | cons value' b =>
          simp only [List.flatMap_cons, List.cons_append, List.nil_append, List.cons.injEq,
            TokenKind.number.injEq, true_and] at h
          obtain ⟨rfl, h⟩ := h
          obtain ⟨rfl, hst⟩ := ih h
          exact ⟨rfl, hst⟩

/-- An expression can be read in one way only. -/
theorem Expr.tokens_cancel {a b : Expr} {s t : List TokenKind} (hs : s.head? ≠ some .plus)
    (ht : t.head? ≠ some .plus) (h : a.piece.tokens ++ s = b.piece.tokens ++ t) :
    a = b ∧ s = t := by
  obtain ⟨first, addends⟩ := a
  obtain ⟨first', addends'⟩ := b
  simp only [piece, append_mk, spelled, List.append_assoc] at h
  obtain ⟨rfl, hrest⟩ := Primary.tokens_cancel h
  obtain ⟨rfl, hst⟩ := addends_cancel hs ht hrest
  exact ⟨rfl, hst⟩

theorem tokens_furtherArguments (e : Expr) (es : List Expr) (s : List TokenKind) :
    (furtherArguments (e :: es)).tokens ++ s =
      .comma :: (e.piece.tokens ++ ((furtherArguments es).tokens ++ s)) := by
  simp [furtherArguments, joined, spelled]

/-- What follows an argument is a comma or the parenthesis behind the last one. -/
theorem head?_furtherArguments (es : List Expr) {s : List TokenKind}
    (hs : s.head? = some .rparen) : ((furtherArguments es).tokens ++ s).head? ≠ some .plus := by
  cases es with
  | nil => simp [furtherArguments, joined, hs]
  | cons e rest => simp [tokens_furtherArguments]

/-- Further arguments end at the parenthesis. -/
theorem furtherArguments_cancel {as bs : List Expr} {s t : List TokenKind}
    (hs : s.head? = some .rparen) (ht : t.head? = some .rparen)
    (h : (furtherArguments as).tokens ++ s = (furtherArguments bs).tokens ++ t) :
    as = bs ∧ s = t := by
  induction as generalizing bs with
  | nil =>
      cases bs with
      | nil => exact ⟨rfl, h⟩
      | cons b bs =>
          rw [tokens_furtherArguments] at h
          exact absurd ((congrArg List.head? h).symm.trans hs) (by simp)
  | cons a as ih =>
      cases bs with
      | nil =>
          rw [tokens_furtherArguments] at h
          exact absurd ((congrArg List.head? h).trans ht) (by simp)
      | cons b bs =>
          rw [tokens_furtherArguments, tokens_furtherArguments] at h
          obtain ⟨rfl, hrest⟩ := Expr.tokens_cancel (head?_furtherArguments as hs)
            (head?_furtherArguments bs ht) (List.cons.inj h).2
          obtain ⟨rfl, hst⟩ := ih hrest
          exact ⟨rfl, hst⟩

/-- A trap can be read in one way only. -/
theorem Trap.tokens_cancel {a b : Trap} {s t : List TokenKind}
    (h : a.piece.tokens ++ s = b.piece.tokens ++ t) : a = b ∧ s = t := by
  obtain ⟨number, arguments, hlength⟩ := a
  obtain ⟨number', arguments', hlength'⟩ := b
  simp only [piece, append_mk, spelled, List.append_assoc, List.cons_append, List.nil_append,
    List.cons.injEq, TokenKind.number.injEq, true_and] at h
  obtain ⟨rfl, harguments⟩ := h
  obtain ⟨rfl, hst⟩ := furtherArguments_cancel rfl rfl harguments
  exact ⟨rfl, (List.cons.inj hst).2⟩

/-- An expression starts with a number or an identifier. -/
theorem Expr.head?_tokens (e : Expr) (s : List TokenKind) :
    (e.piece.tokens ++ s).head? ≠ some .kwSyscall ∧ (e.piece.tokens ++ s).head? ≠ some .rparen ∧
      (e.piece.tokens ++ s).head? ≠ some .semicolon := by
  obtain ⟨first, addends⟩ := e
  cases first <;> simp [piece, Primary.piece, spelled, looked]

/-- A right side can be read in one way only, since an expression does not begin as a trap does. -/
theorem Rhs.tokens_cancel {a b : Rhs} {s t : List TokenKind} (hs : s.head? ≠ some .plus)
    (ht : t.head? ≠ some .plus) (h : a.piece.tokens ++ s = b.piece.tokens ++ t) :
    a = b ∧ s = t := by
  cases a with
  | expr e =>
      cases b with
      | expr e' =>
          obtain ⟨rfl, hst⟩ := Expr.tokens_cancel hs ht h
          exact ⟨rfl, hst⟩
      | trap t' => exact absurd (congrArg List.head? h) (e.head?_tokens s).1
  | trap t =>
      cases b with
      | expr e' => exact absurd (congrArg List.head? h.symm) (e'.head?_tokens _).1
      | trap t' =>
          obtain ⟨rfl, hst⟩ := Trap.tokens_cancel h
          exact ⟨rfl, hst⟩

/-- A list of arguments can be read in one way only. -/
theorem argumentList_cancel {as bs : List Expr} {s t : List TokenKind}
    (hs : s.head? = some .rparen) (ht : t.head? = some .rparen)
    (h : (argumentList as).tokens ++ s = (argumentList bs).tokens ++ t) : as = bs ∧ s = t := by
  cases as with
  | nil =>
      cases bs with
      | nil => exact ⟨rfl, h⟩
      | cons b bs =>
          simp only [argumentList, append_mk, List.append_assoc] at h
          exact absurd ((congrArg List.head? h).symm.trans hs) (b.head?_tokens _).2.1
  | cons a as =>
      cases bs with
      | nil =>
          simp only [argumentList, append_mk, List.append_assoc] at h
          exact absurd ((congrArg List.head? h).trans ht) (a.head?_tokens _).2.1
      | cons b bs =>
          simp only [argumentList, append_mk, List.append_assoc] at h
          obtain ⟨rfl, hrest⟩ := Expr.tokens_cancel (head?_furtherArguments as hs)
            (head?_furtherArguments bs ht) h
          obtain ⟨rfl, hst⟩ := furtherArguments_cancel hs ht hrest
          exact ⟨rfl, hst⟩

/-! ### Statements -/

/-- A type in front of a name can be read in one way only. -/
theorem CType.tokens_cancel {a b : CType} {name name' : String} {s t : List TokenKind}
    (h : a.tokens ++ .ident name :: s = b.tokens ++ .ident name' :: t) :
    a = b ∧ name = name' ∧ s = t := by
  cases a <;> cases b <;> simp [tokens, isChar, isPointer] at h ⊢ <;> exact h

/-- Kinds of statements that can be told apart by their first token. -/
inductive Lead where
  | declaration
  | name
  | store
  | exit
  | trap
  | block
  | branch
  | loop
  | done
  deriving DecidableEq, Repr

/-- The kind of statements that start with a token. -/
def TokenKind.lead : TokenKind → Option Lead
  | .kwInt | .kwChar => some .declaration
  | .ident _ | .kwMain => some .name
  | .star => some .store
  | .kwReturn => some .exit
  | .kwSyscall => some .trap
  | .lbrace => some .block
  | .kwIf => some .branch
  | .kwWhile => some .loop
  | .rbrace => some .done
  | _ => none

/-- How a statement starts. -/
def Simple.lead : Simple → Lead
  | .declare _ _ | .constant _ _ _ | .declareWith _ _ _ => .declaration
  | .assign _ _ | .call _ _ => .name
  | .storeThrough _ _ => .store
  | .exit _ => .exit
  | .trap _ => .trap

/-- The first token of a simple statement tells its kind. -/
theorem Simple.lead_tokens (s : Simple) (rest : List TokenKind) :
    (s.piece.tokens ++ rest).head?.bind TokenKind.lead = some s.lead := by
  have hname (name : String) : (nameToken name).lead = some .name := by
    unfold nameToken
    split <;> rfl
  cases s with
  | declare type name | constant type name content | declareWith type name value =>
      cases type <;> rfl
  | assign name value | call name arguments => exact hname name
  | storeThrough pointer value => rfl
  | exit status => cases status <;> rfl
  | trap t => rfl

/-- A right side begins neither with a string nor with a parenthesis. -/
theorem Rhs.head?_tokens (r : Rhs) (content : String) (s : List TokenKind) :
    (r.piece.tokens ++ s).head? ≠ some (.text content) ∧
      (r.piece.tokens ++ s).head? ≠ some .lparen := by
  cases r with
  | expr e =>
      cases hfirst : e.first <;> simp [piece, Expr.piece, Primary.piece, hfirst, spelled, looked]
  | trap t => simp [piece, Trap.piece, spelled]

/-- A declaration can be read in one way only. -/
theorem Simple.tokens_cancel_declaration {a b : Simple} {s t : List TokenKind}
    (ha : a.lead = .declaration) (hb : b.lead = .declaration)
    (h : a.piece.tokens ++ s = b.piece.tokens ++ t) : a = b ∧ s = t := by
  cases a with
  | declare type name =>
      cases b with
      | declare type' name' =>
          obtain ⟨rfl, rfl, hrest⟩ :=
            CType.tokens_cancel (by simpa [piece, spelled, assigned] using h)
          exact ⟨rfl, (List.cons.inj hrest).2⟩
      | constant type' name' content' | declareWith type' name' value' =>
          obtain ⟨-, -, hrest⟩ := CType.tokens_cancel (by simpa [piece, spelled, assigned] using h)
          cases hrest
      | _ => cases hb
  | constant type name content =>
      cases b with
      | declare type' name' =>
          obtain ⟨-, -, hrest⟩ := CType.tokens_cancel (by simpa [piece, spelled, assigned] using h)
          cases hrest
      | constant type' name' content' =>
          obtain ⟨rfl, rfl, hrest⟩ :=
            CType.tokens_cancel (by simpa [piece, spelled, assigned] using h)
          cases hrest
          exact ⟨rfl, rfl⟩
      | declareWith type' name' value' =>
          obtain ⟨-, -, hrest⟩ := CType.tokens_cancel (by simpa [piece, spelled, assigned] using h)
          exact absurd (congrArg List.head? (List.cons.inj hrest).2).symm
            (value'.head?_tokens content _).1
      | _ => cases hb
  | declareWith type name value =>
      cases b with
      | declare type' name' =>
          obtain ⟨-, -, hrest⟩ := CType.tokens_cancel (by simpa [piece, spelled, assigned] using h)
          cases hrest
      | constant type' name' content' =>
          obtain ⟨-, -, hrest⟩ := CType.tokens_cancel (by simpa [piece, spelled, assigned] using h)
          exact absurd (congrArg List.head? (List.cons.inj hrest).2)
            (value.head?_tokens content' _).1
      | declareWith type' name' value' =>
          obtain ⟨rfl, rfl, hrest⟩ :=
            CType.tokens_cancel (by simpa [piece, spelled, assigned] using h)
          obtain ⟨rfl, hst⟩ := Rhs.tokens_cancel (by simp) (by simp) (List.cons.inj hrest).2
          exact ⟨rfl, (List.cons.inj hst).2⟩
      | _ => cases hb
  | _ => cases ha

/-- Every statement without statements inside ends with its own semicolon. -/
theorem Simple.tokens_cancel {a b : Simple} {s t : List TokenKind}
    (h : a.piece.tokens ++ s = b.piece.tokens ++ t) : a = b ∧ s = t := by
  have hlead : a.lead = b.lead := by
    have hfirst := congrArg (fun tokens => tokens.head?.bind TokenKind.lead) h
    simpa only [lead_tokens, Option.some.injEq] using hfirst
  cases a with
  | declare type name | constant type name content | declareWith type name value =>
      exact tokens_cancel_declaration rfl hlead.symm h
  | assign name value =>
      cases b with
      | assign name' value' =>
          simp only [piece, append_mk, spelled, assigned, List.append_assoc, List.cons_append,
            List.nil_append, List.append_nil, List.cons.injEq, true_and] at h
          obtain ⟨hname, hrest⟩ := h
          obtain ⟨rfl, hst⟩ := Rhs.tokens_cancel (by simp) (by simp) hrest
          exact ⟨by rw [nameToken_inj hname], (List.cons.inj hst).2⟩
      | call name' arguments => simp [piece, spelled, assigned] at h
      | _ => cases hlead
  | call name arguments =>
      cases b with
      | assign name' value' => simp [piece, spelled, assigned] at h
      | call name' arguments' =>
          simp only [piece, append_mk, spelled, List.append_assoc, List.cons_append,
            List.nil_append, List.append_nil, List.cons.injEq, true_and] at h
          obtain ⟨hname, hrest⟩ := h
          obtain ⟨rfl, hst⟩ := argumentList_cancel rfl rfl hrest
          exact ⟨by rw [nameToken_inj hname], by simpa using hst⟩
      | _ => cases hlead
  | storeThrough pointer value =>
      cases b with
      | storeThrough pointer' value' =>
          simp only [piece, append_mk, spelled, looked, List.append_assoc, List.cons_append,
            List.nil_append, List.append_nil, List.cons.injEq, TokenKind.ident.injEq, true_and] at h
          obtain ⟨rfl, hrest⟩ := h
          obtain ⟨rfl, hst⟩ := Rhs.tokens_cancel (by simp) (by simp) hrest
          exact ⟨rfl, (List.cons.inj hst).2⟩
      | _ => cases hlead
  | exit status =>
      cases b with
      | exit status' =>
          cases status with
          | none =>
              -- no expression starts with a semicolon
              cases status' with
              | none => exact ⟨rfl, by simpa [piece, spelled] using h⟩
              | some e =>
                  simp only [piece, append_mk, spelled, List.append_assoc, List.cons_append,
                    List.nil_append, List.cons.injEq, true_and] at h
                  exact absurd (congrArg List.head? h).symm (e.head?_tokens _).2.2
          | some e =>
              cases status' with
              | none =>
                  simp only [piece, append_mk, spelled, List.append_assoc, List.cons_append,
                    List.nil_append, List.cons.injEq, true_and] at h
                  exact absurd (congrArg List.head? h) (e.head?_tokens _).2.2
              | some e' =>
                  simp only [piece, append_mk, spelled, List.append_assoc, List.cons_append,
                    List.nil_append, List.cons.injEq, true_and] at h
                  obtain ⟨rfl, hst⟩ := Expr.tokens_cancel (by simp) (by simp) h
                  exact ⟨rfl, (List.cons.inj hst).2⟩
      | _ => cases hlead
  | trap u =>
      cases b with
      | trap u' =>
          simp only [piece, append_mk, spelled, List.append_assoc] at h
          obtain ⟨rfl, hst⟩ := Trap.tokens_cancel h
          exact ⟨rfl, (List.cons.inj hst).2⟩
      | _ => cases hlead

/-- A condition can be read in one way only. -/
theorem Test.tokens_cancel {comparison : TokenKind} {a b : Test} {s t : List TokenKind}
    (h : (a.piece comparison).tokens ++ s = (b.piece comparison).tokens ++ t) : a = b ∧ s = t := by
  obtain ⟨left, right⟩ := a
  obtain ⟨left', right'⟩ := b
  simp only [piece, append_mk, spelled, List.append_assoc, List.cons_append, List.nil_append,
    List.cons.injEq, true_and] at h
  obtain ⟨rfl, hright⟩ := Primary.tokens_cancel h
  obtain ⟨rfl, hst⟩ := Primary.tokens_cancel (List.cons.inj hright).2
  exact ⟨rfl, (List.cons.inj hst).2⟩

namespace Body

/-- How statements start; behind the last one is the closing brace. -/
def lead : Body → Lead
  | .done => .done
  | .simple s _ => s.lead
  | .block _ _ => .block
  | .ifThen _ _ _ | .ifElse _ _ _ _ => .branch
  | .loop _ _ _ => .loop

/-- The first token of a body tells the kind of its first statement. -/
theorem lead_tokens (b : Body) (s : List TokenKind) :
    (b.piece.tokens ++ .rbrace :: s).head?.bind TokenKind.lead = some b.lead := by
  cases b with
  | simple first rest =>
      simp only [piece, append_mk, List.append_assoc]
      exact first.lead_tokens _
  | _ => rfl

/-- Bodies with the same tokens begin with the same kind of statement. -/
theorem lead_eq {a b : Body} {s t : List TokenKind}
    (h : a.piece.tokens ++ .rbrace :: s = b.piece.tokens ++ .rbrace :: t) : a.lead = b.lead := by
  have hfirst := congrArg (fun tokens => tokens.head?.bind TokenKind.lead) h
  simpa only [lead_tokens, Option.some.injEq] using hfirst

/-- No statement starts with `else`. -/
theorem head?_tokens (b : Body) (s : List TokenKind) :
    (b.piece.tokens ++ .rbrace :: s).head? ≠ some .kwElse := by
  intro hhead
  have hlead := b.lead_tokens s
  rw [hhead] at hlead
  cases hlead

/-- A body can be read in one way only. -/
theorem tokens_cancel {a b : Body} {s t : List TokenKind}
    (h : a.piece.tokens ++ .rbrace :: s = b.piece.tokens ++ .rbrace :: t) : a = b ∧ s = t := by
  have hlead := lead_eq h
  -- the first tokens tell all constructors apart but the two kinds of branches
  induction a generalizing b s t with
  | done =>
      cases b with
      | done => exact ⟨rfl, (List.cons.inj h).2⟩
      | simple first rest => cases first <;> cases hlead
      | _ => cases hlead
  | simple first rest ih =>
      cases b with
      | simple first' rest' =>
          simp only [piece, append_mk, List.append_assoc] at h
          obtain ⟨rfl, hrest⟩ := Simple.tokens_cancel h
          obtain ⟨rfl, hst⟩ := ih hrest (lead_eq hrest)
          exact ⟨rfl, hst⟩
      | _ => cases first <;> cases hlead
  | block inner rest ihInner ihRest =>
      cases b with
      | block inner' rest' =>
          simp only [tokens_block, List.append_assoc, List.cons_append, List.cons.injEq,
            true_and] at h
          obtain ⟨rfl, hrest⟩ := ihInner h (lead_eq h)
          obtain ⟨rfl, hst⟩ := ihRest hrest (lead_eq hrest)
          exact ⟨rfl, hst⟩
      | simple first rest => cases first <;> cases hlead
      | _ => cases hlead
  | ifThen test inner rest ihInner ihRest =>
      cases b with
      | ifThen test' inner' rest' =>
          simp only [tokens_ifThen, List.append_assoc, List.cons_append, List.cons.injEq,
            true_and] at h
          obtain ⟨rfl, hinner⟩ := Test.tokens_cancel h
          obtain ⟨rfl, hrest⟩ := ihInner (List.cons.inj hinner).2 (lead_eq (List.cons.inj hinner).2)
          obtain ⟨rfl, hst⟩ := ihRest hrest (lead_eq hrest)
          exact ⟨rfl, hst⟩
      | ifElse test' first' second' rest' =>
          simp only [tokens_ifThen, tokens_ifElse, List.append_assoc, List.cons_append,
            List.cons.injEq, true_and] at h
          obtain ⟨rfl, hinner⟩ := Test.tokens_cancel h
          obtain ⟨rfl, hrest⟩ := ihInner (List.cons.inj hinner).2 (lead_eq (List.cons.inj hinner).2)
          exact absurd (congrArg List.head? hrest) (rest.head?_tokens s)
      | simple first rest => cases first <;> cases hlead
      | _ => cases hlead
  | ifElse test first second rest ihFirst ihSecond ihRest =>
      cases b with
      | ifThen test' inner' rest' =>
          simp only [tokens_ifThen, tokens_ifElse, List.append_assoc, List.cons_append,
            List.cons.injEq, true_and] at h
          obtain ⟨rfl, hfirst⟩ := Test.tokens_cancel h
          obtain ⟨rfl, hrest⟩ := ihFirst (List.cons.inj hfirst).2 (lead_eq (List.cons.inj hfirst).2)
          exact absurd (congrArg List.head? hrest).symm (rest'.head?_tokens t)
      | ifElse test' first' second' rest' =>
          simp only [tokens_ifElse, List.append_assoc, List.cons_append, List.cons.injEq,
            true_and] at h
          obtain ⟨rfl, hfirst⟩ := Test.tokens_cancel h
          obtain ⟨rfl, hsecond⟩ :=
            ihFirst (List.cons.inj hfirst).2 (lead_eq (List.cons.inj hfirst).2)
          simp only [List.cons.injEq, true_and] at hsecond
          obtain ⟨rfl, hrest⟩ := ihSecond hsecond (lead_eq hsecond)
          obtain ⟨rfl, hst⟩ := ihRest hrest (lead_eq hrest)
          exact ⟨rfl, hst⟩
      | simple first rest => cases first <;> cases hlead
      | _ => cases hlead
  | loop test inner rest ihInner ihRest =>
      cases b with
      | loop test' inner' rest' =>
          simp only [tokens_loop, List.append_assoc, List.cons_append, List.cons.injEq,
            true_and] at h
          obtain ⟨rfl, hinner⟩ := Test.tokens_cancel h
          obtain ⟨rfl, hrest⟩ := ihInner (List.cons.inj hinner).2 (lead_eq (List.cons.inj hinner).2)
          obtain ⟨rfl, hst⟩ := ihRest hrest (lead_eq hrest)
          exact ⟨rfl, hst⟩
      | simple first rest => cases first <;> cases hlead
      | _ => cases hlead

end Body

/-! ### Programs -/

/-- A function can be read in one way only. -/
theorem Function.tokens_cancel {f g : Function} {s t : List TokenKind}
    (h : f.piece.tokens ++ s = g.piece.tokens ++ t) : f = g ∧ s = t := by
  obtain ⟨returnsInt, name, body⟩ := f
  obtain ⟨returnsInt', name', body'⟩ := g
  simp only [piece, append_mk, braced, spelled, List.append_assoc, List.cons_append,
    List.nil_append, List.cons.injEq, true_and] at h
  obtain ⟨htype, hname, hbody⟩ := h
  obtain ⟨rfl, hst⟩ := Body.tokens_cancel hbody
  obtain rfl := nameToken_inj hname
  cases returnsInt <;> cases returnsInt' <;> first | exact ⟨rfl, hst⟩ | cases htype

/-- A source text spells at most one program. -/
theorem Program.tokens_inj {p q : Program} (h : p.tokens = q.tokens) : p = q := by
  have htokens (f : Function) (rest : Program) :
      Program.tokens (f :: rest) = f.piece.tokens ++ Program.tokens rest := rfl
  have hnonempty (f : Function) : f.piece.tokens ≠ [] := by
    simp [Function.piece, spelled]
  induction p generalizing q with
  | nil =>
      cases q with
      | nil => rfl
      | cons g q =>
          rw [htokens] at h
          exact absurd (List.append_eq_nil_iff.mp h.symm).1 (hnonempty g)
  | cons f p ih =>
      cases q with
      | nil =>
          rw [htokens] at h
          exact absurd (List.append_eq_nil_iff.mp h).1 (hnonempty f)
      | cons g q =>
          rw [htokens, htokens] at h
          obtain ⟨rfl, hrest⟩ := Function.tokens_cancel h
          rw [ih hrest]

end Ia32.C

import Ia32.Proofs.C.Scopes

/-!
# Stores through pointers

In a source that compiles without errors, every name that is stored through is declared in
front of the store: a variable of the same function with a pointer type, or a string constant.
The type of a string constant is not looked at.
-/

namespace Ia32.C

open Piece

/-! ### Statements in a scope -/

/-- The statements without statements inside, in the order of the source. -/
def Body.simples : Body → List Simple
  | .done => []
  | .simple s rest => s :: rest.simples
  | .block inner rest | .ifThen _ inner rest | .loop _ inner rest => inner.simples ++ rest.simples
  | .ifElse _ first second rest => first.simples ++ second.simples ++ rest.simples

theorem Body.simples_append (a b : Body) : (a.append b).simples = a.simples ++ b.simples := by
  induction a with
  | done => rfl
  | simple | block | ifThen | ifElse | loop => simp only [append, simples, List.append_assoc,
      List.cons_append, *]

/-- One declaration governs a name, and it has a pointer type or is that of a string constant of
type `char`. -/
def Points (scope : List Declaration) (name : String) : Prop :=
  ∃ d, scope.filter (·.name = name) = [d] ∧
    (d.type.isPointer = true ∨ d.isConstant = true ∧ d.type = .char)

/-- Statements in a scope store through names that point somewhere. -/
def StoresPoint (scope : List Declaration) (statements : List Simple) : Prop :=
  ∀ before name value after, statements = before ++ .storeThrough name value :: after →
    Points (scope ++ declarations before) name

theorem storesPoint_nil (scope : List Declaration) : StoresPoint scope [] := by
  intro before name value after h
  simp at h

theorem storesPoint_singleton {scope : List Declaration} {s : Simple}
    (h : ∀ name value, s = .storeThrough name value → Points scope name) :
    StoresPoint scope [s] := by
  intro before name value after hsplit
  obtain ⟨rfl, hs⟩ | ⟨-, hempty⟩ := List.singleton_eq_append_iff.mp hsplit
  · simpa [declarations] using h name value (List.cons.inj hs).1.symm
  · cases hempty

/-- Statements behind others see their declarations. -/
theorem StoresPoint.append {scope : List Declaration} {a b : List Simple}
    (ha : StoresPoint scope a) (hb : StoresPoint (scope ++ declarations a) b) :
    StoresPoint scope (a ++ b) := by
  intro before name value after hsplit
  rcases List.append_eq_append_iff.mp hsplit with ⟨more, rfl, hmore⟩ | ⟨more, hfront, hmore⟩
  · rw [declarations_append, ← List.append_assoc]
    exact hb more name value after hmore
  · cases more with
    | nil =>
        simp only [List.append_nil, List.nil_append] at hfront hmore
        subst hfront
        simpa [declarations] using hb [] name value after hmore.symm
    | cons s more =>
        obtain ⟨rfl, -⟩ := List.cons.inj hmore
        exact ha before name value more hfront

/-! ### Statements between two states -/

/-- Between two states the tables take in what statements declare, and the statements store
through names that point somewhere. -/
def Enters (statements : List Simple) (c c' : Compiler) : Prop :=
  ∀ scope, c.Models scope →
    c'.Models (scope ++ declarations statements) ∧ StoresPoint scope statements

namespace Enters

variable {p : Piece} {c c1 c' : Compiler} {a b : List Simple} {s : Simple}

/-- Statements one behind the other enter what both of them declare. -/
theorem append (ha : Enters a c c1) (hb : Enters b c1 c') : Enters (a ++ b) c c' := by
  intro scope hmodels
  obtain ⟨hmodels1, hpoint1⟩ := ha scope hmodels
  obtain ⟨hmodels', hpoint'⟩ := hb _ hmodels1
  rw [declarations_append, ← List.append_assoc]
  exact ⟨hmodels', hpoint1.append hpoint'⟩

/-- A stretch of source without statements. -/
theorem untyped (hreads : Reads p c c') (hconstants : p.constants = [])
    (hkeeps : c.KeepsTypes c') : Enters [] c c' := by
  intro scope hmodels
  refine ⟨?_, storesPoint_nil scope⟩
  simpa [declarations] using hmodels.untyped hreads hconstants hkeeps

/-- A statement that neither declares a name nor stores through one. -/
theorem plain (hreads : Reads s.piece c c') (hkeeps : c.KeepsTypes c')
    (hdeclaration : s.lead ≠ .declaration) (hstore : s.lead ≠ .store) : Enters [s] c c' := by
  have hconstants : s.piece.constants = [] := by
    cases s with
    | declare | declareWith | constant => exact absurd rfl hdeclaration
    | storeThrough => exact absurd rfl hstore
    | exit status => cases status <;> simp [Simple.piece, spelled, (Expr.plain _).constants]
    | _ => simp [Simple.piece, spelled, assigned, (Rhs.plain _).constants,
        (Trap.plain _).constants, (plain_argumentList _).constants]
  have hnone : declarations [s] = [] := by
    cases s with
    | declare | declareWith | constant => exact absurd rfl hdeclaration
    | _ => rfl
  intro scope hmodels
  rw [hnone, List.append_nil]
  refine ⟨hmodels.untyped hreads hconstants hkeeps, storesPoint_singleton ?_⟩
  rintro name value rfl
  exact absurd rfl hstore

/-- A statement that declares a name. -/
theorem declaration {d : Declaration} (hd : s.declaration? = some d)
    (h : ∀ scope, c.Models scope → c'.Models (scope ++ [d])) : Enters [s] c c' := by
  have hdeclares : declarations [s] = [d] := by simp [declarations, hd]
  intro scope hmodels
  rw [hdeclares]
  refine ⟨h scope hmodels, storesPoint_singleton ?_⟩
  rintro name value rfl
  cases hd

end Enters

/-! ### Declarations -/

namespace Run

open CompileM

variable {c c' : Compiler} {code : Code}

/-- A declared variable has its type, and the other variables keep theirs. -/
theorem typeOf_declareVariable {line : Nat} {name : String} {type : CType} {place? : Option Place}
    (h : Run (CompileM.declareVariable line name type) c place? c') : c.locals.typeOf name = none ∧
      c'.locals.typeOf = Function.update c.locals.typeOf name (some type) := by
  have h := h.of_get
  split at h
  · obtain ⟨_, c1, hcomplain, -⟩ := h.bind
    exact absurd hcomplain not_complain
  have h := h.of_withLocals
  split at h
  case h_1 l hdeclare =>
    obtain ⟨-, rfl⟩ := h.pure
    exact Locals.typeOf_declare hdeclare
  case h_2 =>
    obtain ⟨_, c1, hcomplain, -⟩ := h.bind
    exact absurd hcomplain not_complain

/-- A variable with an initial value was declared just now or had no type, and has the declared one.
-/
theorem typeOf_initializedVariable {line : Nat} {name : String} {type : CType} {isFresh : Bool}
    {place? : Option Place}
    (h : Run (CompileM.initializedVariable line name type isFresh) c place? c') :
    (isFresh = true ∨ c.locals.typeOf name = none) ∧
      c'.locals.typeOf = Function.update c.locals.typeOf name (some type) := by
  unfold CompileM.initializedVariable at h
  split at h
  next hfresh =>
    have h := h.of_withLocals
    rcases Locals.retype_cases c.locals name type with ⟨l, -, hl⟩ | ⟨-, hsame⟩
    · rw [hl] at h
      obtain ⟨-, rfl⟩ := h.pure
      exact ⟨.inl hfresh, Locals.typeOf_retype hl⟩
    · rw [hsame] at h
      exact ⟨.inl hfresh, h.typeOf_declareVariable.2⟩
  next =>
    obtain ⟨hnone, htypes⟩ := h.typeOf_declareVariable
    exact ⟨.inr hnone, htypes⟩

/-- The target of an assignment is asked for when its right-hand side has been read. -/
theorem assignment_target {target : CompileM (Option Place)} [Steady target]
    (h : Run (CompileM.assignment target) c code c') :
    ∃ place? c1, c.KeepsTypes c1 ∧ Run target c1 place? c' := by
  have h := h.of_peek
  split at h
  · obtain ⟨trapCode, c1, htrap, h⟩ := h.bind_of fun _ =>
      @Acts.bind _ _ _ _ _ inferInstance fun place? => by split <;> infer_instance
    obtain ⟨place?, c2, hplace, h⟩ := h.bind_of fun place? => by split <;> infer_instance
    obtain rfl : c' = c2 := by cases place? <;> exact h.pure.2
    exact ⟨place?, c1, htrap.keepsTypes, hplace⟩
  · obtain ⟨value, c1, hvalue, h⟩ := h.bind_of fun _ =>
      @Acts.bind _ _ _ _ _ inferInstance fun place? => by split <;> infer_instance
    obtain ⟨place?, c2, hplace, h⟩ := h.bind_of fun place? => by split <;> infer_instance
    obtain rfl : c' = c2 := by cases place? <;> exact h.pure.2
    exact ⟨place?, c1, hvalue.keepsTypes, hplace⟩

/-- Only characters and pointers to them are defined as strings. -/
theorem isChar_defineString {line : Nat} {name : String} {type : CType} {content : String}
    {u : Unit} (h : Run (CompileM.defineString line name type content) c u c') :
    type.isChar = true := by
  have h := h.of_get
  split at h
  · exact absurd h not_complain
  next hchar => simpa using hchar

/-- What is read as an initial value enters its variable. -/
theorem enters_initializer {c0 : Compiler} {line : Nat} {name : String} {type : CType}
    (hfront : Reads (spelled (type.tokens ++ [.ident name, .assign])) c0 c)
    (hkeeps : c0.KeepsTypes c) (h : Run (CompileM.initializer line name type) c code c') :
    ∃ s : Simple, Reads s.piece c0 c' ∧ Enters [s] c0 c' := by
  have h := h.of_peek
  split at h
  case h_1 content hkind =>
    obtain ⟨_, c1, hadvance, h⟩ := h.bind
    obtain ⟨_, c2, hend, h⟩ := h.bind
    obtain ⟨_, c3, hstring, h⟩ := h.bind
    obtain ⟨rfl, rfl⟩ := h.pure
    have hall : c0.KeepsTypes c' :=
      hkeeps.trans (hadvance.keepsTypes.trans (hend.keepsTypes.trans hstring.keepsTypes))
    have hreads : Reads (Simple.constant type name content).piece c0 c' :=
      (hfront.trans ((hadvance.advance hkind (by simp)).trans
        ((hend.expect (by simp)).trans hstring.defineString))).cast
          (by simp [Simple.piece, spelled])
    exact ⟨_, hreads, .declaration rfl fun _ hmodels =>
      hmodels.defined hreads rfl hall hstring.isChar_defineString⟩
  case h_2 =>
    have h := h.of_get
    obtain ⟨valueCode, c1, hvalue, h⟩ := h.bind
    obtain ⟨_, c2, hend, h⟩ := h.bind
    obtain ⟨rfl, rfl⟩ := h.pure
    obtain ⟨r, hr, -⟩ := hvalue.assignment (assigned name)
      (fun frame => .slot (frame.slot name)) fun _ _ htarget => htarget.initializedVariable
    obtain ⟨place?, c3, hread, htarget⟩ := hvalue.assignment_target
    obtain ⟨hfresh, htypes⟩ := htarget.typeOf_initializedVariable
    have hnone : c0.locals.typeOf name = none := by
      refine hkeeps.fresh ?_
      rcases hfresh with hfresh | hfresh
      · rw [Locals.typeOf_eq_none_iff]
        simpa using hfresh
      · exact hread.fresh hfresh
    have hvalue := hfront.trans hr
    refine ⟨.declareWith type name r, hvalue.trans (hend.expect (by simp)),
      .declaration rfl fun _ hmodels => ?_⟩
    have hdeclared := hmodels.declared hvalue (by simp [spelled, assigned, r.plain.constants]) hnone
      (hkeeps.trans hread) htypes
    exact hdeclared.untyped (hend.expect (by simp)) rfl hend.keepsTypes

/-- What is read as a declaration enters its variable. -/
theorem enters_declaration (h : Run CompileM.declaration c code c')
    (hkind : c.cursor.kind = .kwInt ∨ c.cursor.kind = .kwChar) :
    ∃ s : Simple, Reads s.piece c c' ∧ Enters [s] c c' := by
  have h := h.of_line.of_peek
  dsimp only at h
  obtain ⟨_, c1, hadvance, h⟩ := h.bind
  obtain ⟨isPointer, c2, hstar, h⟩ := h.bind
  obtain ⟨name, c3, hname, h⟩ := h.bind
  obtain ⟨accepted, c4, hassign, h⟩ := h.bind
  have hfront := hadvance.declared hstar hname hkind
  have hkeeps : c.KeepsTypes c4 := hadvance.keepsTypes.trans
    (hstar.keepsTypes.trans (hname.keepsTypes.trans hassign.keepsTypes))
  generalize CType.ofParts _ isPointer = type at hfront h
  rcases hassign.accept (by simp) with ⟨rfl, hequals⟩ | ⟨rfl, rfl⟩
  · exact enters_initializer ((hfront.trans hequals).cast (by simp [spelled])) hkeeps h
  · obtain ⟨_, c5, hend, h⟩ := h.bind
    obtain ⟨place?, c6, hdeclare, h⟩ := h.bind
    obtain ⟨rfl, rfl⟩ := h.pure
    obtain ⟨hnone, htypes⟩ := hdeclare.typeOf_declareVariable
    have hkeeps := hkeeps.trans hend.keepsTypes
    have hreads : Reads (Simple.declare type name).piece c c' :=
      ((hfront.trans (hend.expect (by simp))).trans hdeclare.declareVariable.1).cast (by
        simp [Simple.piece, spelled])
    exact ⟨_, hreads, .declaration rfl fun _ hmodels =>
      hmodels.declared hreads rfl (hkeeps.fresh hnone) hkeeps htypes⟩

/-! ### Stores -/

/-- The operand of a store is a string constant, or a variable that is declared as a pointer. -/
theorem points_pointerOperand {line : Nat} {name : String} {pointer? : Option (Operand String)}
    {scope : List Declaration} (h : Run (CompileM.pointerOperand line name) c pointer? c')
    (hmodels : c.Models scope) : Points scope name := by
  have h := h.of_get
  split at h
  next hstring =>
    obtain ⟨type, hd⟩ := hmodels.constants.mp (Compiler.isString_iff.mp hstring)
    refine ⟨_, filter_name_eq hmodels.distinct hd, ?_⟩
    have hchar := hmodels.isChar hd
    cases type with
    | char => exact .inr ⟨rfl, rfl⟩
    | charPointer => exact .inl rfl
    | int | intPointer => cases hchar
  next hstring =>
    obtain ⟨l?, c1, hfind, h⟩ := h.bind_of fun l? => by split <;> infer_instance
    have hkeeps := hfind.keepsTypes
    obtain ⟨l, rfl, -, hl⟩ := hfind.findVariable (by simpa using hstring)
    dsimp only at h
    split at h
    next hpointer =>
      have htype : c1.locals.typeOf name = some l.type := by simp [Locals.typeOf, hl]
      have hd := hmodels.pointers (hkeeps.pointer htype hpointer) hpointer
      exact ⟨_, filter_name_eq hmodels.distinct hd, .inl hpointer⟩
    next =>
      obtain ⟨_, c2, hcomplain, -⟩ := h.bind
      exact absurd hcomplain not_complain

/-- What is read as a store goes through a pointer. -/
theorem enters_pointerAssignment (h : Run CompileM.pointerAssignment c code c')
    (hkind : c.cursor.kind = .star) : ∃ s : Simple, Reads s.piece c c' ∧ Enters [s] c c' := by
  obtain ⟨s, hreads, -⟩ := h.pointerAssignment hkind
  refine ⟨s, hreads, fun scope hmodels => ?_⟩
  have hlead := Simple.lead_kind hreads.tokens
  rw [hkind] at hlead
  have hkeeps := h.keepsTypes
  obtain ⟨_, c1, hstar, h⟩ := h.of_line.bind
  obtain ⟨name, c2, hname, h⟩ := h.bind
  obtain ⟨pointer?, c3, hpointer, -⟩ := h.bind
  have hfront := (hstar.advance hkind (by simp)).trans hname.expectIdent
  have hpoints : Points scope name := hpointer.points_pointerOperand
    (hmodels.untyped hfront rfl (hstar.keepsTypes.trans hname.keepsTypes))
  cases s with
  | storeThrough pointer value =>
      obtain rfl : pointer = name := by
        have htokens := hreads.tokens.symm.trans hfront.tokens
        simp only [Simple.piece, spelled, append_mk, List.cons_append, List.nil_append,
          List.cons.injEq, TokenKind.ident.injEq, true_and] at htokens
        exact htokens.1
      refine ⟨?_, storesPoint_singleton fun name value heq => ?_⟩
      · have hconstants : (Simple.storeThrough pointer value).piece.constants = [] := by
          simp [Simple.piece, spelled, looked, value.plain.constants]
        have hnone : declarations [Simple.storeThrough pointer value] = [] := rfl
        rw [hnone, List.append_nil]
        exact hmodels.untyped hreads hconstants hkeeps
      · cases heq
        exact hpoints
  | _ => cases hlead

/-! ### Blocks -/

variable {block : CompileM Code} {bound : Nat}

/-- The compiler of nested blocks takes in what they declare, on fewer tokens than a bound. -/
def EntersBlocks (block : CompileM Code) (bound : Nat) : Prop :=
  ∀ {c code c'}, c.Fits bound → Run block c code c' →
    ∃ b : Body, Reads b.piece.braced c c' ∧ Enters b.simples c c'

/-- A branch enters what its blocks declare, one behind the other. -/
theorem enters_ifStatement [Steady block] (hblock : EntersBlocks block bound)
    (hfits : c.Fits bound) (h : Run (CompileM.ifStatement block) c code c')
    (hkind : c.cursor.kind = .kwIf) :
    ∃ b : Body, Reads b.piece c c' ∧ b.piece.tokens ≠ [] ∧ Enters b.simples c c' := by
  obtain ⟨_, c1, hif, h⟩ := h.bind
  obtain ⟨n, c2, hnew, h⟩ := h.bind
  obtain ⟨testCode, c3, htest, h⟩ := h.bind
  obtain ⟨firstCode, c4, hfirst, h⟩ := h.bind
  obtain ⟨accepted, c5, haccept, h⟩ := h.bind
  have hkeeps : c.KeepsTypes c3 := hif.keepsTypes.trans (hnew.keepsTypes.trans htest.keepsTypes)
  have hkeepsElse := haccept.keepsTypes
  obtain ⟨test, htest, -⟩ := htest.condition (by simp)
  have hfront := ((hif.advance hkind (by simp)).trans hnew.newBranch.2).trans htest
  have hstart : Enters [] c c3 :=
    .untyped hfront (by simp [spelled, (test.plain .notEqual).constants]) hkeeps
  obtain ⟨first, hfirst, hentersFirst⟩ := hblock (hfits.of_reads hfront) hfirst
  rcases haccept.accept (by simp) with ⟨rfl, helse⟩ | ⟨rfl, rfl⟩
  · obtain ⟨secondCode, c6, hsecond, h⟩ := h.bind
    obtain ⟨rfl, rfl⟩ := h.pure
    have hboth := (hfront.trans hfirst).trans helse
    obtain ⟨second, hsecond, hentersSecond⟩ := hblock (hfits.of_reads hboth) hsecond
    refine ⟨.ifElse test first second .done,
      (hboth.trans hsecond).cast (Piece.append_empty _).symm, by simp [Body.piece, spelled], ?_⟩
    have hentersElse : Enters [] c4 c5 := .untyped helse rfl hkeepsElse
    simpa [Body.simples] using
      (hstart.append hentersFirst).append (hentersElse.append hentersSecond)
  · obtain ⟨rfl, rfl⟩ := h.pure
    refine ⟨.ifThen test first .done, (hfront.trans hfirst).cast (Piece.append_empty _).symm,
      by simp [Body.piece, spelled], ?_⟩
    simpa [Body.simples] using hstart.append hentersFirst

/-- A loop enters what its block declares. -/
theorem enters_whileStatement [Steady block] (hblock : EntersBlocks block bound)
    (hfits : c.Fits bound) (h : Run (CompileM.whileStatement block) c code c')
    (hkind : c.cursor.kind = .kwWhile) :
    ∃ b : Body, Reads b.piece c c' ∧ b.piece.tokens ≠ [] ∧ Enters b.simples c c' := by
  obtain ⟨_, c1, hwhile, h⟩ := h.bind
  obtain ⟨n, c2, hnew, h⟩ := h.bind
  obtain ⟨testCode, c3, htest, h⟩ := h.bind
  obtain ⟨innerCode, c4, hinner, h⟩ := h.bind
  obtain ⟨rfl, rfl⟩ := h.pure
  have hkeeps : c.KeepsTypes c3 :=
    hwhile.keepsTypes.trans (hnew.keepsTypes.trans htest.keepsTypes)
  obtain ⟨test, htest, -⟩ := htest.condition (by simp)
  have hfront := ((hwhile.advance hkind (by simp)).trans hnew.newLoop.2).trans htest
  have hstart : Enters [] c c3 :=
    .untyped hfront (by simp [spelled, (test.plain .less).constants]) hkeeps
  obtain ⟨inner, hinner, hentersInner⟩ := hblock (hfits.of_reads hfront) hinner
  refine ⟨.loop test inner .done, (hfront.trans hinner).cast (Piece.append_empty _).symm,
    by simp [Body.piece, spelled], ?_⟩
  simpa [Body.simples] using hstart.append hentersInner

/-- Each kind of statement enters what it declares. -/
theorem enters_statementWith [Steady block] (hblock : EntersBlocks block bound)
    (hfits : c.Fits bound) (h : Run (CompileM.statementWith block) c code c') :
    ∃ b : Body, Reads b.piece c c' ∧ b.piece.tokens ≠ [] ∧ Enters b.simples c c' := by
  have hsimple {s : Simple} (hreads : Reads s.piece c c') (henters : Enters [s] c c') :
      ∃ b : Body, Reads b.piece c c' ∧ b.piece.tokens ≠ [] ∧ Enters b.simples c c' :=
    ⟨.simple s .done, hreads.cast (Piece.append_empty _).symm,
      by simpa [Body.piece] using s.tokens_ne_nil, henters⟩
  -- the other statements are known by their first token
  have hplain {s : Simple} {lead : Lead} (hlead : c.cursor.kind.lead = some lead)
      (hdeclaration : lead ≠ .declaration) (hstore : lead ≠ .store) (hreads : Reads s.piece c c')
      (hkeeps : c.KeepsTypes c') :
      ∃ b : Body, Reads b.piece c c' ∧ b.piece.tokens ≠ [] ∧ Enters b.simples c c' := by
    obtain rfl := Option.some.inj (hlead.symm.trans (Simple.lead_kind hreads.tokens))
    exact hsimple hreads (.plain hreads hkeeps hdeclaration hstore)
  have h := h.of_line.of_peek
  split at h
  case h_1 hkind =>
    obtain ⟨s, hreads, henters⟩ := h.enters_declaration (.inl hkind)
    exact hsimple hreads henters
  case h_2 hkind =>
    obtain ⟨s, hreads, henters⟩ := h.enters_declaration (.inr hkind)
    exact hsimple hreads henters
  case h_3 hkind =>
    obtain ⟨s, hreads, henters⟩ := h.enters_pointerAssignment hkind
    exact hsimple hreads henters
  case h_4 hkind =>
    obtain ⟨s, hreads, -⟩ := h.returnStatement hkind
    exact hplain (by rw [hkind]; rfl) (by simp) (by simp) hreads h.keepsTypes
  case h_5 hkind => exact enters_ifStatement hblock hfits h hkind
  case h_6 hkind => exact enters_whileStatement hblock hfits h hkind
  case h_7 hkind =>
    obtain ⟨s, hreads, -⟩ := h.syscallStatement
    exact hplain (by rw [hkind]; rfl) (by simp) (by simp) hreads h.keepsTypes
  case h_8 hkind =>
    obtain ⟨b, hreads, henters⟩ := hblock hfits h
    exact ⟨.block b .done, hreads.cast (Piece.append_empty _).symm,
      by simp [Body.piece, braced, spelled], by simpa [Body.simples] using henters⟩
  case h_9 name hkind =>
    obtain ⟨s, hreads, -⟩ := h.nameStatement (c.kind_eq_nameToken hfits.keyword hkind)
    exact hplain (by rw [hkind]; rfl) (by simp) (by simp) hreads h.keepsTypes
  case h_10 hkind =>
    obtain ⟨s, hreads, -⟩ := h.nameStatement hkind
    exact hplain (by rw [hkind]; rfl) (by simp) (by simp) hreads h.keepsTypes
  case h_11 => exact absurd h not_unexpected

/-- Statements are read up to the brace that closes them. -/
theorem enters_statements [Steady block] (hblock : EntersBlocks block bound)
    (hfits : c.Fits bound) {fuel : Nat} (hfuel : c.tokens.length < fuel)
    (h : Run (CompileM.statements (CompileM.statementWith block) fuel) c code c') :
    ∃ b : Body, Reads (b.piece ++ spelled [.rbrace]) c c' ∧ Enters b.simples c c' := by
  induction fuel generalizing c code with
  | zero => omega
  | succ fuel ih =>
      have h := h.of_peek
      split at h
      case h_1 hkind =>
        obtain ⟨_, c1, hclose, h⟩ := h.bind
        obtain ⟨rfl, rfl⟩ := h.pure
        have hreads := hclose.advance hkind (by simp)
        exact ⟨.done, hreads.cast (by simp [Body.piece]), .untyped hreads rfl hclose.keepsTypes⟩
      case h_2 =>
        obtain ⟨_, c1, hreport, -⟩ := h.of_get.bind
        exact absurd hreport (not_report rfl)
      case h_3 =>
        obtain ⟨firstCode, c1, hfirst, h⟩ := h.bind
        obtain ⟨restCode, c2, hrest, h⟩ := h.bind
        obtain ⟨rfl, rfl⟩ := h.pure
        obtain ⟨first, hreads, hnonempty, hentersFirst⟩ :=
          enters_statementWith hblock hfits hfirst.caught
        have hlength := hreads.length_tokens
        have hpos := List.length_pos_iff.mpr hnonempty
        obtain ⟨rest, hreadsRest, hentersRest⟩ := ih (hfits.of_reads hreads) (by omega) hrest
        refine ⟨first.append rest, (hreads.trans hreadsRest).cast (by
          rw [Body.piece_append, Piece.append_assoc]), ?_⟩
        rw [Body.simples_append]
        exact hentersFirst.append hentersRest

/-- No block is nested deeper than there are tokens. -/
theorem enters_blockAt (depth : Nat) : EntersBlocks (CompileM.blockAt depth) depth := by
  induction depth with
  | zero => exact fun hfits => absurd hfits.length (Nat.not_lt_zero _)
  | succ depth ih =>
      intro c code c' hfits h
      obtain ⟨_, c1, hexpect, h⟩ := h.bind
      have h := h.of_remaining
      have hopen := hexpect.expect (by simp)
      obtain ⟨b, hb, henters⟩ := enters_statements ih (hfits.inner hopen)
        (Nat.lt_succ_of_le (Cursor.length_tokens_le_remaining _)) h
      refine ⟨b, (hopen.trans hb).cast (Piece.append_assoc _ _ _).symm, ?_⟩
      exact (Enters.untyped hopen rfl hexpect.keepsTypes).append henters

/-! ### Functions -/

/-- A function takes in what it declares, and sees the string constants in front of it. -/
theorem enters_function {scope : List Declaration} (h : Run CompileM.function c code c')
    (hkeyword : .ident "main" ∉ c.tokens) (hmodels : c.Models scope) :
    ∃ f : Function, c.tokens = f.piece.tokens ++ c'.tokens ∧
      c'.Models (scope.filter (·.isConstant) ++ declarations f.body.simples) ∧
      StoresPoint (scope.filter (·.isConstant)) f.body.simples := by
  obtain ⟨name, c1, hhead, h⟩ := h.bind
  obtain ⟨_, c2, hclear, h⟩ := h.bind
  obtain ⟨body, c3, hbody, h⟩ := h.bind
  obtain ⟨rfl, rfl⟩ := h.of_get.pure
  obtain ⟨isInt, c0, hread, -, -, -, rfl⟩ := hhead.functionHead hkeyword
  obtain rfl : c2 = { c0 with defined := c0.defined ++ [name], locals := c0.locals.clear } := by
    cases hclear.eq
    rfl
  have hfits : Compiler.Fits { c0 with
      defined := c0.defined ++ [name], locals := c0.locals.clear } (c0.cursor.remaining + 1) :=
    ⟨Nat.lt_succ_of_le (Cursor.length_tokens_le_remaining _), fun hmem =>
      hkeyword (hread.tokens ▸ List.mem_append_right _ hmem)⟩
  obtain ⟨b, hb, henters⟩ := enters_blockAt _ hfits hbody.of_remaining
  have hstart := hmodels.started (hread.sound hmodels.sound)
    (hread.constants_eq.trans (List.append_nil _)) (c0.defined ++ [name])
  obtain ⟨hmodels', hpoint⟩ := henters _ hstart
  refine ⟨⟨isInt, name, b⟩, ?_, hmodels', hpoint⟩
  have htokens : c0.tokens = b.piece.braced.tokens ++ c'.tokens := hb.tokens
  rw [hread.tokens, htokens, Function.piece, Piece.append_mk, List.append_assoc]

end Run

/-- The string constants that a function declares. -/
def Function.constantDeclarations (f : Function) : List Declaration :=
  (declarations f.body.simples).filter (·.isConstant)

/-- Each function of a program starts with no variables and stores through its own pointers. -/
theorem Run.enters_functions {c c' : Compiler} {code : Code} {scope : List Declaration} {fuel : Nat}
    (hfuel : c.tokens.length < fuel) (hkeyword : .ident "main" ∉ c.tokens)
    (hmodels : c.Models scope) (h : Run (CompileM.functions fuel) c code c') :
    ∃ p : Program, c.tokens = p.tokens ∧ ∀ fs f gs, p = fs ++ f :: gs →
      StoresPoint (scope.filter (·.isConstant) ++ fs.flatMap Function.constantDeclarations)
        f.body.simples := by
  induction fuel generalizing c code scope with
  | zero => omega
  | succ fuel ih =>
      have h := h.of_peek
      split at h
      next hend =>
        exact ⟨[], Cursor.tokens_eq_nil hend, fun fs f gs hsplit => by simp at hsplit⟩
      next =>
        obtain ⟨first, c1, hfirst, h⟩ := h.bind
        obtain ⟨rest, c2, hrest, h⟩ := h.bind
        obtain ⟨rfl, rfl⟩ := h.pure
        obtain ⟨f, htokens, hmodels1, hpoint⟩ := hfirst.caught.enters_function hkeyword hmodels
        -- a function takes a token, so the fuel is enough for the others
        have hrest' : c1.tokens.length < fuel := by
          rw [htokens, Function.piece, Piece.append_mk, List.length_append,
            List.length_append] at hfuel
          simp only [spelled, List.length_cons] at hfuel
          omega
        obtain ⟨p, hp, hpoints⟩ := ih hrest'
          (fun hmem => hkeyword (htokens ▸ List.mem_append_right _ hmem)) hmodels1 hrest
        refine ⟨f :: p, by rw [htokens, hp]; rfl, fun fs g gs hsplit => ?_⟩
        cases fs with
        | nil =>
            obtain ⟨rfl, -⟩ := List.cons.inj hsplit
            simpa using hpoint
        | cons f' fs =>
            obtain ⟨rfl, hmore⟩ := List.cons.inj hsplit
            simpa [List.filter_append, List.filter_filter, Function.constantDeclarations] using
              hpoints fs g gs hmore

/-! ### Source texts -/

/-- In a source that compiles without errors, one declaration in front of a store through a name
governs that name: one of the same function, or one of a string constant in a function before. It
declares a pointer, unless it declares a string constant of type `char`. -/
theorem stores_through_pointers {source : String} {options : Options}
    (h : (compile source options).hasError = false) :
    ∃ p : Program, p.tokens = (Scan.ofSource source).tokens.map Token.kind ∧
      ∀ fs f gs before name value after, p = fs ++ f :: gs →
        f.body.simples = before ++ .storeThrough name value :: after →
        ∃ d, (fs.flatMap Function.constantDeclarations ++ declarations before).filter
            (·.name = name) = [d] ∧
          (d.type.isPointer = true ∨ d.isConstant = true ∧ d.type = .char) := by
  obtain ⟨code, c', hrun, -, htokens, hkeyword⟩ := exists_run_of_compile h
  obtain ⟨p, hp, hpoints⟩ := Run.enters_functions
    (Nat.lt_succ_of_le (Cursor.length_tokens_le_remaining _)) hkeyword
    (Compiler.models_ofScan _ options _) hrun
  exact ⟨p, hp.symm.trans htokens, fun fs f gs before name value after hprogram hbody =>
    hpoints fs f gs hprogram before name value after hbody⟩

/-- A source that stores through a variable in an inner block, and through a string constant of
the function before. -/
def storedText : String :=
  "void f()\x7bchar *s=\"hi\";\x7dint main()\x7bint *p=4;if(p!=0)\x7b*p=1;\x7d*s=2;\x7d"

theorem stores_through_pointers_inner : (compile storedText {}).hasError = false ∧
    ∃ p : Program, p.tokens = (Scan.ofSource storedText).tokens.map Token.kind ∧
      ∀ fs f gs before name value after, p = fs ++ f :: gs →
        f.body.simples = before ++ .storeThrough name value :: after →
        ∃ d, (fs.flatMap Function.constantDeclarations ++ declarations before).filter
            (·.name = name) = [d] ∧
          (d.type.isPointer = true ∨ d.isConstant = true ∧ d.type = .char) := by
  have hcompile : (compile storedText {}).hasError = false := by decide +kernel
  exact ⟨hcompile, stores_through_pointers hcompile⟩

/-- A source that stores through a string constant of type `char`. -/
def storedLetterText : String :=
  "int main() \x7b char s = \"hi\"; *s = 1; \x7d"

/-- The type of a string constant is not looked at: no declaration of a pointer governs the name
that is stored through. -/
theorem store_through_letter : (compile storedLetterText {}).hasError = false ∧
    ¬ ∃ p : Program, p.tokens = (Scan.ofSource storedLetterText).tokens.map Token.kind ∧
      ∀ fs f gs before name value after, p = fs ++ f :: gs →
        f.body.simples = before ++ .storeThrough name value :: after →
        ∃ d, (fs.flatMap Function.constantDeclarations ++ declarations before).filter
            (·.name = name) = [d] ∧ d.type.isPointer = true := by
  refine ⟨by decide +kernel, ?_⟩
  rintro ⟨p, htokens, hpoints⟩
  obtain rfl : p = [⟨true, "main", .simple (.constant .char "s" "hi")
      (.simple (.storeThrough "s" (.expr ⟨.number 1, []⟩)) .done)⟩] :=
    Program.tokens_inj (htokens.trans (by decide +kernel))
  obtain ⟨d, hd, hpointer⟩ := hpoints [] _ [] [.constant .char "s" "hi"] "s" _ [] rfl rfl
  have hletter : [⟨"s", .char, true⟩] = [d] := .trans (by decide) hd
  obtain rfl := (List.cons.inj hletter).1
  cases hpointer

end Ia32.C

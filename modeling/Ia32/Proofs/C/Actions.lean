import Ia32.Proofs.C.Means
import Ia32.Proofs.Outcome

/-!
# What the actions of the compiler do

An action `Acts` by some means if it leads only to states that evolve by them, whether or not it
gives a result. If it stops, it does so with a complaint about the syntax, and the remarks that
are there before play no part in what it does. All actions of the compiler act by their means,
which is shown here, once for each of them.
-/

namespace Ia32.C

/-! ### Remarks put in front -/

namespace Cursor

/-- The cursor with remarks in front of those that it has. -/
def behind (c : Cursor) (remarks : List Diagnostic) : Cursor :=
  { c with diagnostics := remarks ++ c.diagnostics }

theorem settle_behind (remarks : List Diagnostic) (lastLine : Nat) (diagnostics : List Diagnostic)
    (tokens : List Token) : settle lastLine (remarks ++ diagnostics) tokens =
      (settle lastLine diagnostics tokens).behind remarks := by
  induction tokens generalizing diagnostics with
  | nil => rfl
  | cons token rest ih =>
      unfold settle
      split
      · rw [List.append_assoc, ih]
      · rfl

theorem next_behind (c : Cursor) (remarks : List Diagnostic) :
    (c.behind remarks).next = c.next.behind remarks := by
  have hkind : (c.behind remarks).kind = c.kind := rfl
  unfold next
  rw [hkind]
  split
  · rfl
  · exact settle_behind _ _ _ _

theorem report_behind (c : Cursor) (remarks : List Diagnostic) (d : Diagnostic) :
    (c.behind remarks).report d = (c.report d).behind remarks := by
  simp only [report, behind, List.append_assoc]

theorem skipStatement_behind (fuel depth : Nat) (c : Cursor) (remarks : List Diagnostic) :
    skipStatement fuel depth (c.behind remarks) = (skipStatement fuel depth c).behind remarks := by
  induction fuel generalizing depth c with
  | zero => rfl
  | succ fuel ih =>
      have hkind : (c.behind remarks).kind = c.kind := rfl
      simp only [skipStatement, hkind, next_behind, ih]
      split
      · rfl
      · split <;> rfl
      · rfl
      · split <;> rfl
      · rfl

end Cursor

/-- The state with remarks in front of those that it has. -/
def Compiler.behind (c : Compiler) (remarks : List Diagnostic) : Compiler :=
  { c with cursor := c.cursor.behind remarks }

/-- An outcome with remarks in front of those in its state. -/
def outcomeBehind {α : Type} (remarks : List Diagnostic) :
    EStateM.Result Diagnostic Compiler α → EStateM.Result Diagnostic Compiler α
  | .ok a c => .ok a (c.behind remarks)
  | .error d c => .error d (c.behind remarks)

/-! ### Acting by some means -/

variable {α β : Type}

/-- In a state an action leads only to states that evolve from it by some means, also if it stops,
which it does with a complaint about the syntax. Remarks in front stay there and change nothing. -/
structure ActsAt (means : Means) (act : CompileM α) (c : Compiler) : Prop where
  ok : ∀ {a c'}, act c = .ok a c' → c.Evolves means c'
  error : ∀ {d c'}, act c = .error d c' →
    (means.stops = true ∧ d.severity = .syntactic) ∧ c.Evolves means c'
  behind : ∀ remarks, act (c.behind remarks) = outcomeBehind remarks (act c)

/-- Actions that act by some means in every state. -/
class Acts (means : Means) (act : CompileM α) : Prop where
  here : ∀ c, ActsAt means act c

namespace ActsAt

variable {means : Means} {c : Compiler}

theorem pure (a : α) : ActsAt means (Pure.pure a) c where
  ok h := by cases h; exact .refl
  error h := by cases h
  behind _ := rfl

theorem bind {x : CompileM α} {f : α → CompileM β} (hx : ActsAt means x c)
    (hf : ∀ a c', x c = .ok a c' → ActsAt means (f a) c') : ActsAt means (x >>= f) c where
  ok h := by
    obtain ⟨a, c1, hfirst, hsecond⟩ := action_bind_eq_ok.mp h
    exact (hx.ok hfirst).trans ((hf a c1 hfirst).ok hsecond)
  error h := by
    rcases action_bind_eq_error.mp h with hfirst | ⟨a, c1, hfirst, hsecond⟩
    · exact hx.error hfirst
    · obtain ⟨hstops, hevolves⟩ := (hf a c1 hfirst).error hsecond
      exact ⟨hstops, (hx.ok hfirst).trans hevolves⟩
  behind remarks := by
    change EStateM.bind x f (c.behind remarks) = outcomeBehind remarks (EStateM.bind x f c)
    unfold EStateM.bind
    rw [hx.behind remarks]
    cases hfirst : x c with
    | ok a c1 => exact (hf a c1 hfirst).behind remarks
    | error d c1 => rfl

/-- An action that depends on the state it starts in, other than by the remarks in it. -/
theorem get {f : Compiler → CompileM α} (hsame : ∀ remarks, f (c.behind remarks) = f c)
    (h : ActsAt means (f c) c) : ActsAt means (MonadState.get >>= f) c where
  ok := h.ok
  error := h.error
  behind remarks := by
    change f (c.behind remarks) (c.behind remarks) = outcomeBehind remarks (f c c)
    rw [hsame]
    exact h.behind remarks

/-- An action that only changes the state. -/
theorem modify {f : Compiler → α × Compiler} (h : c.Step means (f c).2)
    (hbehind : ∀ remarks, f (c.behind remarks) = ((f c).1, (f c).2.behind remarks)) :
    ActsAt means (modifyGet f : CompileM α) c where
  ok h' := by cases h'; exact .single h
  error h' := by cases h'
  behind remarks := by
    change EStateM.Result.ok (f (c.behind remarks)).1 (f (c.behind remarks)).2 = _
    rw [hbehind remarks]
    rfl

theorem ite {p : Prop} [Decidable p] {x y : CompileM α} (hx : p → ActsAt means x c)
    (hy : ¬p → ActsAt means y c) : ActsAt means (if p then x else y) c := by
  split
  · exact hx ‹_›
  · exact hy ‹_›

/-- What an action does with string constants fixed, it does. -/
theorem of_fixing {act : CompileM α} (h : ActsAt means.fixing act c) : ActsAt means act c where
  ok heq := (h.ok heq).of_fixing
  error heq := ⟨(h.error heq).1, (h.error heq).2.of_fixing⟩
  behind := h.behind

/-- A value is read first, which defines no string constant. -/
theorem read {x : CompileM α} [hx : Acts means.fixing x] {f : α → CompileM β}
    (hf : ∀ a {c'}, c'.strings = c.strings → ActsAt means (f a) c') : ActsAt means (x >>= f) c :=
  (hx.here c).of_fixing.bind fun a _ hrun => hf a (((hx.here c).ok hrun).strings rfl)

/-- What stops an action is reported, and something else is done instead. -/
theorem tryCatch {x after : CompileM α} [h : means.Compiles] (hx : ActsAt means x c)
    (hafter : ∀ c', ActsAt means after c') :
    ActsAt means (MonadExcept.tryCatch x fun d => CompileM.report d >>= fun _ => after) c := by
  let caught : CompileM α := MonadExcept.tryCatch x fun d => CompileM.report d >>= fun _ => after
  cases hfirst : x c with
  | ok a c1 =>
      have heq : caught c = .ok a c1 := tryCatch_of_ok hfirst
      refine ⟨fun hrun => ?_, fun hrun => ?_, fun remarks => ?_⟩
      · cases heq.symm.trans hrun
        exact hx.ok hfirst
      · cases heq.symm.trans hrun
      · have hbehind := hx.behind remarks
        rw [hfirst] at hbehind
        exact (tryCatch_of_ok hbehind).trans (congrArg (outcomeBehind remarks) heq.symm)
  | error d c1 =>
      obtain ⟨⟨-, hsyntactic⟩, hevolves⟩ := hx.error hfirst
      let c2 : Compiler := { c1 with cursor := c1.cursor.report d }
      have heq : caught c = after c2 := tryCatch_of_error hfirst
      have hreported : c.Evolves means c2 := hevolves.tail (.reported h.recovers hsyntactic)
      refine ⟨fun hrun => ?_, fun hrun => ?_, fun remarks => ?_⟩
      · exact hreported.trans ((hafter c2).ok (heq.symm.trans hrun))
      · obtain ⟨hstops, hevolves'⟩ := (hafter c2).error (heq.symm.trans hrun)
        exact ⟨hstops, hreported.trans hevolves'⟩
      · have hbehind := hx.behind remarks
        rw [hfirst] at hbehind
        refine (tryCatch_of_error hbehind).trans ?_
        refine Eq.trans ?_ (congrArg (outcomeBehind remarks) heq.symm)
        rw [← (hafter c2).behind remarks]
        exact congrArg (fun cursor => after { c1 with cursor := cursor })
          (c1.cursor.report_behind remarks d)

end ActsAt

namespace Acts

open CompileM Means

variable {means : Means} {c : Compiler}

instance pure (a : α) : Acts means (Pure.pure a) :=
  ⟨fun _ => .pure a⟩

instance bind {x : CompileM α} {f : α → CompileM β} [hx : Acts means x]
    [hf : ∀ a, Acts means (f a)] : Acts means (x >>= f) :=
  ⟨fun c => (hx.here c).bind fun a c' _ => (hf a).here c'⟩

instance ite {p : Prop} [Decidable p] {x y : CompileM α} [hx : Acts means x]
    [hy : Acts means y] : Acts means (if p then x else y) :=
  ⟨fun c => .ite (fun _ => hx.here c) fun _ => hy.here c⟩

/-- An action that depends on the tables of the state it starts in. -/
theorem of_get {f : Compiler → CompileM α} (hsame : ∀ c remarks, f (c.behind remarks) = f c)
    (h : ∀ c, Acts means (f c)) : Acts means (MonadState.get >>= f) :=
  ⟨fun c => .get (hsame c) ((h c).here c)⟩

instance peek : Acts means peek := of_get (fun _ _ => rfl) fun _ => inferInstance

instance line : Acts means line := of_get (fun _ _ => rfl) fun _ => inferInstance

instance remaining : Acts means remaining := of_get (fun _ _ => rfl) fun _ => inferInstance

instance complain (line : Nat) (complaint : Complaint) : Acts means (complain line complaint) :=
  ⟨fun c => .modify (.complained line complaint) fun remarks =>
    congrArg (fun cursor => ((), { c with cursor := cursor })) (c.cursor.report_behind remarks _)⟩

/-- The current token is passed, if that may be done. -/
theorem advance_here (h : means.passes c.cursor.kind = true) : ActsAt means advance c :=
  .modify (.passed h) fun remarks =>
    congrArg (fun cursor => ((), { c with cursor := cursor })) (c.cursor.next_behind remarks)

instance advance [Moves means] : Acts means advance :=
  ⟨fun _ => advance_here (Moves.moves _)⟩

theorem unexpected_of_stops (h : means.stops = true) (what : String) :
    Acts means (unexpected what : CompileM α) where
  here _ :=
    { ok := fun heq => by cases heq
      error := fun heq => by cases heq; exact ⟨⟨h, rfl⟩, .refl⟩
      behind := fun _ => rfl }

instance unexpected [Reads means] (what : String) : Acts means (unexpected what : CompileM α) :=
  unexpected_of_stops Reads.stops what

/-- A choice by the current token. -/
theorem of_peek {f : TokenKind → CompileM α} (h : ∀ c, ActsAt means (f c.cursor.kind) c) :
    Acts means (CompileM.peek >>= f) :=
  ⟨fun c => (peek.here c).bind fun kind c' hrun => by cases hrun; exact h c⟩

/-- The current token, which is known, is passed first. -/
theorem behind_advance {kind : TokenKind} [h : means.Asks kind] {f : Unit → CompileM α}
    (hkind : c.cursor.kind = kind) (hf : ∀ u, Acts means (f u)) :
    ActsAt means (CompileM.advance >>= f) c :=
  (advance_here (hkind ▸ h.passes)).bind fun u c' _ => (hf u).here c'

instance accept (kind : TokenKind) [means.Asks kind] : Acts means (accept kind) :=
  of_peek fun _ => .ite (fun heq => behind_advance heq inferInstance) fun _ => .pure _

instance expect (kind : TokenKind) (what : String) [h : means.Asks kind] :
    Acts means (expect kind what) :=
  of_peek fun c => .ite (fun heq => advance_here (heq ▸ h.passes))
    fun _ => (unexpected_of_stops h.stops what).here c

instance expectNumber (what : String) [Reads means] : Acts means (expectNumber what) :=
  of_peek fun c => by
    split
    next heq => exact behind_advance heq inferInstance
    next => exact (unexpected what).here c

instance expectIdent [Reads means] : Acts means expectIdent :=
  of_peek fun c => by
    split
    next heq => exact behind_advance heq inferInstance
    next => exact (unexpected _).here c

/-- Only the table of variables changes. -/
theorem withLocals_here {use : Locals → Locals × α}
    (h : c.Step means { c with locals := (use c.locals).1 }) :
    ActsAt means (CompileM.withLocals use) c :=
  .modify h fun _ => rfl

/-! ### Expressions -/

/-- A name that is no constant is looked up as a variable. -/
theorem findVariable_here {line : Nat} {name : String}
    (hname : c.isString name = false ∨ means.mistakes = true) :
    ActsAt means (findVariable line name) c := by
  refine (withLocals_here (.used hname)).bind fun outcome c' _ => ?_
  cases outcome with
  | ok l => exact .pure _
  | error cause => exact bind.here c'

instance findVariable [h : Mistakes means] (line : Nat) (name : String) :
    Acts means (findVariable line name) :=
  ⟨fun _ => findVariable_here (.inr h.mistakes)⟩

instance variableOperand (line : Nat) (name : String) : Acts means (variableOperand line name) := by
  refine ⟨fun c => .get (fun _ => rfl) (.ite (fun _ => .pure _) fun hname => ?_)⟩
  refine (findVariable_here (.inl (by simpa using hname))).bind fun l? _ _ => ?_
  cases l? <;> exact .pure _

instance primary [Reads means] : Acts means primary := by
  unfold CompileM.primary
  refine @bind _ _ _ _ _ line fun n => of_peek fun c => ?_
  split
  next heq => exact behind_advance heq inferInstance
  next heq => exact behind_advance heq inferInstance
  next => exact (unexpected _).here c

instance additions [Reads means] (fuel : Nat) : Acts means (additions fuel) := by
  induction fuel with
  | zero => exact pure _
  | succ fuel ih => unfold CompileM.additions; infer_instance

instance expression [Reads means] : Acts means expression := by
  unfold CompileM.expression
  infer_instance

/-! ### Simple statements -/

instance syscallArguments [Reads means] (regs : List Reg) : Acts means (syscallArguments regs) := by
  induction regs with
  | nil => exact pure _
  | cons r rest ih => unfold CompileM.syscallArguments; infer_instance

instance openSyscall [Reads means] : Acts means openSyscall := by
  unfold CompileM.openSyscall
  infer_instance

/-- The target of an assignment is asked for with the string constants that there were before. -/
theorem assignment_here [Reads means] {target : CompileM (Option Place)}
    (htarget : ∀ {c'}, c'.strings = c.strings → ActsAt means target c') :
    ActsAt means (assignment target) c := by
  refine (peek.here c).bind fun kind c' hrun => .ite (fun _ => ?_) fun _ => ?_
  all_goals
    cases hrun
    refine .read fun _ c' hstrings => (htarget hstrings).bind fun place? _ _ => ?_
    cases place? <;> exact .pure _

instance assignment [Reads means] (target : CompileM (Option Place)) [h : Acts means target] :
    Acts means (assignment target) :=
  ⟨fun _ => assignment_here fun _ => h.here _⟩

instance declareVariable [h : Types means] (line : Nat) (name : String) (type : CType) :
    Acts means (declareVariable line name type) := by
  refine ⟨fun c => .get (fun _ => rfl) (.ite (fun _ => bind.here c) fun hname => ?_)⟩
  have hdeclared : c.Step means { c with locals := (c.locals.declare name type).1 } :=
    .declared h.types (by simpa using hname) type
  refine (withLocals_here hdeclared).bind fun outcome c' _ => ?_
  cases outcome with
  | ok l => exact .pure _
  | error refused => exact bind.here c'

instance initializedVariable [h : Types means] (line : Nat) (name : String) (type : CType)
    (isFresh : Bool) : Acts means (initializedVariable line name type isFresh) := by
  refine ⟨fun c => .ite (fun _ => ?_) fun _ => (declareVariable line name type).here c⟩
  refine (withLocals_here (.retyped h.types name type)).bind fun l? c' _ => ?_
  cases l? with
  | none => exact (declareVariable line name type).here c'
  | some l => exact .pure _

instance defineString [h : Defines means] (line : Nat) (name : String) (type : CType)
    (content : String) : Acts means (defineString line name type content) := by
  refine ⟨fun c => .get (fun _ => rfl) ?_⟩
  have hcomplain (complaint : Complaint) : ActsAt means (CompileM.complain line complaint) c :=
    (complain line complaint).here c
  refine .ite (fun _ => hcomplain _) fun _ => .ite (fun _ => hcomplain _) fun hreserved => ?_
  refine .ite (fun _ => hcomplain _) fun hfunction => .ite (fun _ => hcomplain _) fun hnew => ?_
  simp only [Bool.or_eq_true, not_or, Bool.not_eq_true, Option.isSome_eq_false_iff,
    Option.isNone_iff_eq_none] at hnew
  exact .modify (.defined h.defines content (by simpa using hreserved)
    (by simpa using hfunction) hnew.1 hnew.2) fun _ => rfl

instance initializer [Compiles means] (line : Nat) (name : String) (type : CType) :
    Acts means (initializer line name type) := by
  refine of_peek fun c => ?_
  split
  · exact bind.here c
  · exact .get (fun _ => rfl) (bind.here c)

instance declaration [Compiles means] : Acts means declaration := by
  unfold CompileM.declaration
  refine @bind _ _ _ _ _ line fun n => @bind _ _ _ _ _ peek fun kind => ?_
  exact @bind _ _ _ _ _ advance fun _ => inferInstance

instance pointerOperand (line : Nat) (name : String) : Acts means (pointerOperand line name) := by
  refine ⟨fun c => .get (fun _ => rfl) (.ite (fun _ => .pure _) fun hname => ?_)⟩
  refine (findVariable_here (.inl (by simpa using hname))).bind fun l? c' _ => ?_
  cases l? with
  | none => exact .pure _
  | some l => exact .ite (fun _ => .pure _) fun _ => bind.here c'

/-- An assignment through a pointer behind its star. -/
instance storeRest [Moves means] (line : Nat) : Acts means (do
    let name ← CompileM.expectIdent
    let pointer? ← CompileM.pointerOperand line name
    CompileM.expect .assign "`=`"
    let code ← CompileM.assignment (return pointer?.map .pointee)
    CompileM.expect .semicolon "`;`"
    return code) :=
  @bind _ _ _ _ _ expectIdent fun _ => inferInstance

instance pointerAssignment [Moves means] : Acts means pointerAssignment := by
  unfold CompileM.pointerAssignment
  infer_instance

instance returnStatement [Moves means] : Acts means returnStatement := by
  unfold CompileM.returnStatement
  infer_instance

instance syscallStatement [Moves means] : Acts means syscallStatement := by
  unfold CompileM.syscallStatement
  infer_instance

/-- A string constant is not entered as a variable when it is assigned to. -/
theorem assignedVariable_here {line : Nat} {name : String} {isConstant : Bool}
    (hname : isConstant = false → c.isString name = false ∨ means.mistakes = true) :
    ActsAt means (assignedVariable line name isConstant) c := by
  refine .ite (fun _ => .pure _) fun hconstant => ?_
  refine (findVariable_here (hname (by simpa using hconstant))).bind fun l? _ _ => ?_
  cases l? <;> exact .pure _

instance assignedVariable [h : Mistakes means] (line : Nat) (name : String) (isConstant : Bool) :
    Acts means (assignedVariable line name isConstant) :=
  ⟨fun _ => assignedVariable_here fun _ => .inr h.mistakes⟩

instance moreArguments [Reads means] (fuel : Nat) : Acts means (moreArguments fuel) := by
  induction fuel with
  | zero => exact pure _
  | succ fuel ih => unfold CompileM.moreArguments; infer_instance

instance arguments [Reads means] : Acts means arguments := by
  unfold CompileM.arguments
  infer_instance

instance callCode (line : Nat) (name : String) (values : List Value) :
    Acts means (callCode line name values) :=
  of_get (fun _ _ => rfl) fun _ => inferInstance

instance callStatement [Moves means] (line : Nat) (name : String) :
    Acts means (callStatement line name) := by
  unfold CompileM.callStatement
  infer_instance

/-- An assignment to a name behind its equals sign. -/
instance assignmentRest [Moves means] (line : Nat) (name : String) : Acts means (do
    let isConstant := (← get).isString name
    if isConstant then CompileM.complain line (.assignedConstant name)
    let code ← CompileM.assignment (CompileM.assignedVariable line name isConstant)
    CompileM.expect .semicolon "`;`"
    return code) := by
  refine ⟨fun c => .get (fun _ => rfl) ?_⟩
  have hassigned {c' : Compiler} (hsame : c'.strings = c.strings) : ActsAt means (do
      let code ← CompileM.assignment (CompileM.assignedVariable line name (c.isString name))
      CompileM.expect .semicolon "`;`"
      return code) c' := by
    refine (assignment_here fun hstrings => assignedVariable_here fun hname => .inl ?_).bind
      fun _ c1 _ => bind.here c1
    rw [← hname, Compiler.isString, hstrings, hsame, Compiler.isString]
  exact .ite (fun _ => .read fun _ _ hsame => hassigned hsame) fun _ => hassigned rfl

instance variableAssignment [Moves means] (line : Nat) (name : String) :
    Acts means (variableAssignment line name) := by
  unfold CompileM.variableAssignment
  infer_instance

instance nameStatement [Moves means] (line : Nat) (name : String) :
    Acts means (nameStatement line name) := by
  unfold CompileM.nameStatement
  infer_instance

/-! ### Branches, loops and blocks -/

instance newBranch : Acts means newBranch :=
  ⟨fun c => .modify (.counted c.defined (c.ifCount + 1) c.whileCount) fun _ => rfl⟩

instance newLoop : Acts means newLoop :=
  ⟨fun c => .modify (.counted c.defined c.ifCount (c.whileCount + 1)) fun _ => rfl⟩

instance condition [Reads means] (comparison : TokenKind) [means.Asks comparison]
    (what : String) : Acts means (condition comparison what) := by
  unfold CompileM.condition
  infer_instance

instance ifStatement [Moves means] (block : CompileM Code) [Acts means block] :
    Acts means (ifStatement block) := by
  unfold CompileM.ifStatement
  infer_instance

instance whileStatement [Moves means] (block : CompileM Code) [Acts means block] :
    Acts means (whileStatement block) := by
  unfold CompileM.whileStatement
  infer_instance

instance statementWith [Compiles means] (block : CompileM Code) [Acts means block] :
    Acts means (statementWith block) := by
  unfold CompileM.statementWith
  refine @bind _ _ _ _ _ line fun n => @bind _ _ _ _ _ peek fun kind => ?_
  split <;> infer_instance

instance synchronize [h : Compiles means] : Acts means synchronize :=
  ⟨fun c => .modify (.skipped h.recovers) fun remarks =>
    congrArg (fun cursor => ((), { c with cursor := cursor }))
      (c.cursor.skipStatement_behind _ _ remarks)⟩

instance reportExpected [h : Compiles means] (c : Cursor) (what : String) :
    Acts means (report (c.expected what)) :=
  ⟨fun c' => .modify (.reported h.recovers rfl) fun remarks =>
    congrArg (fun cursor => ((), { c' with cursor := cursor }))
      (c'.cursor.report_behind remarks _)⟩

/-- What is broken is reported, and something else is done instead. -/
instance tryCatch [Compiles means] {x after : CompileM α} [hx : Acts means x]
    [hafter : Acts means after] :
    Acts means (MonadExcept.tryCatch x fun d => CompileM.report d >>= fun _ => after) :=
  ⟨fun c => .tryCatch (hx.here c) hafter.here⟩

instance statements [Compiles means] (one : CompileM Code) [Acts means one] (fuel : Nat) :
    Acts means (statements one fuel) := by
  induction fuel with
  | zero => exact pure _
  | succ fuel ih =>
      unfold CompileM.statements
      refine @bind _ _ _ _ _ peek fun kind => ?_
      split
      · infer_instance
      · exact of_get (fun _ _ => rfl) fun _ => inferInstance
      · infer_instance

instance blockAt [Compiles means] (depth : Nat) : Acts means (blockAt depth) := by
  induction depth with
  | zero => exact pure _
  | succ depth ih => unfold CompileM.blockAt; infer_instance

instance block [Compiles means] : Acts means block := by
  unfold CompileM.block
  infer_instance

instance statement [Compiles means] : Acts means statement :=
  statementWith _

/-! ### Functions -/

instance functionName [Reads means] : Acts means functionName :=
  of_peek fun c => by
    split
    next heq => exact behind_advance heq inferInstance
    next heq => exact behind_advance heq inferInstance
    next => exact (unexpected _).here c

instance returnsInt [Reads means] : Acts means returnsInt :=
  of_peek fun c => by
    split
    next heq => exact behind_advance heq inferInstance
    next heq => exact behind_advance heq inferInstance
    next => exact (unexpected _).here c

instance defineFunction (line : Nat) (name : String) : Acts means (defineFunction line name) := by
  refine of_get (fun _ _ => rfl) fun c => @ite _ _ _ _ _ _ inferInstance ?_
  refine @ite _ _ _ _ _ _ inferInstance ⟨fun c => ?_⟩
  exact .modify (.counted (c.defined ++ [name]) c.ifCount c.whileCount) fun _ => rfl

instance declareFunction (line : Nat) (isInt : Bool) (name : String) :
    Acts means (declareFunction line isInt name) := by
  unfold CompileM.declareFunction
  infer_instance

instance functionHead [Reads means] : Acts means functionHead := by
  unfold CompileM.functionHead
  infer_instance

instance clear [h : Clears means] :
    Acts means (modify fun c => { c with locals := c.locals.clear } : CompileM Unit) :=
  ⟨fun _ => .modify (.cleared h.clears) fun _ => rfl⟩

/-- The size of the frame is known when the body has been compiled. -/
instance functionEnd (name : String) (body : Code) : Acts means (do
    return functionCode name (← get).locals.frameSize body) :=
  of_get (fun _ _ => rfl) fun _ => inferInstance

instance function [Compiles means] [Clears means] : Acts means function := by
  unfold CompileM.function
  infer_instance

instance functions [Compiles means] [Clears means] (fuel : Nat) : Acts means (functions fuel) := by
  induction fuel with
  | zero => exact pure _
  | succ fuel ih =>
      unfold CompileM.functions
      infer_instance

instance program [Compiles means] [Clears means] : Acts means program := by
  unfold CompileM.program
  infer_instance

end Acts

end Ia32.C

import Ia32.Proofs.C.Runs
import Ia32.Proofs.C.Tables

/-!
# What the compiler reads

A clean run of an action reads a stretch of source that some construct of the
language spells, and returns the code of that construct in every frame that agrees
with the tables behind it.
-/

namespace Ia32.C

open Piece

/-! ### Pieces -/

namespace Piece

@[simp]
theorem append_mk (p q : Piece) : p ++ q = ⟨p.tokens ++ q.tokens, p.names ++ q.names,
    p.constants ++ q.constants, p.calls ++ q.calls, p.branches + q.branches,
    p.loops + q.loops, p.written ++ q.written⟩ := rfl

theorem append_assoc (p q r : Piece) : p ++ q ++ r = p ++ (q ++ r) := by
  simp [Nat.add_assoc]

theorem append_empty (p : Piece) : p ++ ({} : Piece) = p := by
  simp

/-- Nothing but tokens and lookups, as in expressions. -/
structure Plain (p : Piece) : Prop where
  constants : p.constants = []
  calls : p.calls = []
  branches : p.branches = 0
  loops : p.loops = 0

theorem plain_spelled (tokens : List TokenKind) : Plain (spelled tokens) :=
  ⟨rfl, rfl, rfl, rfl⟩

theorem plain_looked (name : String) : Plain (looked name) :=
  ⟨rfl, rfl, rfl, rfl⟩

theorem plain_assigned (name : String) : Plain (assigned name) :=
  ⟨rfl, rfl, rfl, rfl⟩

/-- What has no names to look up stays so when it is put together. -/
theorem Plain.append {p q : Piece} (hp : p.Plain) (hq : q.Plain) : Plain (p ++ q) :=
  ⟨by simp [hp.constants, hq.constants], by simp [hp.calls, hq.calls],
    by simp [hp.branches, hq.branches], by simp [hp.loops, hq.loops]⟩

theorem plain_joined {pieces : List Piece} (h : ∀ p ∈ pieces, p.Plain) : Plain (joined pieces) := by
  induction pieces with
  | nil => exact ⟨rfl, rfl, rfl, rfl⟩
  | cons p rest ih =>
      exact (h p List.mem_cons_self).append (ih fun q hq => h q (List.mem_cons_of_mem p hq))

end Piece

/-- A primary looks names up, and enters none. -/
theorem Primary.plain (p : Primary) : p.piece.Plain := by
  cases p with
  | number value => exact plain_spelled _
  | named name => exact (plain_spelled _).append (plain_looked name)

theorem Expr.plain (e : Expr) : e.piece.Plain :=
  e.first.plain.append (plain_spelled _)

theorem plain_furtherArguments (es : List Expr) : (furtherArguments es).Plain := by
  refine plain_joined fun p hp => ?_
  obtain ⟨e, -, rfl⟩ := List.mem_map.mp hp
  exact (plain_spelled _).append e.plain

theorem Trap.plain (t : Trap) : t.piece.Plain :=
  ((plain_spelled _).append (plain_furtherArguments t.arguments)).append (plain_spelled _)

theorem Rhs.plain (r : Rhs) : r.piece.Plain := by
  cases r with
  | expr e => exact e.plain
  | trap t => exact t.plain

theorem Test.plain (comparison : TokenKind) (test : Test) : (test.piece comparison).Plain :=
  ((((plain_spelled _).append test.left.plain).append (plain_spelled _)).append
    test.right.plain).append (plain_spelled _)

theorem Code.append_assoc (a b d : Code) : a ++ b ++ d = a ++ (b ++ d) :=
  congrArg Code.mk (List.append_assoc a.items b.items d.items)

theorem Code.append_empty (a : Code) : a ++ ({} : Code) = a :=
  congrArg Code.mk (List.append_nil a.items)

/-- A stretch of source between two states of the compiler. -/
structure Reads (p : Piece) (c c' : Compiler) : Prop where
  tokens : c.tokens = p.tokens ++ c'.tokens
  options : c'.options = c.options
  functions : c'.functions = c.functions
  defined : c'.defined = c.defined
  strings : c'.strings = c.strings ++ p.constants
  branches : c'.ifCount = c.ifCount + p.branches
  loops : c'.whileCount = c.whileCount + p.loops
  calls : ∀ call ∈ p.calls, c.options.Admits c.functions call
  written : ∀ frame, c'.Within frame → ∀ name ∈ p.written, name ∉ frame.constants
  keeps : ∀ {name l}, c.locals.get? name = some l →
    ∃ l', c'.locals.get? name = some l' ∧ l'.slot = l.slot
  names : ∀ frame, c'.Within frame →
    c'.locals.names = (p.names.filter (· ∉ frame.constants)).foldl insertName c.locals.names
  sound : c.Sound → c'.Sound

namespace Reads

variable {p q : Piece} {c c1 c' : Compiler}

/-- Tokens and counted labels leave the tables alone. -/
theorem of_tables_eq {cursor : Cursor} {branches loops : Nat} {tokens : List TokenKind}
    (htokens : c.tokens = tokens ++ cursor.tokens) :
    Reads { tokens := tokens, branches := branches, loops := loops } c
      { c with
        cursor := cursor
        ifCount := c.ifCount + branches
        whileCount := c.whileCount + loops } where
  tokens := htokens
  options := rfl
  functions := rfl
  defined := rfl
  strings := (List.append_nil _).symm
  branches := rfl
  loops := rfl
  calls := by simp
  written := by simp
  keeps hl := ⟨_, hl, rfl⟩
  names _ _ := rfl
  sound := fun ⟨hdense, hcapacity, hapart, hnodup, hlabels⟩ =>
    ⟨hdense, hcapacity, hapart, hnodup, hlabels⟩

theorem refl (c : Compiler) : Reads {} c c :=
  of_tables_eq rfl

/-- A frame within a state is within every state before it. -/
theorem within (h : Reads p c c') {frame : Frame} (hframe : c'.Within frame) :
    c.Within frame where
  constants hstring := by
    refine hframe.constants (Compiler.isString_iff.mpr ?_)
    have hmem := Compiler.isString_iff.mp hstring
    simp only [Compiler.constants, h.strings, List.map_append, List.mem_append] at hmem ⊢
    exact .inl hmem
  locals hl := by
    obtain ⟨l', hl', hslot⟩ := h.keeps hl
    obtain ⟨hname, hslot'⟩ := hframe.locals hl'
    exact ⟨hname, hslot.symm.trans hslot'⟩

/-- What is read by two actions in turn. -/
theorem trans (h : Reads p c c1) (h' : Reads q c1 c') : Reads (p ++ q) c c' where
  tokens := by simp [h.tokens, h'.tokens]
  options := h'.options.trans h.options
  functions := h'.functions.trans h.functions
  defined := h'.defined.trans h.defined
  strings := by simp [h.strings, h'.strings]
  branches := by simp [h.branches, h'.branches, Nat.add_assoc]
  loops := by simp [h.loops, h'.loops, Nat.add_assoc]
  calls call hcall := by
    rcases List.mem_append.mp hcall with hcall | hcall
    · exact h.calls call hcall
    · simpa only [h.options, h.functions] using h'.calls call hcall
  written frame hframe name hname := by
    rcases List.mem_append.mp hname with hname | hname
    · exact h.written frame (h'.within hframe) name hname
    · exact h'.written frame hframe name hname
  keeps hl := by
    obtain ⟨l1, hl1, hslot1⟩ := h.keeps hl
    obtain ⟨l', hl', hslot'⟩ := h'.keeps hl1
    exact ⟨l', hl', hslot'.trans hslot1⟩
  names frame hframe := by
    rw [h'.names frame hframe, h.names frame (h'.within hframe)]
    simp
  sound hc := h'.sound (h.sound hc)

theorem cast (h : Reads p c c') (hpq : p = q) : Reads q c c' :=
  hpq ▸ h

/-- A variable found or declared. -/
theorem of_grows {name : String} {locals : Locals} (hgrows : c.locals.Grows name locals)
    (hstring : c.Sound → c.isString name = false) :
    Reads (looked name) c { c with locals := locals } where
  tokens := rfl
  options := rfl
  functions := rfl
  defined := rfl
  strings := (List.append_nil _).symm
  branches := rfl
  loops := rfl
  calls := by simp [looked]
  written := by simp [looked]
  keeps hl := hgrows.keeps hl
  names frame hframe := by
    obtain ⟨l, hl⟩ := hgrows.found
    have hname := (hframe.locals hl).1
    simpa [looked, hname] using hgrows.names
  sound hc := hc.declared (hstring hc) hgrows

/-- A name that has a variable is no constant. -/
theorem assigned {name : String} {l : Local} (h : Reads (looked name) c c')
    (hl : c'.locals.get? name = some l) : Reads (assigned name) c c' :=
  { h with
    written := by
      intro frame hframe other hother
      rw [List.mem_singleton.mp hother]
      exact (hframe.locals hl).1 }

/-- A name that is a constant needs no variable. -/
theorem of_constant {name : String} (h : c.isString name) : Reads (looked name) c c where
  tokens := rfl
  options := rfl
  functions := rfl
  defined := rfl
  strings := (List.append_nil _).symm
  branches := rfl
  loops := rfl
  calls := by simp [looked]
  written := by simp [looked]
  keeps hl := ⟨_, hl, rfl⟩
  names frame hframe := by simp [looked, hframe.constants h]
  sound := id

end Reads

/-! ### Single tokens -/

namespace Run

open CompileM

variable {α : Type} {c c' : Compiler}

/-- Looking at the next token takes nothing. -/
theorem of_peek {f : TokenKind → CompileM α} {a : α} (h : Run (peek >>= f) c a c') :
    Run (f c.cursor.kind) c a c' := ⟨h.eq, h.clean⟩

theorem of_line {f : Nat → CompileM α} {a : α} (h : Run (line >>= f) c a c') :
    Run (f c.cursor.line) c a c' := ⟨h.eq, h.clean⟩

theorem of_get {f : Compiler → CompileM α} {a : α} (h : Run (get >>= f) c a c') :
    Run (f c) c a c' := ⟨h.eq, h.clean⟩

/-- The table of variables is used first. -/
theorem of_withLocals {β : Type} {use : Locals → Locals × β} {f : β → CompileM α} {a : α}
    (h : Run (withLocals use >>= f) c a c') :
    Run (f (use c.locals).2) { c with locals := (use c.locals).1 } a c' := ⟨h.eq, h.clean⟩

theorem of_remaining {f : Nat → CompileM α} {a : α} (h : Run (remaining >>= f) c a c') :
    Run (f c.cursor.remaining) c a c' := ⟨h.eq, h.clean⟩

/-- A run without errors does not end where a token is unexpected. -/
theorem not_unexpected {what : String} {a : α} : ¬ Run (unexpected what) c a c' :=
  fun h => nomatch h.eq

theorem not_report {d : Diagnostic} {u : Unit} (herror : d.isError) :
    ¬ Run (report d) c u c' := by
  intro h
  cases h.eq
  exact Compiler.not_clean_report herror h.clean

/-- A clean run makes no complaint. -/
theorem not_complain {line : Nat} {complaint : Complaint} {u : Unit} :
    ¬ Run (complain line complaint) c u c' :=
  not_report rfl

/-- A clean run catches nothing. -/
theorem caught {x after : CompileM α} [Steady x] [Steady after] {a : α}
    (h : Run (MonadExcept.tryCatch x fun d => report d >>= fun _ => after) c a c') :
    Run x c a c' :=
  h.tryCatch fun d c1 a c' herror hhandler => by
    obtain ⟨_, c2, hreport, -⟩ := hhandler.bind
    exact not_report herror hreport

/-- One token is taken. -/
theorem advance {u : Unit} {kind : TokenKind} (h : Run advance c u c')
    (hkind : c.cursor.kind = kind) (hend : kind ≠ .eof) : Reads (spelled [kind]) c c' := by
  cases h.eq
  subst hkind
  exact .of_tables_eq (Cursor.tokens_eq_cons hend h.clean)

/-- Taking a token and giving back a value. -/
theorem advance_return {a b : α} {kind : TokenKind}
    (h : Run (CompileM.advance >>= fun _ => Pure.pure a) c b c')
    (hkind : c.cursor.kind = kind) (hend : kind ≠ .eof) : b = a ∧ Reads (spelled [kind]) c c' := by
  obtain ⟨_, c1, hadvance, h⟩ := h.bind
  obtain ⟨hvalue, rfl⟩ := h.pure
  exact ⟨hvalue, hadvance.advance hkind hend⟩

/-- A token that has to come has come, or there is no such run. -/
theorem expect {kind : TokenKind} {what : String} {u : Unit} (h : Run (expect kind what) c u c')
    (hend : kind ≠ .eof) : Reads (spelled [kind]) c c' := by
  have h := h.of_peek
  split at h
  next hkind => exact h.advance hkind hend
  next => exact absurd h not_unexpected

/-- A token that may come is taken, or nothing is. -/
theorem accept {kind : TokenKind} {b : Bool} (h : Run (accept kind) c b c')
    (hend : kind ≠ .eof) :
    b = true ∧ Reads (spelled [kind]) c c' ∨ b = false ∧ c = c' := by
  have h := h.of_peek
  split at h
  next hkind =>
    obtain ⟨rfl, hreads⟩ := h.advance_return hkind hend
    exact .inl ⟨rfl, hreads⟩
  next =>
    obtain ⟨rfl, rfl⟩ := h.pure
    exact .inr ⟨rfl, rfl⟩

theorem expectNumber {what : String} {value : Nat} (h : Run (expectNumber what) c value c') :
    Reads (spelled [.number value]) c c' := by
  have h := h.of_peek
  split at h
  case h_1 hkind =>
    obtain ⟨rfl, hreads⟩ := h.advance_return hkind (by simp)
    exact hreads
  case h_2 => exact absurd h not_unexpected

theorem expectIdent {name : String} (h : Run expectIdent c name c') :
    Reads (spelled [.ident name]) c c' := by
  have h := h.of_peek
  split at h
  case h_1 hkind =>
    obtain ⟨rfl, hreads⟩ := h.advance_return hkind (by simp)
    exact hreads
  case h_2 => exact absurd h not_unexpected

/-! ### Expressions -/

/-- A name that is no constant is looked up as a variable, which is in the table from then on. -/
theorem findVariable {line : Nat} {name : String} {l? : Option Local}
    (h : Run (findVariable line name) c l? c') (hstring : c.isString name = false) :
    ∃ l, l? = some l ∧ Reads (looked name) c c' ∧ c'.locals.get? name = some l := by
  have h := h.of_withLocals
  split at h
  case h_1 l hfound =>
    obtain ⟨hgrows, hl⟩ := Locals.getOrDeclare_eq_ok hfound
    obtain ⟨rfl, rfl⟩ := h.pure
    exact ⟨l, rfl, .of_grows hgrows fun _ => hstring, hl⟩
  case h_2 =>
    obtain ⟨_, c1, hcomplain, -⟩ := h.bind
    exact absurd hcomplain not_complain

/-- The operand of a name depends on the final frame alone: later variables do not move it. -/
theorem variableOperand {line : Nat} {name : String} {operand : Operand String}
    (h : Run (variableOperand line name) c operand c') :
    Reads (looked name) c c' ∧ ∀ frame, c'.Within frame → operand = frame.operand name := by
  have h := h.of_get
  split at h
  next hstring =>
    obtain ⟨rfl, rfl⟩ := h.pure
    exact ⟨.of_constant hstring, fun frame hframe => (hframe.operand_constant hstring).symm⟩
  next hstring =>
    obtain ⟨l?, c1, hfind, h⟩ := h.bind_of fun l? => by split <;> infer_instance
    obtain ⟨l, rfl, hreads, hl⟩ := hfind.findVariable (by simpa using hstring)
    obtain ⟨rfl, rfl⟩ := h.pure
    exact ⟨hreads, fun frame hframe => (hframe.operand_local hl).symm⟩

/-- What is read as a primary is one, and its operand is that of the final frame. -/
theorem primary {operand : Operand String} (h : Run primary c operand c') :
    ∃ p : Primary, Reads p.piece c c' ∧ ∀ frame, c'.Within frame → operand = p.operand frame := by
  have h := h.of_line.of_peek
  split at h
  case h_1 value hkind =>
    obtain ⟨rfl, hreads⟩ := h.advance_return hkind (by simp)
    exact ⟨.number value, hreads, fun _ _ => rfl⟩
  case h_2 name hkind =>
    obtain ⟨_, c1, hadvance, h⟩ := h.bind
    obtain ⟨hreads, hoperand⟩ := h.variableOperand
    exact ⟨.named name, (hadvance.advance hkind (by simp)).trans hreads, hoperand⟩
  case h_3 => exact absurd h not_unexpected

/-- Additions are read up to the first token that is no plus, unless the fuel is
spent before it. -/
theorem additions {fuel : Nat} {code : Code} (h : Run (additions fuel) c code c') :
    ∃ addends, Reads (spelled (addends.flatMap fun value => [.plus, .number value])) c c' ∧
      code = additionCode addends ∧ (0 < fuel → c.cursor.kind = .plus → addends ≠ []) := by
  induction fuel generalizing c code with
  | zero =>
      obtain ⟨rfl, rfl⟩ := h.pure
      exact ⟨[], .refl _, rfl, (by simp)⟩
  | succ fuel ih =>
      obtain ⟨accepted, c1, haccept, hthen⟩ := h.bind
      rcases haccept.accept (by simp) with ⟨rfl, hplus⟩ | ⟨rfl, rfl⟩
      · obtain ⟨value, c2, hvalue, h⟩ := hthen.bind
        obtain ⟨rest, c3, hrest, h⟩ := h.bind
        obtain ⟨rfl, rfl⟩ := h.pure
        obtain ⟨addends, hreads, rfl, -⟩ := ih hrest
        refine ⟨value :: addends, ?_, rfl, (by simp)⟩
        exact (hplus.trans (hvalue.expectNumber.trans hreads)).cast (by simp [spelled])
      · obtain ⟨rfl, rfl⟩ := hthen.pure
        refine ⟨[], .refl _, rfl, fun _ hkind => ?_⟩
        -- a plus would have been accepted
        have heq := haccept.of_peek.eq
        rw [if_pos hkind] at heq
        cases heq

/-- What is read as an expression is one, and its value is that of the final frame. -/
theorem expression {value : Value} (h : Run expression c value c') :
    ∃ e : Expr, Reads e.piece c c' ∧ ∀ frame, c'.Within frame → value = e.value frame := by
  obtain ⟨first, c1, hfirst, h⟩ := h.bind
  obtain ⟨p, hp, hoperand⟩ := hfirst.primary
  have h := h.of_peek
  split at h
  next hplus =>
    have h := h.of_remaining
    obtain ⟨code, c2, hcode, h⟩ := h.bind
    obtain ⟨rfl, rfl⟩ := h.pure
    obtain ⟨addends, hreads, rfl, hnonempty⟩ := hcode.additions
    have hsum : addends ≠ [] := hnonempty (by simp [Cursor.remaining, hplus]) hplus
    refine ⟨⟨p, addends⟩, hp.trans hreads, fun frame hframe => ?_⟩
    rw [Expr.value, if_neg (by simpa using hsum), hoperand frame (hreads.within hframe)]
  next =>
    obtain ⟨rfl, rfl⟩ := h.pure
    refine ⟨⟨p, []⟩, hp.cast (by simp [Expr.piece, spelled]), fun frame hframe => ?_⟩
    rw [hoperand frame hframe]
    rfl

/-! ### System calls -/

/-- There are no more arguments than registers for them. -/
theorem syscallArguments {regs : List Reg} {code : Code}
    (h : Run (syscallArguments regs) c code c') :
    ∃ es, es.length ≤ regs.length ∧ Reads (furtherArguments es) c c' ∧
      ∀ frame, c'.Within frame → code = argumentCode frame regs es := by
  induction regs generalizing c code with
  | nil =>
      obtain ⟨rfl, rfl⟩ := h.pure
      exact ⟨[], Nat.le_refl _, .refl _, fun _ _ => rfl⟩
  | cons r rest ih =>
      obtain ⟨accepted, c1, haccept, hthen⟩ := h.bind
      rcases haccept.accept (by simp) with ⟨rfl, hcomma⟩ | ⟨rfl, rfl⟩
      · obtain ⟨value, c2, hvalue, h⟩ := hthen.bind
        obtain ⟨others, c3, hothers, h⟩ := h.bind
        obtain ⟨rfl, rfl⟩ := h.pure
        obtain ⟨e, he, hcode⟩ := hvalue.expression
        obtain ⟨es, hlength, hes, hcodes⟩ := ih hothers
        refine ⟨e :: es, Nat.succ_le_succ hlength, (hcomma.trans he).trans hes, ?_⟩
        intro frame hframe
        rw [argumentCode, hcode frame (hes.within hframe), hcodes frame hframe]
      · obtain ⟨rfl, rfl⟩ := hthen.pure
        exact ⟨[], Nat.zero_le _, .refl _, fun _ _ => rfl⟩

/-- A trap up to its closing parenthesis. -/
theorem openSyscall {code : Code} (h : Run openSyscall c code c') :
    ∃ t : Trap, Reads t.piece c c' ∧ ∀ frame, c'.Within frame → code = t.code frame := by
  obtain ⟨_, c1, hkeyword, h⟩ := h.bind
  obtain ⟨_, c2, hopen, h⟩ := h.bind
  obtain ⟨number, c3, hnumber, h⟩ := h.bind
  obtain ⟨arguments, c4, harguments, h⟩ := h.bind
  obtain ⟨_, c5, hclose, h⟩ := h.bind
  obtain ⟨rfl, rfl⟩ := h.pure
  obtain ⟨es, hlength, hes, hcode⟩ := harguments.syscallArguments
  have hclose := hclose.expect (by simp)
  refine ⟨⟨number, es, hlength⟩, ?_, fun frame hframe => ?_⟩
  · have hfront :=
      (hkeyword.expect (by simp)).trans ((hopen.expect (by simp)).trans hnumber.expectNumber)
    exact ((hfront.cast (by simp [spelled])).trans hes).trans hclose
  · rw [hcode frame (hclose.within hframe)]
    rfl

/-! ### Assignments -/

/-- An assignment reads its right-hand side and then finds its target. -/
theorem assignment {target : CompileM (Option Place)} [Steady target] {code : Code} (q : Piece)
    (place : Frame → Place)
    (htarget : ∀ {p c1 place? c2}, p.Plain → Reads p c c1 → Run target c1 place? c2 →
      Reads q c1 c2 ∧ ∀ frame, c2.Within frame → place? = some (place frame))
    (h : Run (assignment target) c code c') :
    ∃ r : Rhs, Reads (r.piece ++ q) c c' ∧
      ∀ frame, c'.Within frame → code = r.code frame (place frame) := by
  have h := h.of_peek
  split at h
  · obtain ⟨trapCode, c1, htrap, h⟩ := h.bind_of fun _ =>
      @Acts.bind _ _ _ _ _ inferInstance fun place? => by split <;> infer_instance
    obtain ⟨place?, c2, hplace, h⟩ := h.bind_of fun place? => by split <;> infer_instance
    obtain ⟨t, ht, hcode⟩ := htrap.openSyscall
    obtain ⟨hq, hfound⟩ := htarget t.plain ht hplace
    refine ⟨.trap t, ?_⟩
    cases place? with
    | none =>
        obtain ⟨rfl, rfl⟩ := h.pure
        exact ⟨ht.trans hq, fun frame hframe => absurd (hfound frame hframe) (by simp)⟩
    | some stored =>
        obtain ⟨rfl, rfl⟩ := h.pure
        refine ⟨ht.trans hq, fun frame hframe => ?_⟩
        cases hfound frame hframe
        rw [Rhs.code, hcode frame (hq.within hframe)]
  · obtain ⟨value, c1, hvalue, h⟩ := h.bind_of fun _ =>
      @Acts.bind _ _ _ _ _ inferInstance fun place? => by split <;> infer_instance
    obtain ⟨place?, c2, hplace, h⟩ := h.bind_of fun place? => by split <;> infer_instance
    obtain ⟨e, he, hcode⟩ := hvalue.expression
    obtain ⟨hq, hfound⟩ := htarget e.plain he hplace
    refine ⟨.expr e, ?_⟩
    cases place? with
    | none =>
        obtain ⟨rfl, rfl⟩ := h.pure
        exact ⟨he.trans hq, fun frame hframe => absurd (hfound frame hframe) (by simp)⟩
    | some stored =>
        obtain ⟨rfl, rfl⟩ := h.pure
        refine ⟨he.trans hq, fun frame hframe => ?_⟩
        cases hfound frame hframe
        rw [Rhs.code, hcode frame (hq.within hframe)]

/-- A new variable gets a slot, under which the final frame knows it. -/
theorem declareVariable {line : Nat} {name : String} {type : CType} {place? : Option Place}
    (h : Run (declareVariable line name type) c place? c') :
    Reads (assigned name) c c' ∧
      ∀ frame, c'.Within frame → place? = some (.slot (frame.slot name)) := by
  have h := h.of_get
  split at h
  · obtain ⟨_, c1, hcomplain, -⟩ := h.bind
    exact absurd hcomplain not_complain
  next hstring =>
    have h := h.of_withLocals
    split at h
    case h_1 l hdeclare =>
      obtain ⟨hgrows, hl⟩ := Locals.declare_eq_ok hdeclare
      obtain ⟨rfl, rfl⟩ := h.pure
      have hreads := Reads.of_grows hgrows fun _ => by simpa using hstring
      refine ⟨hreads.assigned hl, fun frame hframe => ?_⟩
      rw [(hframe.locals hl).2]
    case h_2 =>
      obtain ⟨_, c1, hcomplain, -⟩ := h.bind
      exact absurd hcomplain not_complain

theorem initializedVariable {line : Nat} {name : String} {type : CType} {isFresh : Bool}
    {place? : Option Place} (h : Run (initializedVariable line name type isFresh) c place? c') :
    Reads (assigned name) c c' ∧
      ∀ frame, c'.Within frame → place? = some (.slot (frame.slot name)) := by
  unfold CompileM.initializedVariable at h
  split at h
  · have h := h.of_withLocals
    rcases Locals.retype_cases c.locals name type with ⟨l, hname, hl⟩ | ⟨-, hsame⟩
    · have hgrows := Locals.grows_retype hl
      rw [hl] at h
      obtain ⟨rfl, rfl⟩ := h.pure
      have hreads := Reads.of_grows hgrows fun hsound => hsound.apart hname
      refine ⟨hreads.assigned hl, fun frame hframe => ?_⟩
      rw [(hframe.locals hl).2]
    · rw [hsame] at h
      exact h.declareVariable
  · exact h.declareVariable

/-- A string constant is entered with its text. -/
theorem defineString {line : Nat} {name : String} {type : CType} {content : String} {u : Unit}
    (h : Run (defineString line name type content) c u c') :
    Reads { constants := [(name, content)] } c c' := by
  have h := h.of_get
  split at h
  · exact absurd h not_complain
  split at h
  · exact absurd h not_complain
  next hreserved =>
  split at h
  · exact absurd h not_complain
  next hfunction =>
  split at h
  · exact absurd h not_complain
  next hnew =>
  simp only [Bool.or_eq_true, not_or, Bool.not_eq_true, Option.isSome_eq_false_iff,
    Option.isNone_iff_eq_none] at hnew
  cases h.eq
  exact {
    tokens := rfl
    options := rfl
    functions := rfl
    defined := rfl
    strings := rfl
    branches := rfl
    loops := rfl
    calls := by simp
    written := by simp
    keeps := fun hl => ⟨_, hl, rfl⟩
    names := fun _ _ => rfl
    sound := fun hc => hc.defined content (by simpa using hreserved) (by simpa using hfunction)
      hnew.1 hnew.2 }

/-- What follows the equals sign of a declaration makes up a statement with what
is in front of it. -/
theorem initializer {line : Nat} {name : String} {type : CType} {code : Code}
    (h : Run (initializer line name type) c code c') :
    ∃ s q, spelled (type.tokens ++ [.ident name, .assign]) ++ q = Simple.piece s ∧ Reads q c c' ∧
      ∀ functions frame, c'.Within frame → code = s.code functions frame := by
  have h := h.of_peek
  split at h
  case h_1 content hkind =>
    obtain ⟨_, c1, hadvance, h⟩ := h.bind
    obtain ⟨_, c2, hend, h⟩ := h.bind
    obtain ⟨_, c3, hstring, h⟩ := h.bind
    obtain ⟨rfl, rfl⟩ := h.pure
    have hreads := (hadvance.advance hkind (by simp)).trans
      ((hend.expect (by simp)).trans hstring.defineString)
    exact ⟨.constant type name content, _, by simp [Simple.piece, spelled], hreads,
      fun _ _ _ => rfl⟩
  case h_2 =>
    have h := h.of_get
    obtain ⟨valueCode, c1, hvalue, h⟩ := h.bind
    obtain ⟨_, c2, hend, h⟩ := h.bind
    obtain ⟨rfl, rfl⟩ := h.pure
    obtain ⟨r, hr, hcode⟩ := hvalue.assignment (assigned name)
      (fun frame => .slot (frame.slot name)) fun _ _ htarget => htarget.initializedVariable
    have hend := hend.expect (by simp)
    exact ⟨.declareWith type name r, _, (Piece.append_assoc _ _ _).symm, hr.trans hend,
      fun _ frame hframe => hcode frame (hend.within hframe)⟩

/-- A type and a name, at the start of a declaration. -/
theorem declared {c1 c2 : Compiler} {u : Unit} {isPointer : Bool} {name : String}
    (hbase : Run CompileM.advance c u c1) (hstar : Run (CompileM.accept .star) c1 isPointer c2)
    (hname : Run CompileM.expectIdent c2 name c')
    (hkind : c.cursor.kind = .kwInt ∨ c.cursor.kind = .kwChar) :
    Reads (spelled ((CType.ofParts (decide (c.cursor.kind = .kwChar)) isPointer).tokens ++
      [.ident name])) c c' := by
  have hbase : Reads (spelled [if c.cursor.kind = .kwChar then .kwChar else .kwInt]) c c1 := by
    rcases hkind with hkind | hkind
    · exact hbase.advance (by simp [hkind]) (by simp [hkind])
    · exact hbase.advance (by simp [hkind]) (by simp [hkind])
  have htype : Reads (spelled (CType.ofParts (decide (c.cursor.kind = .kwChar)) isPointer).tokens)
      c c2 := by
    rcases hstar.accept (by simp) with ⟨rfl, hpointer⟩ | ⟨rfl, rfl⟩
    · refine (hbase.trans hpointer).cast ?_
      by_cases hchar : c.cursor.kind = .kwChar <;> simp [hchar, spelled] <;> rfl
    · refine hbase.cast ?_
      by_cases hchar : c.cursor.kind = .kwChar <;> simp [hchar] <;> rfl
  exact (htype.trans hname.expectIdent).cast (by simp [spelled])

/-- A declaration reads as one of the statements that start with a type. -/
theorem declaration {code : Code} (h : Run declaration c code c')
    (hkind : c.cursor.kind = .kwInt ∨ c.cursor.kind = .kwChar) :
    ∃ s : Simple, Reads s.piece c c' ∧
      ∀ functions frame, c'.Within frame → code = s.code functions frame := by
  have h := h.of_line.of_peek
  dsimp only at h
  obtain ⟨_, c1, hadvance, h⟩ := h.bind
  obtain ⟨isPointer, c2, hstar, h⟩ := h.bind
  obtain ⟨name, c3, hname, h⟩ := h.bind
  obtain ⟨assigned, c4, hassign, h⟩ := h.bind
  have hfront := hadvance.declared hstar hname hkind
  generalize CType.ofParts _ isPointer = type at hfront h
  rcases hassign.accept (by simp) with ⟨rfl, hequals⟩ | ⟨rfl, rfl⟩
  · obtain ⟨s, q, hs, hq, hcode⟩ := h.initializer
    exact ⟨s, ((hfront.trans hequals).trans hq).cast (by rw [← hs]; simp [spelled]), hcode⟩
  · obtain ⟨_, c5, hend, h⟩ := h.bind
    obtain ⟨place?, c6, hdeclare, h⟩ := h.bind
    obtain ⟨rfl, rfl⟩ := h.pure
    have hend := hend.expect (by simp)
    have hdeclare := hdeclare.declareVariable.1
    exact ⟨.declare type name, ((hfront.trans hend).trans hdeclare).cast (by
      simp [Simple.piece, spelled]), fun _ _ _ => rfl⟩

theorem pointerOperand {line : Nat} {name : String} {pointer? : Option (Operand String)}
    (h : Run (pointerOperand line name) c pointer? c') :
    Reads (looked name) c c' ∧
      ∀ frame, c'.Within frame → pointer? = some (frame.operand name) := by
  have h := h.of_get
  split at h
  next hstring =>
    obtain ⟨rfl, rfl⟩ := h.pure
    exact ⟨.of_constant hstring, fun frame hframe =>
      congrArg some (hframe.operand_constant hstring).symm⟩
  next hstring =>
    obtain ⟨l?, c1, hfind, h⟩ := h.bind_of fun l? => by split <;> infer_instance
    obtain ⟨l, rfl, hreads, hl⟩ := hfind.findVariable (by simpa using hstring)
    dsimp only at h
    split at h
    · obtain ⟨rfl, rfl⟩ := h.pure
      exact ⟨hreads, fun frame hframe => congrArg some (hframe.operand_local hl).symm⟩
    · obtain ⟨_, c2, hcomplain, -⟩ := h.bind
      exact absurd hcomplain not_complain

/-- An assignment through a pointer reads as a statement. -/
theorem pointerAssignment {code : Code} (h : Run pointerAssignment c code c')
    (hkind : c.cursor.kind = .star) :
    ∃ s : Simple, Reads s.piece c c' ∧
      ∀ functions frame, c'.Within frame → code = s.code functions frame := by
  have h := h.of_line
  obtain ⟨_, c1, hstar, h⟩ := h.bind
  obtain ⟨name, c2, hname, h⟩ := h.bind
  obtain ⟨pointer?, c3, hpointer, h⟩ := h.bind
  obtain ⟨_, c4, hequals, h⟩ := h.bind
  obtain ⟨valueCode, c5, hvalue, h⟩ := h.bind
  obtain ⟨_, c6, hend, h⟩ := h.bind
  obtain ⟨rfl, rfl⟩ := h.pure
  obtain ⟨hlooked, hoperand⟩ := hpointer.pointerOperand
  have hequals := hequals.expect (by simp)
  have hend := hend.expect (by simp)
  obtain ⟨r, hr, hcode⟩ := hvalue.assignment {}
    (fun frame => .pointee (frame.operand name)) fun _ hreads htarget => by
      obtain ⟨rfl, rfl⟩ := htarget.pure
      refine ⟨.refl _, fun frame hframe => ?_⟩
      rw [hoperand frame (hequals.within (hreads.within hframe))]
      rfl
  refine ⟨.storeThrough name r, ?_, fun _ frame hframe => hcode frame (hend.within hframe)⟩
  have hfront := ((hstar.advance hkind (by simp)).trans hname.expectIdent).trans hlooked
  exact (((hfront.trans hequals).trans hr).trans hend).cast (by simp [Simple.piece, spelled])

theorem assignedVariable {line : Nat} {name : String} {place? : Option Place}
    (h : Run (assignedVariable line name false) c place? c') (hstring : c.isString name = false) :
    Reads (assigned name) c c' ∧
      ∀ frame, c'.Within frame → place? = some (.slot (frame.slot name)) := by
  obtain ⟨l?, c1, hfind, h⟩ := h.bind_of fun l? => by split <;> infer_instance
  obtain ⟨l, rfl, hreads, hl⟩ := hfind.findVariable hstring
  obtain ⟨rfl, rfl⟩ := h.pure
  refine ⟨hreads.assigned hl, fun frame hframe => ?_⟩
  rw [(hframe.locals hl).2]

/-! ### Statements -/

/-- A return statement reads as a statement, with or without a status. -/
theorem returnStatement {code : Code} (h : Run returnStatement c code c')
    (hkind : c.cursor.kind = .kwReturn) :
    ∃ s : Simple, Reads s.piece c c' ∧
      ∀ functions frame, c'.Within frame → code = s.code functions frame := by
  obtain ⟨_, c1, hreturn, h⟩ := h.bind
  obtain ⟨accepted, c2, haccept, h⟩ := h.bind
  have hreturn := hreturn.advance hkind (by simp)
  rcases haccept.accept (by simp) with ⟨rfl, hend⟩ | ⟨rfl, rfl⟩
  · obtain ⟨rfl, rfl⟩ := h.pure
    exact ⟨.exit none, (hreturn.trans hend).cast (by simp [Simple.piece, spelled]),
      fun _ _ _ => rfl⟩
  · obtain ⟨value, c3, hvalue, h⟩ := h.bind
    obtain ⟨_, c4, hend, h⟩ := h.bind
    obtain ⟨rfl, rfl⟩ := h.pure
    obtain ⟨e, he, hcode⟩ := hvalue.expression
    have hend := hend.expect (by simp)
    refine ⟨.exit (some e), (hreturn.trans he).trans hend, fun _ frame hframe => ?_⟩
    rw [hcode frame (hend.within hframe)]
    rfl

theorem syscallStatement {code : Code} (h : Run syscallStatement c code c') :
    ∃ s : Simple, Reads s.piece c c' ∧
      ∀ functions frame, c'.Within frame → code = s.code functions frame := by
  obtain ⟨trapCode, c1, htrap, h⟩ := h.bind
  obtain ⟨_, c2, hend, h⟩ := h.bind
  obtain ⟨rfl, rfl⟩ := h.pure
  obtain ⟨t, ht, hcode⟩ := htrap.openSyscall
  have hend := hend.expect (by simp)
  refine ⟨.trap t, ht.trans hend, fun _ frame hframe => ?_⟩
  rw [hcode frame (hend.within hframe)]
  rfl

theorem moreArguments {fuel : Nat} {values : List Value}
    (h : Run (moreArguments fuel) c values c') :
    ∃ es, es.length = values.length ∧ Reads (furtherArguments es) c c' ∧
      ∀ frame, c'.Within frame → values = es.map (Expr.value frame) := by
  induction fuel generalizing c values with
  | zero =>
      obtain ⟨rfl, rfl⟩ := h.pure
      exact ⟨[], rfl, .refl _, fun _ _ => rfl⟩
  | succ fuel ih =>
      obtain ⟨accepted, c1, haccept, h⟩ := h.bind
      rcases haccept.accept (by simp) with ⟨rfl, hcomma⟩ | ⟨rfl, rfl⟩
      · obtain ⟨value, c2, hvalue, h⟩ := h.bind
        obtain ⟨others, c3, hothers, h⟩ := h.bind
        obtain ⟨rfl, rfl⟩ := h.pure
        obtain ⟨e, he, hcode⟩ := hvalue.expression
        obtain ⟨es, hlength, hes, hcodes⟩ := ih hothers
        refine ⟨e :: es, by simp [hlength], (hcomma.trans he).trans hes, fun frame hframe => ?_⟩
        rw [List.map_cons, ← hcode frame (hes.within hframe), ← hcodes frame hframe]
      · obtain ⟨rfl, rfl⟩ := h.pure
        exact ⟨[], rfl, .refl _, fun _ _ => rfl⟩

/-- Arguments are expressions between commas. -/
theorem arguments {values : List Value} (h : Run arguments c values c') :
    ∃ es, es.length = values.length ∧ Reads (argumentList es) c c' ∧
      ∀ frame, c'.Within frame → values = es.map (Expr.value frame) := by
  have h := h.of_peek
  split at h
  · obtain ⟨rfl, rfl⟩ := h.pure
    exact ⟨[], rfl, .refl _, fun _ _ => rfl⟩
  · obtain ⟨first, c1, hfirst, h⟩ := h.bind
    have h := h.of_remaining
    obtain ⟨others, c2, hothers, h⟩ := h.bind
    obtain ⟨rfl, rfl⟩ := h.pure
    obtain ⟨e, he, hcode⟩ := hfirst.expression
    obtain ⟨es, hlength, hes, hcodes⟩ := hothers.moreArguments
    refine ⟨e :: es, by simp [hlength], he.trans hes, fun frame hframe => ?_⟩
    rw [List.map_cons, ← hcode frame (hes.within hframe), ← hcodes frame hframe]

/-- A call without errors is one of an own function, or one of the library with few enough
arguments. -/
theorem callCode {line : Nat} {name : String} {values : List Value} {code : Code}
    (h : Run (callCode line name values) c code c') :
    c' = c ∧ c.options.Admits c.functions (name, values.length) ∧
      code = if c.functions.contains name then .instr .call [.label (functionLabel name)]
        else libraryCall name values := by
  have h := h.of_get
  dsimp only at h
  split at h
  next hlocal =>
    split at h
    · obtain ⟨_, c1, hcomplain, -⟩ := h.bind
      exact absurd hcomplain not_complain
    next hempty =>
      obtain ⟨rfl, rfl⟩ := h.pure
      refine ⟨rfl, ?_, (if_pos hlocal).symm⟩
      rw [Options.Admits, if_pos hlocal]
      simpa using hempty
  next hlocal =>
    split at h
    · obtain ⟨_, c1, hcomplain, -⟩ := h.bind
      exact absurd hcomplain not_complain
    next hreserved =>
    split at h
    · obtain ⟨_, c1, hcomplain, -⟩ := h.bind
      exact absurd hcomplain not_complain
    next hdefined =>
    split at h
    · obtain ⟨_, c1, hcomplain, -⟩ := h.bind
      exact absurd hcomplain not_complain
    next hfew =>
      obtain ⟨rfl, rfl⟩ := h.pure
      refine ⟨rfl, ?_, (if_neg hlocal).symm⟩
      rw [Options.Admits, if_neg hlocal]
      refine ⟨by simpa using hreserved, fun table htable => ?_, Nat.le_of_not_lt hfew⟩
      simpa [isUndefined, htable] using hdefined

/-- A call behind its opening parenthesis. -/
theorem callStatement {line : Nat} {name : String} {code : Code}
    (h : Run (callStatement line name) c code c') :
    ∃ es : List Expr, Reads (argumentList es ++ spelled [.rparen, .semicolon] ++
        { calls := [(name, es.length)] }) c c' ∧
      ∀ frame, c'.Within frame → code = (Simple.call name es).code c.functions frame := by
  obtain ⟨values, c1, hvalues, h⟩ := h.bind
  obtain ⟨_, c2, hclose, h⟩ := h.bind
  obtain ⟨_, c3, hend, h⟩ := h.bind
  obtain ⟨es, hlength, hes, hvalues⟩ := hvalues.arguments
  obtain ⟨rfl, hadmits, rfl⟩ := h.callCode
  have hend := (hclose.expect (by simp)).trans (hend.expect (by simp))
  have hreads := hes.trans hend
  have hcall : Reads { calls := [(name, es.length)] } c' c' :=
    { Reads.refl c' with calls := by simpa [hlength] using hadmits }
  refine ⟨es, (hreads.trans hcall).cast (by simp [spelled]), fun frame hframe => ?_⟩
  rw [Simple.code, hreads.functions, hvalues frame (hend.within hframe)]

/-- An assignment behind the name of its variable. -/
theorem variableAssignment {line : Nat} {name : String} {code : Code}
    (h : Run (variableAssignment line name) c code c') :
    ∃ r : Rhs,
      Reads (spelled [.assign] ++ (r.piece ++ assigned name) ++ spelled [.semicolon]) c c' ∧
      ∀ frame, c'.Within frame → code = r.code frame (.slot (frame.slot name)) := by
  obtain ⟨_, c1, hequals, h⟩ := h.bind
  have h := h.of_get
  dsimp only at h
  split at h
  · obtain ⟨_, c2, hcomplain, -⟩ := h.bind
    exact absurd hcomplain not_complain
  next hconstant =>
    have hconstant : c1.isString name = false := by simpa using hconstant
    rw [hconstant] at h
    obtain ⟨valueCode, c2, hvalue, h⟩ := h.bind
    obtain ⟨_, c3, hend, h⟩ := h.bind
    obtain ⟨rfl, rfl⟩ := h.pure
    have hend := hend.expect (by simp)
    obtain ⟨r, hr, hcode⟩ := hvalue.assignment (assigned name)
      (fun frame => .slot (frame.slot name)) fun hplain hreads htarget => by
        refine htarget.assignedVariable ?_
        rw [← hconstant, Compiler.isString, hreads.strings, hplain.constants, List.append_nil]
        rfl
    exact ⟨r, ((hequals.expect (by simp)).trans hr).trans hend,
      fun frame hframe => hcode frame (hend.within hframe)⟩

/-- A statement that starts with a name is a call or an assignment. -/
theorem nameStatement {line : Nat} {name : String} {code : Code}
    (h : Run (nameStatement line name) c code c') (hkind : c.cursor.kind = nameToken name) :
    ∃ s : Simple, Reads s.piece c c' ∧
      ∀ frame, c'.Within frame → code = s.code c.functions frame := by
  obtain ⟨_, c1, hname, h⟩ := h.bind
  obtain ⟨called, c2, hcalled, h⟩ := h.bind
  have hname := hname.advance hkind (by unfold nameToken; split <;> simp)
  rcases hcalled.accept (by simp) with ⟨rfl, hopen⟩ | ⟨rfl, rfl⟩
  · have hfront := hname.trans hopen
    obtain ⟨es, hes, hcode⟩ := h.callStatement
    refine ⟨.call name es, (hfront.trans hes).cast (by simp [Simple.piece, spelled]), ?_⟩
    intro frame hframe
    rw [hcode frame hframe, hfront.functions]
  · obtain ⟨r, hr, hcode⟩ := h.variableAssignment
    exact ⟨.assign name r, (hname.trans hr).cast (by simp [Simple.piece, spelled]), hcode⟩

/-- A condition reads as a test of two primaries. -/
theorem condition {comparison : TokenKind} {what : String} {code : Code}
    (h : Run (condition comparison what) c code c') (hend : comparison ≠ .eof) :
    ∃ test : Test, Reads (test.piece comparison) c c' ∧
      ∀ frame, c'.Within frame → code = test.code frame := by
  obtain ⟨_, c1, hopen, h⟩ := h.bind
  obtain ⟨left, c2, hleft, h⟩ := h.bind
  obtain ⟨_, c3, hcompare, h⟩ := h.bind
  obtain ⟨right, c4, hright, h⟩ := h.bind
  obtain ⟨_, c5, hclose, h⟩ := h.bind
  obtain ⟨rfl, rfl⟩ := h.pure
  obtain ⟨p, hp, hleft⟩ := hleft.primary
  obtain ⟨q, hq, hright⟩ := hright.primary
  have hcompare := hcompare.expect hend
  have hclose := hclose.expect (by simp)
  refine ⟨⟨p, q⟩, ((((hopen.expect (by simp)).trans hp).trans hcompare).trans hq).trans hclose, ?_⟩
  intro frame hframe
  have hframe := hclose.within hframe
  rw [Test.code, ← hright frame hframe, ← hleft frame (hcompare.within (hq.within hframe))]

end Run

end Ia32.C

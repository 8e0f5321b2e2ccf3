import Ia32.Proofs.C.Blocks
import Ia32.Proofs.C.Termination

/-!
# Compilations without errors

A source text that compiles without errors spells a program that keeps the rules of
the language, and its compilation is the text of the program's code behind the text of
its string constants.
-/

namespace Ia32.C

open Piece

/-! ### Functions -/

/-- The routine of a function read in some state. -/
def Compiler.routine (c : Compiler) (f : Function) : Routine :=
  ⟨f, c.constants ++ f.body.piece.constants.map Prod.fst, c.ifCount, c.whileCount⟩

/-- A stretch of source with the code of a function. -/
structure Defines (f : Function) (c : Compiler) (code : Code) (c' : Compiler) : Prop where
  tokens : c.tokens = f.piece.tokens ++ c'.tokens
  options : c'.options = c.options
  functions : c'.functions = c.functions
  isNew : f.name ∉ c.defined
  defined : c'.defined = c.defined ++ [f.name]
  strings : c'.strings = c.strings ++ f.body.piece.constants
  branches : c'.ifCount = c.ifCount + f.body.piece.branches
  loops : c'.whileCount = c.whileCount + f.body.piece.loops
  sound : c'.Sound
  legal : (c.routine f).Legal c.options c.functions
  code : code = (c.routine f).code c.functions

namespace Run

open CompileM

variable {c c' : Compiler} {code : Code}

/-- A return type that is read is one of the two that stand there. -/
theorem returnsInt {isInt : Bool} (h : Run returnsInt c isInt c') :
    Reads (spelled [if isInt then .kwInt else .kwVoid]) c c' := by
  have h := h.of_peek
  split at h
  case h_1 hkind =>
    obtain ⟨rfl, hreads⟩ := h.advance_return hkind (by simp)
    exact hreads
  case h_2 hkind =>
    obtain ⟨rfl, hreads⟩ := h.advance_return hkind (by simp)
    exact hreads
  case h_3 => exact absurd h not_unexpected

/-- A name that is read stands there, where `main` is a keyword of its own. -/
theorem functionName {name : String} (h : Run functionName c name c')
    (hkeyword : .ident "main" ∉ c.tokens) : Reads (spelled [nameToken name]) c c' := by
  have h := h.of_peek
  split at h
  case h_1 hkind =>
    obtain ⟨rfl, hreads⟩ := h.advance_return (c.kind_eq_nameToken hkeyword hkind)
      (by unfold nameToken; split <;> simp)
    exact hreads
  case h_2 hkind =>
    obtain ⟨rfl, hreads⟩ := h.advance_return hkind (by decide)
    exact hreads
  case h_3 => exact absurd h not_unexpected

/-- A function is defined once. -/
theorem defineFunction {line : Nat} {name : String} {u : Unit}
    (h : Run (defineFunction line name) c u c') :
    name ∉ c.defined ∧ c' = { c with defined := c.defined ++ [name] } := by
  have h := h.of_get
  split at h
  · exact absurd h not_complain
  next hnew =>
    split at h
    · exact absurd h not_complain
    · cases h.eq
      exact ⟨by simpa using hnew, rfl⟩

/-- A function that is declared has a name of its own, which is not reserved; only `main` returns a
number. -/
theorem declareFunction {line : Nat} {isInt : Bool} {name : String} {u : Unit}
    (h : Run (declareFunction line isInt name) c u c') :
    (isInt → name = "main") ∧ isReserved name = false ∧ name ∉ c.defined ∧
      c' = { c with defined := c.defined ++ [name] } := by
  unfold CompileM.declareFunction at h
  dsimp only at h
  split at h
  · obtain ⟨_, c1, hcomplain, -⟩ := h.bind
    exact absurd hcomplain not_complain
  next hint =>
  split at h
  · obtain ⟨_, c1, hcomplain, -⟩ := h.bind
    exact absurd hcomplain not_complain
  next hreserved =>
    exact ⟨by simpa using hint, by simpa using hreserved, h.defineFunction⟩

theorem functionHead {name : String} (h : Run functionHead c name c')
    (hkeyword : .ident "main" ∉ c.tokens) :
    ∃ (isInt : Bool) (c1 : Compiler),
      Reads (spelled [if isInt then .kwInt else .kwVoid, nameToken name, .lparen, .rparen]) c c1 ∧
      (isInt → name = "main") ∧ isReserved name = false ∧
      name ∉ c.defined ∧ c' = { c1 with defined := c1.defined ++ [name] } := by
  have h := h.of_line
  obtain ⟨isInt, c1, hisInt, h⟩ := h.bind
  obtain ⟨name', c2, hname, h⟩ := h.bind
  obtain ⟨_, c3, hopen, h⟩ := h.bind
  obtain ⟨_, c4, hclose, h⟩ := h.bind
  obtain ⟨_, c5, hdeclare, h⟩ := h.bind
  obtain ⟨rfl, rfl⟩ := h.pure
  have hisInt := hisInt.returnsInt
  have hname := hname.functionName fun hmem =>
    hkeyword (hisInt.tokens ▸ List.mem_append_right _ hmem)
  have hreads :=
    ((hisInt.trans hname).trans (hopen.expect (by simp))).trans (hclose.expect (by simp))
  obtain ⟨hint, hreserved, hnew, rfl⟩ := hdeclare.declareFunction
  rw [hreads.defined] at hnew
  exact ⟨isInt, c4, hreads.cast (by simp [spelled]), hint, hreserved, hnew, rfl⟩

theorem function (h : Run function c code c') (hkeyword : .ident "main" ∉ c.tokens)
    (hsound : c.Sound) : ∃ f : Function, Defines f c code c' := by
  obtain ⟨name, c1, hhead, h⟩ := h.bind
  obtain ⟨_, c2, hclear, h⟩ := h.bind
  obtain ⟨body, c3, hbody, h⟩ := h.bind
  obtain ⟨rfl, rfl⟩ := h.of_get.pure
  obtain ⟨isInt, c0, hread, hint, hreserved, hnew, rfl⟩ := hhead.functionHead hkeyword
  obtain rfl : c2 = { c0 with defined := c0.defined ++ [name], locals := c0.locals.clear } := by
    cases hclear.eq
    rfl
  have hrest : .ident "main" ∉ c0.tokens := fun hmem =>
    hkeyword (hread.tokens ▸ List.mem_append_right _ hmem)
  obtain ⟨b, hb, hcode⟩ := hbody.wholeBlock hrest
  have hsound0 := hread.sound hsound
  have hsound' : c'.Sound := hb.sound ⟨⟨rfl, Nat.zero_le _⟩, hsound0.capacity,
    fun h => (by cases h), hsound0.nodup, hsound0.labels⟩
  have hstrings : c'.strings = c.strings ++ b.piece.constants := by
    simpa [hread.strings, spelled, braced] using hb.strings
  have hconstants : c'.constants = c.constants ++ b.piece.constants.map Prod.fst := by
    simp [Compiler.constants, hstrings]
  have hbranches : c0.ifCount = c.ifCount := hread.branches
  have hloops : c0.whileCount = c.whileCount := hread.loops
  have hframe : (⟨c'.constants, c'.locals.names⟩ : Frame) =
      (c.routine ⟨isInt, name, b⟩).frame := by
    simp only [Compiler.routine, Routine.frame, ← hconstants, Frame.mk.injEq, true_and]
    simpa [braced, spelled, Locals.clear, Locals.names] using hb.names _ hsound'.within
  have hoptions : c'.options = c.options := hb.options.trans hread.options
  refine ⟨⟨isInt, name, b⟩, ?_⟩
  exact {
    tokens := by
      have htokens : c0.tokens = b.piece.braced.tokens ++ c'.tokens := hb.tokens
      rw [hread.tokens, htokens, Function.piece, Piece.append_mk, List.append_assoc]
    options := hoptions
    functions := hb.functions.trans hread.functions
    isNew := hnew
    defined := by rw [hb.defined, ← hread.defined]
    strings := hstrings
    branches := by simpa [hbranches, spelled, braced] using hb.branches
    loops := by simpa [hloops, spelled, braced] using hb.loops
    sound := hsound'
    legal := {
      returnsInt := hint
      name := hreserved
      calls := by
        have hcalls := hb.calls
        simp only [hread.options, hread.functions] at hcalls
        simpa [Compiler.routine, braced, spelled] using hcalls
      written := by
        have hwritten := hb.written _ hsound'.within
        rw [hframe] at hwritten
        simpa [Compiler.routine, Routine.frame, braced, spelled] using hwritten
      locals := by
        rw [← hframe, ← hoptions, ← hsound'.capacity]
        simpa [Locals.names, Locals.size] using hsound'.dense.size_le }
    code := by
      have hsize : c'.locals.frameSize = (c.routine ⟨isInt, name, b⟩).frame.size := by
        rw [← hframe]
        simp [Locals.frameSize, Frame.size, Locals.size, Locals.names]
      rw [hcode _ hsound'.within, hsize, hframe]
      simp only [hbranches, hloops, hread.functions]
      rfl }

end Run

/-! ### Programs -/

/-- The rest of the source with the code of its functions. -/
structure DefinesAll (p : Program) (c : Compiler) (code : Code) (c' : Compiler) : Prop where
  tokens : c.tokens = p.tokens
  defined : c'.defined = c.defined ++ p.functions
  nodup : c.defined.Nodup → c'.defined.Nodup
  functions : c'.functions = c.functions
  strings : c'.strings = c.strings ++ p.constants
  sound : c'.Sound
  legal : ∀ r ∈ p.routinesFrom c.constants c.ifCount c.whileCount, r.Legal c.options c.functions
  code : code = Program.codeOf c.functions (p.routinesFrom c.constants c.ifCount c.whileCount)

theorem Defines.cons {f : Function} {p : Program} {c c1 c' : Compiler} {first rest : Code}
    (hfirst : Defines f c first c1) (hrest : DefinesAll p c1 rest c') :
    DefinesAll (f :: p) c (first ++ rest) c' := by
  have hconstants : c1.constants = c.constants ++ f.body.piece.constants.map Prod.fst := by
    simp [Compiler.constants, hfirst.strings]
  have hroutines : Program.routinesFrom c.constants c.ifCount c.whileCount (f :: p) =
      c.routine f :: p.routinesFrom c1.constants c1.ifCount c1.whileCount := by
    simp only [Program.routinesFrom, Compiler.routine, hconstants, hfirst.branches, hfirst.loops]
  exact {
    tokens := by
      rw [hfirst.tokens, hrest.tokens]
      rfl
    defined := by
      rw [hrest.defined, hfirst.defined]
      simp [Program.functions]
    nodup := fun hnodup => hrest.nodup (by
      rw [hfirst.defined]
      refine List.nodup_append.mpr ⟨hnodup, by simp, ?_⟩
      rintro a ha b hb rfl
      exact hfirst.isNew (List.mem_singleton.mp hb ▸ ha))
    functions := hrest.functions.trans hfirst.functions
    strings := by
      rw [hrest.strings, hfirst.strings]
      simp [Program.constants, joined, Function.piece, braced, spelled]
    sound := hrest.sound
    legal := by
      rw [hroutines]
      intro r hr
      rcases List.mem_cons.mp hr with rfl | hr
      · exact hfirst.legal
      · simpa only [hfirst.options, hfirst.functions] using hrest.legal r hr
    code := by
      rw [hroutines, hfirst.code, hrest.code, hfirst.functions]
      rfl }

namespace Run

open CompileM

variable {c c' : Compiler} {code : Code}

theorem functions {fuel : Nat} (hfuel : c.tokens.length < fuel)
    (hkeyword : .ident "main" ∉ c.tokens) (hsound : c.Sound)
    (h : Run (functions fuel) c code c') : ∃ p : Program, DefinesAll p c code c' := by
  induction fuel generalizing c code with
  | zero => omega
  | succ fuel ih =>
      have h := h.of_peek
      split at h
      next hend =>
        obtain ⟨rfl, rfl⟩ := h.pure
        exact ⟨[], Cursor.tokens_eq_nil hend, by simp [Program.functions], id, rfl,
          (List.append_nil _).symm, hsound, by simp [Program.routinesFrom], rfl⟩
      next =>
        obtain ⟨first, c1, hfirst, h⟩ := h.bind
        obtain ⟨rest, c2, hrest, h⟩ := h.bind
        obtain ⟨rfl, rfl⟩ := h.pure
        obtain ⟨f, hf⟩ := hfirst.caught.function hkeyword hsound
        have htokens := hf.tokens
        have hrest' : c1.tokens.length < fuel := by
          rw [htokens, Function.piece, Piece.append_mk, List.length_append,
            List.length_append] at hfuel
          simp only [spelled, List.length_cons] at hfuel
          omega
        obtain ⟨p, hp⟩ := ih hrest' (fun hmem => hkeyword (htokens ▸ List.mem_append_right _ hmem))
          hf.sound hrest
        exact ⟨f :: p, hf.cons hp⟩

end Run

/-! ### Functions found before compiling -/

/-- Tokens in which no definition of a function starts. -/
def Quiet (tokens : List TokenKind) : Prop :=
  ∀ names rest, collectFrom names (tokens ++ rest) = collectFrom names rest

theorem Quiet.append {a b : List TokenKind} (ha : Quiet a) (hb : Quiet b) : Quiet (a ++ b) := by
  intro names rest
  rw [List.append_assoc, ha, hb]

theorem quiet_cons {kind : TokenKind} {rest : List TokenKind} (hvoid : kind ≠ .kwVoid)
    (hint : kind ≠ .kwInt) (hrest : Quiet rest) : Quiet (kind :: rest) := by
  have hkind : ∀ b d, definedBy? kind b d = none := by
    intro b d
    unfold definedBy?
    split <;> first | exact absurd rfl hvoid | exact absurd rfl hint | rfl
  have hone (names : List String) (tail : List TokenKind) :
      collectFrom names (kind :: tail) = collectFrom names tail := by
    match tail with
    | [] | [_] => rfl
    | b :: d :: more => rw [collectFrom, hkind]
  intro names tail
  rw [List.cons_append, hone, hrest]

theorem quiet_spelled {tokens : List TokenKind}
    (h : ∀ kind ∈ tokens, kind ≠ .kwVoid ∧ kind ≠ .kwInt) : Quiet (spelled tokens).tokens := by
  change Quiet tokens
  induction tokens with
  | nil => exact fun _ _ => rfl
  | cons kind rest ih =>
      obtain ⟨hvoid, hint⟩ := h kind List.mem_cons_self
      exact quiet_cons hvoid hint (ih fun other hother => h other (List.mem_cons_of_mem _ hother))

/-- In a declaration the keyword `int` stands in front of a star or an identifier. -/
theorem quiet_declared (type : CType) (name : String) {rest : List TokenKind} (hrest : Quiet rest) :
    Quiet (type.tokens ++ .ident name :: rest) := by
  have hident : Quiet (.ident name :: rest) := quiet_cons (by simp) (by simp) hrest
  intro names tail
  have htail := hident names tail
  cases type <;> rw [← htail] <;> rcases rest with - | ⟨a, rest⟩ <;>
    rcases tail with - | ⟨b, tail⟩ <;> rfl

theorem Primary.quiet (p : Primary) : Quiet p.piece.tokens := by
  cases p with
  | number value => exact quiet_spelled (by simp)
  | named name => exact (quiet_spelled (by simp)).append fun _ _ => rfl

theorem Expr.quiet (e : Expr) : Quiet e.piece.tokens := by
  refine e.first.quiet.append (quiet_spelled fun kind hkind => ?_)
  obtain ⟨value, -, hkind⟩ := List.mem_flatMap.mp hkind
  simp only [List.mem_cons, List.not_mem_nil, or_false] at hkind
  rcases hkind with rfl | rfl <;> exact ⟨(by simp), (by simp)⟩

theorem quiet_furtherArguments (es : List Expr) : Quiet (furtherArguments es).tokens := by
  induction es with
  | nil => exact fun _ _ => rfl
  | cons e rest ih => exact ((quiet_spelled (by simp)).append e.quiet).append ih

theorem Trap.quiet (t : Trap) : Quiet t.piece.tokens :=
  ((quiet_spelled (by simp)).append (quiet_furtherArguments t.arguments)).append
    (quiet_spelled (by simp))

theorem Rhs.quiet (r : Rhs) : Quiet r.piece.tokens := by
  cases r with
  | expr e => exact e.quiet
  | trap t => exact t.quiet

theorem nameToken_ne (name : String) : nameToken name ≠ .kwVoid ∧ nameToken name ≠ .kwInt := by
  unfold nameToken
  split <;> exact ⟨(by simp), (by simp)⟩

theorem Simple.quiet (s : Simple) : Quiet s.piece.tokens := by
  have hlooked (name : String) : Quiet (looked name).tokens := fun _ _ => rfl
  have hassigned (name : String) : Quiet (assigned name).tokens := fun _ _ => rfl
  have hend : Quiet [.semicolon] := quiet_spelled (by simp)
  cases s with
  | declare type name => exact (quiet_declared type name hend).append (hassigned name)
  | constant type name content =>
      have hrest : Quiet [.assign, .text content, .semicolon] := quiet_spelled (by simp)
      exact (quiet_declared type name hrest).append fun _ _ => rfl
  | declareWith type name value =>
      have hequals : Quiet [.assign] := quiet_spelled (by simp)
      exact ((quiet_declared type name hequals).append (value.quiet.append (hassigned name))).append
        hend
  | assign name value =>
      have hfront : Quiet [nameToken name, .assign] := quiet_spelled (by simp [nameToken_ne])
      exact (hfront.append (value.quiet.append (hassigned name))).append hend
  | storeThrough pointer value =>
      have hfront : Quiet [.star, .ident pointer] := quiet_spelled (by simp)
      have hequals : Quiet [.assign] := quiet_spelled (by simp)
      exact (((hfront.append (hlooked pointer)).append hequals).append value.quiet).append hend
  | exit status =>
      have hreturn : Quiet [.kwReturn] := quiet_spelled (by simp)
      cases status with
      | none => exact hreturn.append hend
      | some e => exact (hreturn.append e.quiet).append hend
  | trap t => exact t.quiet.append hend
  | call name es =>
      have hfront : Quiet [nameToken name, .lparen] := quiet_spelled (by simp [nameToken_ne])
      have hclose : Quiet [.rparen, .semicolon] := quiet_spelled (by simp)
      have harguments : Quiet (argumentList es).tokens := by
        cases es with
        | nil => exact fun _ _ => rfl
        | cons e rest => exact e.quiet.append (quiet_furtherArguments rest)
      exact ((hfront.append harguments).append hclose).append fun _ _ => rfl

theorem Test.quiet (comparison : TokenKind) (test : Test)
    (h : comparison ≠ .kwVoid ∧ comparison ≠ .kwInt) : Quiet (test.piece comparison).tokens :=
  ((((quiet_spelled (by simp)).append test.left.quiet).append
    (quiet_spelled (by simpa using h))).append test.right.quiet).append (quiet_spelled (by simp))

theorem Quiet.braced {p : Piece} (h : Quiet p.tokens) : Quiet p.braced.tokens :=
  ((quiet_spelled (by simp)).append h).append (quiet_spelled (by simp))

theorem Body.quiet (b : Body) : Quiet b.piece.tokens := by
  have hif : Quiet [.kwIf] := quiet_spelled (by simp)
  have hwhile : Quiet [.kwWhile] := quiet_spelled (by simp)
  have helse : Quiet [.kwElse] := quiet_spelled (by simp)
  have hcounted : Quiet [] := fun _ _ => rfl
  induction b with
  | done => exact hcounted
  | simple s rest ih => exact s.quiet.append ih
  | block inner rest hinner hrest => exact hinner.braced.append hrest
  | ifThen test inner rest hinner hrest =>
      exact (((hif.append hcounted).append (test.quiet .notEqual ⟨(by simp), (by simp)⟩)).append
        hinner.braced).append hrest
  | ifElse test first second rest hfirst hsecond hrest =>
      exact (((((hif.append hcounted).append (test.quiet .notEqual ⟨(by simp), (by simp)⟩)).append
        hfirst.braced).append helse).append hsecond.braced).append hrest
  | loop test inner rest hinner hrest =>
      exact (((hwhile.append hcounted).append (test.quiet .less ⟨(by simp), (by simp)⟩)).append
        hinner.braced).append hrest

/-- The functions found in front are those of the program. -/
theorem collectFrom_tokens (names : List String) (p : Program)
    (hint : ∀ f ∈ p, f.returnsInt → f.name = "main") (hnodup : (names ++ p.functions).Nodup) :
    collectFrom names p.tokens = names ++ p.functions := by
  induction p generalizing names with
  | nil => simp [Program.functions, Program.tokens, joined, collectFrom]
  | cons f rest ih =>
      have hname : f.name ∉ names := by
        rw [List.nodup_append] at hnodup
        exact fun hmem => hnodup.2.2 f.name hmem f.name (by simp [Program.functions]) rfl
      -- a function is found at its head, and nothing else in it looks like one
      have hhead (tail : List TokenKind) : collectFrom names
          ((if f.returnsInt then .kwInt else .kwVoid) :: nameToken f.name :: .lparen :: tail) =
          collectFrom (names ++ [f.name]) (nameToken f.name :: .lparen :: tail) := by
        have hdefined : definedBy? (if f.returnsInt then .kwInt else .kwVoid) (nameToken f.name)
            .lparen = some f.name := by
          by_cases hmain : f.name = "main"
          · rw [nameToken, if_pos hmain, hmain]
            split <;> rfl
          · have hvoid : f.returnsInt = false := by
              simpa using fun h => hmain (hint f List.mem_cons_self h)
            rw [nameToken, if_neg hmain, hvoid]
            rfl
        rw [collectFrom, hdefined]
        simp [insertName, hname]
      have htokens : Program.tokens (f :: rest) = (if f.returnsInt then .kwInt else .kwVoid) ::
          nameToken f.name :: .lparen :: ([.rparen] ++ f.body.piece.braced.tokens ++
            Program.tokens rest) := by
        simp [Program.tokens, joined, Function.piece, spelled]
      have hquiet : Quiet ([nameToken f.name, .lparen, .rparen] ++ f.body.piece.braced.tokens) :=
        (quiet_spelled (by simp [nameToken_ne])).append f.body.quiet.braced
      have hfunctions : Program.functions (f :: rest) = f.name :: Program.functions rest := rfl
      rw [htokens, hhead, hfunctions]
      have hskip := hquiet (names ++ [f.name]) (Program.tokens rest)
      simp only [List.cons_append, List.nil_append] at hskip ⊢
      rw [hskip, ih (names ++ [f.name]) (fun g hg => hint g (List.mem_cons_of_mem _ hg)) (by
        simpa [hfunctions] using hnodup)]
      simp

/-! ### Source texts -/

theorem Program.map_function_routinesFrom (constants : List String) (n m : Nat) (p : Program) :
    (p.routinesFrom constants n m).map Routine.function = p := by
  induction p generalizing constants n m with
  | nil => rfl
  | cons f rest ih => rw [routinesFrom, List.map_cons, ih]

theorem Program.mem_of_mem_routines {p : Program} {r : Routine} (h : r ∈ p.routines) :
    r.function ∈ p := by
  rw [← p.map_function_routinesFrom [] 0 0]
  exact List.mem_map_of_mem h

theorem Program.exists_routine_of_mem {p : Program} {f : Function} (h : f ∈ p) :
    ∃ r ∈ p.routines, r.function = f := by
  rw [← p.map_function_routinesFrom [] 0 0] at h
  exact List.mem_map.mp h

theorem Program.exists_routine {p : Program} {name : String} (h : name ∈ p.functions) :
    ∃ r ∈ p.routines, r.function.name = name := by
  obtain ⟨f, hf, rfl⟩ := List.mem_map.mp h
  obtain ⟨r, hr, rfl⟩ := exists_routine_of_mem hf
  exact ⟨r, hr, rfl⟩

theorem takeWhile_lexical (source : String) :
    ((Scan.ofSource source).tokens.map Token.kind).takeWhile (· ≠ .eof) =
      (Scan.ofSource source).tokens.map Token.kind := by
  rw [List.takeWhile_eq_self_iff]
  intro kind hkind
  have hlexical := Scan.lexical_ofSource source kind hkind
  refine decide_eq_true fun heof => ?_
  rw [heof] at hlexical
  exact hlexical

theorem Compiler.sound_ofScan (scan : Scan) (options : Options) (functions : List String) :
    (ofScan scan options functions).Sound where
  dense := ⟨rfl, Nat.zero_le _⟩
  capacity := rfl
  apart := fun h => by cases h
  nodup := List.nodup_nil
  labels := by simp [ofScan, constants]

/-- A source text that compiles without errors is compiled by a clean run over all its tokens. -/
theorem exists_run_of_compile {source : String} {options : Options}
    (h : (compile source options).hasError = false) :
    ∃ code c', Run (CompileM.functions ((Compiler.ofSource source options).cursor.remaining + 1))
        (.ofSource source options) code c' ∧ compile source options = c'.finish code ∧
      (Compiler.ofSource source options).tokens = (Scan.ofSource source).tokens.map Token.kind ∧
      .ident "main" ∉ (Compiler.ofSource source options).tokens := by
  obtain ⟨code, c', heq, -⟩ := CompileM.exists_program (.ofSource source options)
  have hcompile := compile_eq heq
  rw [hcompile] at h
  have hclean : (Compiler.ofSource source options).Clean := (Steady.ok heq).clean h
  have htokens : (Compiler.ofSource source options).tokens =
      (Scan.ofSource source).tokens.map Token.kind :=
    (Cursor.tokens_settle hclean).trans (takeWhile_lexical source)
  refine ⟨code, c', ⟨heq, h⟩, hcompile, htokens, ?_⟩
  rw [htokens]
  exact fun hmem => absurd (Scan.lexical_ofSource source _ hmem).2 (by decide)

/-- A source text that compiles without errors spells a program that keeps the rules,
and its compilation is the text of that program's constants and code. -/
theorem exists_program_of_compile {source : String} {options : Options}
    (h : (compile source options).hasError = false) :
    ∃ p : Program, p.tokens = (Scan.ofSource source).tokens.map Token.kind ∧ p.Legal options ∧
      (compile source options).asm =
        dataSection p.constants ++ "section .text\n" ++ p.code.render ∧
      (compile source options).functions = p.functions := by
  let scan := Scan.ofSource source
  let c := Compiler.ofSource source options
  obtain ⟨code, c', hrun, hcompile, htokens, hkeyword⟩ := exists_run_of_compile h
  rw [hcompile]
  obtain ⟨p, hp⟩ := Run.functions (Nat.lt_succ_of_le (Cursor.length_tokens_le_remaining _)) hkeyword
    (Compiler.sound_ofScan scan options _) hrun
  have hdefined : c'.defined = p.functions := hp.defined
  have hstrings : c'.strings = p.constants := hp.strings
  have hspelled : p.tokens = scan.tokens.map Token.kind := hp.tokens.symm.trans htokens
  have hnodup : p.functions.Nodup := hdefined ▸ hp.nodup List.nodup_nil
  have hfunctions : c.functions = p.functions := by
    have hint : ∀ f ∈ p, f.returnsInt → f.name = "main" := by
      intro f hf
      rw [← p.map_function_routinesFrom c.constants c.ifCount c.whileCount] at hf
      obtain ⟨r, hr, rfl⟩ := List.mem_map.mp hf
      exact (hp.legal r hr).returnsInt
    have hcollect := collectFrom_tokens [] p hint (by simpa using hnodup)
    rw [hspelled] at hcollect
    exact hcollect
  refine ⟨p, hspelled, ⟨hnodup, ?_, ?_, ?_⟩, ?_, hdefined⟩
  · rw [← hstrings]
    exact hp.sound.nodup
  · have hlabels := hp.sound.labels
    rwa [hp.functions, hfunctions, Compiler.constants, hstrings] at hlabels
  · intro r hr
    have hlegal := hp.legal r hr
    rwa [hfunctions] at hlegal
  · rw [Compiler.finish, hstrings, hp.code, hfunctions]
    rfl

end Ia32.C

import Ia32.Proofs.C.Reading

/-!
# Blocks

A clean run over a block reads the statements of some `Body` and generates its code.
The bounds on nesting and on the number of statements are never reached, because
every block and every statement takes a token.
-/

namespace Ia32.C

open Piece

/-! ### Statements one after another -/

theorem plain_argumentList (es : List Expr) : (argumentList es).Plain := by
  cases es with
  | nil => exact ⟨rfl, rfl, rfl, rfl⟩
  | cons e rest => exact e.plain.append (plain_furtherArguments rest)

/-- Simple statements have no labels of branches or loops. -/
theorem Simple.unbranched (s : Simple) : s.piece.branches = 0 ∧ s.piece.loops = 0 := by
  cases s with
  | exit status =>
      cases status with
      | none => exact ⟨rfl, rfl⟩
      | some e => simp [piece, spelled, e.plain.branches, e.plain.loops]
  | call name es =>
      simp [piece, spelled, (plain_argumentList es).branches, (plain_argumentList es).loops]
  | _ => simp [piece, spelled, looked, assigned, (Rhs.plain _).branches, (Rhs.plain _).loops,
      (Trap.plain _).branches, (Trap.plain _).loops]

theorem Simple.tokens_ne_nil (s : Simple) : s.piece.tokens ≠ [] := by
  cases s with
  | exit status => cases status <;> simp [piece, spelled]
  | _ => simp [piece, spelled, Trap.piece]

namespace Body

/-- A block, as it stands in the tokens of a body. -/
theorem tokens_block (inner others : Body) : (Body.block inner others).piece.tokens =
    .lbrace :: (inner.piece.tokens ++ .rbrace :: others.piece.tokens) := by
  simp [piece, braced, spelled]

/-- A branch without an else, as it stands in the tokens of a body. -/
theorem tokens_ifThen (test : Test) (inner others : Body) :
    (Body.ifThen test inner others).piece.tokens = .kwIf :: (test.piece .notEqual).tokens ++
      .lbrace :: (inner.piece.tokens ++ .rbrace :: others.piece.tokens) := by
  simp [piece, braced, spelled]

/-- A branch with an else, as it stands in the tokens of a body. -/
theorem tokens_ifElse (test : Test) (first second others : Body) :
    (Body.ifElse test first second others).piece.tokens = .kwIf :: (test.piece .notEqual).tokens ++
      .lbrace :: (first.piece.tokens ++ .rbrace ::
        .kwElse :: .lbrace :: (second.piece.tokens ++ .rbrace :: others.piece.tokens)) := by
  simp [piece, braced, spelled]

/-- A loop, as it stands in the tokens of a body. -/
theorem tokens_loop (test : Test) (inner others : Body) :
    (Body.loop test inner others).piece.tokens = .kwWhile :: (test.piece .less).tokens ++
      .lbrace :: (inner.piece.tokens ++ .rbrace :: others.piece.tokens) := by
  simp [piece, braced, spelled]

/-- Statements behind others are spelled behind them. -/
theorem piece_append (a b : Body) : (a.append b).piece = a.piece ++ b.piece := by
  induction a with
  | done => simp [append, piece]
  | simple | block | ifThen | ifElse | loop =>
      simp only [append, piece, Piece.append_assoc, *]

/-- The code of statements behind others counts its labels on from theirs. -/
theorem code_append (functions : List String) (frame : Frame) (n m : Nat) (a b : Body) :
    (a.append b).code functions frame n m = a.code functions frame n m ++
      b.code functions frame (n + a.piece.branches) (m + a.piece.loops) := by
  induction a generalizing n m with
  | done => rfl
  | simple s rest ih =>
      simp only [append, code, ih, Code.append_assoc]
      simp [piece, s.unbranched]
  | block inner rest _ ih =>
      simp only [append, code, ih, Code.append_assoc]
      simp [piece, braced, spelled, Nat.add_assoc]
  | ifThen test inner rest _ ih =>
      simp only [append, code, ih, Code.append_assoc]
      have htest := test.plain .notEqual
      simp [piece, braced, spelled, Nat.add_assoc, htest.branches, htest.loops]
  | ifElse test first second rest _ _ ih =>
      simp only [append, code, ih, Code.append_assoc]
      have htest := test.plain .notEqual
      simp [piece, braced, spelled, Nat.add_assoc, htest.branches, htest.loops]
  | loop test inner rest _ ih =>
      simp only [append, code, ih, Code.append_assoc]
      have htest := test.plain .less
      simp [piece, braced, spelled, Nat.add_assoc, htest.branches, htest.loops]

end Body

/-! ### Blocks -/

/-- A stretch of source with the code of some statements. -/
structure Generates (b : Body) (p : Piece) (c : Compiler) (code : Code) (c' : Compiler) :
    Prop where
  reads : Reads p c c'
  code : ∀ frame, c'.Within frame → code = b.code c.functions frame c.ifCount c.whileCount

/-- What is read is taken away from the tokens. -/
theorem Reads.length_tokens {p : Piece} {c c' : Compiler} (h : Reads p c c') :
    c.tokens.length = p.tokens.length + c'.tokens.length := by
  rw [h.tokens, List.length_append]

/-- The tokens to be read are fewer than a bound, and spell `main` as the keyword. -/
structure Compiler.Fits (c : Compiler) (bound : Nat) : Prop where
  length : c.tokens.length < bound
  keyword : .ident "main" ∉ c.tokens

theorem Compiler.Fits.of_reads {p : Piece} {c c' : Compiler} {bound : Nat} (h : c.Fits bound)
    (hreads : Reads p c c') : c'.Fits bound := by
  obtain ⟨hlength, hkeyword⟩ := h
  rw [hreads.tokens] at hlength hkeyword
  refine ⟨?_, fun hmem => hkeyword (List.mem_append_right _ hmem)⟩
  rw [List.length_append] at hlength
  omega

/-- Behind the brace that opens a block one token less is left. -/
theorem Compiler.Fits.inner {c c' : Compiler} {depth : Nat} (h : c.Fits (depth + 1))
    (hopen : Reads (spelled [.lbrace]) c c') : c'.Fits depth := by
  have hlength := hopen.length_tokens
  have hbefore := h.length
  simp only [spelled, List.length_cons, List.length_nil] at hlength
  exact ⟨by omega, (h.of_reads hopen).keyword⟩

/-- An identifier stands for its name where `main` is spelled as the keyword. -/
theorem Compiler.kind_eq_nameToken {c : Compiler} {name : String}
    (hkeyword : .ident "main" ∉ c.tokens) (hkind : c.cursor.kind = .ident name) :
    c.cursor.kind = nameToken name := by
  rw [nameToken, if_neg, hkind]
  rintro rfl
  exact hkeyword (hkind ▸ Cursor.kind_mem_tokens (by simp [hkind]))

/-- A simple statement with its code is a body of one statement. -/
theorem Generates.of_simple {s : Simple} {c c' : Compiler} {code : Code}
    (hreads : Reads s.piece c c')
    (hcode : ∀ frame, c'.Within frame → code = s.code c.functions frame) :
    Generates (.simple s .done) (Body.simple s .done).piece c code c' :=
  ⟨hreads.cast (Piece.append_empty _).symm, fun frame hframe => by
    rw [hcode frame hframe, Body.code, Body.code, Code.append_empty]⟩

namespace Run

open CompileM

variable {c c' : Compiler} {code : Code} {block : CompileM Code} {bound : Nat}

/-- The compiler of nested blocks does its work on fewer tokens than a bound. -/
def ReadsBlocks (block : CompileM Code) (bound : Nat) : Prop :=
  ∀ {c code c'}, c.Fits bound → Run block c code c' →
    ∃ b : Body, Generates b b.piece.braced c code c'

/-- A branch takes the next number. -/
theorem newBranch {n : Nat} (h : Run newBranch c n c') :
    n = c.ifCount ∧ Reads { branches := 1 } c c' := by
  cases h.eq
  exact ⟨rfl, .of_tables_eq rfl⟩

/-- A loop takes the next number. -/
theorem newLoop {n : Nat} (h : Run newLoop c n c') :
    n = c.whileCount ∧ Reads { loops := 1 } c c' := by
  cases h.eq
  exact ⟨rfl, .of_tables_eq rfl⟩

/-- A branch is read as a statement and compiled to its code. -/
theorem ifStatement [Steady block] (hblock : ReadsBlocks block bound)
    (hfits : c.Fits bound) (h : Run (ifStatement block) c code c')
    (hkind : c.cursor.kind = .kwIf) :
    ∃ b : Body, Generates b b.piece c code c' ∧ b.piece.tokens ≠ [] := by
  obtain ⟨_, c1, hif, h⟩ := h.bind
  obtain ⟨n, c2, hnew, h⟩ := h.bind
  obtain ⟨testCode, c3, htest, h⟩ := h.bind
  obtain ⟨firstCode, c4, hfirst, h⟩ := h.bind
  obtain ⟨accepted, c5, helse, h⟩ := h.bind
  obtain ⟨rfl, hcount⟩ := hnew.newBranch
  obtain ⟨test, htest, htestCode⟩ := htest.condition (by simp)
  have hfront := ((hif.advance hkind (by simp)).trans hcount).trans htest
  have hplain := test.plain .notEqual
  have hcounts : c3.ifCount = c.ifCount + 1 ∧ c3.whileCount = c.whileCount :=
    ⟨by rw [hfront.branches]; simp [spelled, hplain.branches],
      by rw [hfront.loops]; simp [spelled, hplain.loops]⟩
  obtain ⟨first, hfirst, hfirstCode⟩ := hblock (hfits.of_reads hfront) hfirst
  have hboth := hfront.trans hfirst
  -- the condition was compiled in the state before `c3`, which has the count of `c1`
  have hn : c1.ifCount = c.ifCount := (hif.advance hkind (by simp)).branches
  rcases helse.accept (by simp) with ⟨rfl, hkeyword⟩ | ⟨rfl, rfl⟩
  · obtain ⟨secondCode, c6, hsecond, h⟩ := h.bind
    obtain ⟨rfl, rfl⟩ := h.pure
    have hthird := hboth.trans hkeyword
    obtain ⟨second, hsecond, hsecondCode⟩ := hblock (hfits.of_reads hthird) hsecond
    have hcounts' : c5.ifCount = c.ifCount + 1 + first.piece.branches ∧
        c5.whileCount = c.whileCount + first.piece.loops :=
      ⟨by rw [hthird.branches]; simp [spelled, braced, hplain.branches]; omega,
        by rw [hthird.loops]; simp [spelled, braced, hplain.loops]⟩
    refine ⟨.ifElse test first second .done, ⟨?_, fun frame hframe => ?_⟩,
      by simp [Body.piece, spelled]⟩
    · exact (hthird.trans hsecond).cast (Piece.append_empty _).symm
    · have hframe4 := (hkeyword.trans hsecond).within hframe
      rw [hsecondCode frame hframe, hfirstCode frame hframe4,
        htestCode frame (hfirst.within hframe4), hthird.functions, hfront.functions,
        hcounts.1, hcounts.2, hcounts'.1, hcounts'.2, hn]
      exact (Code.append_empty _).symm
  · obtain ⟨rfl, rfl⟩ := h.pure
    refine ⟨.ifThen test first .done, ⟨?_, fun frame hframe => ?_⟩, by simp [Body.piece, spelled]⟩
    · exact hboth.cast (Piece.append_empty _).symm
    · rw [hfirstCode frame hframe, htestCode frame (hfirst.within hframe), hfront.functions,
        hcounts.1, hcounts.2, hn]
      exact (Code.append_empty _).symm

/-- A loop is read as a statement and compiled to its code. -/
theorem whileStatement [Steady block] (hblock : ReadsBlocks block bound)
    (hfits : c.Fits bound) (h : Run (whileStatement block) c code c')
    (hkind : c.cursor.kind = .kwWhile) :
    ∃ b : Body, Generates b b.piece c code c' ∧ b.piece.tokens ≠ [] := by
  obtain ⟨_, c1, hwhile, h⟩ := h.bind
  obtain ⟨n, c2, hnew, h⟩ := h.bind
  obtain ⟨testCode, c3, htest, h⟩ := h.bind
  obtain ⟨innerCode, c4, hinner, h⟩ := h.bind
  obtain ⟨rfl, rfl⟩ := h.pure
  obtain ⟨rfl, hcount⟩ := hnew.newLoop
  obtain ⟨test, htest, htestCode⟩ := htest.condition (by simp)
  have hfront := ((hwhile.advance hkind (by simp)).trans hcount).trans htest
  have hplain := test.plain .less
  have hcounts : c3.ifCount = c.ifCount ∧ c3.whileCount = c.whileCount + 1 :=
    ⟨by rw [hfront.branches]; simp [spelled, hplain.branches],
      by rw [hfront.loops]; simp [spelled, hplain.loops]⟩
  have hn : c1.whileCount = c.whileCount := (hwhile.advance hkind (by simp)).loops
  obtain ⟨inner, hinner, hinnerCode⟩ := hblock (hfits.of_reads hfront) hinner
  refine ⟨.loop test inner .done, ⟨?_, fun frame hframe => ?_⟩, by simp [Body.piece, spelled]⟩
  · exact (hfront.trans hinner).cast (Piece.append_empty _).symm
  · rw [hinnerCode frame hframe, htestCode frame (hinner.within hframe), hfront.functions,
      hcounts.1, hcounts.2, hn]
    exact (Code.append_empty _).symm

/-- Each kind of statement is read as one and compiled to its code. -/
theorem statementWith [Steady block] (hblock : ReadsBlocks block bound)
    (hfits : c.Fits bound) (h : Run (statementWith block) c code c') :
    ∃ b : Body, Generates b b.piece c code c' ∧ b.piece.tokens ≠ [] := by
  have hsimple {s : Simple} (hreads : Reads s.piece c c')
      (hcode : ∀ frame, c'.Within frame → code = s.code c.functions frame) :
      ∃ b : Body, Generates b b.piece c code c' ∧ b.piece.tokens ≠ [] :=
    ⟨_, .of_simple hreads hcode, by simpa [Body.piece] using s.tokens_ne_nil⟩
  have h := h.of_line.of_peek
  split at h
  case h_1 hkind =>
    obtain ⟨s, hreads, hcode⟩ := h.declaration (.inl hkind)
    exact hsimple hreads (hcode _)
  case h_2 hkind =>
    obtain ⟨s, hreads, hcode⟩ := h.declaration (.inr hkind)
    exact hsimple hreads (hcode _)
  case h_3 hkind =>
    obtain ⟨s, hreads, hcode⟩ := h.pointerAssignment hkind
    exact hsimple hreads (hcode _)
  case h_4 hkind =>
    obtain ⟨s, hreads, hcode⟩ := h.returnStatement hkind
    exact hsimple hreads (hcode _)
  case h_5 hkind =>
    exact ifStatement hblock hfits h hkind
  case h_6 hkind =>
    exact whileStatement hblock hfits h hkind
  case h_7 hkind =>
    obtain ⟨s, hreads, hcode⟩ := h.syscallStatement
    exact hsimple hreads (hcode _)
  case h_8 hkind =>
    obtain ⟨b, hreads, hcode⟩ := hblock hfits h
    refine ⟨.block b .done, ⟨hreads.cast (Piece.append_empty _).symm, ?_⟩, ?_⟩
    · intro frame hframe
      rw [hcode frame hframe, Body.code, Body.code, Code.append_empty]
    · simp [Body.piece, braced, spelled]
  case h_9 name hkind =>
    obtain ⟨s, hreads, hcode⟩ := h.nameStatement (c.kind_eq_nameToken hfits.keyword hkind)
    exact hsimple hreads hcode
  case h_10 hkind =>
    obtain ⟨s, hreads, hcode⟩ := h.nameStatement hkind
    exact hsimple hreads hcode
  case h_11 => exact absurd h not_unexpected

/-- Statements are read up to the brace that closes them. -/
theorem statements [Steady block] (hblock : ReadsBlocks block bound) (hfits : c.Fits bound)
    {fuel : Nat} (hfuel : c.tokens.length < fuel)
    (h : Run (statements (CompileM.statementWith block) fuel) c code c') :
    ∃ b : Body, Generates b (b.piece ++ spelled [.rbrace]) c code c' := by
  induction fuel generalizing c code with
  | zero => omega
  | succ fuel ih =>
      have h := h.of_peek
      split at h
      case h_1 hkind =>
        obtain ⟨_, c1, hclose, h⟩ := h.bind
        obtain ⟨rfl, rfl⟩ := h.pure
        exact ⟨.done, (hclose.advance hkind (by simp)).cast (by simp [Body.piece]), fun _ _ => rfl⟩
      case h_2 =>
        obtain ⟨_, c1, hreport, -⟩ := h.of_get.bind
        exact absurd hreport (not_report rfl)
      case h_3 =>
        obtain ⟨firstCode, c1, hfirst, h⟩ := h.bind
        obtain ⟨restCode, c2, hrest, h⟩ := h.bind
        obtain ⟨rfl, rfl⟩ := h.pure
        obtain ⟨first, hfirst, hnonempty⟩ := statementWith hblock hfits hfirst.caught
        -- the statement has taken a token, so the fuel is enough for the rest
        have hlength := hfirst.reads.length_tokens
        have hpos := List.length_pos_iff.mpr hnonempty
        obtain ⟨rest, hrest, hrestCode⟩ := ih (hfits.of_reads hfirst.reads) (by omega) hrest
        refine ⟨first.append rest, ?_, fun frame hframe => ?_⟩
        · exact (hfirst.reads.trans hrest).cast (by
            rw [Body.piece_append, Piece.append_assoc])
        · rw [Body.code_append, hfirst.code frame (hrest.within hframe), hrestCode frame hframe,
            hfirst.reads.functions, hfirst.reads.branches, hfirst.reads.loops]

/-- No block is nested deeper than there are tokens. -/
theorem blockAt (depth : Nat) : ReadsBlocks (blockAt depth) depth := by
  induction depth with
  | zero => exact fun hfits => absurd hfits.length (Nat.not_lt_zero _)
  | succ depth ih =>
      intro c code c' hfits h
      obtain ⟨_, c1, hopen, h⟩ := h.bind
      have h := h.of_remaining
      have hopen := hopen.expect (by simp)
      obtain ⟨b, hb, hcode⟩ := statements ih (hfits.inner hopen)
        (Nat.lt_succ_of_le (Cursor.length_tokens_le_remaining _)) h
      refine ⟨b, (hopen.trans hb).cast (Piece.append_assoc _ _ _).symm, fun frame hframe => ?_⟩
      rw [hcode frame hframe, hopen.functions, hopen.branches, hopen.loops]
      rfl

theorem wholeBlock (h : Run CompileM.block c code c') (hkeyword : .ident "main" ∉ c.tokens) :
    ∃ b : Body, Generates b b.piece.braced c code c' :=
  blockAt _ ⟨Nat.lt_succ_of_le (Cursor.length_tokens_le_remaining _), hkeyword⟩ h.of_remaining

end Run

end Ia32.C

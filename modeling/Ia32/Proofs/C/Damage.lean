import Ia32.Proofs.C.Complaints
import Ia32.Proofs.C.Cutting

/-!
# One token less

What the compiler says about the syntax of a program that lacks one of its tokens, other than a
brace. A statement that breaks for want of a token is skipped up to its semicolon or behind the
group in braces that it has in front, and what is left is read without complaints: there is one
complaint at most. Only where an `else` stands behind that group, the compiler stops in front of
it and complains once more.
-/

namespace Ia32.C

open CompileM Piece

variable {kind comparison : TokenKind} {tokens front inner before behind more rest : List TokenKind}

/-! ### Tokens of constructs -/

theorem nameToken_flat (name : String) : (nameToken name).Flat := by
  unfold nameToken
  split <;> simp [TokenKind.Flat, TokenKind.isPlain]

/-- A type has no braces, no semicolons and no keyword of a statement with blocks. -/
theorem CType.flat (type : CType) : ∀ kind ∈ type.tokens, kind.Flat := by
  cases type <;> simp [CType.tokens, TokenKind.Flat, TokenKind.isPlain] <;> decide

theorem Primary.flat (p : Primary) : ∀ kind ∈ p.piece.tokens, kind.Flat := by
  cases p <;> simp [piece, spelled, looked, TokenKind.Flat, TokenKind.isPlain]

theorem Expr.flat (e : Expr) : ∀ kind ∈ e.piece.tokens, kind.Flat := by
  have haddend (value : Nat) : ∀ kind ∈ [TokenKind.plus, .number value], kind.Flat := by
    simp [TokenKind.Flat, TokenKind.isPlain]
  refine List.forall_mem_append.mpr ⟨e.first.flat, fun kind hkind => ?_⟩
  obtain ⟨value, -, hkind⟩ := List.mem_flatMap.mp hkind
  exact haddend value kind hkind

theorem flat_furtherArguments (es : List Expr) :
    ∀ kind ∈ (furtherArguments es).tokens, kind.Flat := by
  induction es with
  | nil => simp [furtherArguments, joined]
  | cons e es ih =>
      have hsplit := tokens_furtherArguments e es []
      rw [List.append_nil, List.append_nil] at hsplit
      rw [hsplit, List.forall_mem_cons, List.forall_mem_append]
      exact ⟨by simp [TokenKind.Flat, TokenKind.isPlain], e.flat, ih⟩

theorem flat_argumentList (es : List Expr) : ∀ kind ∈ (argumentList es).tokens, kind.Flat := by
  cases es with
  | nil => simp [argumentList]
  | cons e es => exact List.forall_mem_append.mpr ⟨e.flat, flat_furtherArguments es⟩

theorem Trap.flat (t : Trap) : ∀ kind ∈ t.piece.tokens, kind.Flat := by
  refine List.forall_mem_append.mpr ⟨List.forall_mem_append.mpr
    ⟨?_, flat_furtherArguments t.arguments⟩, ?_⟩
  all_goals simp [spelled, TokenKind.Flat, TokenKind.isPlain]

theorem Rhs.flat (r : Rhs) : ∀ kind ∈ r.piece.tokens, kind.Flat := by
  cases r with
  | expr e => exact e.flat
  | trap t => exact t.flat

/-- A statement without blocks ends with its only semicolon. -/
theorem Simple.exists_front (s : Simple) :
    ∃ front, s.piece.tokens = front ++ [.semicolon] ∧ front ≠ [] ∧ ∀ kind ∈ front, kind.Flat := by
  have hname (name : String) : ∀ kind ∈ [TokenKind.ident name], kind.Flat := by
    simp [TokenKind.Flat, TokenKind.isPlain]
  have htarget (name : String) : ∀ kind ∈ [TokenKind.ident name, .assign], kind.Flat := by
    simp [TokenKind.Flat, TokenKind.isPlain]
  cases s with
  | declare type name =>
      refine ⟨type.tokens ++ [.ident name], ?_, by simp, ?_⟩
      · simp [piece, spelled, assigned]
      · exact List.forall_mem_append.mpr ⟨type.flat, hname name⟩
  | constant type name content =>
      refine ⟨type.tokens ++ [.ident name, .assign, .text content], ?_, by simp, ?_⟩
      · simp [piece, spelled]
      · refine List.forall_mem_append.mpr ⟨type.flat, ?_⟩
        simp [TokenKind.Flat, TokenKind.isPlain]
  | declareWith type name value =>
      refine ⟨type.tokens ++ ([.ident name, .assign] ++ value.piece.tokens), ?_, by simp, ?_⟩
      · simp [piece, spelled, assigned]
      · exact List.forall_mem_append.mpr
          ⟨type.flat, List.forall_mem_append.mpr ⟨htarget name, value.flat⟩⟩
  | assign name value =>
      refine ⟨nameToken name :: .assign :: value.piece.tokens, ?_, by simp, ?_⟩
      · simp [piece, spelled, assigned]
      · refine List.forall_mem_cons.mpr ⟨nameToken_flat name,
          List.forall_mem_cons.mpr ⟨?_, value.flat⟩⟩
        simp [TokenKind.Flat, TokenKind.isPlain]
  | storeThrough pointer value =>
      refine ⟨.star :: ([.ident pointer, .assign] ++ value.piece.tokens), ?_, by simp, ?_⟩
      · simp [piece, spelled, looked]
      · refine List.forall_mem_cons.mpr
          ⟨?_, List.forall_mem_append.mpr ⟨htarget pointer, value.flat⟩⟩
        simp [TokenKind.Flat, TokenKind.isPlain]
  | exit status? =>
      cases status? with
      | none =>
          refine ⟨[.kwReturn], rfl, by simp, ?_⟩
          simp [TokenKind.Flat, TokenKind.isPlain]
      | some e =>
          refine ⟨.kwReturn :: e.piece.tokens, ?_, by simp, List.forall_mem_cons.mpr ⟨?_, e.flat⟩⟩
          · simp [piece, spelled]
          · simp [TokenKind.Flat, TokenKind.isPlain]
  | trap t =>
      refine ⟨t.piece.tokens, ?_, ?_, t.flat⟩
      · simp [piece, spelled]
      · simp [Trap.piece, spelled]
  | call name es =>
      refine ⟨nameToken name :: .lparen :: ((argumentList es).tokens ++ [.rparen]), ?_, by simp, ?_⟩
      · simp [piece, spelled]
      · refine List.forall_mem_cons.mpr ⟨nameToken_flat name, List.forall_mem_cons.mpr
          ⟨?_, List.forall_mem_append.mpr ⟨flat_argumentList es, ?_⟩⟩⟩
        all_goals simp [TokenKind.Flat, TokenKind.isPlain]

theorem Test.flat (test : Test) (hcomparison : comparison.Flat) :
    ∀ kind ∈ (test.piece comparison).tokens, kind.Flat := by
  refine List.forall_mem_append.mpr ⟨List.forall_mem_append.mpr ⟨List.forall_mem_append.mpr
    ⟨List.forall_mem_append.mpr ⟨?_, test.left.flat⟩, ?_⟩, test.right.flat⟩, ?_⟩
  · simp [spelled, TokenKind.Flat, TokenKind.isPlain]
  · simpa [spelled] using hcomparison
  · simp [spelled, TokenKind.Flat, TokenKind.isPlain]

theorem Test.length_tokens (test : Test) : (test.piece comparison).tokens.length = 5 := by
  have hprimary (p : Primary) : p.piece.tokens.length = 1 := by cases p <;> rfl
  simp [piece, spelled, hprimary]

theorem flat_notEqual : TokenKind.notEqual.Flat := ⟨rfl, nofun, nofun, nofun⟩

theorem flat_less : TokenKind.less.Flat := ⟨rfl, nofun, nofun, nofun⟩

/-- Flat tokens hold nothing that a recovery stops at. -/
theorem plain_of_flat (h : ∀ kind ∈ tokens, kind.Flat) : Plain tokens :=
  fun kind hkind => (h kind hkind).1

theorem Test.plain_branch (test : Test) : Plain (.kwIf :: (test.piece .notEqual).tokens) :=
  Plain.cons_iff.mpr ⟨rfl, plain_of_flat (test.flat flat_notEqual)⟩

theorem Test.plain_loop (test : Test) : Plain (.kwWhile :: (test.piece .less).tokens) :=
  Plain.cons_iff.mpr ⟨rfl, plain_of_flat (test.flat flat_less)⟩

/-- Braces in the statements of a block match each other. -/
theorem Body.balanced (body : Body) : Balanced body.piece.tokens := by
  induction body with
  | done => exact .nil
  | simple s others ih =>
      obtain ⟨front, htokens, -, hflat⟩ := s.exists_front
      have hend : Balanced (.semicolon :: others.piece.tokens) := .other (by simp) (by simp) ih
      have hfront := (Balanced.of_plain (plain_of_flat hflat)).append hend
      simpa [piece, htokens] using hfront
  | block inner others ihinner ihothers =>
      rw [tokens_block]
      exact .group ihinner ihothers
  | ifThen test inner others ihinner ihothers =>
      rw [tokens_ifThen]
      exact (Balanced.of_plain test.plain_branch).append (.group ihinner ihothers)
  | ifElse test first second others ihfirst ihsecond ihothers =>
      have helse : Balanced (.kwElse :: .lbrace ::
          (second.piece.tokens ++ .rbrace :: others.piece.tokens)) :=
        .other (by simp) (by simp) (.group ihsecond ihothers)
      rw [tokens_ifElse]
      exact (Balanced.of_plain test.plain_branch).append (.group ihfirst helse)
  | loop test inner others ihinner ihothers =>
      rw [tokens_loop]
      exact (Balanced.of_plain test.plain_loop).append (.group ihinner ihothers)

theorem Plain.exists_head (hkind : kind ≠ .rbrace) (h : Plain front) :
    ∃ first ∈ (front ++ kind :: rest).head?, first ≠ .rbrace := by
  cases front with
  | nil => exact ⟨kind, rfl, hkind⟩
  | cons first front =>
      exact ⟨first, rfl, (TokenKind.ne_of_isPlain (Plain.cons_iff.mp h).1).2.1⟩

/-! ### Where a token is -/

/-- A token among two lists is in the first one or in the second one. -/
theorem append_cases (h : front ++ rest = before ++ kind :: behind) :
    (∃ more, front = before ++ kind :: more ∧ behind = more ++ rest) ∨
      ∃ more, before = front ++ more ∧ rest = more ++ kind :: behind := by
  rcases List.append_eq_append_iff.mp h with ⟨more, hbefore, hrest⟩ | ⟨more, hfront, hbehind⟩
  · exact .inr ⟨more, hbefore, hrest⟩
  · cases more with
    | nil => exact .inr ⟨[], by simpa using hfront.symm, hbehind.symm⟩
    | cons other more =>
        obtain ⟨rfl, rfl⟩ := List.cons.inj hbehind
        exact .inl ⟨more, hfront, rfl⟩

/-- A token other than a brace is inside a group or behind it. -/
theorem group_cases (hopen : kind ≠ .lbrace) (hclose : kind ≠ .rbrace)
    (h : .lbrace :: (inner ++ .rbrace :: rest) = before ++ kind :: behind) :
    (∃ before' more, before = .lbrace :: before' ∧ inner = before' ++ kind :: more ∧
        behind = more ++ .rbrace :: rest) ∨
      ∃ more, before = .lbrace :: (inner ++ .rbrace :: more) ∧ rest = more ++ kind :: behind := by
  cases before with
  | nil => exact absurd (List.cons.inj h).1.symm hopen
  | cons other before =>
      obtain ⟨rfl, htail⟩ := List.cons.inj h
      rcases append_cases htail with ⟨more, hinner, hbehind⟩ | ⟨more, hbefore, hrest⟩
      · exact .inl ⟨before, more, rfl, hinner, hbehind⟩
      · cases more with
        | nil => exact absurd (List.cons.inj hrest).1.symm hclose
        | cons other more =>
            obtain ⟨rfl, hmore⟩ := List.cons.inj hrest
            exact .inr ⟨more, by rw [hbefore], hmore⟩

/-! ### Verdicts -/

/-- Tokens without semicolons or braces, a group in braces, and an `else` behind it. -/
def BeforeElse (tokens : List TokenKind) : Prop :=
  ∃ front inner rest, tokens = front ++ .lbrace :: (inner ++ .rbrace :: .kwElse :: rest) ∧
    Plain front ∧ Balanced inner

/-- A recovery in front of a group and an `else` stops at the `else`. -/
theorem BeforeElse.recover (h : BeforeElse tokens) :
    (recover 0 tokens).head? = some .kwElse := by
  obtain ⟨front, inner, rest, rfl, hfront, hinner⟩ := h
  rw [recover_group hfront hinner]
  rfl

/-- How many complaints there are with a token missing, by the tokens behind it. -/
def Verdict (behind : List TokenKind) (n : Nat) : Prop :=
  (BeforeElse behind → n = 2) ∧ (¬ BeforeElse behind → n ≤ 1)

/-- Where a recovery does not stop at an `else`, one complaint at most is the verdict. -/
theorem verdict_of_le {n : Nat} (hn : n ≤ 1) (h : (recover 0 behind).head? ≠ some .kwElse) :
    Verdict behind n :=
  ⟨fun helse => absurd helse.recover h, fun _ => hn⟩

theorem verdict_two (h : BeforeElse behind) : Verdict behind 2 :=
  ⟨fun _ => rfl, fun hnot => absurd h hnot⟩

/-! ### Statements -/

/-- A statement that breaks in front of a group in braces. -/
theorem StatementsComplain.of_group {v w : Nat → Prop}
    (hbreaks : Breaks statement (front ++ .lbrace :: (inner ++ .rbrace :: more)))
    (hfront : Plain front) (hinner : Balanced inner) (hmore : StatementsComplain more rest v)
    (hsum : ∀ n, v n → w (1 + n)) :
    StatementsComplain (front ++ .lbrace :: (inner ++ .rbrace :: more)) rest w := by
  have hturn := hbreaks.turn
  rw [recover_group hfront hinner] at hturn
  refine of_turn (hfront.exists_head nofun) hturn hmore fun n m hn hm => ?_
  rw [hn]
  exact hsum m hm

/-- A statement without blocks, with or without one of its tokens. -/
theorem statementsComplain_flat (hbefore : ∀ kind ∈ before, kind.Flat)
    (hbehind : ∀ kind ∈ behind, kind.Flat) (others : Body) (rest : List TokenKind) :
    StatementsComplain ((before ++ behind) ++ .semicolon ::
        (others.piece.tokens ++ .rbrace :: rest)) rest
      (Verdict (behind ++ .semicolon :: (others.piece.tokens ++ .rbrace :: rest))) := by
  have hflat := List.forall_mem_append.mpr ⟨hbefore, hbehind⟩
  refine .of_turn ((plain_of_flat hflat).exists_head (by simp)) (complains_flat hflat)
    (statementsComplain_body others rest) fun n m hn hm => ?_
  rw [hm]
  refine verdict_of_le hn ?_
  rw [recover_semicolon (plain_of_flat hbehind)]
  exact others.head?_tokens rest

/-- What is left of a branch when its head has been skipped: an `else` starts no statement. -/
theorem statementsComplain_else (second others : Body) (rest : List TokenKind) :
    StatementsComplain (.kwElse :: .lbrace :: (second.piece.tokens ++ .rbrace ::
      (others.piece.tokens ++ .rbrace :: rest))) rest (· = 1) := by
  have hplain : Plain [.kwElse] := Plain.cons_iff.mpr ⟨rfl, .nil⟩
  have hbreaks : Breaks statement ([.kwElse] ++ .lbrace :: (second.piece.tokens ++ .rbrace ::
      (others.piece.tokens ++ .rbrace :: rest))) := breaks_plain hplain nofun nofun (.inl rfl)
  exact .of_group hbreaks hplain second.balanced (statementsComplain_body others rest) (by simp)

/-- A statement that breaks in front of a group, and statements behind it. -/
theorem statementsComplain_group (hplain : Plain (before ++ behind)) (inner others : Body)
    (rest : List TokenKind)
    (hbreaks : Breaks statement ((before ++ behind) ++ .lbrace :: (inner.piece.tokens ++ .rbrace ::
      (others.piece.tokens ++ .rbrace :: rest)))) :
    StatementsComplain ((before ++ behind) ++ .lbrace :: (inner.piece.tokens ++ .rbrace ::
        (others.piece.tokens ++ .rbrace :: rest))) rest
      (Verdict (behind ++ .lbrace :: (inner.piece.tokens ++ .rbrace ::
        (others.piece.tokens ++ .rbrace :: rest)))) := by
  refine .of_group hbreaks hplain inner.balanced (statementsComplain_body others rest)
    fun n hn => ?_
  rw [hn]
  refine verdict_of_le (Nat.le_refl 1) ?_
  rw [recover_group (Plain.append_iff.mp hplain).2 inner.balanced]
  exact others.head?_tokens rest

/-- A statement that breaks in front of a group with an `else` behind it. -/
theorem statementsComplain_branch (hplain : Plain (before ++ behind)) (first second others : Body)
    (rest : List TokenKind)
    (hbreaks : Breaks statement ((before ++ behind) ++ .lbrace :: (first.piece.tokens ++ .rbrace ::
      .kwElse :: .lbrace :: (second.piece.tokens ++ .rbrace ::
        (others.piece.tokens ++ .rbrace :: rest))))) :
    StatementsComplain ((before ++ behind) ++ .lbrace :: (first.piece.tokens ++ .rbrace ::
        .kwElse :: .lbrace :: (second.piece.tokens ++ .rbrace ::
          (others.piece.tokens ++ .rbrace :: rest)))) rest
      (Verdict (behind ++ .lbrace :: (first.piece.tokens ++ .rbrace ::
        .kwElse :: .lbrace :: (second.piece.tokens ++ .rbrace ::
          (others.piece.tokens ++ .rbrace :: rest))))) := by
  refine .of_group hbreaks hplain first.balanced (statementsComplain_else second others rest)
    fun n hn => ?_
  rw [hn]
  exact verdict_two ⟨_, _, _, rfl, (Plain.append_iff.mp hplain).2, first.balanced⟩

/-- Statements behind one that lacks its semicolon. -/
theorem statementsComplain_run (hfront : ∀ kind ∈ front, kind.Flat) (hne : front ≠ [])
    (others : Body) (rest : List TokenKind) :
    StatementsComplain (front ++ (others.piece.tokens ++ .rbrace :: rest)) rest
      (Verdict (others.piece.tokens ++ .rbrace :: rest)) := by
  have hplain := plain_of_flat hfront
  have hboth {middle : List TokenKind} (hmiddle : Plain middle) : Plain (front ++ middle) :=
    Plain.append_iff.mpr ⟨hplain, hmiddle⟩
  have hbreaks {brace : TokenKind} {middle more : List TokenKind} (hmiddle : Plain middle)
      (hbrace : brace = .lbrace ∨ brace = .rbrace) :
      Breaks statement ((front ++ middle) ++ brace :: more) := by
    obtain ⟨kind, front', rfl⟩ := List.exists_cons_of_ne_nil hne
    obtain ⟨-, hif, hwhile, -⟩ := hfront kind List.mem_cons_self
    exact breaks_plain (hboth hmiddle) hif hwhile hbrace
  cases others with
  | done =>
      have hend : Breaks statement ((front ++ []) ++ .rbrace :: rest) := hbreaks .nil (.inr rfl)
      have hturn := hend.turn
      rw [List.append_nil, recover_rbrace hplain] at hturn
      have hstart : ∃ kind ∈ (front ++ .rbrace :: rest).head?, kind ≠ .rbrace := by
        obtain ⟨kind, front', rfl⟩ := List.exists_cons_of_ne_nil hne
        exact ⟨kind, rfl, (TokenKind.ne_of_isPlain (Plain.cons_iff.mp hplain).1).2.1⟩
      refine .of_turn hstart hturn (statementsComplain_body .done rest) fun n m hn hm => ?_
      rw [hn, hm]
      exact verdict_of_le (Nat.le_refl 1) nofun
  | simple s others =>
      obtain ⟨next, htokens, -, hnext⟩ := s.exists_front
      have hshape : (Body.simple s others).piece.tokens ++ .rbrace :: rest =
          next ++ .semicolon :: (others.piece.tokens ++ .rbrace :: rest) := by
        simp [Body.piece, htokens]
      rw [hshape, ← List.append_assoc]
      exact statementsComplain_flat hfront hnext others rest
  | block inner others =>
      simpa [Body.tokens_block] using
        statementsComplain_group (hboth .nil) inner others rest (hbreaks .nil (.inl rfl))
  | ifThen test inner others =>
      simpa [Body.tokens_ifThen] using statementsComplain_group (hboth test.plain_branch) inner
        others rest (hbreaks test.plain_branch (.inl rfl))
  | ifElse test first second others =>
      simpa [Body.tokens_ifElse] using statementsComplain_branch (hboth test.plain_branch) first
        second others rest (hbreaks test.plain_branch (.inl rfl))
  | loop test inner others =>
      simpa [Body.tokens_loop] using statementsComplain_group (hboth test.plain_loop) inner
        others rest (hbreaks test.plain_loop (.inl rfl))

/-! ### Heads of branches and loops -/

/-- A condition with a token missing is too short. -/
theorem breaks_condition {test : Test} (hcomparison : comparison.Flat) [comparison.Asked]
    (heof : comparison ≠ .eof) (what : String)
    (h : (test.piece comparison).tokens = before ++ kind :: behind) :
    Breaks (condition comparison what) (before ++ behind ++ .lbrace :: more) := by
  refine .of_recognizes (fun _ => recognizes_condition heof what) ?_
  rintro rest ⟨other, hother⟩
  obtain ⟨front, hfront, -⟩ := (plain_of_flat (other.flat hcomparison)).split rfl hother
  have hlength := congrArg List.length h
  have hlonger := congrArg List.length hfront
  simp only [Test.length_tokens, List.length_append, List.length_cons] at hlength hlonger
  omega

/-- No statement starts with the condition of another one. -/
theorem breaks_test (test : Test) (hcomparison : comparison.Flat) :
    Breaks statement ((test.piece comparison).tokens ++ .lbrace :: more) := by
  have hflat := test.flat hcomparison
  cases htokens : (test.piece comparison).tokens with
  | nil => simp [Test.piece, spelled] at htokens
  | cons kind front =>
      rw [htokens] at hflat
      obtain ⟨-, hif, hwhile, -⟩ := hflat kind List.mem_cons_self
      exact breaks_plain (plain_of_flat hflat) hif hwhile (.inl rfl)

/-- A statement with a condition breaks for want of a token in front of its block: without the
keyword no statement starts there, and without another token the condition is too short. -/
theorem Conditioned.breaks_without {keyword : TokenKind} {what : String} {number : CompileM Nat}
    {next : Nat → Code → CompileM Code} [Silent number] [Steady number] [comparison.Asked]
    (hconditioned : Conditioned keyword comparison what number next)
    (hkeyword : keyword.isPlain = true)
    (hcomparison : comparison.Flat) (heof : comparison ≠ .eof) {test : Test}
    (h : keyword :: (test.piece comparison).tokens = before ++ kind :: behind) :
    Breaks statement (before ++ behind ++ .lbrace :: more) := by
  cases before with
  | nil =>
      obtain ⟨-, rfl⟩ := List.cons.inj h
      exact breaks_test test hcomparison
  | cons first before =>
      obtain ⟨rfl, htest⟩ := List.cons.inj h
      exact hconditioned.breaks hkeyword (breaks_condition hcomparison heof _ htest)

theorem breaks_branch {test : Test}
    (h : .kwIf :: (test.piece .notEqual).tokens = before ++ kind :: behind) :
    Breaks statement (before ++ behind ++ .lbrace :: more) :=
  Conditioned.breaks_without (fun c => (statementWith_eq block c).1) rfl flat_notEqual nofun h

/-- With a token missing, statements do not start with `else` either. -/
theorem Body.head?_damaged {body : Body} (h : body.piece.tokens = before ++ kind :: behind)
    (hopen : kind ≠ .lbrace) (rest : List TokenKind) :
    (before ++ behind ++ .rbrace :: rest).head? ≠ some .kwElse := by
  cases before with
  | cons first before =>
      have hhead := body.head?_tokens []
      rw [h] at hhead
      simpa using hhead
  | nil =>
      -- the second token of a statement is none either
      cases body with
      | done => simp [piece] at h
      | simple s others =>
          obtain ⟨front, htokens, hne, hflat⟩ := s.exists_front
          obtain ⟨first, front, rfl⟩ := List.exists_cons_of_ne_nil hne
          rw [piece, append_mk, htokens] at h
          obtain ⟨-, rfl⟩ := List.cons.inj h
          cases front with
          | nil => simp
          | cons second front =>
              obtain ⟨-, -, -, helse⟩ := hflat second (by simp)
              simpa using helse
      | block inner others =>
          rw [tokens_block] at h
          exact absurd (List.cons.inj h).1.symm hopen
      | ifThen test inner others =>
          rw [tokens_ifThen] at h
          obtain ⟨-, rfl⟩ := List.cons.inj h
          simp [Test.piece, spelled]
      | ifElse test first second others =>
          rw [tokens_ifElse] at h
          obtain ⟨-, rfl⟩ := List.cons.inj h
          simp [Test.piece, spelled]
      | loop test inner others =>
          rw [tokens_loop] at h
          obtain ⟨-, rfl⟩ := List.cons.inj h
          simp [Test.piece, spelled]

/-! ### Blocks -/

/-- Plain tokens with one of them missing. -/
theorem Plain.without (h : Plain tokens) (heq : tokens = before ++ kind :: behind) :
    Plain (before ++ behind) := by
  subst heq
  obtain ⟨hbefore, hbehind⟩ := Plain.append_iff.mp h
  exact Plain.append_iff.mpr ⟨hbefore, (Plain.cons_iff.mp hbehind).2⟩

/-- Without its `else`, a branch is a shorter one with a block behind it. -/
theorem statementsComplain_withoutElse (test : Test) (first second others : Body)
    (rest : List TokenKind) :
    StatementsComplain ((Body.ifThen test first (.block second others)).piece.tokens ++
      .rbrace :: rest) rest (Verdict (.lbrace :: (second.piece.tokens ++
        .rbrace :: (others.piece.tokens ++ .rbrace :: rest)))) := by
  refine (statementsComplain_body _ rest).mono fun n hn => verdict_of_le (by omega) ?_
  have hskip : recover 0 (.lbrace :: (second.piece.tokens ++
      .rbrace :: (others.piece.tokens ++ .rbrace :: rest))) =
        others.piece.tokens ++ .rbrace :: rest := recover_group .nil second.balanced
  rw [hskip]
  exact others.head?_tokens rest

/-- Whichever of their tokens is missing, statements are complained about as the verdict says. -/
def Body.Judged (body : Body) : Prop :=
  ∀ before kind behind rest, kind ≠ .lbrace → kind ≠ .rbrace →
    body.piece.tokens = before ++ kind :: behind →
      StatementsComplain (before ++ behind ++ .rbrace :: rest) rest
        (Verdict (behind ++ .rbrace :: rest))

namespace Body.Judged

/-- A body that begins with a simple statement: the damage is in the statement, or behind it. -/
theorem simple (s : Simple) {others : Body} (hothers : others.Judged) :
    (Body.simple s others).Judged := by
  intro before kind behind rest hopen hclose h
  obtain ⟨front, htokens, hne, hflat⟩ := s.exists_front
  have hshape : front ++ .semicolon :: others.piece.tokens = before ++ kind :: behind := by
    rw [← h, Body.piece, append_mk, htokens, List.append_assoc]
    rfl
  rcases append_cases hshape with ⟨more, rfl, rfl⟩ | ⟨more, rfl, hmore⟩
  · -- in the statement itself, which still ends at its semicolon
    obtain ⟨hbefore, hmore⟩ := List.forall_mem_append.mp hflat
    simpa using statementsComplain_flat hbefore (List.forall_mem_cons.mp hmore).2 others rest
  · cases more with
    | nil =>
        obtain ⟨-, rfl⟩ := List.cons.inj hmore
        simpa using statementsComplain_run hflat hne others rest
    | cons _ more =>
        obtain ⟨rfl, htail⟩ := List.cons.inj hmore
        have hfirst := First.simple s (more ++ behind ++ .rbrace :: rest)
        rw [htokens, List.append_assoc] at hfirst
        have hsemicolon : TokenKind.semicolon ≠ .rbrace := by simp
        simpa using StatementsComplain.behind ((plain_of_flat hflat).exists_head hsemicolon)
          hfirst (hothers _ _ _ rest hopen hclose htail)

/-- A group in braces behind a head: a token is missing in the head, in the group, or behind it. -/
theorem group {body inner others : Body} {head : List TokenKind} (hplain : Plain head)
    (htokens : body.piece.tokens =
      head ++ .lbrace :: (inner.piece.tokens ++ .rbrace :: others.piece.tokens))
    (hbreaks : ∀ {before kind behind more}, head = before ++ kind :: behind →
      Breaks statement (before ++ behind ++ .lbrace :: more))
    (hinside : ∀ {tokens rest v}, rest.head? ≠ some .kwElse →
      Complains CompileM.block (.lbrace :: tokens) rest v →
        Complains statement (head ++ .lbrace :: tokens) rest v)
    (hwhole : ∀ {rest}, rest.head? ≠ some .kwElse →
      First (head ++ .lbrace :: (inner.piece.tokens ++ .rbrace :: rest)) rest)
    (hinner : inner.Judged) (hothers : others.Judged) : body.Judged := by
  intro before kind behind rest hopen hclose h
  have hstart (tokens : List TokenKind) :
      ∃ first ∈ (head ++ .lbrace :: tokens).head?, first ≠ .rbrace := hplain.exists_head nofun
  rw [htokens] at h
  rcases append_cases h with ⟨more, hhead, rfl⟩ | ⟨more, rfl, hbehind⟩
  · simpa using statementsComplain_group (hplain.without hhead) inner others rest (hbreaks hhead)
  rcases group_cases hopen hclose hbehind with
    ⟨before, more, rfl, hmissing, rfl⟩ | ⟨more, rfl, hmissing⟩
  · have hdamaged := hinner _ _ _ (others.piece.tokens ++ .rbrace :: rest) hopen hclose hmissing
    have hstatement := hinside (others.head?_tokens rest) hdamaged.block
    simpa using StatementsComplain.of_statement (hstart _) hstatement
  · have hfirst := hwhole (Body.head?_damaged hmissing hopen rest)
    simpa using StatementsComplain.behind (hstart _) hfirst
      (hothers _ _ _ rest hopen hclose hmissing)

/-- A body that begins with a block: the damage is in the block, or behind it. -/
theorem block {inner others : Body} (hinner : inner.Judged) (hothers : others.Judged) :
    (Body.block inner others).Judged :=
  group .nil (Body.tokens_block inner others) (fun h => by simp at h)
    (fun _ hblock => complains_block hblock) (fun _ => .block ⟨inner, rfl⟩) hinner hothers

/-- A body that begins with a branch: the damage is in the test, in the block or behind it. -/
theorem ifThen (test : Test) {inner others : Body} (hinner : inner.Judged)
    (hothers : others.Judged) : (Body.ifThen test inner others).Judged :=
  group test.plain_branch (Body.tokens_ifThen test inner others) breaks_branch
    (fun hrest hblock => complains_ifThen test hblock hrest)
    (fun hrest => .branch ⟨test, _, rfl, .inr ⟨hrest, inner, rfl⟩⟩) hinner hothers

/-- A body that begins with a loop: the damage is in the test, in the block or behind it. -/
theorem loop (test : Test) {inner others : Body} (hinner : inner.Judged)
    (hothers : others.Judged) : (Body.loop test inner others).Judged :=
  group test.plain_loop (Body.tokens_loop test inner others)
    (Conditioned.breaks_without (fun c => (statementWith_eq CompileM.block c).2.1) rfl
      flat_less nofun)
    (fun _ hblock => complains_loop test hblock) (fun _ => .loop ⟨test, _, rfl, inner, rfl⟩)
    hinner hothers

/-- A body that begins with a branch and its `else`: only a damaged test can be reported twice. -/
theorem ifElse (test : Test) {first second others : Body} (hfirst : first.Judged)
    (hsecond : second.Judged) (hothers : others.Judged) :
    (Body.ifElse test first second others).Judged := by
  intro before kind behind rest hopen hclose h
  rw [Body.tokens_ifElse] at h
  rcases append_cases h with ⟨more, hhead, rfl⟩ | ⟨more, rfl, hbehind⟩
  · simpa using statementsComplain_branch (test.plain_branch.without hhead) first second others
      rest (breaks_branch hhead)
  rcases group_cases hopen hclose hbehind with
    ⟨before, more, rfl, hmissing, rfl⟩ | ⟨more, rfl, helse⟩
  · have hwhole := (statementsComplain_body second (others.piece.tokens ++ .rbrace :: rest)).block
    have hdamaged := hfirst _ _ _ (.kwElse :: .lbrace :: (second.piece.tokens ++
      .rbrace :: (others.piece.tokens ++ .rbrace :: rest))) hopen hclose hmissing
    have hbranch := complains_ifElse test hdamaged.block hwhole fun n m hn hm => by rwa [hm]
    simpa using StatementsComplain.of_statement (by simp) hbranch
  cases more with
  | nil =>
      -- the `else` itself
      obtain ⟨-, rfl⟩ := List.cons.inj helse
      simpa [Body.tokens_ifThen, Body.tokens_block] using
        statementsComplain_withoutElse test first second others rest
  | cons _ more =>
      obtain ⟨rfl, hgroup⟩ := List.cons.inj helse
      rcases group_cases hopen hclose hgroup with
        ⟨before, more, rfl, hmissing, rfl⟩ | ⟨more, rfl, hmissing⟩
      · have hwhole := (statementsComplain_body first (.kwElse :: .lbrace ::
          (before ++ more ++ .rbrace :: (others.piece.tokens ++ .rbrace :: rest)))).block
        have hdamaged :=
          hsecond _ _ _ (others.piece.tokens ++ .rbrace :: rest) hopen hclose hmissing
        have hbranch := complains_ifElse test hwhole hdamaged.block fun n m hn hm => by
          rwa [hn, Nat.zero_add]
        simpa using StatementsComplain.of_statement (by simp) hbranch
      · have hwhole (rest : List TokenKind) : First (.kwIf :: (test.piece .notEqual).tokens ++
            .lbrace :: (first.piece.tokens ++ .rbrace :: .kwElse :: .lbrace ::
              (second.piece.tokens ++ .rbrace :: rest))) rest :=
          .branch ⟨test, _, rfl, .inl ⟨_, ⟨first, rfl⟩, second, rfl⟩⟩
        simpa using StatementsComplain.behind (by simp) (hwhole _)
          (hothers _ _ _ rest hopen hclose hmissing)

end Body.Judged

/-- Statements with one of their tokens missing. -/
theorem Body.judged (body : Body) : body.Judged := by
  induction body with
  | done => exact fun before kind behind rest _ _ h => by simp [Body.piece] at h
  | simple s others ih => exact .simple s ih
  | block inner others ihinner ihothers => exact .block ihinner ihothers
  | ifThen test inner others ihinner ihothers => exact .ifThen test ihinner ihothers
  | ifElse test first second others ihfirst ihsecond ihothers =>
      exact .ifElse test ihfirst ihsecond ihothers
  | loop test inner others ihinner ihothers => exact .loop test ihinner ihothers

/-! ### Functions -/

/-- What is in front of the body of a function. -/
def Function.head (f : Function) : List TokenKind :=
  [if f.returnsInt then .kwInt else .kwVoid, nameToken f.name, .lparen, .rparen]

theorem Function.tokens_eq (f : Function) :
    f.piece.tokens = f.head ++ .lbrace :: (f.body.piece.tokens ++ [.rbrace]) := rfl

/-- The head of a function holds nothing a recovery stops at. -/
theorem Function.plain_head (f : Function) : Plain f.head := by
  have htype : (if f.returnsInt then TokenKind.kwInt else .kwVoid).isPlain = true := by
    split <;> rfl
  exact Plain.cons_iff.mpr ⟨htype, Plain.cons_iff.mpr ⟨(nameToken_flat f.name).1,
    Plain.cons_iff.mpr ⟨rfl, Plain.cons_iff.mpr ⟨rfl, .nil⟩⟩⟩⟩

/-- Behind a function stands another one, or nothing. -/
theorem Program.head?_tokens (p : Program) :
    p.tokens.head? ≠ some .kwElse ∧ p.tokens.head? ≠ some .rbrace := by
  cases p with
  | nil => exact ⟨nofun, nofun⟩
  | cons f p =>
      have hhead : Program.tokens (f :: p) =
          (if f.returnsInt then .kwInt else .kwVoid) :: (Program.tokens (f :: p)).tail := rfl
      rw [hhead]
      cases f.returnsInt <;> simp

/-- The head of a function with a token missing is too short. -/
theorem breaks_function {f : Function} (h : f.head = before ++ kind :: behind) :
    Breaks function (before ++ behind ++ .lbrace :: more) := by
  have hhead : Breaks functionHead (before ++ behind ++ .lbrace :: more) := by
    refine .of_recognizes (fun _ => recognizes_functionHead) ?_
    rintro rest ⟨isInt, name, hother⟩
    have hplain := (Function.mk isInt name .done).plain_head
    obtain ⟨front, hfront, -⟩ := hplain.split rfl hother
    have hlength := congrArg List.length h
    have hlonger := congrArg List.length hfront
    simp only [Function.head, List.length_append, List.length_cons,
      List.length_nil] at hlength hlonger
    omega
  exact hhead.bind

/-- A function with its body in front of tokens. -/
theorem complains_function (f : Function) {v : Nat → Prop}
    (h : Complains block tokens rest v) : Complains function (f.head ++ tokens) rest v := by
  have hhead : Complains functionHead (f.head ++ tokens) tokens (· = 0) :=
    .of_recognizes (fun _ => recognizes_functionHead) ⟨f.returnsInt, f.name, rfl⟩
  exact hhead.behind fun name => Complains.of_silent.behind fun _ => h.before_silent

theorem Program.tokens_cons (f : Function) (p : Program) :
    Program.tokens (f :: p) =
      f.head ++ .lbrace :: (f.body.piece.tokens ++ .rbrace :: Program.tokens p) := by
  have hjoined : Program.tokens (f :: p) = f.piece.tokens ++ Program.tokens p := rfl
  simp [hjoined, f.tokens_eq]

/-- A function whose head lacks a token is skipped with its body. -/
theorem complains_functionHead {f : Function} (h : f.head = before ++ kind :: behind)
    (p : Program) :
    Complains functionTurn ((before ++ behind) ++ .lbrace ::
      (f.body.piece.tokens ++ .rbrace :: p.tokens)) p.tokens (· = 1) := by
  have hskip : recover 0 ((before ++ behind) ++ .lbrace ::
      (f.body.piece.tokens ++ .rbrace :: p.tokens)) = p.tokens :=
    recover_group (f.plain_head.without h) f.body.balanced
  have hbreaks : Breaks function ((before ++ behind) ++ .lbrace ::
      (f.body.piece.tokens ++ .rbrace :: p.tokens)) := breaks_function h
  have hturn := hbreaks.functionTurn (by rw [hskip]; exact p.head?_tokens.2)
  rwa [hskip] at hturn

/-- A program with a token missing. -/
theorem functionsComplain_damaged (p : Program) (hopen : kind ≠ .lbrace) (hclose : kind ≠ .rbrace)
    (h : p.tokens = before ++ kind :: behind) :
    FunctionsComplain (before ++ behind) (Verdict behind) := by
  induction p generalizing before with
  | nil => simp [Program.tokens, joined] at h
  | cons f p ih =>
      rw [Program.tokens_cons] at h
      rcases append_cases h with ⟨more, hhead, rfl⟩ | ⟨more, rfl, hbehind⟩
      · -- the head of a function is damaged: its body is skipped
        have hplain := (Plain.append_iff.mp (f.plain_head.without hhead)).2
        have hverdict : Verdict (more ++ .lbrace :: (f.body.piece.tokens ++
            .rbrace :: Program.tokens p)) 1 := by
          refine verdict_of_le (Nat.le_refl 1) ?_
          rw [recover_group hplain f.body.balanced]
          exact (Program.head?_tokens p).1
        rw [← List.append_assoc]
        exact functionsComplain_of_turn (by simp) (complains_functionHead hhead p)
          (functionsComplain_program p) fun n m hn hm => by rwa [hn, hm]
      rcases group_cases hopen hclose hbehind with
        ⟨before, more, rfl, hbody, rfl⟩ | ⟨more, rfl, hfunctions⟩
      · -- its body is damaged
        have hdamaged := f.body.judged _ _ _ (Program.tokens p) hopen hclose hbody
        have hturn := (complains_function f hdamaged.block).functionTurn
        have hall := functionsComplain_of_turn (by simp) hturn (functionsComplain_program p)
          fun n m hn hm => by rwa [hm]
        simpa using hall
      · -- a later function is damaged
        have hbody := (statementsComplain_body f.body (more ++ behind)).block
        have hturn := (complains_function f hbody).functionTurn
        have hall := functionsComplain_of_turn (by simp) hturn (ih hfunctions)
          fun n m hn hm => by rwa [hn, Nat.zero_add]
        simpa using hall

/-! ### Source texts -/

/-- A source text without complaints about tokens or syntax spells a program. -/
theorem exists_program_of_quiet {source : String} {options : Options}
    (h : ∀ d ∈ (compile source options).diagnostics,
      d.severity ≠ .lexical ∧ d.severity ≠ .syntactic) :
    (∀ kind ∈ Scan.kindsOf source.toList, ∀ cause, kind ≠ .invalid cause) ∧
      ∃ p : Program, p.tokens = Scan.kindsOf source.toList := by
  obtain ⟨code, c, hrun, hend⟩ := exists_program (.ofSource source options)
  have hvalid : ∀ token ∈ (Scan.ofSource source).tokens, ∀ cause, token.kind ≠ .invalid cause := by
    rw [← remarksOn_eq_nil_iff, ← lexicalOf_finish hrun hend, ← compile_eq hrun, lexicalOf,
      List.filter_eq_nil_iff]
    intro d hd
    simpa using (h d hd).1
  obtain ⟨hunbroken, htokens⟩ := unbroken_ofSource options hvalid
  obtain ⟨p, hp⟩ := (reaches_program hunbroken).mp
    ((quiet_iff_reaches hunbroken).mp fun d hd => (h d hd).2)
  exact ⟨List.forall_mem_map.mpr hvalid, p, hp.symm.trans htokens⟩

/-- The complaints about the syntax of a source text are those about its tokens. -/
theorem countP_compile {source : String} {verdict : Nat → Prop} (options : Options)
    (hvalid : ∀ kind ∈ Scan.kindsOf source.toList, ∀ cause, kind ≠ .invalid cause)
    (h : FunctionsComplain (Scan.kindsOf source.toList) verdict) :
    verdict ((compile source options).diagnostics.countP (·.severity = .syntactic)) := by
  obtain ⟨hunbroken, htokens⟩ := unbroken_ofSource options (List.forall_mem_map.mp hvalid)
  have hfuel : (Scan.kindsOf source.toList).length <
      (Compiler.ofSource source options).cursor.remaining + 1 := by
    rw [hunbroken.proper.remaining_eq, htokens]
    exact Nat.lt_succ_self _
  obtain ⟨code, c, n, hrun, -, hn, hfaults⟩ := h _ hfuel _ hunbroken.proper htokens
  rw [Compiler.faults_eq_zero_iff.mpr hunbroken.quiet, Nat.zero_add] at hfaults
  have hprogram : program (.ofSource source options) = .ok code c := hrun
  rw [compile_eq hprogram]
  rw [← hfaults] at hn
  exact hn

/-- One mistake is one complaint, but for branches with an `else`. A source text without complaints
about tokens or syntax is made of its tokens, of the gaps between them, and of what is behind the
last one. If one of its tokens, other than a brace, is replaced by a space, the compiler complains
about the syntax at most once, unless behind that token there are only tokens of a statement, then
a group in braces and then an `else`. In that case it complains exactly twice: it goes on behind
the group, and `else` starts no statement. -/
theorem complaints_blanked (source : String) (options : Options)
    (hquiet : ∀ d ∈ (compile source options).diagnostics,
      d.severity ≠ .lexical ∧ d.severity ≠ .syntactic)
    (before behind : List SpelledToken) (piece : SpelledToken)
    (hcut : (Scan.cut source).1 = before ++ piece :: behind)
    (hopen : piece.kind ≠ .lbrace) (hclose : piece.kind ≠ .rbrace) :
    let last := (Scan.cut source).2
    let blanked := textOf before ++ piece.gap ++ ' ' :: (textOf behind ++ last)
    let complaints := (compile (String.ofList blanked) options).diagnostics.countP
      (·.severity = .syntactic)
    source.toList = textOf before ++ piece.gap ++ piece.spelling ++ (textOf behind ++ last) ∧
      (BeforeElse (behind.map SpelledToken.kind) → complaints = 2) ∧
      (¬ BeforeElse (behind.map SpelledToken.kind) → complaints ≤ 1) := by
  intro last blanked complaints
  obtain ⟨hvalid, p, hp⟩ := exists_program_of_quiet hquiet
  obtain ⟨htext, hkinds⟩ := Scan.cutFrom_spec (Nat.lt_succ_self source.toList.length)
  obtain ⟨hblanked, -⟩ := Scan.kindsOf_blanked (Nat.lt_succ_self _) hvalid hcut
  change textOf (Scan.cut source).1 ++ last = source.toList at htext
  change (Scan.cut source).1.map SpelledToken.kind = Scan.kindsOf source.toList at hkinds
  rw [hcut] at htext hkinds
  have hshape : textOf (before ++ { piece with spelling := [' '] } :: behind) ++ last =
      blanked := by
    simp [blanked, textOf, SpelledToken.text]
  refine ⟨?_, ?_⟩
  · rw [← htext]
    simp [textOf, SpelledToken.text]
  · have hleft : Scan.kindsOf (String.ofList blanked).toList =
        before.map SpelledToken.kind ++ behind.map SpelledToken.kind := by
      rw [String.toList_ofList, ← hshape]
      exact hblanked
    have htokens : p.tokens =
        before.map SpelledToken.kind ++ piece.kind :: behind.map SpelledToken.kind := by
      rw [hp, ← hkinds, List.map_append, List.map_cons]
    rw [← hkinds, List.map_append, List.map_cons] at hvalid
    obtain ⟨hbefore, hmore⟩ := List.forall_mem_append.mp hvalid
    have hothers := List.forall_mem_append.mpr ⟨hbefore, (List.forall_mem_cons.mp hmore).2⟩
    have hdamaged := functionsComplain_damaged p hopen hclose htokens
    rw [← hleft] at hothers hdamaged
    have hverdict : Verdict (behind.map SpelledToken.kind) complaints :=
      countP_compile options hothers hdamaged
    exact hverdict

/-- A function that has lost a parenthesis of its head. -/
theorem complaints_blanked_head :
    (compile "int main(  \x7b return 1; \x7d" {}).diagnostics.countP
      (·.severity = .syntactic) ≤ 1 := by
  have hcut : (Scan.cut "int main() \x7b return 1; \x7d").1 =
      (Scan.cut "int main() \x7b return 1; \x7d").1.take 3 ++
        ⟨[], .rparen, [')']⟩ :: (Scan.cut "int main() \x7b return 1; \x7d").1.drop 4 := by
    decide +kernel
  obtain ⟨-, -, honce⟩ := complaints_blanked _ {} (by decide +kernel) _ _ _ hcut nofun nofun
  have hskipped : ¬ BeforeElse (((Scan.cut "int main() \x7b return 1; \x7d").1.drop 4).map
      SpelledToken.kind) := fun h => absurd h.recover (by decide +kernel)
  have hsource : "int main(  \x7b return 1; \x7d" = String.ofList
      (textOf ((Scan.cut "int main() \x7b return 1; \x7d").1.take 3) ++ [] ++ ' ' ::
        (textOf ((Scan.cut "int main() \x7b return 1; \x7d").1.drop 4) ++
          (Scan.cut "int main() \x7b return 1; \x7d").2)) := by
    decide +kernel
  rw [hsource]
  exact honce hskipped

/-- A branch with an `else` that has lost the parenthesis of its condition: it is reported twice. -/
theorem complaints_branch_broken :
    let source := "int main() \x7b if (1 != 2) \x7b \x7d else \x7b \x7d \x7d"
    let blanked := "int main() \x7b if  1 != 2) \x7b \x7d else \x7b \x7d \x7d"
    (compile source {}).diagnostics = [] ∧
      (Scan.cut source).1[6]? = some ⟨[' '], .lparen, ['(']⟩ ∧
      blanked.toList = textOf ((Scan.cut source).1.take 6) ++ [' '] ++ ' ' ::
        (textOf ((Scan.cut source).1.drop 7) ++ (Scan.cut source).2) ∧
      (compile blanked {}).diagnostics =
        [⟨.syntactic, 1, "Expected `(`, found number `1`"⟩,
          ⟨.syntactic, 1, "Expected statement, found `else`"⟩] := by
  decide +kernel

end Ia32.C

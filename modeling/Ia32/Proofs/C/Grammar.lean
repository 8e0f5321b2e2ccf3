import Ia32.Proofs.C.Phrases

/-!
# The grammar of the compiler

The compiler gets through a source text without complaints about tokens or syntax exactly if
the tokens spell a program. A block is recognized by induction on the number of tokens left,
and a broken statement or function leaves a complaint behind. The verdict has nothing to do
with the meaning of the program, so the settings do not matter.
-/

namespace Ia32.C

namespace CompileM

open Piece

variable {n : Nat} {c : Compiler} {rest : List TokenKind}

/-! ### Statements with blocks -/

/-- Exactly the conditions with the comparison asked for are recognized as such. -/
theorem recognizes_condition {comparison : TokenKind} (hcomparison : comparison ≠ .eof)
    (what : String) :
    Recognizes n (condition comparison what) fun tokens rest =>
      ∃ test : Test, tokens = (test.piece comparison).tokens ++ rest := by
  unfold condition
  refine ((recognizes_expect (by nofun) _).bind fun _ => recognizes_primary.bind fun lhs =>
    (recognizes_expect hcomparison what).bind fun _ => recognizes_primary.before (by nofun) _).congr
      fun tokens rest => ⟨?_, ?_⟩
  · rintro ⟨_, rfl, _, ⟨left, rfl⟩, _, rfl, right, rfl⟩
    refine ⟨⟨left, right⟩, ?_⟩
    simp [Test.piece, spelled]
  · rintro ⟨⟨left, right⟩, rfl⟩
    refine ⟨left.piece.tokens ++ comparison :: (right.piece.tokens ++ .rparen :: rest), ?_,
      _, ⟨left, rfl⟩, _, rfl, right, rfl⟩
    simp [Test.piece, spelled]

/-- A block in front of tokens. -/
def Braced (tokens rest : List TokenKind) : Prop :=
  ∃ inner : Body, tokens = .lbrace :: (inner.piece.tokens ++ .rbrace :: rest)

/-- What is behind the `if` of a branch. -/
def Branch (tokens rest : List TokenKind) : Prop :=
  ∃ (test : Test) (behind : List TokenKind), tokens = (test.piece .notEqual).tokens ++ behind ∧
    ((∃ behind', Braced behind (.kwElse :: behind') ∧ Braced behind' rest) ∨
      (rest.head? ≠ some .kwElse ∧ Braced behind rest))

/-- What is behind the `while` of a loop. -/
def Loop (tokens rest : List TokenKind) : Prop :=
  ∃ (test : Test) (behind : List TokenKind), tokens = (test.piece .less).tokens ++ behind ∧
    Braced behind rest

/-- The first statement of tokens, which is as long as possible. -/
inductive First : List TokenKind → List TokenKind → Prop
  | simple (s : Simple) (rest : List TokenKind) : First (s.piece.tokens ++ rest) rest
  | block {tokens rest : List TokenKind} (h : Braced tokens rest) : First tokens rest
  | branch {tokens rest : List TokenKind} (h : Branch tokens rest) : First (.kwIf :: tokens) rest
  | loop {tokens rest : List TokenKind} (h : Loop tokens rest) : First (.kwWhile :: tokens) rest

/-- What is read behind its leading token is a statement. -/
theorem Leading.first {lead : Lead} {tokens : List TokenKind} (h : Leading lead tokens rest) :
    First tokens rest := by
  obtain ⟨s, -, rfl⟩ := h
  exact .simple s rest

/-- A simple statement in front of the cursor shows its kind. -/
theorem lead_of_tokens (hc : c.Unbroken) {s : Simple}
    (htokens : c.cursor.tokens = s.piece.tokens ++ rest) : c.cursor.kind.lead = some s.lead := by
  have hlead := s.lead_tokens rest
  rw [← htokens] at hlead
  cases hfirst : c.cursor.tokens with
  | nil =>
      rw [hfirst] at hlead
      cases hlead
  | cons kind behind =>
      rw [hfirst] at hlead
      rwa [(hc.proper.kind_eq hfirst).1]

/-- The token in front says which statement comes first. -/
theorem First.cases_kind (hc : c.Unbroken) (h : First c.cursor.tokens rest) :
    (∃ s : Simple, c.cursor.kind.lead = some s.lead ∧ c.cursor.tokens = s.piece.tokens ++ rest) ∨
      (c.cursor.kind = .lbrace ∧ Braced c.cursor.tokens rest) ∨
      (c.cursor.kind = .kwIf ∧
        ∃ behind, c.cursor.tokens = .kwIf :: behind ∧ Branch behind rest) ∨
      (c.cursor.kind = .kwWhile ∧
        ∃ behind, c.cursor.tokens = .kwWhile :: behind ∧ Loop behind rest) := by
  generalize htokens : c.cursor.tokens = tokens at h
  cases h with
  | simple s => exact .inl ⟨s, lead_of_tokens hc htokens, rfl⟩
  | block h =>
      obtain ⟨inner, rfl⟩ := h
      exact .inr (.inl ⟨(hc.proper.kind_eq htokens).1, inner, rfl⟩)
  | branch h => exact .inr (.inr (.inl ⟨(hc.proper.kind_eq htokens).1, _, rfl, h⟩))
  | loop h => exact .inr (.inr (.inr ⟨(hc.proper.kind_eq htokens).1, _, rfl, h⟩))

theorem lead_ne (s : Simple) :
    s.lead ≠ .block ∧ s.lead ≠ .branch ∧ s.lead ≠ .loop ∧ s.lead ≠ .done := by
  cases s <;> exact ⟨nofun, nofun, nofun, nofun⟩

section

variable {block : CompileM Code} [Steady block] (hblock : Recognizes n block Braced)
  (hc : c.Unbroken) (hn : c.cursor.remaining ≤ n)

include hc in
/-- Any other first statement than a simple one starts with another token. -/
theorem first_iff_leading {lead : Lead} (hlead : c.cursor.kind.lead = some lead)
    (hother : lead ≠ .block ∧ lead ≠ .branch ∧ lead ≠ .loop) :
    First c.cursor.tokens rest ↔ Leading lead c.cursor.tokens rest := by
  refine ⟨fun h => ?_, fun h => h.first⟩
  rcases h.cases_kind hc with ⟨s, hs, htokens⟩ | ⟨hkind, -⟩ | ⟨hkind, -⟩ | ⟨hkind, -⟩
  · exact ⟨s, Option.some.inj (hs.symm.trans hlead), htokens⟩
  all_goals
    rw [hkind] at hlead
    cases hlead
    simp at hother

include hblock hc hn

/-- The keyword of a branch is in front of a branch, with or without an else. -/
theorem reaches_ifStatement (hkind : c.cursor.kind = .kwIf) :
    Reaches (ifStatement block) c rest ↔ First c.cursor.tokens rest := by
  unfold ifStatement
  dsimp only
  refine (Recognizes.behind_advance (?_ : Recognizes n _ Branch) hc hn hkind (by nofun)).trans ?_
  · refine (Recognizes.behind_silent fun branch => (recognizes_condition (by nofun) _).bind
      fun test => hblock.bind fun first => recognizes_accept_ite (by nofun) hblock.before_silent
        (recognizes_pure _)).congr fun tokens rest => ⟨?_, ?_⟩
    · rintro ⟨behind, ⟨test, rfl⟩, _, hfirst, ⟨_, rfl, hsecond⟩ | ⟨hend, rfl⟩⟩
      · exact ⟨test, behind, rfl, .inl ⟨_, hfirst, hsecond⟩⟩
      · exact ⟨test, behind, rfl, .inr ⟨hend, hfirst⟩⟩
    · rintro ⟨test, behind, rfl, ⟨_, hfirst, hsecond⟩ | ⟨hend, hfirst⟩⟩
      · exact ⟨behind, ⟨test, rfl⟩, _, hfirst, .inl ⟨_, rfl, hsecond⟩⟩
      · exact ⟨behind, ⟨test, rfl⟩, _, hfirst, .inr ⟨hend, rfl⟩⟩
  constructor
  · rintro ⟨_, htokens, hbranch⟩
    exact htokens ▸ .branch hbranch
  · intro h
    rcases h.cases_kind hc with ⟨s, hs, -⟩ | ⟨hother, -⟩ | ⟨-, hbranch⟩ | ⟨hother, -⟩
    · rw [hkind] at hs
      exact absurd (Option.some.inj hs).symm (lead_ne s).2.1
    · rw [hkind] at hother
      cases hother
    · exact hbranch
    · rw [hkind] at hother
      cases hother

/-- The keyword of a loop is in front of one. -/
theorem reaches_whileStatement (hkind : c.cursor.kind = .kwWhile) :
    Reaches (whileStatement block) c rest ↔ First c.cursor.tokens rest := by
  unfold whileStatement
  dsimp only
  refine (Recognizes.behind_advance (?_ : Recognizes n _ Loop) hc hn hkind (by nofun)).trans ?_
  · refine (Recognizes.behind_silent fun loop => (recognizes_condition (by nofun) _).bind
      fun test => hblock.before_silent).congr fun tokens rest => ⟨?_, ?_⟩
    · rintro ⟨behind, ⟨test, rfl⟩, hinner⟩
      exact ⟨test, behind, rfl, hinner⟩
    · rintro ⟨test, behind, rfl, hinner⟩
      exact ⟨behind, ⟨test, rfl⟩, hinner⟩
  constructor
  · rintro ⟨_, htokens, hloop⟩
    exact htokens ▸ .loop hloop
  · intro h
    rcases h.cases_kind hc with ⟨s, hs, -⟩ | ⟨hother, -⟩ | ⟨hother, -⟩ | ⟨-, hloop⟩
    · rw [hkind] at hs
      exact absurd (Option.some.inj hs).symm (lead_ne s).2.2.1
    · rw [hkind] at hother
      cases hother
    · rw [hkind] at hother
      cases hother
    · exact hloop

omit [Steady block] in
/-- An opening brace is in front of a block. -/
theorem reaches_block (hkind : c.cursor.kind = .lbrace) :
    Reaches block c rest ↔ First c.cursor.tokens rest := by
  rw [hblock c hc hn rest]
  refine ⟨.block, fun h => ?_⟩
  rcases h.cases_kind hc with ⟨s, hs, -⟩ | ⟨-, hinner⟩ | ⟨hother, -⟩ | ⟨hother, -⟩
  · rw [hkind] at hs
    exact absurd (Option.some.inj hs).symm (lead_ne s).1
  · exact hinner
  all_goals
    rw [hkind] at hother
    cases hother

/-- Exactly the statements are recognized as such, if the parser of blocks does its part. -/
theorem reaches_statementWith :
    Reaches (statementWith block) c rest ↔ First c.cursor.tokens rest := by
  have hproper := hc.proper.current
  unfold statementWith
  rw [reaches_bind_of_ok (rfl : line c = .ok c.cursor.line c),
    reaches_bind_of_ok (rfl : peek c = .ok c.cursor.kind c)]
  cases hkind : c.cursor.kind
  case kwInt | kwChar =>
    have hlead : c.cursor.kind.lead = some .declaration := by rw [hkind]; rfl
    rw [first_iff_leading hc hlead (by decide)]
    exact reaches_declaration hc hlead
  case star =>
    rw [first_iff_leading hc (by rw [hkind]; rfl) (by decide)]
    exact reaches_pointerAssignment hc hkind
  case kwReturn =>
    rw [first_iff_leading hc (by rw [hkind]; rfl) (by decide)]
    exact reaches_returnStatement hc hkind
  case kwIf => exact reaches_ifStatement hblock hc hn hkind
  case kwWhile => exact reaches_whileStatement hblock hc hn hkind
  case kwSyscall =>
    rw [first_iff_leading hc (by rw [hkind]; rfl) (by decide)]
    exact reaches_syscallStatement hc
  case lbrace => exact reaches_block hblock hc hn hkind
  case ident name =>
    have hname : c.cursor.kind = nameToken name := by
      rw [hkind] at hproper ⊢
      exact ident_eq_nameToken (hproper.resolve_right nofun)
    rw [first_iff_leading hc (by rw [hkind]; rfl) (by decide)]
    exact reaches_nameStatement hc hname _
  case kwMain =>
    rw [first_iff_leading hc (by rw [hkind]; rfl) (by decide)]
    have hname : c.cursor.kind = nameToken "main" := hkind
    exact reaches_nameStatement hc hname _
  all_goals
    refine ⟨fun h => absurd h not_reaches_unexpected, fun h => ?_⟩
    rcases h.cases_kind hc with ⟨s, hs, -⟩ | ⟨hother, -⟩ | ⟨hother, -⟩ | ⟨hother, -⟩
    · rw [hkind] at hs
      first
        | exact absurd (Option.some.inj hs).symm (lead_ne s).2.2.2
        | cases hs
    all_goals
      rw [hkind] at hother
      cases hother

end

/-! ### Blocks -/

/-- Statements with the closing brace behind them. -/
def Closed (tokens rest : List TokenKind) : Prop :=
  ∃ body : Body, tokens = body.piece.tokens ++ .rbrace :: rest

/-- Statements are a first one and others, or there are none. -/
theorem closed_iff {tokens : List TokenKind} (h : tokens.head? ≠ some .rbrace) :
    Closed tokens rest ↔ ∃ behind, First tokens behind ∧ Closed behind rest := by
  constructor
  · rintro ⟨body, rfl⟩
    cases body with
    | done => exact absurd rfl h
    | simple s others =>
        refine ⟨others.piece.tokens ++ .rbrace :: rest, ?_, others, rfl⟩
        have hfirst := First.simple s (others.piece.tokens ++ .rbrace :: rest)
        rwa [← List.append_assoc] at hfirst
    | block inner others =>
        simp only [Body.tokens_block, List.append_assoc, List.cons_append]
        exact ⟨_, .block ⟨inner, rfl⟩, others, rfl⟩
    | ifThen test inner others =>
        simp only [Body.tokens_ifThen, List.append_assoc, List.cons_append]
        -- no statement starts with `else`, so the branch is not longer than it looks
        exact ⟨_, .branch ⟨test, _, rfl, .inr ⟨others.head?_tokens rest, inner, rfl⟩⟩, others, rfl⟩
    | ifElse test first second others =>
        simp only [Body.tokens_ifElse, List.append_assoc, List.cons_append]
        exact ⟨_, .branch ⟨test, _, rfl, .inl ⟨_, ⟨first, rfl⟩, second, rfl⟩⟩, others, rfl⟩
    | loop test inner others =>
        simp only [Body.tokens_loop, List.append_assoc, List.cons_append]
        exact ⟨_, .loop ⟨test, _, rfl, inner, rfl⟩, others, rfl⟩
  · rintro ⟨behind, hfirst, others, hbehind⟩
    cases hfirst with
    | simple s =>
        refine ⟨.simple s others, ?_⟩
        simp [Body.piece, hbehind]
    | block h =>
        obtain ⟨inner, rfl⟩ := h
        refine ⟨.block inner others, ?_⟩
        simp [Body.tokens_block, hbehind]
    | branch h =>
        obtain ⟨test, _, rfl, ⟨_, ⟨first, rfl⟩, second, rfl⟩ | ⟨-, inner, rfl⟩⟩ := h
        · refine ⟨.ifElse test first second others, ?_⟩
          simp [Body.tokens_ifElse, hbehind]
        · refine ⟨.ifThen test inner others, ?_⟩
          simp [Body.tokens_ifThen, hbehind]
    | loop h =>
        obtain ⟨test, _, rfl, inner, rfl⟩ := h
        refine ⟨.loop test inner others, ?_⟩
        simp [Body.tokens_loop, hbehind]

/-- Behind an action that takes a token, fewer are left. -/
theorem Recognizes.behind_taking {α β : Type} {x : CompileM α} {f : α → CompileM β}
    [hx : Steady x] [∀ a, Steady (f a)]
    {relation relation' : List TokenKind → List TokenKind → Prop} (h : Recognizes n x relation)
    (hc : c.Unbroken) (hn : c.cursor.remaining ≤ n) (htakes : TakesAt x c)
    (hbehind : ∀ a (c' : Compiler), c'.Unbroken → c'.cursor.remaining < c.cursor.remaining →
      (Reaches (f a) c' rest ↔ relation' c'.cursor.tokens rest)) :
    Reaches (x >>= f) c rest ↔
      ∃ behind, relation c.cursor.tokens behind ∧ relation' behind rest := by
  rw [reaches_bind hc]
  constructor
  · rintro ⟨a, c1, hrun, hc1, hrest⟩
    exact ⟨c1.cursor.tokens, (h c hc hn _).mp ⟨a, c1, hrun, hc1, rfl⟩,
      (hbehind a c1 hc1 (htakes a c1 hrun)).mp hrest⟩
  · rintro ⟨behind, hfirst, hrest⟩
    obtain ⟨a, c1, hrun, hc1, rfl⟩ := (h c hc hn behind).mpr hfirst
    exact ⟨a, c1, hrun, hc1, (hbehind a c1 hc1 (htakes a c1 hrun)).mpr hrest⟩

/-- A broken statement is skipped, but its complaint stays. -/
theorem Recognizes.statementTurn {one : CompileM Code} [Steady one]
    {relation : List TokenKind → List TokenKind → Prop} (h : Recognizes n one relation) :
    Recognizes n (statementTurn one) relation :=
  fun c hc hn rest => reaches_tryCatch.trans (h c hc hn rest)

/-- The loop over statements reads a block up to its closing brace. At the end of the text there
is none, and the loop says so. -/
theorem reaches_statements {fuel : Nat} (hstatement : Recognizes n statement First)
    (hc : c.Unbroken) (hn : c.cursor.remaining ≤ n) (hfuel : c.cursor.remaining < fuel) :
    Reaches (statements statement fuel) c rest ↔ Closed c.cursor.tokens rest := by
  induction fuel generalizing c with
  | zero => exact absurd hfuel (Nat.not_lt_zero _)
  | succ fuel ih =>
      by_cases hbrace : c.cursor.kind = .rbrace
      · have htokens := hc.proper.tokens_eq_cons (by rw [hbrace]; nofun)
        rw [hbrace] at htokens
        constructor
        · rintro ⟨code, c', hrun, -, rfl⟩
          rw [statements_of_rbrace _ _ hbrace] at hrun
          cases hrun
          exact ⟨.done, htokens⟩
        · rintro ⟨body, hbody⟩
          have hdone : body = .done ∧ c.cursor.next.tokens = rest :=
            (Body.tokens_cancel (a := .done) (htokens.symm.trans hbody)).imp_left Eq.symm
          exact ⟨{}, _, statements_of_rbrace _ _ hbrace, unbroken_next hc, hdone.2⟩
      by_cases heof : c.cursor.kind = .eof
      · constructor
        · -- the brace is missing, and that is reported
          rintro ⟨code, c', hrun, hc', -⟩
          rw [statements_of_eof _ _ heof] at hrun
          cases hrun
          exact absurd rfl (hc'.quiet _ (List.mem_append_right _ (List.mem_singleton_self _)))
        · rintro ⟨body, hbody⟩
          rw [Cursor.tokens_eq_nil heof] at hbody
          exact absurd hbody.symm (by simp)
      have hhead : c.cursor.tokens.head? ≠ some .rbrace :=
        fun h => hbrace ((hc.proper.head?_eq (by nofun)).mp h)
      have htakes := (proceeds_statementTurn takesAt_statement hbrace heof).takesAt
      have hrun : Reaches (statements statement (fuel + 1)) c rest ↔
          Reaches (do return (← statementTurn statement) ++ (← statements statement fuel))
            c rest := by
        unfold Reaches
        rw [statements_of_turn _ _ hbrace heof]
      -- a turn and the turns behind it, as a first statement and the others
      rw [hrun, closed_iff hhead]
      refine hstatement.statementTurn.behind_taking hc hn htakes fun first c' hc' hlt => ?_
      rw [reaches_before_silent]
      exact ih hc' (by omega) (by omega)

/-- A block is behind a brace, and so are all blocks inside it: they have fewer tokens left. -/
theorem recognizes_block (n : Nat) : Recognizes n block Braced := by
  induction n using Nat.strong_induction_on with
  | _ n ih =>
      intro c hc hn rest
      have hrun : Reaches block c rest ↔ Reaches (do
          expect .lbrace "`\x7b`"
          statements statement ((← remaining) + 1)) c rest := by
        unfold Reaches
        rw [block_eq]
      have hinner (c' : Compiler) (hc' : c'.Unbroken)
          (hlt : c'.cursor.remaining < c.cursor.remaining) :
          Reaches (do statements statement ((← remaining) + 1)) c' rest ↔
            Closed c'.cursor.tokens rest := by
        have hremaining : remaining c' = .ok c'.cursor.remaining c' := rfl
        rw [reaches_bind_of_ok hremaining]
        have hblock := ih c'.cursor.remaining (by omega)
        exact reaches_statements (fun _ hc'' hn'' _ => reaches_statementWith hblock hc'' hn'') hc'
          (Nat.le_refl _) (Nat.lt_succ_self _)
      rw [hrun, (recognizes_expect (by nofun) _).behind_taking hc hn
        (takesAt_expect (by nofun) _) fun _ => hinner]
      constructor
      · rintro ⟨_, htokens, inner, rfl⟩
        exact ⟨inner, htokens⟩
      · rintro ⟨inner, htokens⟩
        exact ⟨_, htokens, inner, rfl⟩

/-! ### Functions -/

theorem recognizes_returnsInt :
    Recognizes n returnsInt fun tokens rest =>
      ∃ isInt : Bool, tokens = (if isInt then .kwInt else .kwVoid) :: rest := by
  refine recognizes_token (fun isInt : Bool => if isInt then .kwInt else .kwVoid) ?_ ?_
  · rintro (_ | _)
    · exact ⟨nofun, _, fun _ => inferInstance, rfl⟩
    · exact ⟨nofun, _, fun _ => inferInstance, rfl⟩
  · intro kind hkind
    refine ⟨"function definition", ?_⟩
    split
    next => exact absurd rfl (hkind false)
    next => exact absurd rfl (hkind true)
    next => rfl

theorem recognizes_functionName :
    Recognizes n functionName fun tokens rest => ∃ name, tokens = nameToken name :: rest := by
  -- any identifier, or the keyword
  refine (recognizes_token (fun name? : Option String => name?.elim .kwMain .ident)
    ?_ ?_).congr_of_proper ?_
  · rintro (_ | name)
    · exact ⟨nofun, _, fun _ => inferInstance, rfl⟩
    · exact ⟨nofun, _, fun _ => inferInstance, rfl⟩
  · intro kind hkind
    refine ⟨"function name", ?_⟩
    split
    next name => exact absurd rfl (hkind (some name))
    next => exact absurd rfl (hkind none)
    next => rfl
  · intro tokens rest hproper
    constructor
    · rintro ⟨_ | name, rfl⟩
      · exact ⟨"main", rfl⟩
      · exact ⟨name, by
          rw [← ident_eq_nameToken (hproper _ List.mem_cons_self), Option.elim_some]⟩
    · rintro ⟨name, rfl⟩
      unfold nameToken
      split
      · exact ⟨none, rfl⟩
      · exact ⟨some name, rfl⟩

/-- The head of a function is a type, a name and empty parentheses. -/
theorem recognizes_functionHead :
    Recognizes n functionHead fun tokens rest =>
      ∃ (isInt : Bool) (name : String), tokens =
        (if isInt then .kwInt else .kwVoid) :: nameToken name :: .lparen :: .rparen :: rest := by
  unfold functionHead
  refine (Recognizes.of_line fun line => recognizes_returnsInt.bind fun isInt =>
    recognizes_functionName.bind fun name => (recognizes_expect (by nofun) _).bind fun _ =>
      (recognizes_expect (by nofun) _).before_silent).congr fun tokens rest => ⟨?_, ?_⟩
  · rintro ⟨_, ⟨isInt, rfl⟩, _, ⟨name, rfl⟩, _, rfl, rfl⟩
    exact ⟨isInt, name, rfl⟩
  · rintro ⟨isInt, name, rfl⟩
    exact ⟨_, ⟨isInt, rfl⟩, _, ⟨name, rfl⟩, _, rfl, rfl⟩

/-- Exactly the functions are recognized as such. -/
theorem recognizes_function :
    Recognizes n function fun tokens rest =>
      ∃ f : Function, tokens = f.piece.tokens ++ rest := by
  unfold function
  refine (recognizes_functionHead.bind fun name => .behind_silent fun _ =>
    (recognizes_block n).before_silent).congr fun tokens rest => ⟨?_, ?_⟩
  · rintro ⟨_, ⟨isInt, name, rfl⟩, inner, rfl⟩
    refine ⟨⟨isInt, name, inner⟩, ?_⟩
    simp [Function.piece, braced, spelled]
  · rintro ⟨⟨isInt, name, inner⟩, rfl⟩
    refine ⟨.lbrace :: (inner.piece.tokens ++ .rbrace :: rest), ⟨isInt, name, ?_⟩, inner, rfl⟩
    simp [Function.piece, braced, spelled]

theorem recognizes_functionTurn :
    Recognizes n functionTurn fun tokens rest =>
      ∃ f : Function, tokens = f.piece.tokens ++ rest :=
  fun c hc hn rest => reaches_tryCatch.trans (recognizes_function c hc hn rest)

/-- Functions with nothing behind them. -/
def Functions (tokens rest : List TokenKind) : Prop :=
  ∃ p : Program, tokens = p.tokens ∧ rest = []

/-- The loop over functions reads the tokens of a program, all of them. -/
theorem reaches_functions {fuel : Nat} (hc : c.Unbroken) (hfuel : c.cursor.remaining < fuel) :
    Reaches (functions fuel) c rest ↔ Functions c.cursor.tokens rest := by
  induction fuel generalizing c with
  | zero => exact absurd hfuel (Nat.not_lt_zero _)
  | succ fuel ih =>
      by_cases heof : c.cursor.kind = .eof
      · have htokens := Cursor.tokens_eq_nil heof
        constructor
        · rintro ⟨code, c', hrun, -, rfl⟩
          rw [functions_of_eof _ heof] at hrun
          cases hrun
          exact ⟨[], htokens, htokens⟩
        · rintro ⟨p, -, rfl⟩
          exact ⟨{}, c, functions_of_eof _ heof, hc, htokens⟩
      have htakes := (proceeds_functionTurn takesAt_function heof).takesAt
      have hrun : Reaches (functions (fuel + 1)) c rest ↔
          Reaches (do return (← functionTurn) ++ (← functions fuel)) c rest := by
        unfold Reaches
        rw [functions_of_turn _ heof]
      rw [hrun, recognizes_functionTurn.behind_taking hc (Nat.le_refl _) htakes
        fun first c' hc' hlt => reaches_before_silent.trans (ih hc' (by omega))]
      constructor
      · rintro ⟨_, ⟨f, htokens⟩, p, rfl, hrest⟩
        exact ⟨f :: p, htokens, hrest⟩
      · rintro ⟨p, htokens, hrest⟩
        cases p with
        | nil => exact absurd (hc.proper.tokens_eq_cons heof) (by rw [htokens]; nofun)
        | cons f p => exact ⟨_, ⟨f, htokens⟩, p, rfl, hrest⟩

/-- Exactly the programs are recognized as such. -/
theorem reaches_program (hc : c.Unbroken) :
    Reaches program c [] ↔ ∃ p : Program, c.cursor.tokens = p.tokens := by
  have hremaining : remaining c = .ok c.cursor.remaining c := rfl
  unfold program
  rw [reaches_bind_of_ok hremaining, reaches_functions hc (Nat.lt_succ_self _)]
  simp only [Functions, and_true]

end CompileM

/-! ### Verdicts -/

/-- There are no remarks about tokens if and only if none is invalid. -/
theorem remarksOn_eq_nil_iff {tokens : List Token} :
    remarksOn tokens = [] ↔ ∀ token ∈ tokens, ∀ cause, token.kind ≠ .invalid cause := by
  rw [remarksOn, List.filterMap_eq_nil_iff]
  refine forall₂_congr fun token _ => ?_
  unfold Token.remark?
  split
  next cause hcause => exact ⟨by simp, fun h => absurd hcause (h cause)⟩
  next hother => exact ⟨fun _ => hother, fun _ => rfl⟩

/-- Nothing is broken in front of tokens that are all valid. -/
theorem unbroken_ofSource {source : String} (options : Options)
    (h : ∀ token ∈ (Scan.ofSource source).tokens, ∀ cause, token.kind ≠ .invalid cause) :
    (Compiler.ofSource source options).Unbroken ∧
      (Compiler.ofSource source options).cursor.tokens =
        (Scan.ofSource source).tokens.map Token.kind := by
  have hproper : ∀ token ∈ (Scan.ofSource source).tokens, token.kind.Proper :=
    fun token htoken => ⟨Scan.lexical_scanFrom _ _ _ token htoken, h token htoken⟩
  obtain ⟨hcursor, hdiagnostics, htokens⟩ := Cursor.settle_proper hproper
  refine ⟨⟨hcursor, fun d hd => ?_⟩, htokens⟩
  have hnone : d ∈ ([] : List Diagnostic) := hdiagnostics ▸ hd
  cases hnone

/-- The verdict of a compilation is that of its run. -/
theorem quiet_iff_reaches {source : String} {options : Options}
    (h : (Compiler.ofSource source options).Unbroken) :
    (∀ d ∈ (compile source options).diagnostics, d.severity ≠ .syntactic) ↔
      CompileM.Reaches CompileM.program (.ofSource source options) [] := by
  obtain ⟨code, c, hrun, hend⟩ := CompileM.exists_program (.ofSource source options)
  rw [compile_eq hrun]
  constructor
  · intro hquiet
    exact ⟨code, c, hrun, ⟨(Steady.ok hrun).proper h.proper, hquiet⟩, Cursor.tokens_eq_nil hend⟩
  · rintro ⟨code', c', hrun', hc', -⟩
    cases hrun.symm.trans hrun'
    exact hc'.quiet

/-- The compiler accepts its grammar. A source text has no complaints about tokens or syntax if
and only if scanning gives no invalid token and the tokens spell a program: functions of type
`void` or `int` without parameters, whose blocks are made of the statements of `Body`. The
verdict is the same for all limits and known symbols. -/
theorem accepts_iff_spells_program (source : String) :
    (∀ options : Options,
      (∀ d ∈ (compile source options).diagnostics,
        d.severity ≠ .lexical ∧ d.severity ≠ .syntactic) ↔
      (∀ token ∈ (Scan.ofSource source).tokens, ∀ cause, token.kind ≠ .invalid cause) ∧
        ∃ p : Program, p.tokens = (Scan.ofSource source).tokens.map Token.kind) ∧
    ∀ options options' : Options,
      (∀ d ∈ (compile source options).diagnostics,
        d.severity ≠ .lexical ∧ d.severity ≠ .syntactic) ↔
      ∀ d ∈ (compile source options').diagnostics,
        d.severity ≠ .lexical ∧ d.severity ≠ .syntactic := by
  have hverdict (options : Options) :
      (∀ d ∈ (compile source options).diagnostics,
        d.severity ≠ .lexical ∧ d.severity ≠ .syntactic) ↔
      (∀ token ∈ (Scan.ofSource source).tokens, ∀ cause, token.kind ≠ .invalid cause) ∧
        ∃ p : Program, p.tokens = (Scan.ofSource source).tokens.map Token.kind := by
    obtain ⟨code, c, hrun, hend⟩ := CompileM.exists_program (.ofSource source options)
    have hlexical : (∀ d ∈ (compile source options).diagnostics, d.severity ≠ .lexical) ↔
        ∀ token ∈ (Scan.ofSource source).tokens, ∀ cause, token.kind ≠ .invalid cause := by
      rw [← remarksOn_eq_nil_iff, ← lexicalOf_finish hrun hend, ← compile_eq hrun, lexicalOf,
        List.filter_eq_nil_iff]
      simp only [decide_eq_true_eq, ne_eq]
    simp only [forall_and, hlexical]
    refine and_congr_right fun hvalid => ?_
    obtain ⟨hunbroken, htokens⟩ := unbroken_ofSource options hvalid
    rw [quiet_iff_reaches hunbroken, CompileM.reaches_program hunbroken, htokens]
    simp only [eq_comm]
  exact ⟨hverdict, fun options options' => (hverdict options).trans (hverdict options').symm⟩

end Ia32.C

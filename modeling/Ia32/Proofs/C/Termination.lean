import Ia32.Proofs.C.Lexical
import Ia32.Proofs.C.Runs

/-!
# The compiler comes to an end

Scanning and compiling run on bounds: the length of a text, and the number of tokens left. No
bound is ever what stops them. Every token takes a character, and every turn of the loops over
statements and functions takes a token, whatever is wrong with the source: where a statement
is broken, the rest of it is skipped, and a brace that closes nothing is passed by the loop
over functions. At the end all tokens have been passed, and every invalid one has been
reported once.
-/

namespace Ia32.C

/-! ### Scanning -/

namespace Scan

/-- A number token leaves a suffix of what stood in front of it. -/
theorem rest_numberOf_suffix (lexeme : List Char) (base : Nat) (digits after : List Char) :
    (numberOf lexeme base digits after).2 <:+ after := by
  have hrest : (numberOf lexeme base digits after).2 = after.dropWhile isWordChar := by
    unfold numberOf
    dsimp only
    split
    · rfl
    · split <;> rfl
  rw [hrest]
  exact List.dropWhile_suffix _

/-- A number leaves a suffix of what is behind its first digit. -/
theorem rest_number_suffix {c : Char} (hc : c.isDigit) (rest : List Char) :
    (number (c :: rest)).2 <:+ rest := by
  have hdecimal : (c :: rest).dropWhile Char.isDigit <:+ rest := by
    rw [List.dropWhile_cons_of_pos hc]
    exact List.dropWhile_suffix _
  have hplain (digits : List Char) :
      (numberOf digits 10 digits ((c :: rest).dropWhile Char.isDigit)).2 <:+ rest :=
    (rest_numberOf_suffix _ _ _ _).trans hdecimal
  unfold number
  split
  next x more heq =>
    obtain ⟨rfl, rfl⟩ := List.cons.inj heq
    split
    · exact ((rest_numberOf_suffix _ _ _ _).trans (List.dropWhile_suffix _)).trans
        (List.suffix_cons x more)
    · exact hplain _
  next => exact hplain _

/-- A string leaves a suffix of what is behind its opening quote. -/
theorem rest_text_suffix (s : List Char) : (text s).rest <:+ s := by
  unfold text
  dsimp only
  split
  next quote rest heq =>
    exact (List.suffix_cons quote rest).trans (heq ▸ List.dropWhile_suffix _)
  next => exact List.nil_suffix

/-- A token takes the character in front, and what it leaves is the end of the text. -/
theorem rest_front_suffix (c : Char) (rest : List Char) : (front c rest).rest <:+ rest := by
  unfold front
  split
  · exact List.drop_suffix 1 rest
  split
  · exact List.suffix_rfl
  split
  next hdigit => exact rest_number_suffix hdigit rest
  split
  · exact rest_text_suffix rest
  split
  next hstart =>
    change (c :: rest).dropWhile isWordChar <:+ rest
    rw [List.dropWhile_cons_of_pos (isWordChar_of_start hstart)]
    exact List.dropWhile_suffix _
  · exact List.suffix_rfl

/-- Skipping blanks and comments leaves a suffix of the text. -/
theorem skipTrivia_suffix (inComment : Bool) (line : Nat) (s : List Char) :
    (skipTrivia inComment line s).2 <:+ s := by
  fun_induction skipTrivia inComment line s with
  | case1 | case5 => exact List.suffix_rfl
  | case2 _ _ _ ih | case3 _ _ _ _ _ _ ih | case4 _ _ _ _ _ _ _ ih =>
      exact ih.trans (List.suffix_cons _ _)

/-- A token behind any trivia takes at least one character. -/
theorem length_rest_lt {line line' : Nat} {s : List Char} {c : Char} {rest : List Char}
    (h : skipTrivia false line s = (line', c :: rest)) : (front c rest).rest.length < s.length := by
  have hfront := (rest_front_suffix c rest).length_le
  have hskip := (skipTrivia_suffix false line s).length_le
  rw [h, List.length_cons] at hskip
  omega

/-- Any bound above the length of the text gives the same tokens. -/
theorem scanFrom_eq {fuel fuel' line : Nat} {s : List Char} (h : s.length < fuel)
    (h' : s.length < fuel') : scanFrom fuel line s = scanFrom fuel' line s := by
  induction fuel generalizing fuel' line s with
  | zero => exact absurd h (Nat.not_lt_zero _)
  | succ fuel ih =>
      obtain ⟨fuel', rfl⟩ : ∃ n, fuel' = n + 1 := ⟨fuel' - 1, by omega⟩
      unfold scanFrom
      split
      · rfl
      next c rest hskip =>
        have hlt := length_rest_lt hskip
        dsimp only
        rw [ih (by omega) (Nat.lt_of_lt_of_le hlt (Nat.le_of_lt_succ h'))]

end Scan

/-! ### Turns of the loops -/

namespace CompileM

variable {α β : Type} {c c' : Compiler} {code : Code}

/-- One turn of the loop over the statements of a block: a statement, or what is left of a
broken one. -/
def statementTurn (one : CompileM Code) : CompileM Code :=
  tryCatch one fun d => do
    report d
    synchronize
    return {}

/-- One turn of the loop over functions, which also passes the brace that a broken function
leaves behind. -/
def functionTurn : CompileM Code :=
  tryCatch function fun d => do
    report d
    synchronize
    let _ ← accept .rbrace
    return {}

instance {means : Means} [means.Compiles] (one : CompileM Code) [Acts means one] :
    Acts means (statementTurn one) := by
  unfold statementTurn
  infer_instance

instance {means : Means} [means.Compiles] [means.Clears] : Acts means functionTurn := by
  unfold functionTurn
  infer_instance

theorem statements_succ (one : CompileM Code) (fuel : Nat) :
    statements one (fuel + 1) = (do
      match ← peek with
      | .rbrace =>
          advance
          return {}
      | .eof =>
          report ((← get).cursor.expected "`\x7d`")
          return {}
      | _ => return (← statementTurn one) ++ (← statements one fuel)) := rfl

theorem functions_succ (fuel : Nat) :
    functions (fuel + 1) = (do
      if (← peek) = .eof then return {}
      else return (← functionTurn) ++ (← functions fuel)) := rfl

/-- An action that gives a result here takes a token. -/
def TakesAt (act : CompileM α) (c : Compiler) : Prop :=
  ∀ a c', act c = .ok a c' → c'.cursor.remaining < c.cursor.remaining

/-- An action gives a result and takes a token. -/
def Proceeds (act : CompileM α) (c : Compiler) : Prop :=
  ∃ a c', act c = .ok a c' ∧ c'.cursor.remaining < c.cursor.remaining

/-- What takes a token wherever it stands takes one here. -/
theorem Proceeds.takesAt {act : CompileM α} (h : Proceeds act c) : TakesAt act c := by
  intro a c' hrun
  obtain ⟨a1, c1, hrun1, hlt⟩ := h
  rw [hrun] at hrun1
  cases hrun1
  exact hlt

theorem takesAt_advance (h : c.cursor.kind ≠ .eof) : TakesAt advance c := by
  intro a c' hrun
  cases hrun
  exact Cursor.remaining_next_lt h

/-- An expected token is taken, or there is no result. -/
theorem takesAt_expect {kind : TokenKind} (hkind : kind ≠ .eof) (what : String) :
    TakesAt (expect kind what) c := by
  have hrun : expect kind what c =
      (if c.cursor.kind = kind then advance else unexpected what) c := rfl
  intro a c' h
  rw [hrun] at h
  split at h
  next heq => exact takesAt_advance (heq ▸ hkind) a c' h
  next => cases h

/-- A first step that takes a token is enough, since no later one gives it back. -/
theorem TakesAt.bind {x : CompileM α} {f : α → CompileM β} (h : TakesAt x c)
    [hf : ∀ a, Steady (f a)] : TakesAt (x >>= f) c := by
  intro b c' hrun
  obtain ⟨a, c1, hx, hrest⟩ := action_bind_eq_ok.mp hrun
  exact Nat.lt_of_le_of_lt ((hf a).ok hrest).remaining_le (h a c1 hx)

/-- A turn takes a token if its statement does: a broken statement that has taken none is
skipped, and there is something to skip. -/
theorem proceeds_statementTurn {one : CompileM Code} [hone : Steady one] (htakes : TakesAt one c)
    (hbrace : c.cursor.kind ≠ .rbrace) (heof : c.cursor.kind ≠ .eof) :
    Proceeds (statementTurn one) c := by
  cases hrun : one c with
  | ok code c1 => exact ⟨code, c1, tryCatch_of_ok hrun, htakes code c1 hrun⟩
  | error d c1 =>
      refine ⟨{}, _, tryCatch_of_error hrun, ?_⟩
      change (c1.cursor.report d).synchronize.remaining < _
      -- the statement may have failed on its first token, which is then still there
      rcases (hone.error hrun).2.stays_or_moves with ⟨hcurrent, hrest⟩ | hmoved
      · have hkind : (c1.cursor.report d).kind = c.cursor.kind := congrArg Token.kind hcurrent
        refine Nat.lt_of_lt_of_eq (Cursor.remaining_synchronize_lt ?_ ?_)
          (Cursor.remaining_congr hcurrent hrest)
        · rwa [hkind]
        · rwa [hkind]
      · exact Nat.lt_of_le_of_lt (Cursor.onward_synchronize _).remaining_le hmoved

/-- Accepting a token never fails: it says whether the token is there and takes it if so. -/
theorem accept_eq (kind : TokenKind) (c : Compiler) :
    accept kind c = .ok (decide (c.cursor.kind = kind))
      (if c.cursor.kind = kind then { c with cursor := c.cursor.next } else c) := by
  have hrun : accept kind c = (if c.cursor.kind = kind then
      (do
        advance
        return true)
    else return false : CompileM Bool) c := rfl
  rw [hrun]
  split
  next h => rw [decide_eq_true h]; rfl
  next h => rw [decide_eq_false h]; rfl

/-- A turn of the loop over functions takes a token. A broken function that has taken none is
skipped; in front of a brace there is nothing to skip, and the brace is passed. -/
theorem proceeds_functionTurn (htakes : TakesAt function c) (heof : c.cursor.kind ≠ .eof) :
    Proceeds functionTurn c := by
  cases hrun : function c with
  | ok code c1 => exact ⟨code, c1, tryCatch_of_ok hrun, htakes code c1 hrun⟩
  | error d c1 =>
      let skipped := (c1.cursor.report d).synchronize
      have haccept := accept_eq .rbrace { c1 with cursor := skipped }
      refine ⟨{}, _, (tryCatch_of_error hrun).trans
        (action_bind_eq_ok.mpr ⟨(), _, rfl, action_bind_eq_ok.mpr ⟨(), _, rfl,
          action_bind_eq_ok.mpr ⟨_, _, haccept, rfl⟩⟩⟩), ?_⟩
      have honward := (Steady.error hrun).2
      have hskipped : skipped.remaining ≤ c1.cursor.remaining :=
        (Cursor.onward_synchronize (c1.cursor.report d)).remaining_le
      by_cases hbrace : skipped.kind = .rbrace
      · rw [if_pos hbrace]
        have hpassed : skipped.next.remaining < skipped.remaining :=
          Cursor.remaining_next_lt (by rw [hbrace]; nofun)
        exact Nat.lt_of_lt_of_le hpassed (Nat.le_trans hskipped honward.remaining_le)
      · rw [if_neg hbrace]
        rcases honward.stays_or_moves with ⟨hcurrent, hrest⟩ | hmoved
        · have hkind : (c1.cursor.report d).kind = c.cursor.kind := congrArg Token.kind hcurrent
          refine Nat.lt_of_lt_of_eq (Cursor.remaining_synchronize_lt (fun h => hbrace ?_) ?_)
            (Cursor.remaining_congr hcurrent hrest)
          · exact (congrArg Cursor.kind (Cursor.synchronize_of_rbrace h)).trans h
          · rwa [hkind]
        · exact Nat.lt_of_le_of_lt hskipped hmoved

/-! ### Statements and functions take tokens -/

/-- An action in front that leaves the state alone. -/
theorem TakesAt.after {x : CompileM α} {f : α → CompileM β} {a : α} (hx : x c = .ok a c)
    (h : TakesAt (f a) c) : TakesAt (x >>= f) c := by
  intro b c' hrun
  obtain ⟨a', c1, hx', hrest⟩ := action_bind_eq_ok.mp hrun
  rw [hx] at hx'
  cases hx'
  exact h b c' hrest

/-- A block takes at least its opening brace. -/
theorem takesAt_blockAt (depth : Nat) : TakesAt (blockAt (depth + 1)) c := by
  unfold blockAt
  exact (takesAt_expect (by nofun) _).bind

theorem takesAt_block : TakesAt block c := by
  unfold block
  exact .after rfl (takesAt_blockAt _)

theorem takesAt_syscallStatement : TakesAt syscallStatement c := by
  unfold syscallStatement openSyscall
  exact (takesAt_expect (by nofun) _).bind.bind

section

variable (h : c.cursor.kind ≠ .eof)
include h

theorem takesAt_declaration : TakesAt declaration c := by
  unfold declaration
  dsimp only
  exact .after rfl (.after rfl (takesAt_advance h).bind)

theorem takesAt_pointerAssignment : TakesAt pointerAssignment c := by
  unfold pointerAssignment
  exact .after rfl (takesAt_advance h).bind

theorem takesAt_returnStatement : TakesAt returnStatement c := by
  unfold returnStatement
  exact (takesAt_advance h).bind

theorem takesAt_nameStatement (line : Nat) (name : String) :
    TakesAt (nameStatement line name) c := by
  unfold nameStatement
  exact (takesAt_advance h).bind

theorem takesAt_ifStatement (block : CompileM Code) [Steady block] :
    TakesAt (ifStatement block) c := by
  unfold ifStatement
  exact (takesAt_advance h).bind

theorem takesAt_whileStatement (block : CompileM Code) [Steady block] :
    TakesAt (whileStatement block) c := by
  unfold whileStatement
  exact (takesAt_advance h).bind

end

/-- A statement takes a token whatever parser reads its blocks, as long as that one does. -/
theorem takesAt_statementWith {block : CompileM Code} [Steady block] (hblock : TakesAt block c) :
    TakesAt (statementWith block) c := by
  unfold statementWith
  refine .after rfl (.after rfl ?_)
  have hne {kind : TokenKind} (hkind : c.cursor.kind = kind) (h : kind ≠ .eof) :
      c.cursor.kind ≠ .eof := hkind ▸ h
  split
  next hkind => exact takesAt_declaration (hne hkind (by simp))
  next hkind => exact takesAt_declaration (hne hkind (by simp))
  next hkind => exact takesAt_pointerAssignment (hne hkind (by simp))
  next hkind => exact takesAt_returnStatement (hne hkind (by simp))
  next hkind => exact takesAt_ifStatement (hne hkind (by simp)) block
  next hkind => exact takesAt_whileStatement (hne hkind (by simp)) block
  next => exact takesAt_syscallStatement
  next => exact hblock
  next name hkind => exact takesAt_nameStatement (hne hkind (by simp)) _ name
  next hkind => exact takesAt_nameStatement (hne hkind (by simp)) _ "main"
  next =>
    intro code c' h
    cases h

theorem takesAt_statement : TakesAt statement c :=
  takesAt_statementWith takesAt_block

theorem takesAt_returnsInt : TakesAt returnsInt c := by
  unfold returnsInt
  refine .after rfl ?_
  split
  next hkind => exact (takesAt_advance (by simp [hkind])).bind
  next hkind => exact (takesAt_advance (by simp [hkind])).bind
  next =>
    intro isInt c' h
    cases h

theorem takesAt_function : TakesAt function c := by
  unfold function
  have hhead : TakesAt functionHead c := by
    unfold functionHead
    exact .after rfl takesAt_returnsInt.bind
  exact hhead.bind

/-! ### Bounds that are never reached -/

/-- Two actions that do the same while no more than some tokens are left. -/
def AgreeUpTo (n : Nat) (x y : CompileM α) : Prop :=
  ∀ c : Compiler, c.cursor.remaining ≤ n → x c = y c

namespace AgreeUpTo

variable {n : Nat} {x y : CompileM α} {f g : α → CompileM β}

theorem refl (x : CompileM α) : AgreeUpTo n x x :=
  fun _ _ => rfl

/-- Two sequences agree when their first parts do and, for every value, their second parts. -/
theorem bind [hsteady : Steady x] (hx : AgreeUpTo n x y) (hf : ∀ a, AgreeUpTo n (f a) (g a)) :
    AgreeUpTo n (x >>= f) (y >>= g) := by
  intro c hc
  change EStateM.bind x f c = EStateM.bind y g c
  unfold EStateM.bind
  rw [← hx c hc]
  cases hrun : x c with
  | ok a c1 => exact hf a c1 (Nat.le_trans (hsteady.ok hrun).remaining_le hc)
  | error d c1 => rfl

/-- Two sequences with one first part agree when their second parts do. -/
theorem behind [Steady x] (hf : ∀ a, AgreeUpTo n (f a) (g a)) : AgreeUpTo n (x >>= f) (x >>= g) :=
  (refl x).bind hf

/-- Behind an action that takes a token there is one less left. -/
theorem behind_taking (hx : ∀ c, TakesAt x c) (hf : ∀ m < n, ∀ a, AgreeUpTo m (f a) (g a)) :
    AgreeUpTo n (x >>= f) (x >>= g) := by
  intro c hc
  change EStateM.bind x f c = EStateM.bind x g c
  unfold EStateM.bind
  cases hrun : x c with
  | ok a c1 =>
      have hlt := Nat.lt_of_lt_of_le (hx c a c1 hrun) hc
      exact hf c1.cursor.remaining hlt a c1 (Nat.le_refl _)
  | error d c1 => rfl

theorem ite {p : Prop} [Decidable p] {x' y' : CompileM α} (h : AgreeUpTo n x y)
    (h' : AgreeUpTo n x' y') : AgreeUpTo n (if p then x else x') (if p then y else y') := by
  split
  · exact h
  · exact h'

end AgreeUpTo

section

variable {n : Nat} {one one' block block' : CompileM Code}

theorem agree_ifStatement [Steady block] (h : AgreeUpTo n block block') :
    AgreeUpTo n (ifStatement block) (ifStatement block') := by
  unfold ifStatement
  refine .behind fun _ => .behind fun _ => .behind fun _ => h.bind fun _ => .behind fun _ => ?_
  exact .ite (h.bind fun _ => .refl _) (.refl _)

theorem agree_whileStatement [Steady block] (h : AgreeUpTo n block block') :
    AgreeUpTo n (whileStatement block) (whileStatement block') := by
  unfold whileStatement
  exact .behind fun _ => .behind fun _ => .behind fun _ => h.bind fun _ => .refl _

theorem agree_statementWith [Steady block] (h : AgreeUpTo n block block') :
    AgreeUpTo n (statementWith block) (statementWith block') := by
  unfold statementWith
  refine .behind fun _ => .behind fun kind => ?_
  split
  next => exact .refl _
  next => exact .refl _
  next => exact .refl _
  next => exact .refl _
  next => exact agree_ifStatement h
  next => exact agree_whileStatement h
  next => exact .refl _
  next => exact h
  next => exact .refl _
  next => exact .refl _
  next => exact .refl _

theorem agree_statementTurn (h : AgreeUpTo n one one') :
    AgreeUpTo n (statementTurn one) (statementTurn one') := by
  intro c hc
  have hone := h c hc
  simp only [statementTurn, tryCatch, tryCatchThe, MonadExceptOf.tryCatch, EStateM.tryCatch, hone]

/-- The loop over the statements of a block agrees with another one if one statement does. -/
theorem agree_statements [Steady one] (h : AgreeUpTo n one one') (fuel : Nat) :
    AgreeUpTo n (statements one fuel) (statements one' fuel) := by
  induction fuel with
  | zero => exact .refl _
  | succ fuel ih =>
      rw [statements_succ, statements_succ]
      refine .behind fun kind => ?_
      split
      next => exact .refl _
      next => exact .refl _
      next => exact (agree_statementTurn h).bind fun _ => ih.bind fun _ => .refl _

end

/-- Nested blocks take tokens, so any depth above the number of tokens left will do. -/
theorem agree_blockAt {n d d' : Nat} (h : n < d) (h' : n < d') :
    AgreeUpTo n (blockAt d) (blockAt d') := by
  -- on the tokens and not on the depths, which may differ: each brace takes a token
  induction n using Nat.strongRecOn generalizing d d' with
  | ind n ih =>
      obtain ⟨e, rfl⟩ : ∃ e, d = e + 1 := ⟨d - 1, by omega⟩
      obtain ⟨e', rfl⟩ : ∃ e', d' = e' + 1 := ⟨d' - 1, by omega⟩
      unfold blockAt
      refine .behind_taking (fun _ => takesAt_expect (by nofun) _) fun m hm _ => ?_
      refine .behind fun fuel => agree_statements (agree_statementWith ?_) (fuel + 1)
      exact ih m hm (by omega) (by omega)

/-- A depth above the tokens that are left reads a block as any other such depth does. -/
theorem blockAt_eq_block {depth : Nat} (h : c.cursor.remaining < depth) :
    blockAt depth c = block c :=
  agree_blockAt h (Nat.lt_succ_self _) c (Nat.le_refl _)

/-- A block without a bound on its depth. -/
theorem block_eq (c : Compiler) :
    block c = (do
      expect .lbrace "`\x7b`"
      statements statement ((← remaining) + 1)) c := by
  have hagree : AgreeUpTo c.cursor.remaining (blockAt (c.cursor.remaining + 1)) (do
      expect .lbrace "`\x7b`"
      statements statement ((← remaining) + 1)) := by
    unfold blockAt
    refine .behind_taking (fun _ => takesAt_expect (by nofun) _) fun m hm _ => ?_
    refine .behind fun fuel => agree_statements (agree_statementWith fun c' hc' => ?_) (fuel + 1)
    exact blockAt_eq_block (Nat.lt_of_le_of_lt hc' hm)
  exact hagree c (Nat.le_refl _)

/-! ### The loop over statements -/

theorem bind_of_ok {x : CompileM α} {f : α → CompileM β} {a : α} (h : x c = .ok a c') :
    (x >>= f) c = f a c' := by
  change EStateM.bind x f c = _
  rw [EStateM.bind, h]

section

variable (one : CompileM Code) (fuel : Nat)

/-- A closing brace ends the loop over the statements of a block and is taken. -/
theorem statements_of_rbrace (h : c.cursor.kind = .rbrace) :
    statements one (fuel + 1) c = .ok {} { c with cursor := c.cursor.next } := by
  have hpeek : peek c = .ok .rbrace c := congrArg (EStateM.Result.ok · c) h
  rw [statements_succ, bind_of_ok hpeek]
  rfl

/-- At the end of the tokens the loop over the statements stops with a missing brace. -/
theorem statements_of_eof (h : c.cursor.kind = .eof) :
    statements one (fuel + 1) c =
      .ok {} { c with cursor := c.cursor.report (c.cursor.expected "`\x7d`") } := by
  have hpeek : peek c = .ok .eof c := congrArg (EStateM.Result.ok · c) h
  rw [statements_succ, bind_of_ok hpeek]
  rfl

/-- In front of any other token the loop takes one turn and goes on with less fuel. -/
theorem statements_of_turn (hbrace : c.cursor.kind ≠ .rbrace) (heof : c.cursor.kind ≠ .eof) :
    statements one (fuel + 1) c =
      (do return (← statementTurn one) ++ (← statements one fuel)) c := by
  have hpeek : peek c = .ok c.cursor.kind c := rfl
  rw [statements_succ, bind_of_ok hpeek]
  refine congrFun ?_ c
  split
  next h => exact absurd h hbrace
  next h => exact absurd h heof
  next => rfl

end

/-- Every turn takes a token, so any bound above the number of tokens left will do. -/
theorem statements_eq {fuel fuel' : Nat} (h : c.cursor.remaining < fuel)
    (h' : c.cursor.remaining < fuel') :
    statements statement fuel c = statements statement fuel' c := by
  induction fuel generalizing c fuel' with
  | zero => exact absurd h (Nat.not_lt_zero _)
  | succ fuel ih =>
      obtain ⟨fuel', rfl⟩ : ∃ n, fuel' = n + 1 := ⟨fuel' - 1, by omega⟩
      by_cases hbrace : c.cursor.kind = .rbrace
      · rw [statements_of_rbrace _ _ hbrace, statements_of_rbrace _ _ hbrace]
      by_cases heof : c.cursor.kind = .eof
      · rw [statements_of_eof _ _ heof, statements_of_eof _ _ heof]
      obtain ⟨first, c1, hturn, hlt⟩ := proceeds_statementTurn takesAt_statement hbrace heof
      have hmore : statements statement fuel c1 = statements statement fuel' c1 :=
        ih (by omega) (by omega)
      rw [statements_of_turn _ _ hbrace heof, statements_of_turn _ _ hbrace heof,
        bind_of_ok hturn, bind_of_ok hturn]
      change EStateM.bind _ _ c1 = EStateM.bind _ _ c1
      rw [EStateM.bind, EStateM.bind, hmore]

/-! ### The loop over functions -/

/-- The loop over the functions ends at the end of the tokens. -/
theorem functions_of_eof (fuel : Nat) (h : c.cursor.kind = .eof) :
    functions fuel c = .ok {} c := by
  cases fuel with
  | zero => rfl
  | succ fuel =>
      have hpeek : peek c = .ok c.cursor.kind c := rfl
      rw [functions_succ, bind_of_ok hpeek, if_pos h]
      rfl

/-- In front of any other token the loop over the functions takes a turn. -/
theorem functions_of_turn (fuel : Nat) (heof : c.cursor.kind ≠ .eof) :
    functions (fuel + 1) c = (do return (← functionTurn) ++ (← functions fuel)) c := by
  have hpeek : peek c = .ok c.cursor.kind c := rfl
  rw [functions_succ, bind_of_ok hpeek, if_neg heof]

/-- The loop over functions ends at the end of the text, with any bound above the number of
tokens left. -/
theorem exists_functions {fuel : Nat} (h : c.cursor.remaining < fuel) :
    ∃ code c', (∀ fuel', c.cursor.remaining < fuel' → functions fuel' c = .ok code c') ∧
      c'.cursor.kind = .eof := by
  induction fuel generalizing c with
  | zero => exact absurd h (Nat.not_lt_zero _)
  | succ fuel ih =>
      by_cases heof : c.cursor.kind = .eof
      · exact ⟨{}, c, fun fuel' _ => functions_of_eof fuel' heof, heof⟩
      obtain ⟨first, c1, hturn, hlt⟩ := proceeds_functionTurn takesAt_function heof
      obtain ⟨others, c', hmore, hend⟩ := ih (c := c1) (by omega)
      refine ⟨first ++ others, c', fun fuel' h' => ?_, hend⟩
      obtain ⟨fuel', rfl⟩ : ∃ n, fuel' = n + 1 := ⟨fuel' - 1, by omega⟩
      rw [functions_of_turn _ heof, bind_of_ok hturn, bind_of_ok (hmore fuel' (by omega))]
      rfl

/-- Fuel above the tokens that are left makes no difference to the loop over the functions. -/
theorem functions_eq {fuel fuel' : Nat} (h : c.cursor.remaining < fuel)
    (h' : c.cursor.remaining < fuel') : functions fuel c = functions fuel' c := by
  obtain ⟨code, c', hrun, -⟩ := exists_functions h
  rw [hrun fuel h, hrun fuel' h']

/-- A program is always read through, to the end of its tokens. -/
theorem exists_program (c : Compiler) :
    ∃ code c', program c = .ok code c' ∧ c'.cursor.kind = .eof := by
  obtain ⟨code, c', hrun, hend⟩ := exists_functions (Nat.lt_succ_self c.cursor.remaining)
  exact ⟨code, c', hrun _ (Nat.lt_succ_self _), hend⟩

/-- How a loop runs with any bound above the number of tokens left: in front of some tokens it
ends, and in front of any other a turn gives code and takes a token, and the loop goes on
from there with the same bound. -/
structure Loops (loop : Nat → CompileM Code) (turn : CompileM Code) (stops : TokenKind → Prop) :
    Prop where
  stop : ∀ {c : Compiler} {fuel : Nat}, c.cursor.remaining < fuel → stops c.cursor.kind →
    ∃ c', loop fuel c = .ok {} c'
  turn : ∀ {c : Compiler} {fuel : Nat}, c.cursor.remaining < fuel → ¬ stops c.cursor.kind →
    ∃ first c', turn c = .ok first c' ∧ c'.cursor.remaining < c.cursor.remaining ∧
      loop fuel c = (do return first ++ (← loop fuel)) c'

theorem bind_congr {x y : CompileM α} {f : α → CompileM β} (h : x c = y c) :
    (x >>= f) c = (y >>= f) c := by
  change EStateM.bind x f c = EStateM.bind y f c
  rw [EStateM.bind, EStateM.bind, h]

/-- The loop over the statements ends at a closing brace or at the end of the tokens. -/
theorem loops_statements :
    Loops (statements statement) (statementTurn statement)
      fun kind => kind = .rbrace ∨ kind = .eof where
  stop {c fuel} h hstop := by
    obtain ⟨fuel, rfl⟩ : ∃ n, fuel = n + 1 := ⟨fuel - 1, by omega⟩
    rcases hstop with hbrace | heof
    · exact ⟨_, statements_of_rbrace _ _ hbrace⟩
    · exact ⟨_, statements_of_eof _ _ heof⟩
  turn {c fuel} h hgoes := by
    obtain ⟨fuel, rfl⟩ : ∃ n, fuel = n + 1 := ⟨fuel - 1, by omega⟩
    obtain ⟨hbrace, heof⟩ := not_or.mp hgoes
    obtain ⟨first, c1, hturn, hlt⟩ := proceeds_statementTurn takesAt_statement hbrace heof
    refine ⟨first, c1, hturn, hlt, ?_⟩
    rw [statements_of_turn _ _ hbrace heof, bind_of_ok hturn]
    exact bind_congr (statements_eq (by omega) (by omega))

/-- The loop over the functions ends at the end of the tokens only. -/
theorem loops_functions : Loops functions functionTurn fun kind => kind = .eof where
  stop _ heof := ⟨_, functions_of_eof _ heof⟩
  turn {c fuel} h heof := by
    obtain ⟨fuel, rfl⟩ : ∃ n, fuel = n + 1 := ⟨fuel - 1, by omega⟩
    obtain ⟨first, c1, hturn, hlt⟩ := proceeds_functionTurn takesAt_function heof
    refine ⟨first, c1, hturn, hlt, ?_⟩
    rw [functions_of_turn _ heof, bind_of_ok hturn]
    exact bind_congr (functions_eq (by omega) (by omega))

end CompileM

/-! ### Compilations -/

/-- The compiler at the start of a source text. -/
def Compiler.ofSource (source : String) (options : Options) : Compiler :=
  .ofScan (Scan.ofSource source) options (collectFunctions (Scan.ofSource source))

/-- What a compilation returns is the finished state behind its program. -/
theorem compile_eq {source : String} {options : Options} {code : Code} {c : Compiler}
    (h : CompileM.program (.ofSource source options) = .ok code c) :
    compile source options = c.finish code := by
  simp only [compile, codeOf]
  rw [show CompileM.program (.ofScan (Scan.ofSource source) options
    (collectFunctions (Scan.ofSource source))) = .ok code c from h]

/-- At the end of the text every invalid token has been reported. -/
theorem lexicalOf_finish {source : String} {options : Options} {code : Code} {c : Compiler}
    (h : CompileM.program (.ofSource source options) = .ok code c) (hend : c.cursor.kind = .eof) :
    lexicalOf (c.finish code).diagnostics = remarksOn (Scan.ofSource source).tokens := by
  have honward : (Cursor.ofScan (Scan.ofSource source)).Onward c.cursor := Steady.ok h
  have hends : (Cursor.ofScan (Scan.ofSource source)).Ends :=
    Cursor.ends_settle fun token htoken heof => by
      have hlexical := Scan.lexical_scanFrom _ _ _ token htoken
      rw [heof] at hlexical
      exact hlexical
  calc lexicalOf c.cursor.diagnostics = c.cursor.lexicalRemarks := by
        rw [Cursor.lexicalRemarks, (honward.ends hends).last hend]
        exact (List.append_nil _).symm
    _ = (Cursor.ofScan (Scan.ofSource source)).lexicalRemarks := honward.lexicalRemarks
    _ = remarksOn (Scan.ofSource source).tokens := Cursor.lexicalRemarks_settle _ _ _

/-- Compiling comes to an end on every source text, and no bound cuts it short. A token takes
a character, and any bound above the length of a text gives the same tokens. A block is read
by its loop, and both loops take a token in each turn or end. The loop over functions
ends at the end of the text, and the remarks about tokens are those about the invalid tokens of
the source, in their order. -/
theorem compile_progress (source : String) (options : Options) :
    (∀ line s line' c rest, Scan.skipTrivia false line s = (line', c :: rest) →
      ∃ skipped lexeme, lexeme ≠ [] ∧ s = skipped ++ lexeme ++ (Scan.front c rest).rest) ∧
    (∀ fuel line (s : List Char), s.length < fuel →
      Scan.scanFrom fuel line s = Scan.scanFrom (s.length + 1) line s) ∧
    (∀ c : Compiler, CompileM.block c = (do
      CompileM.expect .lbrace "`\x7b`"
      CompileM.statements CompileM.statement ((← CompileM.remaining) + 1)) c) ∧
    CompileM.Loops (CompileM.statements CompileM.statement)
      (CompileM.statementTurn CompileM.statement) (fun kind => kind = .rbrace ∨ kind = .eof) ∧
    CompileM.Loops CompileM.functions CompileM.functionTurn (fun kind => kind = .eof) ∧
    (∃ code c, CompileM.program (.ofSource source options) = .ok code c ∧ c.cursor.kind = .eof ∧
      compile source options = c.finish code) ∧
    lexicalOf (compile source options).diagnostics = remarksOn (Scan.ofSource source).tokens := by
  obtain ⟨code, c, hrun, hend⟩ := CompileM.exists_program (.ofSource source options)
  refine ⟨?_, fun fuel line s h => Scan.scanFrom_eq h (Nat.lt_succ_self _), CompileM.block_eq,
    CompileM.loops_statements, CompileM.loops_functions, ⟨code, c, hrun, hend, compile_eq hrun⟩, ?_⟩
  · intro line s line' first rest hskip
    obtain ⟨lexeme, hlexeme⟩ := Scan.rest_front_suffix first rest
    obtain ⟨skipped, hskipped⟩ := Scan.skipTrivia_suffix false line s
    refine ⟨skipped, first :: lexeme, List.cons_ne_nil _ _, ?_⟩
    rw [← hskipped, hskip, List.append_assoc, List.cons_append, hlexeme]
  · rw [compile_eq hrun]
    exact lexicalOf_finish hrun hend

/-- A source of a brace that closes nothing and two invalid tokens. -/
theorem compile_progress_broken :
    lexicalOf (compile "\x7d 1x\n\"" {}).diagnostics =
      [⟨.lexical, 1, "Malformed number `1x`"⟩, ⟨.lexical, 2, "Unterminated string literal"⟩] := by
  have hremarks : remarksOn (Scan.ofSource "\x7d 1x\n\"").tokens =
      [⟨.lexical, 1, "Malformed number `1x`"⟩, ⟨.lexical, 2, "Unterminated string literal"⟩] := by
    decide +kernel
  obtain ⟨-, -, -, -, -, -, hlexical⟩ := compile_progress "\x7d 1x\n\"" {}
  exact hlexical.trans hremarks

end Ia32.C

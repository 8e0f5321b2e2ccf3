import Ia32.Proofs.C.Passing
import Ia32.Proofs.C.Remarks

/-!
# Recovery stays inside the block

Whatever is wrong with the statements of a block, the compiler leaves the block at the brace that
closes it. A statement that breaks has taken whole groups in braces and plain tokens, so the
tokens up to the closing brace are balanced at every point, and skipping the rest of the statement
keeps them so.
-/

namespace Ia32.C

open CompileM

variable {inner rest : List TokenKind} {c c' : Compiler}

/-! ### Inside a block -/

/-- Behind a broken statement inside a block, the rest of the block is balanced. -/
theorem Balanced.exists_recover (h : Balanced inner) :
    ∃ inner', Balanced inner' ∧
      recover 0 (inner ++ .rbrace :: rest) = inner' ++ .rbrace :: rest := by
  induction h with
  | nil => exact ⟨[], .nil, rfl⟩
  | @other kind more hopen hclose hmore ih =>
      by_cases hend : kind = .semicolon
      · subst hend
        exact ⟨more, hmore, rfl⟩
      · have hplain : kind.isPlain = true := by
          refine Bool.not_eq_false _ |>.mp fun hends => ?_
          rcases TokenKind.isPlain_eq_false hends with h | h | h
          · exact hopen h
          · exact hclose h
          · exact hend h
        rw [List.cons_append, recover_of_plain hplain]
        exact ih
  | @group inner more hinner hmore _ _ =>
      refine ⟨more, hmore, ?_⟩
      have hgroup : recover 0 ([] ++ .lbrace :: (inner ++ .rbrace :: (more ++ .rbrace :: rest))) =
          more ++ .rbrace :: rest := recover_group .nil hinner
      simpa using hgroup

theorem Cursor.Onward.isInvalid {c c' : Cursor} (h : c.Onward c')
    (hvalid : c.kind.isInvalid = false) : c'.kind.isInvalid = false := by
  induction h with
  | refl => exact hvalid
  | @next c' _ ih =>
      by_cases heof : c'.kind = .eof
      · rwa [next_of_eof heof]
      · exact isInvalid_next heof
  | report _ _ ih => exact ih

/-- A state inside a block: the tokens up to the brace that closes it are balanced. -/
structure Compiler.Inside (rest : List TokenKind) (c : Compiler) : Prop where
  valid : c.cursor.kind.isInvalid = false
  tokens : ∃ inner, Balanced inner ∧ c.cursor.validTokens = inner ++ .rbrace :: rest

namespace Compiler.Inside

/-- Passing over plain tokens does not leave a block. -/
theorem passes (h : c.Inside rest) (hpasses : c.Passes c') (honward : c.cursor.Onward c'.cursor) :
    c'.Inside rest := by
  obtain ⟨inner, hinner, htokens⟩ := h.tokens
  obtain ⟨taken, hplain, htaken⟩ := hpasses.tokens
  obtain ⟨inner', rfl, hbehind⟩ := hplain.split rfl (htokens.symm.trans htaken)
  exact ⟨honward.isInvalid h.valid, inner', hinner.of_append_plain hplain, hbehind⟩

theorem finishes (h : c.Inside rest) (hfinishes : c.Finishes c')
    (honward : c.cursor.Onward c'.cursor) : c'.Inside rest := by
  obtain ⟨inner, hinner, htokens⟩ := h.tokens
  obtain ⟨taken, hplain, htaken⟩ := hfinishes.tokens
  obtain ⟨inner', rfl, hbehind⟩ := hplain.split rfl (htokens.symm.trans htaken)
  have hinner' := hinner.of_append_plain hplain
  -- the semicolon is in front of the closing brace
  cases inner' with
  | nil => cases (List.cons.inj hbehind).1
  | cons kind inner' =>
      obtain ⟨rfl, hmore⟩ := List.cons.inj hbehind
      exact ⟨honward.isInvalid h.valid, inner', (hinner'.of_cons nofun).2, hmore⟩

/-- Skipping a broken statement stays inside the block. -/
theorem synchronize (h : c.Inside rest) (d : Diagnostic) :
    Inside rest { c with cursor := (c.cursor.report d).synchronize } := by
  obtain ⟨inner, hinner, htokens⟩ := h.tokens
  obtain ⟨inner', hinner', hrecover⟩ :
      ∃ inner', Balanced inner' ∧
        recover 0 (inner ++ .rbrace :: rest) = inner' ++ .rbrace :: rest :=
    hinner.exists_recover
  refine ⟨Cursor.isInvalid_synchronize _, inner', hinner', ?_⟩
  have hreport : (c.cursor.report d).validTokens = c.cursor.validTokens := rfl
  rw [Cursor.validTokens_synchronize, hreport, htokens, hrecover]

/-- In front of the closing brace, nothing is left inside. -/
theorem of_rbrace (h : c.Inside rest) (hkind : c.cursor.kind = .rbrace) :
    c.cursor.next.validTokens = rest := by
  obtain ⟨inner, hinner, htokens⟩ := h.tokens
  cases inner with
  | nil => exact ((Cursor.kind_of_validTokens h.valid).2 _ _ htokens).2
  | cons kind inner =>
      have hsame := ((Cursor.kind_of_validTokens h.valid).2 _ _ htokens).1
      rw [hkind] at hsame
      subst hsame
      exact absurd rfl (hinner.of_cons nofun).1

/-- Inside a block the tokens do not end. -/
theorem kind_ne_eof (h : c.Inside rest) : c.cursor.kind ≠ .eof := by
  obtain ⟨inner, -, htokens⟩ := h.tokens
  intro heof
  rw [Cursor.validTokens_of_eof heof] at htokens
  simp at htokens

/-- A group inside the block: what is behind it is inside the block as well. -/
theorem of_lbrace (h : c.Inside rest) (hkind : c.cursor.kind = .lbrace) :
    ∃ inner more, Balanced inner ∧ Balanced more ∧
      c.cursor.validTokens = .lbrace :: (inner ++ .rbrace :: (more ++ .rbrace :: rest)) := by
  obtain ⟨inner, hinner, htokens⟩ := h.tokens
  cases inner with
  | nil =>
      have hsame := ((Cursor.kind_of_validTokens h.valid).2 _ _ htokens).1
      rw [hkind] at hsame
      cases hsame
  | cons kind inner =>
      have hsame := ((Cursor.kind_of_validTokens h.valid).2 _ _ htokens).1
      rw [hkind] at hsame
      subst hsame
      obtain ⟨inner', more, rfl, hinner', hmore⟩ := hinner.of_lbrace
      exact ⟨inner', more, hinner', hmore, by rw [htokens]; simp⟩

end Compiler.Inside

/-! ### Actions that stay inside -/

/-- An expected token is taken, or it breaks and none is taken. -/
theorem expect_eq (kind : TokenKind) (what : String) (c : Compiler) :
    expect kind what c =
      if c.cursor.kind = kind then .ok () { c with cursor := c.cursor.next }
      else .error (c.cursor.expected what) c := by
  have hrun : expect kind what c =
      (if c.cursor.kind = kind then advance else unexpected what) c := rfl
  rw [hrun]
  split <;> rfl

/-- Without its brace a block breaks at once. -/
theorem block_of_ne (h : c.cursor.kind ≠ .lbrace) :
    block c = .error (c.cursor.expected "`\x7b`") c := by
  rw [block_eq]
  exact action_bind_eq_error.mpr (.inl ((expect_eq _ _ c).trans (if_neg h)))

/-- From a state, an action stays inside every block around it, whether or not it gives a
result. -/
structure StaysInsideAt {α : Type} (act : CompileM α) (c : Compiler) : Prop where
  ok : ∀ {rest a c'}, c.Inside rest → act c = .ok a c' → c'.Inside rest
  error : ∀ {rest d c'}, c.Inside rest → act c = .error d c' → c'.Inside rest

/-- With no more than some tokens left, an action stays inside every block around it. -/
def StaysInside {α : Type} (n : Nat) (act : CompileM α) : Prop :=
  ∀ c : Compiler, c.cursor.remaining ≤ n → StaysInsideAt act c

/-- A block with no more than some tokens left is read up to the brace that closes it. -/
def ReadsBlocks (n : Nat) : Prop :=
  ∀ (c : Compiler) (inner rest : List TokenKind), c.cursor.remaining ≤ n → c.cursor.kind = .lbrace →
    c.cursor.validTokens = .lbrace :: (inner ++ .rbrace :: rest) → Balanced inner →
    ∃ code c', block c = .ok code c' ∧ c'.cursor.validTokens = rest

section

variable {α β : Type} {n : Nat}

namespace StaysInsideAt

/-- What passes over plain tokens stays inside. -/
theorem of_passes {act : CompileM α} [hsteady : Steady act] (h : PassesAt act c) :
    StaysInsideAt act c where
  ok hinside hrun := hinside.passes (h.ok _ _ hrun) (hsteady.ok hrun)
  error hinside hrun := hinside.passes (h.error _ _ hrun) (hsteady.error hrun).2

/-- What ends at a semicolon stays inside. -/
theorem of_finishes {act : CompileM α} [hsteady : Steady act] (h : FinishesAt act c) :
    StaysInsideAt act c where
  ok hinside hrun := hinside.finishes (h.ok _ _ hrun) (hsteady.ok hrun)
  error hinside hrun := hinside.passes (h.error _ _ hrun) (hsteady.error hrun).2

theorem of_eq {act act' : CompileM α} (h : StaysInsideAt act' c) (heq : act c = act' c) :
    StaysInsideAt act c where
  ok hinside hrun := h.ok hinside (heq.symm.trans hrun)
  error hinside hrun := h.error hinside (heq.symm.trans hrun)

theorem bind {x : CompileM α} {f : α → CompileM β} [hsteady : Steady x] (hx : StaysInsideAt x c)
    (hn : c.cursor.remaining ≤ n) (hf : ∀ a, StaysInside n (f a)) : StaysInsideAt (x >>= f) c where
  ok hinside hrun := by
    obtain ⟨a, c1, hfirst, hsecond⟩ := action_bind_eq_ok.mp hrun
    have hle := Nat.le_trans (hsteady.ok hfirst).remaining_le hn
    exact (hf a c1 hle).ok (hx.ok hinside hfirst) hsecond
  error hinside hrun := by
    rcases action_bind_eq_error.mp hrun with hfirst | ⟨a, c1, hfirst, hsecond⟩
    · exact hx.error hinside hfirst
    · have hle := Nat.le_trans (hsteady.ok hfirst).remaining_le hn
      exact (hf a c1 hle).error (hx.ok hinside hfirst) hsecond

end StaysInsideAt

namespace StaysInside

/-- An action that passes wherever it stands stays inside. -/
theorem of_passing {act : CompileM α} [h : Passing act] [Steady act] : StaysInside n act :=
  fun c _ => .of_passes (h.run c)

theorem bind {x : CompileM α} {f : α → CompileM β} [Steady x] (hx : StaysInside n x)
    (hf : ∀ a, StaysInside n (f a)) : StaysInside n (x >>= f) :=
  fun c hn => (hx c hn).bind hn hf

theorem ite {p : Prop} [Decidable p] {x y : CompileM α} (hx : StaysInside n x)
    (hy : StaysInside n y) :
    StaysInside n (if p then x else y) := by
  split
  · exact hx
  · exact hy

end StaysInside

instance : TokenKind.Asked .kwElse := ⟨rfl⟩

/-- A block is read as a whole, or it does not begin here. -/
theorem staysInside_block (h : ReadsBlocks n) : StaysInside n block := by
  intro c hn
  by_cases hkind : c.cursor.kind = .lbrace
  · have hread {rest : List TokenKind} (hinside : c.Inside rest) :
        ∃ code c', block c = .ok code c' ∧ c'.Inside rest := by
      obtain ⟨inner, more, hinner, hmore, htokens⟩ := hinside.of_lbrace hkind
      obtain ⟨code, c', hrun, hbehind⟩ := h c inner _ hn hkind htokens hinner
      exact ⟨code, c', hrun, (Steady.ok hrun).isInvalid hinside.valid, more, hmore, hbehind⟩
    constructor
    · intro rest code c' hinside hrun
      obtain ⟨code', c1, hrun', hinside'⟩ := hread hinside
      cases hrun.symm.trans hrun'
      exact hinside'
    · intro rest d c' hinside hrun
      obtain ⟨code', c1, hrun', -⟩ := hread hinside
      cases hrun.symm.trans hrun'
  · have hrun := block_of_ne hkind
    constructor
    · intro rest code c' _ hrun'
      cases hrun'.symm.trans hrun
    · intro rest d c' hinside hrun'
      cases hrun'.symm.trans hrun
      exact hinside

/-- The first token of a statement decides how it is read. -/
theorem statementWith_eq (block : CompileM Code) (c : Compiler) :
    (c.cursor.kind = .kwIf → statementWith block c = ifStatement block c) ∧
      (c.cursor.kind = .kwWhile → statementWith block c = whileStatement block c) ∧
      (c.cursor.kind = .lbrace → statementWith block c = block c) := by
  rw [statementWith, line_bind, peek_bind]
  refine ⟨fun h => ?_, fun h => ?_, fun h => ?_⟩ <;> rw [h]

/-- A statement ends inside the block, whether or not it is broken. -/
theorem staysInside_statement (h : ReadsBlocks n) : StaysInside n statement := by
  have hblock := staysInside_block h
  intro c hn
  obtain ⟨hifEq, hwhileEq, hbraceEq⟩ := statementWith_eq block c
  by_cases hif : c.cursor.kind = .kwIf
  · refine .of_eq ?_ (hifEq hif)
    unfold ifStatement
    refine (StaysInsideAt.of_passes (.advance (by rw [hif]; rfl))).bind hn fun _ => ?_
    refine StaysInside.of_passing.bind fun branch => StaysInside.of_passing.bind fun test =>
      hblock.bind fun first => StaysInside.of_passing.bind fun found => ?_
    exact .ite (hblock.bind fun _ => .of_passing) .of_passing
  by_cases hwhile : c.cursor.kind = .kwWhile
  · refine .of_eq ?_ (hwhileEq hwhile)
    unfold whileStatement
    refine (StaysInsideAt.of_passes (.advance (by rw [hwhile]; rfl))).bind hn fun _ => ?_
    exact StaysInside.of_passing.bind fun loop => StaysInside.of_passing.bind fun test =>
      hblock.bind fun body => .of_passing
  by_cases hbrace : c.cursor.kind = .lbrace
  · exact .of_eq (hblock c hn) (hbraceEq hbrace)
  · exact .of_finishes (.statementWith hif hwhile hbrace)

/-! ### The loop over statements -/

/-- Statements end behind the brace that closes their block. -/
theorem exists_statements (hstatement : StaysInside n statement) {fuel : Nat}
    (hn : c.cursor.remaining ≤ n) (hfuel : c.cursor.remaining < fuel) (hinside : c.Inside rest) :
    ∃ code c', statements statement fuel c = .ok code c' ∧ c'.cursor.validTokens = rest := by
  induction fuel generalizing c with
  | zero => exact absurd hfuel (Nat.not_lt_zero _)
  | succ fuel ih =>
      by_cases hbrace : c.cursor.kind = .rbrace
      · exact ⟨_, _, statements_of_rbrace _ _ hbrace, hinside.of_rbrace hbrace⟩
      have heof := hinside.kind_ne_eof
      obtain ⟨first, c1, hturn, hlt⟩ := proceeds_statementTurn takesAt_statement hbrace heof
      have hinside' : c1.Inside rest := by
        cases hrun : statement c with
        | ok code c2 =>
            cases hturn.symm.trans (tryCatch_of_ok hrun)
            exact (hstatement c hn).ok hinside hrun
        | error d c2 =>
            cases hturn.symm.trans (tryCatch_of_error hrun)
            exact ((hstatement c hn).error hinside hrun).synchronize d
      obtain ⟨others, c', hmore, hbehind⟩ := ih (by omega) (by omega) hinside'
      refine ⟨first ++ others, c', ?_, hbehind⟩
      rw [statements_of_turn _ _ hbrace heof, bind_of_ok hturn, bind_of_ok hmore]
      rfl

/-- By the number of tokens left: a block is behind its brace, and so are all blocks inside. -/
theorem readsBlocks (n : Nat) : ReadsBlocks n := by
  induction n using Nat.strong_induction_on with
  | _ n ih =>
      intro c inner rest hn hkind htokens hinner
      have heof : c.cursor.kind ≠ .eof := by simp [hkind]
      have hvalid : c.cursor.kind.isInvalid = false := by simp [hkind, TokenKind.isInvalid]
      have hlt := Cursor.remaining_next_lt heof
      have hexpect : expect .lbrace "`\x7b`" c = .ok () { c with cursor := c.cursor.next } :=
        (expect_eq _ _ c).trans (if_pos hkind)
      have hinside : Compiler.Inside rest { c with cursor := c.cursor.next } :=
        ⟨Cursor.isInvalid_next heof, inner, hinner,
          ((Cursor.kind_of_validTokens hvalid).2 _ _ htokens).2⟩
      have hstatement := staysInside_statement (ih c.cursor.next.remaining (by omega))
      rw [block_eq, bind_of_ok hexpect, remaining_bind]
      exact exists_statements hstatement (Nat.le_refl _) (Nat.lt_succ_self _) hinside

end

/-! ### Recovery -/

/-- Recovery never leaves the enclosing block. Skipping the rest of a broken statement comes to an
end with any bound above the number of tokens left, and at no point has it closed more braces
than it has opened. It stops at the end of the text, or in front of a closing brace with neither
a brace nor a semicolon passed, or behind the first semicolon with no brace passed, or behind the
brace that closes the first one. Where braces match, a block is therefore read up to the brace
that matches its own, whatever its statements are. -/
theorem recovery_inside :
    (∀ c : Cursor,
      (∀ fuel > c.remaining, Cursor.skipStatement fuel 0 c = c.synchronize) ∧
      ∃ taken, c.validTokens = taken ++ c.synchronize.validTokens ∧
        (∀ part, part <+: taken → part.count .rbrace ≤ part.count .lbrace) ∧
        (c.synchronize.kind = .eof ∨
          (c.synchronize.kind = .rbrace ∧ Plain taken) ∨
          (∃ front, taken = front ++ [.semicolon] ∧ Plain front) ∨
          ∃ front inner, taken = front ++ .lbrace :: (inner ++ [.rbrace]) ∧ Plain front ∧
            Balanced inner ∧ Balanced taken)) ∧
    (∀ before behind, Balanced (before ++ .lbrace :: behind) →
      ∃ inner rest, behind = inner ++ .rbrace :: rest ∧ Balanced inner) ∧
    ∀ (c : Compiler) (inner rest : List TokenKind), c.cursor.kind = .lbrace →
      c.cursor.validTokens = .lbrace :: (inner ++ .rbrace :: rest) → Balanced inner →
      ∃ code c', block c = .ok code c' ∧ c'.cursor.validTokens = rest := by
  refine ⟨fun c => ⟨fun fuel h => Cursor.skipStatement_eq h (Nat.lt_succ_self _), ?_⟩,
    fun before behind h => h.exists_closing,
    fun c inner rest => readsBlocks c.cursor.remaining c inner rest (Nat.le_refl _)⟩
  obtain ⟨taken, htaken, hnested, hend⟩ := recover_cases c.validTokens
  rw [← Cursor.validTokens_synchronize] at htaken hend
  obtain ⟨hnil, hcons⟩ := Cursor.kind_of_validTokens c.isInvalid_synchronize
  refine ⟨taken, htaken, hnested, ?_⟩
  rcases hend with hend | ⟨⟨rest, hend⟩, hplain⟩ | hsemicolon | ⟨front, inner, rfl, hplain, hinner⟩
  · exact .inl (hnil.mp hend)
  · exact .inr (.inl ⟨(hcons _ _ hend).1, hplain⟩)
  · exact .inr (.inr (.inl hsemicolon))
  · have hgroup : Balanced (.lbrace :: (inner ++ [.rbrace])) := .group hinner .nil
    exact .inr (.inr (.inr ⟨front, inner, rfl, hplain, hinner, .append (.of_plain hplain) hgroup⟩))

/-- A block of two broken statements, the second of which breaks in front of a group and again
behind it. -/
theorem recovery_inside_broken :
    ∃ code c',
      block (.ofSource "\x7b x 1; if (a \x7b 2 \x7d else \x7d z" {}) = .ok code c' ∧
        c'.cursor.validTokens = [.ident "z"] := by
  have hinner : Balanced [.ident "x", .number 1, .semicolon, .kwIf, .lparen, .ident "a", .lbrace,
      .number 2, .rbrace, .kwElse] := by
    have hgroup : Balanced (.lbrace :: ([.number 2] ++ .rbrace :: [.kwElse])) :=
      .group (.other (by simp) (by simp) .nil) (.other (by simp) (by simp) .nil)
    exact .other nofun nofun (.other nofun nofun (.other nofun nofun (.other nofun nofun
      (.other nofun nofun (.other nofun nofun hgroup)))))
  exact recovery_inside.2.2 _ _ [.ident "z"] (by decide +kernel) (by decide +kernel) hinner

end Ia32.C

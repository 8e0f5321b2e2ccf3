import Ia32.Proofs.C.Grammar
import Ia32.Proofs.C.Recovery

/-!
# Counting complaints about the syntax

`Complains act tokens rest verdict` says what an action does on some tokens, none of them invalid,
whatever has been remarked before: which tokens it leaves, and how many complaints about the
syntax it makes. What the grammar spells is read without any. Where a statement breaks, there is
one complaint, and reading goes on behind what is skipped.
-/

namespace Ia32.C

open CompileM

variable {α β : Type} {c c' : Compiler} {tokens mid rest : List TokenKind}
  {v w u : Nat → Prop}

/-! ### Cursors with proper tokens -/

namespace Cursor.Proper

variable {c : Cursor}

theorem tokens_eq_map (h : c.Proper) (heof : c.kind ≠ .eof) :
    c.tokens = (c.current :: c.rest).map Token.kind := by
  refine List.takeWhile_eq_self_iff.mpr fun kind hkind => decide_eq_true ?_
  obtain ⟨token, htoken, rfl⟩ := List.mem_map.mp hkind
  rcases List.mem_cons.mp htoken with rfl | htoken
  · exact heof
  · exact (h.rest token htoken).ne_eof

theorem remaining_eq (h : c.Proper) : c.remaining = c.tokens.length := by
  by_cases heof : c.kind = .eof
  · rw [tokens_eq_nil heof, remaining, if_pos heof]
    rfl
  · rw [h.tokens_eq_map heof, remaining, if_neg heof, List.length_map, List.length_cons]

theorem kind_eq_eof_iff (h : c.Proper) : c.kind = .eof ↔ c.tokens = [] := by
  refine ⟨tokens_eq_nil, fun hnil => ?_⟩
  by_contra heof
  rw [h.tokens_eq_cons heof] at hnil
  cases hnil

/-- None of the tokens in front of a proper cursor is left out. -/
theorem validTokens_eq (h : c.Proper) : c.validTokens = c.tokens := by
  refine List.filter_eq_self.mpr fun kind hkind => ?_
  have hvalid := (h.of_mem_tokens kind hkind).2
  cases kind
  case invalid cause => exact absurd rfl (hvalid cause)
  all_goals rfl

theorem diagnostics_skipStatement (h : c.Proper) (fuel depth : Nat) :
    (skipStatement fuel depth c).diagnostics = c.diagnostics := by
  induction fuel generalizing depth c with
  | zero => rfl
  | succ fuel ih =>
      have hnext := h.diagnostics_next
      have hmore (depth : Nat) :=
        (ih (c := c.next) (Onward.refl.next.proper h) depth).trans hnext
      unfold skipStatement
      split
      · rfl
      · split
        · rfl
        · exact hnext
        · exact hmore _
      · exact hmore _
      · split
        · exact hnext
        · exact hmore _
      · exact hmore _

end Cursor.Proper

/-! ### Verdicts on actions -/

/-- With some tokens ahead, none of them invalid, an action gives a result and leaves others. The
number of complaints about the syntax that it makes is one that the verdict allows. -/
def Complains (act : CompileM α) (tokens rest : List TokenKind) (verdict : Nat → Prop) : Prop :=
  ∀ c : Compiler, c.cursor.Proper → c.cursor.tokens = tokens →
    ∃ a c' n, act c = .ok a c' ∧ c'.cursor.tokens = rest ∧ verdict n ∧ c'.faults = c.faults + n

/-- With some tokens ahead, none of them invalid, an action breaks on plain tokens. -/
def Breaks (act : CompileM α) (tokens : List TokenKind) : Prop :=
  ∀ c : Compiler, c.cursor.Proper → c.cursor.tokens = tokens →
    ∃ d c', act c = .error d c' ∧ c.Passes c'

namespace Complains

theorem mono {act : CompileM α} (h : Complains act tokens rest v) (hv : ∀ n, v n → w n) :
    Complains act tokens rest w := by
  intro c hc htokens
  obtain ⟨a, c', n, hrun, hrest, hn, hfaults⟩ := h c hc htokens
  exact ⟨a, c', n, hrun, hrest, hv n hn, hfaults⟩

theorem of_eq {act act' : CompileM α} (h : Complains act' tokens rest v)
    (heq : ∀ c : Compiler, c.cursor.Proper → c.cursor.tokens = tokens → act c = act' c) :
    Complains act tokens rest v := by
  intro c hc htokens
  rw [heq c hc htokens]
  exact h c hc htokens

/-- Complaints of two actions add up. -/
theorem bind {x : CompileM α} {f : α → CompileM β} [hsteady : Steady x]
    (hx : Complains x tokens mid v) (hf : ∀ a, Complains (f a) mid rest w)
    (hsum : ∀ n m, v n → w m → u (n + m)) : Complains (x >>= f) tokens rest u := by
  intro c hc htokens
  obtain ⟨a, c1, n, hrun, hmid, hn, hfaults⟩ := hx c hc htokens
  obtain ⟨b, c2, m, hrun', hrest, hm, hfaults'⟩ :=
    hf a c1 ((hsteady.ok hrun).proper hc) hmid
  exact ⟨b, c2, n + m, action_bind_eq_ok.mpr ⟨a, c1, hrun, hrun'⟩, hrest, hsum n m hn hm,
    by omega⟩

/-- An action without complaints in front. -/
theorem behind {x : CompileM α} {f : α → CompileM β} [Steady x]
    (hx : Complains x tokens mid (· = 0)) (hf : ∀ a, Complains (f a) mid rest v) :
    Complains (x >>= f) tokens rest v :=
  hx.bind hf fun n m hn hm => by rwa [hn, Nat.zero_add]

/-- A silent action reports no breach. -/
theorem of_silent {act : CompileM α} [h : Silent act] : Complains act tokens tokens (· = 0) := by
  rintro c - rfl
  obtain ⟨a, c', hrun, hremarked⟩ := h.run c
  exact ⟨a, c', 0, hrun, hremarked.unbroken.2.1, rfl,
    (Compiler.passes_of_remarked hremarked).faults⟩

/-- Nothing is read behind an action. -/
theorem before_silent {x : CompileM α} {f : α → CompileM β} [Steady x] [∀ a, Silent (f a)]
    (hx : Complains x tokens rest v) : Complains (x >>= f) tokens rest v :=
  hx.bind (fun _ => of_silent) fun n m hn hm => by rwa [hm]

theorem advance {kind : TokenKind} : Complains advance (kind :: rest) rest (· = 0) := by
  intro c hc htokens
  exact ⟨(), _, 0, rfl, (hc.kind_eq htokens).2, rfl, Compiler.faults_next c⟩

/-- Going on behind a token that is here. -/
theorem accept_of_eq {x y : CompileM α} {kind : TokenKind} (h : Complains x tokens rest v) :
    Complains (accept kind >>= fun found => if found then x else y) (kind :: tokens) rest v := by
  have hadvance : Complains CompileM.advance (kind :: tokens) tokens (· = 0) := advance
  refine of_eq (hadvance.behind fun _ => h) fun c hc htokens => ?_
  obtain ⟨hkind, -⟩ := hc.kind_eq htokens
  rw [bind_of_ok (accept_eq kind c), decide_eq_true hkind, if_pos hkind]
  rfl

/-- Going on in front of another token. -/
theorem accept_of_ne {x y : CompileM α} {kind : TokenKind} (hkind : kind ≠ .eof)
    (hne : tokens.head? ≠ some kind) (h : Complains y tokens rest v) :
    Complains (accept kind >>= fun found => if found then x else y) tokens rest v := by
  refine of_eq h fun c hc htokens => ?_
  have hother : c.cursor.kind ≠ kind := fun heq => hne (htokens ▸ (hc.head?_eq hkind).mpr heq)
  rw [bind_of_ok (accept_eq kind c), decide_eq_false hother, if_neg hother]
  rfl

end Complains

/-! ### What the grammar spells -/

theorem Compiler.unbroken_muted (hc : c.cursor.Proper) : c.muted.Unbroken where
  proper := ⟨hc.rest, hc.current⟩
  quiet := nofun

theorem Compiler.faults_behind (c : Compiler) (remarks : List Diagnostic) :
    (c.behind remarks).faults = remarks.countP (·.severity = .syntactic) + c.faults :=
  List.countP_append

theorem Compiler.faults_eq_zero_iff :
    c.faults = 0 ↔ ∀ d ∈ c.cursor.diagnostics, d.severity ≠ .syntactic := by
  rw [faults, List.countP_eq_zero]
  simp

/-- What is reached without complaints from a state without remarks is reached from others. -/
theorem Complains.of_reaches {act : CompileM α} [hact : Steady act]
    (h : ∀ c : Compiler, c.Unbroken → c.cursor.tokens = tokens → Reaches act c rest) :
    Complains act tokens rest (· = 0) := by
  intro c hc htokens
  obtain ⟨a, c1, hrun, hc1, hrest⟩ := h c.muted (c.unbroken_muted hc) htokens
  have hsame := (hact.here c.muted).behind c.cursor.diagnostics
  rw [c.muted_behind, hrun] at hsame
  refine ⟨a, _, 0, hsame, hrest, rfl, ?_⟩
  rw [Compiler.faults_behind, Compiler.faults_eq_zero_iff.mpr hc1.quiet]
  rfl

/-- What is recognized is no complaint. The complaints so far are muted for this, since recognition
is about states without any. -/
theorem Complains.of_recognizes {act : CompileM α} [Steady act]
    {relation : List TokenKind → List TokenKind → Prop} (h : ∀ n, Recognizes n act relation)
    (hrelation : relation tokens rest) : Complains act tokens rest (· = 0) :=
  .of_reaches fun c hc htokens => (h _ c hc (Nat.le_refl _) rest).mpr (htokens ▸ hrelation)

/-- An action that gets through without a complaint has read what it recognizes. -/
theorem relation_of_ok {act : CompileM α} [hact : Steady act]
    {relation : List TokenKind → List TokenKind → Prop} (h : ∀ n, Recognizes n act relation)
    (hc : c.cursor.Proper) {a : α} (hrun : act c = .ok a c') (hfaults : c'.faults = c.faults) :
    relation c.cursor.tokens c'.cursor.tokens := by
  have hsame := (hact.here c.muted).behind c.cursor.diagnostics
  rw [c.muted_behind, hrun] at hsame
  cases hmuted : act c.muted with
  | error d c1 =>
      rw [hmuted] at hsame
      cases hsame
  | ok b c1 =>
      rw [hmuted] at hsame
      cases hsame
      have hzero : c1.faults = 0 := by
        rw [Compiler.faults_behind] at hfaults
        exact Nat.add_eq_left.mp hfaults
      have hproper := (Steady.ok hmuted).proper (c.unbroken_muted hc).proper
      have hunbroken : c1.Unbroken := ⟨hproper, Compiler.faults_eq_zero_iff.mp hzero⟩
      exact (h _ c.muted (c.unbroken_muted hc) (Nat.le_refl _) _).mp ⟨_, c1, hmuted, hunbroken, rfl⟩

/-! ### What breaks -/

namespace Breaks

/-- An action breaks on tokens that it does not recognize. -/
theorem of_recognizes {act : CompileM α} [Steady act] [Passing act]
    {relation : List TokenKind → List TokenKind → Prop} (h : ∀ n, Recognizes n act relation)
    (hnone : ∀ rest, ¬ relation tokens rest) : Breaks act tokens := by
  rintro c hc rfl
  cases hrun : act c with
  | ok a c1 =>
      exact absurd (relation_of_ok h hc hrun ((Passing.run c).ok a c1 hrun).faults) (hnone _)
  | error d c1 => exact ⟨d, c1, rfl, (Passing.run c).error d c1 hrun⟩

theorem bind {x : CompileM α} {f : α → CompileM β} (h : Breaks x tokens) :
    Breaks (x >>= f) tokens := by
  intro c hc htokens
  obtain ⟨d, c', hrun, hpasses⟩ := h c hc htokens
  exact ⟨d, c', action_bind_eq_error.mpr (.inl hrun), hpasses⟩

theorem of_eq {act act' : CompileM α} (h : Breaks act' tokens)
    (heq : ∀ c : Compiler, c.cursor.Proper → c.cursor.tokens = tokens → act c = act' c) :
    Breaks act tokens := by
  intro c hc htokens
  rw [heq c hc htokens]
  exact h c hc htokens

/-- A plain token in front is taken, and the break comes behind it. -/
theorem behind_advance {f : Unit → CompileM α} {kind : TokenKind} (hkind : kind.isPlain = true)
    (h : ∀ u, Breaks (f u) tokens) : Breaks (CompileM.advance >>= f) (kind :: tokens) := by
  intro c hc htokens
  obtain ⟨hfirst, hnext⟩ := hc.kind_eq htokens
  have hpasses := Compiler.passes_next (hfirst ▸ hkind : c.cursor.kind.isPlain = true)
  obtain ⟨d, c', hrun, hpasses'⟩ :=
    h () { c with cursor := c.cursor.next } (Cursor.Onward.refl.next.proper hc) hnext
  exact ⟨d, c', hrun, hpasses.trans hpasses'⟩

/-- A silent action in front does not keep an action from breaking. -/
theorem behind_silent {x : CompileM α} {f : α → CompileM β} [hx : Silent x] [hsteady : Steady x]
    (h : ∀ a, Breaks (f a) tokens) : Breaks (x >>= f) tokens := by
  intro c hc htokens
  obtain ⟨a, c1, hrun, hremarked⟩ := hx.run c
  obtain ⟨d, c', hrun', hpasses⟩ :=
    h a c1 ((hsteady.ok hrun).proper hc) (hremarked.unbroken.2.1.trans htokens)
  exact ⟨d, c', action_bind_eq_error.mpr (.inr ⟨a, c1, hrun, hrun'⟩),
    (Compiler.passes_of_remarked hremarked).trans hpasses⟩

/-- Plain tokens in front of a brace are no statement without blocks. -/
theorem of_finishes {act : CompileM α} {front more : List TokenKind} {kind : TokenKind}
    (hfinishes : ∀ c : Compiler, c.cursor.Proper → c.cursor.tokens = front ++ kind :: more →
      FinishesAt act c)
    (hfront : Plain front) (hkind : kind = .lbrace ∨ kind = .rbrace) :
    Breaks act (front ++ kind :: more) := by
  intro c hc htokens
  have hact := hfinishes c hc htokens
  cases hrun : act c with
  | error d c1 => exact ⟨d, c1, rfl, hact.error d c1 hrun⟩
  | ok a c1 =>
      obtain ⟨taken, hplain, htaken⟩ := (hact.ok a c1 hrun).tokens
      rw [hc.validTokens_eq, htokens] at htaken
      have hnot : kind.isPlain = false := by rcases hkind with rfl | rfl <;> rfl
      obtain ⟨front', rfl, hbehind⟩ := hplain.split hnot htaken
      cases front' with
      | nil =>
          have hsame := (List.cons.inj hbehind).1
          rcases hkind with rfl | rfl <;> cases hsame
      | cons other front' =>
          obtain ⟨rfl, -⟩ := List.cons.inj hbehind
          have hsemicolon := hfront .semicolon (by simp)
          cases hsemicolon

end Breaks

/-! ### Turns of the loop over statements -/

/-- What has broken on plain tokens is reported, and the rest of the statement is skipped. -/
theorem synchronize_of_passes {d : Diagnostic} (hc : c.cursor.Proper)
    (hd : d.severity = .syntactic) (hpasses : c.Passes c') (honward : c.cursor.Onward c'.cursor) :
    (c'.cursor.report d).synchronize.Proper ∧
      (c'.cursor.report d).synchronize.tokens = recover 0 c.cursor.tokens ∧
      Compiler.faults { c' with cursor := (c'.cursor.report d).synchronize } = c.faults + 1 := by
  have hc' : (c'.cursor.report d).Proper := (honward.report (by simp [hd])).proper hc
  have hproper := (Cursor.onward_synchronize (c'.cursor.report d)).proper hc'
  obtain ⟨taken, hplain, htaken⟩ := hpasses.tokens
  refine ⟨hproper, ?_, ?_⟩
  · calc (c'.cursor.report d).synchronize.tokens
        = (c'.cursor.report d).synchronize.validTokens := hproper.validTokens_eq.symm
      _ = recover 0 c'.cursor.validTokens := Cursor.validTokens_synchronize _
      _ = recover 0 c.cursor.tokens := by
          rw [← hc.validTokens_eq, htaken, recover_append_plain hplain]
  · have hsame : (c'.cursor.report d).synchronize.diagnostics = c'.cursor.diagnostics ++ [d] :=
      hc'.diagnostics_skipStatement _ 0
    rw [← hpasses.faults]
    change (c'.cursor.report d).synchronize.diagnostics.countP _ = c'.faults + 1
    rw [hsame, List.countP_append, Compiler.faults, List.countP_singleton, if_pos (by simpa)]

/-- A broken statement that has passed plain tokens is reported and skipped. -/
theorem statementTurn_of_error {d : Diagnostic} (hc : c.cursor.Proper)
    (hrun : statement c = .error d c') (hpasses : c.Passes c') :
    ∃ code c'', statementTurn statement c = .ok code c'' ∧
      c''.cursor.tokens = recover 0 c.cursor.tokens ∧ c''.faults = c.faults + 1 := by
  obtain ⟨hsyntactic, honward⟩ := Steady.error hrun
  obtain ⟨-, htokens, hfaults⟩ := synchronize_of_passes hc hsyntactic hpasses honward
  exact ⟨{}, _, tryCatch_of_error hrun, htokens, hfaults⟩

/-- A statement that gives a result is a turn. -/
theorem Complains.turn (h : Complains statement tokens rest v) :
    Complains (statementTurn statement) tokens rest v := by
  intro c hc htokens
  obtain ⟨code, c', n, hrun, hend⟩ := h c hc htokens
  exact ⟨code, c', n, tryCatch_of_ok hrun, hend⟩

/-- A statement that breaks is one complaint. -/
theorem Breaks.turn (h : Breaks statement tokens) :
    Complains (statementTurn statement) tokens (recover 0 tokens) (· = 1) := by
  rintro c hc rfl
  obtain ⟨d, c', hrun, hpasses⟩ := h c hc rfl
  obtain ⟨code, c'', hturn, hrest, hfaults⟩ := statementTurn_of_error hc hrun hpasses
  exact ⟨code, c'', 1, hturn, hrest, rfl, hfaults⟩

/-- Tokens of statements without blocks in front of their semicolon. -/
def TokenKind.Flat (kind : TokenKind) : Prop :=
  kind.isPlain = true ∧ kind ≠ .kwIf ∧ kind ≠ .kwWhile ∧ kind ≠ .kwElse

/-- A statement without blocks ends behind its semicolon, and is at most one complaint. -/
theorem complains_flat {front : List TokenKind} (hfront : ∀ kind ∈ front, kind.Flat) :
    Complains (statementTurn statement) (front ++ .semicolon :: rest) rest (· ≤ 1) := by
  have hplain : Plain front := fun kind hkind => (hfront kind hkind).1
  intro c hc htokens
  have hfinishes : FinishesAt statement c := by
    cases front with
    | nil =>
        obtain ⟨hkind, -⟩ := hc.kind_eq htokens
        exact .statementWith (by simp [hkind]) (by simp [hkind]) (by simp [hkind])
    | cons kind front =>
        obtain ⟨rfl, -⟩ := hc.kind_eq htokens
        obtain ⟨hkind, hif, hwhile, -⟩ := hfront c.cursor.kind List.mem_cons_self
        exact .statementWith hif hwhile (TokenKind.ne_of_isPlain hkind).1
  cases hrun : statement c with
  | ok code c1 =>
      have hc1 := (Steady.ok hrun).proper hc
      obtain ⟨⟨taken, htaken, hsame⟩, hfaults⟩ := hfinishes.ok code c1 hrun
      rw [hc.validTokens_eq, hc1.validTokens_eq, htokens] at hsame
      refine ⟨code, c1, 0, tryCatch_of_ok hrun, ?_, Nat.zero_le 1, hfaults⟩
      -- both sides go on behind the first semicolon
      have hbehind := congrArg (recover 0) hsame
      rw [recover_semicolon hplain, recover_semicolon htaken] at hbehind
      exact hbehind.symm
  | error d c1 =>
      obtain ⟨code, c2, hturn, hrest, hfaults⟩ :=
        statementTurn_of_error hc hrun (hfinishes.error d c1 hrun)
      rw [htokens, recover_semicolon hplain] at hrest
      exact ⟨code, c2, 1, hturn, hrest, Nat.le_refl 1, hfaults⟩

/-- Plain tokens in front of a brace are no statement without blocks. -/
theorem breaks_plain {kind brace : TokenKind} {front more : List TokenKind}
    (hplain : Plain (kind :: front)) (hif : kind ≠ .kwIf) (hwhile : kind ≠ .kwWhile)
    (hbrace : brace = .lbrace ∨ brace = .rbrace) :
    Breaks statement (kind :: front ++ brace :: more) := by
  have hfinishes : ∀ c : Compiler, c.cursor.Proper →
      c.cursor.tokens = kind :: front ++ brace :: more → FinishesAt statement c := by
    intro c hc htokens
    obtain ⟨rfl, -⟩ := hc.kind_eq htokens
    exact .statementWith hif hwhile (TokenKind.ne_of_isPlain (Plain.cons_iff.mp hplain).1).1
  exact .of_finishes hfinishes hplain hbrace

/-! ### Loops -/

/-- What a loop makes of some tokens, with any bound above their number. -/
def LoopComplains (loop : Nat → CompileM Code) (tokens rest : List TokenKind)
    (verdict : Nat → Prop) : Prop :=
  ∀ fuel, tokens.length < fuel → Complains (loop fuel) tokens rest verdict

namespace LoopComplains

variable {loop : Nat → CompileM Code} {turn : CompileM Code} {stops : TokenKind → Prop}

theorem mono (h : LoopComplains loop tokens rest v) (hv : ∀ n, v n → w n) :
    LoopComplains loop tokens rest w :=
  fun fuel hfuel => (h fuel hfuel).mono hv

/-- A turn and the turns behind it. -/
theorem of_turn [Steady turn] (hloop : Loops loop turn stops)
    (hstart : ∃ kind ∈ tokens.head?, kind ≠ .eof → ¬ stops kind)
    (hturn : Complains turn tokens mid v) (hmore : LoopComplains loop mid rest w)
    (hsum : ∀ n m, v n → w m → u (n + m)) : LoopComplains loop tokens rest u := by
  intro fuel hfuel c hc htokens
  have hgoes : ¬ stops c.cursor.kind := by
    obtain ⟨kind, hkind, hgoes⟩ := hstart
    cases tokens with
    | nil => cases hkind
    | cons first tokens =>
        obtain rfl := Option.some.inj hkind
        obtain ⟨rfl, -⟩ := hc.kind_eq htokens
        refine hgoes fun heof => ?_
        rw [hc.kind_eq_eof_iff, htokens] at heof
        cases heof
  have hremaining := hc.remaining_eq
  rw [htokens] at hremaining
  obtain ⟨first, c1, hfirst, hlt, hloop⟩ := hloop.turn (hremaining ▸ hfuel) hgoes
  obtain ⟨first', c1', n, hrun, hmid, hn, hfaults⟩ := hturn c hc htokens
  cases hfirst.symm.trans hrun
  have hc1 := (Steady.ok hrun).proper hc
  -- the turn has taken a token, so the bound is large enough for the others
  rw [hc1.remaining_eq, hmid] at hlt
  obtain ⟨others, c2, m, hrun', hrest, hm, hfaults'⟩ := hmore fuel (by omega) c1 hc1 hmid
  refine ⟨first ++ others, c2, n + m, ?_, hrest, hsum n m hn hm, by omega⟩
  rw [hloop, bind_of_ok hrun']
  rfl

end LoopComplains

/-! ### The loop over statements -/

/-- What the loop over statements makes of tokens, up to a brace that closes the block. -/
abbrev StatementsComplain : List TokenKind → List TokenKind → (Nat → Prop) → Prop :=
  LoopComplains (statements statement)

/-- A statement that is as it should be is no complaint. -/
theorem complains_first (h : First tokens rest) :
    Complains statement tokens rest (· = 0) :=
  .of_recognizes (fun _ _ hc hn _ => reaches_statementWith (recognizes_block _) hc hn) h

/-- Whole statements and the brace behind them are read without complaints. -/
theorem statementsComplain_body (body : Body) (rest : List TokenKind) :
    StatementsComplain (body.piece.tokens ++ .rbrace :: rest) rest (· = 0) := by
  intro fuel hfuel
  refine .of_reaches fun c hc htokens => ?_
  have hremaining : c.cursor.remaining < fuel := by rwa [hc.proper.remaining_eq, htokens]
  refine (reaches_statements (fun _ hc' hn' _ => reaches_statementWith (recognizes_block _) hc' hn')
    hc (Nat.le_refl _) hremaining).mpr ?_
  exact htokens ▸ ⟨body, rfl⟩

namespace StatementsComplain

/-- A statement or a broken one, and the statements behind it. -/
theorem of_turn (hstart : ∃ kind ∈ tokens.head?, kind ≠ .rbrace)
    (hturn : Complains (statementTurn statement) tokens mid v)
    (hmore : StatementsComplain mid rest w) (hsum : ∀ n m, v n → w m → u (n + m)) :
    StatementsComplain tokens rest u := by
  obtain ⟨kind, hkind, hne⟩ := hstart
  exact LoopComplains.of_turn loops_statements
    ⟨kind, hkind, fun heof hstop => hstop.elim hne heof⟩ hturn hmore hsum

/-- A whole statement in front. -/
theorem behind (hstart : ∃ kind ∈ tokens.head?, kind ≠ .rbrace) (h : First tokens mid)
    (hmore : StatementsComplain mid rest v) : StatementsComplain tokens rest v :=
  of_turn hstart (complains_first h).turn hmore fun n m hn hm => by rwa [hn, Nat.zero_add]

/-- Whole statements behind. -/
theorem of_statement {others : Body} (hstart : ∃ kind ∈ tokens.head?, kind ≠ .rbrace)
    (h : Complains statement tokens (others.piece.tokens ++ .rbrace :: rest) v) :
    StatementsComplain tokens rest v :=
  of_turn hstart h.turn (statementsComplain_body others rest) fun n m hn hm => by rwa [hm]

/-- A block around statements. -/
theorem block (h : StatementsComplain tokens rest v) :
    Complains block (.lbrace :: tokens) rest v := by
  intro c hc htokens
  obtain ⟨hkind, hnext⟩ := hc.kind_eq htokens
  have hexpect : expect .lbrace "`\x7b`" c = .ok () { c with cursor := c.cursor.next } :=
    (expect_eq _ _ c).trans (if_pos hkind)
  have hproper := Cursor.Onward.refl.next.proper hc
  rw [block_eq, bind_of_ok hexpect, remaining_bind]
  have hfuel : tokens.length < c.cursor.next.remaining + 1 := by
    rw [hproper.remaining_eq, hnext]
    exact Nat.lt_succ_self _
  obtain ⟨code, c', n, hrun, hrest, hn, hfaults⟩ :=
    h _ hfuel { c with cursor := c.cursor.next } hproper hnext
  exact ⟨code, c', n, hrun, hrest, hn, by rw [hfaults, Compiler.faults_next]⟩

end StatementsComplain

/-! ### Statements with blocks -/

/-- A block is as many complaints as what is in it. -/
theorem complains_block (h : Complains block (.lbrace :: tokens) rest v) :
    Complains statement (.lbrace :: tokens) rest v :=
  h.of_eq fun c hc htokens => (statementWith_eq block c).2.2 (hc.kind_eq htokens).1

/-- A statement that starts with a keyword and has a condition behind it. -/
def Conditioned (keyword comparison : TokenKind) (what : String) (number : CompileM Nat)
    (next : Nat → Code → CompileM Code) : Prop :=
  ∀ c : Compiler, c.cursor.kind = keyword → statement c = (do
    CompileM.advance
    let n ← number
    let test ← condition comparison what
    next n test) c

section

variable {keyword comparison : TokenKind} {what : String} {number : CompileM Nat}
  {next : Nat → Code → CompileM Code} [Silent number] [Steady number]

/-- Behind a condition without faults the complaints are those of the rest. -/
theorem Conditioned.complains (hconditioned : Conditioned keyword comparison what number next)
    (heof : comparison ≠ .eof) (test : Test) (h : ∀ n code, Complains (next n code) tokens rest v) :
    Complains statement (keyword :: ((test.piece comparison).tokens ++ tokens)) rest v := by
  refine .of_eq ?_ fun c hc htokens => hconditioned c (hc.kind_eq htokens).1
  refine Complains.advance.behind fun _ => Complains.of_silent.behind fun n => ?_
  exact (Complains.of_recognizes (fun _ => recognizes_condition heof what) ⟨test, rfl⟩).behind (h n)

/-- A statement breaks where its condition does. -/
theorem Conditioned.breaks (hconditioned : Conditioned keyword comparison what number next)
    (hkeyword : keyword.isPlain = true) (h : Breaks (condition comparison what) tokens) :
    Breaks statement (keyword :: tokens) := by
  refine .of_eq ?_ fun c hc htokens => hconditioned c (hc.kind_eq htokens).1
  exact Breaks.behind_advance hkeyword fun _ => Breaks.behind_silent fun n => h.bind

end

/-- A branch without an `else` part. -/
theorem complains_ifThen (test : Test) (h : Complains block tokens rest v)
    (hrest : rest.head? ≠ some .kwElse) :
    Complains statement (.kwIf :: ((test.piece .notEqual).tokens ++ tokens)) rest v := by
  refine Conditioned.complains (fun c => (statementWith_eq block c).1) nofun test fun n code => ?_
  exact h.bind (fun _ => .accept_of_ne (by nofun) hrest .of_silent) fun n m hn hm => by
    rwa [hm]

/-- A branch with an `else` part. -/
theorem complains_ifElse (test : Test) (h : Complains block tokens (.kwElse :: mid) v)
    (h' : Complains block mid rest w) (hsum : ∀ n m, v n → w m → u (n + m)) :
    Complains statement (.kwIf :: ((test.piece .notEqual).tokens ++ tokens)) rest u := by
  refine Conditioned.complains (fun c => (statementWith_eq block c).1) nofun test fun n code => ?_
  exact h.bind (fun _ => .accept_of_eq h'.before_silent) hsum

/-- A loop is as many complaints as its block. -/
theorem complains_loop (test : Test) (h : Complains block tokens rest v) :
    Complains statement (.kwWhile :: ((test.piece .less).tokens ++ tokens)) rest v :=
  Conditioned.complains (fun c => (statementWith_eq block c).2.1) nofun test fun _ _ =>
    h.before_silent

/-! ### The loop over functions -/

/-- What the loop over functions makes of tokens, up to the end of the text. -/
abbrev FunctionsComplain (tokens : List TokenKind) : (Nat → Prop) → Prop :=
  LoopComplains functions tokens []

/-- The functions of a program are read without complaints. -/
theorem functionsComplain_program (p : Program) : FunctionsComplain p.tokens (· = 0) := by
  intro fuel hfuel
  refine .of_reaches fun c hc htokens => ?_
  have hremaining : c.cursor.remaining < fuel := by rwa [hc.proper.remaining_eq, htokens]
  exact (reaches_functions hc hremaining).mpr ⟨p, htokens, rfl⟩

/-- The complaints of functions add up. -/
theorem functionsComplain_of_turn (hne : tokens ≠ []) (hturn : Complains functionTurn tokens mid v)
    (hmore : FunctionsComplain mid w) (hsum : ∀ n m, v n → w m → u (n + m)) :
    FunctionsComplain tokens u := by
  obtain ⟨kind, tokens, rfl⟩ := List.exists_cons_of_ne_nil hne
  exact LoopComplains.of_turn loops_functions ⟨kind, rfl, id⟩ hturn hmore hsum

/-- A function that gives a result is a turn. -/
theorem Complains.functionTurn (h : Complains function tokens rest v) :
    Complains functionTurn tokens rest v := by
  intro c hc htokens
  obtain ⟨code, c', n, hrun, hend⟩ := h c hc htokens
  exact ⟨code, c', n, tryCatch_of_ok hrun, hend⟩

/-- A function that breaks is one complaint. -/
theorem Breaks.functionTurn (h : Breaks function tokens)
    (hrest : (recover 0 tokens).head? ≠ some .rbrace) :
    Complains functionTurn tokens (recover 0 tokens) (· = 1) := by
  rintro c hc rfl
  obtain ⟨d, c', hrun, hpasses⟩ := h c hc rfl
  obtain ⟨hsyntactic, honward⟩ := Steady.error hrun
  obtain ⟨hproper, htokens, hfaults⟩ := synchronize_of_passes hc hsyntactic hpasses honward
  have haccept := accept_eq .rbrace { c' with cursor := (c'.cursor.report d).synchronize }
  have hother : (c'.cursor.report d).synchronize.kind ≠ .rbrace := fun hbrace =>
    hrest (htokens ▸ (hproper.head?_eq (by simp)).mpr hbrace)
  rw [if_neg hother] at haccept
  exact ⟨{}, _, 1, (tryCatch_of_error hrun).trans
    (action_bind_eq_ok.mpr ⟨(), _, rfl, action_bind_eq_ok.mpr ⟨(), _, rfl,
      action_bind_eq_ok.mpr ⟨_, _, haccept, rfl⟩⟩⟩), htokens, rfl, hfaults⟩

end Ia32.C

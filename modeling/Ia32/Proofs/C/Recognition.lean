import Ia32.Proofs.C.Termination

/-!
# What actions recognize

On tokens without invalid ones, whether an action of the compiler gets through without a
complaint about the syntax depends on the tokens alone. `Recognizes act relation` says on which
tokens it does, and which tokens it leaves: the relation is between all the tokens ahead and
those behind what was read. Relations are put together as actions are.
-/

namespace Ia32.C

/-- The tokens of source texts that are not invalid. -/
def TokenKind.Proper (kind : TokenKind) : Prop :=
  kind.Lexical ∧ ∀ cause, kind ≠ .invalid cause

theorem TokenKind.Proper.ne_eof {kind : TokenKind} (h : kind.Proper) : kind ≠ .eof := by
  rintro rfl
  exact h.1

namespace Cursor

/-- A cursor with proper tokens ahead. -/
structure Proper (c : Cursor) : Prop where
  rest : ∀ token ∈ c.rest, token.kind.Proper
  current : c.kind.Proper ∨ c.kind = .eof

variable {c c' : Cursor}

/-- In front of proper tokens the cursor has nothing to report and stands on the first one. -/
theorem settle_proper {lastLine : Nat} {diagnostics : List Diagnostic} {tokens : List Token}
    (h : ∀ token ∈ tokens, token.kind.Proper) :
    (settle lastLine diagnostics tokens).Proper ∧
      (settle lastLine diagnostics tokens).diagnostics = diagnostics ∧
      (settle lastLine diagnostics tokens).tokens = tokens.map Token.kind := by
  cases tokens with
  | nil => exact ⟨⟨h, .inr rfl⟩, rfl, rfl⟩
  | cons token rest =>
      obtain ⟨htoken, hrest⟩ := List.forall_mem_cons.mp h
      have hsettle : settle lastLine diagnostics (token :: rest) =
          ⟨token, rest, lastLine, diagnostics⟩ := by
        unfold settle
        split
        next cause hcause => exact absurd hcause (htoken.2 cause)
        next => rfl
      rw [hsettle]
      refine ⟨⟨hrest, .inl htoken⟩, rfl, List.takeWhile_eq_self_iff.mpr fun kind hkind => ?_⟩
      obtain ⟨token', htoken', rfl⟩ := List.mem_map.mp hkind
      exact decide_eq_true (h token' htoken').ne_eof

/-- Proper tokens stay proper further on. -/
theorem Onward.proper (h : Onward c c') (hproper : c.Proper) : c'.Proper := by
  induction h with
  | refl => exact hproper
  | @next c' _ ih =>
      by_cases heof : c'.kind = .eof
      · rwa [next_of_eof heof]
      · rw [next_of_ne_eof heof]
        exact (settle_proper ih.rest).1
  | report _ _ ih => exact ⟨ih.rest, ih.current⟩

theorem Proper.diagnostics_next (h : c.Proper) : c.next.diagnostics = c.diagnostics := by
  by_cases heof : c.kind = .eof
  · rw [next_of_eof heof]
  · rw [next_of_ne_eof heof]
    exact (settle_proper h.rest).2.1

/-- A cursor that is not at the end stands on the first of its tokens. -/
theorem Proper.tokens_eq_cons (h : c.Proper) (heof : c.kind ≠ .eof) :
    c.tokens = c.kind :: c.next.tokens := by
  have hnext : c.next.tokens = c.rest.map Token.kind := by
    rw [next_of_ne_eof heof]
    exact (settle_proper h.rest).2.2
  have hself : c.tokens = (c.current :: c.rest).map Token.kind := by
    refine List.takeWhile_eq_self_iff.mpr fun kind hkind => decide_eq_true ?_
    obtain ⟨token, htoken, rfl⟩ := List.mem_map.mp hkind
    rcases List.mem_cons.mp htoken with rfl | htoken
    · exact heof
    · exact (h.rest token htoken).ne_eof
  rw [hself, hnext]
  rfl

theorem Proper.of_mem_tokens (h : c.Proper) : ∀ kind ∈ c.tokens, kind.Proper := by
  intro kind hkind
  obtain ⟨token, htoken, rfl⟩ := List.mem_map.mp ((List.takeWhile_prefix _).subset hkind)
  rcases List.mem_cons.mp htoken with rfl | htoken
  · refine h.current.resolve_right fun heof => ?_
    rw [tokens_eq_nil heof] at hkind
    cases hkind
  · exact h.rest token htoken

/-- The current token is the first one. -/
theorem Proper.kind_eq (h : c.Proper) {kind : TokenKind} {rest : List TokenKind}
    (htokens : c.tokens = kind :: rest) : c.kind = kind ∧ c.next.tokens = rest := by
  by_cases heof : c.kind = .eof
  · rw [tokens_eq_nil heof] at htokens
    cases htokens
  · rw [h.tokens_eq_cons heof] at htokens
    exact List.cons.inj htokens

/-- What the cursor sees is the first of its tokens. -/
theorem Proper.head?_eq (h : c.Proper) {kind : TokenKind} (hkind : kind ≠ .eof) :
    c.tokens.head? = some kind ↔ c.kind = kind := by
  by_cases heof : c.kind = .eof
  · rw [tokens_eq_nil heof, heof]
    exact ⟨nofun, fun heq => absurd heq.symm hkind⟩
  · rw [h.tokens_eq_cons heof]
    exact Option.some_inj

end Cursor

/-- A compiler with proper tokens ahead that has not complained about the syntax. -/
structure Compiler.Unbroken (c : Compiler) : Prop where
  proper : c.cursor.Proper
  quiet : ∀ d ∈ c.cursor.diagnostics, d.severity ≠ .syntactic

/-- If nothing is broken behind a stretch, nothing was in front of it. -/
theorem Cursor.Onward.unbroken {c c' : Compiler} (h : c.cursor.Onward c'.cursor)
    (hproper : c.cursor.Proper) (h' : c'.Unbroken) : c.Unbroken :=
  ⟨hproper, fun d hd => h'.quiet d (h.diagnostics.subset hd)⟩

namespace CompileM

variable {α β : Type} {c c' : Compiler}

/-- An action gets through without a complaint about the syntax and leaves some tokens. -/
def Reaches (act : CompileM α) (c : Compiler) (rest : List TokenKind) : Prop :=
  ∃ a c', act c = .ok a c' ∧ c'.Unbroken ∧ c'.cursor.tokens = rest

/-- On no more than some tokens, an action reaches what the relation says. -/
def Recognizes (n : Nat) (act : CompileM α) (relation : List TokenKind → List TokenKind → Prop) :
    Prop :=
  ∀ c : Compiler, c.Unbroken → c.cursor.remaining ≤ n →
    ∀ rest, Reaches act c rest ↔ relation c.cursor.tokens rest

/-- Running two actions: the first one gets through as well. -/
theorem reaches_bind {x : CompileM α} {f : α → CompileM β} [hx : Steady x]
    [hf : ∀ a, Steady (f a)] (hc : c.Unbroken) {rest : List TokenKind} :
    Reaches (x >>= f) c rest ↔ ∃ a c', x c = .ok a c' ∧ c'.Unbroken ∧ Reaches (f a) c' rest := by
  constructor
  · rintro ⟨b, c2, hrun, hc2, htokens⟩
    obtain ⟨a, c1, hfirst, hsecond⟩ := action_bind_eq_ok.mp hrun
    -- a complaint of the first action would still be there behind the second
    have hproper := (hx.ok hfirst).proper hc.proper
    have hc1 := ((hf a).ok hsecond).unbroken hproper hc2
    exact ⟨a, c1, hfirst, hc1, b, c2, hsecond, hc2, htokens⟩
  · rintro ⟨a, c1, hfirst, -, b, c2, hsecond, hc2, htokens⟩
    exact ⟨b, c2, action_bind_eq_ok.mpr ⟨a, c1, hfirst, hsecond⟩, hc2, htokens⟩

/-- Going on behind a complaint about the syntax gets nowhere. -/
theorem reaches_tryCatch {x after : CompileM α} [hx : Steady x] [hafter : Steady after]
    {rest : List TokenKind} :
    Reaches (tryCatch x fun d => report d >>= fun _ => after) c rest ↔ Reaches x c rest := by
  constructor
  · rintro ⟨a, c2, hrun, hc2, htokens⟩
    cases hfirst : x c with
    | ok a' c1 =>
        rw [tryCatch_of_ok hfirst] at hrun
        exact ⟨a, c2, hfirst.trans hrun, hc2, htokens⟩
    | error d c1 =>
        -- what was thrown is on record from here on, and no action takes a remark back
        rw [tryCatch_of_error hfirst] at hrun
        have hd : d ∈ c2.cursor.diagnostics := (hafter.ok hrun).diagnostics.subset
          (List.mem_append_right c1.cursor.diagnostics (List.mem_singleton_self d))
        exact absurd (hx.error hfirst).1 (hc2.quiet d hd)
  · rintro ⟨a, c1, hrun, hend⟩
    exact ⟨a, c1, tryCatch_of_ok hrun, hend⟩

namespace Recognizes

variable {n : Nat} {act : CompileM α} {relation relation' : List TokenKind → List TokenKind → Prop}

/-- A recognizer may be described by any equivalent relation. -/
theorem congr (h : Recognizes n act relation)
    (heq : ∀ tokens rest, relation tokens rest ↔ relation' tokens rest) :
    Recognizes n act relation' :=
  fun c hc hn rest => (h c hc hn rest).trans (heq _ _)

/-- Only proper tokens count when two descriptions are compared. -/
theorem congr_of_proper (h : Recognizes n act relation)
    (heq : ∀ tokens rest, (∀ kind ∈ tokens, kind.Proper) →
      (relation tokens rest ↔ relation' tokens rest)) :
    Recognizes n act relation' :=
  fun c hc hn rest => (h c hc hn rest).trans (heq _ _ hc.proper.of_mem_tokens)

/-- A choice that does not depend on the tokens recognizes what both of its sides do. -/
theorem ite {p : Prop} [Decidable p] {x y : CompileM α} (hx : Recognizes n x relation)
    (hy : Recognizes n y relation) : Recognizes n (if p then x else y) relation := by
  split
  · exact hx
  · exact hy

/-- An action behind another one. -/
theorem bind {x : CompileM α} {f : α → CompileM β} [hx : Steady x] [∀ a, Steady (f a)]
    (h : Recognizes n x relation) (h' : ∀ a, Recognizes n (f a) relation') :
    Recognizes n (x >>= f) fun tokens rest =>
      ∃ behind, relation tokens behind ∧ relation' behind rest := by
  intro c hc hn rest
  rw [reaches_bind hc]
  constructor
  · rintro ⟨a, c1, hfirst, hc1, hsecond⟩
    have hn1 := Nat.le_trans (hx.ok hfirst).remaining_le hn
    exact ⟨c1.cursor.tokens, (h c hc hn _).mp ⟨a, c1, hfirst, hc1, rfl⟩,
      (h' a c1 hc1 hn1 _).mp hsecond⟩
  · rintro ⟨behind, hfirst, hsecond⟩
    obtain ⟨a, c1, hrun, hc1, rfl⟩ := (h c hc hn behind).mpr hfirst
    have hn1 := Nat.le_trans (hx.ok hrun).remaining_le hn
    exact ⟨a, c1, hrun, hc1, (h' a c1 hc1 hn1 rest).mpr hsecond⟩

end Recognizes

/-- Doing nothing reaches exactly the tokens it stands at. -/
theorem reaches_pure {a : α} {rest : List TokenKind} (hc : c.Unbroken) :
    Reaches (pure a) c rest ↔ c.cursor.tokens = rest := by
  constructor
  · rintro ⟨a', c', hrun, -, htokens⟩
    cases hrun
    exact htokens
  · exact fun htokens => ⟨a, c, rfl, hc, htokens⟩

/-- A complaint about an unexpected token never gets anywhere. -/
theorem not_reaches_unexpected {what : String} {rest : List TokenKind} :
    ¬ Reaches (unexpected what : CompileM α) c rest := by
  rintro ⟨a, c', hrun, -⟩
  cases hrun

/-! ### Reading tokens -/

theorem unbroken_next (hc : c.Unbroken) : Compiler.Unbroken { c with cursor := c.cursor.next } where
  proper := Cursor.Onward.refl.next.proper hc.proper
  quiet d hd := hc.quiet d (by rwa [← hc.proper.diagnostics_next])

/-- Advancing reaches exactly what is behind the token. -/
theorem reaches_advance {rest : List TokenKind} (hc : c.Unbroken) (heof : c.cursor.kind ≠ .eof) :
    Reaches advance c rest ↔ c.cursor.tokens = c.cursor.kind :: rest := by
  rw [hc.proper.tokens_eq_cons heof]
  constructor
  · rintro ⟨a, c', hrun, -, htokens⟩
    cases hrun
    rw [← htokens]
  · exact fun htokens => ⟨(), _, rfl, unbroken_next hc, (List.cons.inj htokens).2⟩

theorem reaches_bind_of_ok {x : CompileM α} {f : α → CompileM β} {a : α} (h : x c = .ok a c')
    {rest : List TokenKind} : Reaches (x >>= f) c rest ↔ Reaches (f a) c' rest := by
  unfold Reaches
  rw [bind_of_ok h]

section

variable {n : Nat} {kind : TokenKind} {relation relation' : List TokenKind → List TokenKind → Prop}

/-- A choice by the current token. -/
theorem Recognizes.of_peek {f : TokenKind → CompileM β}
    (h : ∀ c : Compiler, c.Unbroken → c.cursor.remaining ≤ n →
      ∀ rest, Reaches (f c.cursor.kind) c rest ↔ relation c.cursor.tokens rest) :
    Recognizes n (peek >>= f) relation :=
  fun c hc hn rest => (reaches_bind_of_ok rfl).trans (h c hc hn rest)

theorem Recognizes.of_line {f : Nat → CompileM β} (h : ∀ line, Recognizes n (f line) relation) :
    Recognizes n (line >>= f) relation :=
  fun c hc hn rest => (reaches_bind_of_ok rfl).trans (h _ c hc hn rest)

theorem Recognizes.of_get {f : Compiler → CompileM β} (h : ∀ c, Recognizes n (f c) relation) :
    Recognizes n (get >>= f) relation :=
  fun c hc hn rest => (reaches_bind_of_ok rfl).trans (h c c hc hn rest)

/-- The number of tokens left, as a bound that the tokens cannot exceed. -/
theorem Recognizes.of_remaining {f : Nat → CompileM β}
    {bounded : Nat → List TokenKind → List TokenKind → Prop}
    (h : ∀ m, Recognizes n (f m) (bounded m))
    (heq : ∀ m tokens rest, tokens.length ≤ m → (bounded m tokens rest ↔ relation tokens rest)) :
    Recognizes n (remaining >>= f) relation := by
  intro c hc hn rest
  have hrun : remaining c = .ok c.cursor.remaining c := rfl
  rw [reaches_bind_of_ok hrun, h _ c hc hn rest]
  exact heq _ _ _ (Cursor.length_tokens_le_remaining _)

/-- An expected token is recognized, and nothing else is. -/
theorem recognizes_expect (hkind : kind ≠ .eof) (what : String) :
    Recognizes n (expect kind what) fun tokens rest => tokens = kind :: rest := by
  refine .of_peek fun c hc _ rest => ?_
  split
  next heq =>
    rw [reaches_advance hc (heq ▸ hkind), heq]
  next hne =>
    refine ⟨fun h => absurd h not_reaches_unexpected, fun h => ?_⟩
    exact absurd (hc.proper.kind_eq h).1 hne

/-- Moving on behind the current token, whose kind is known. -/
theorem Recognizes.behind_advance {act : CompileM β} (h : Recognizes n act relation)
    (hc : c.Unbroken) (hn : c.cursor.remaining ≤ n) (hkind : c.cursor.kind = kind)
    (heof : kind ≠ .eof) {rest : List TokenKind} :
    Reaches (advance >>= fun _ => act) c rest ↔
      ∃ behind, c.cursor.tokens = kind :: behind ∧ relation behind rest := by
  subst hkind
  have hle := Nat.le_trans (Cursor.Onward.refl (c := c.cursor)).next.remaining_le hn
  have hrun : advance c = .ok () { c with cursor := c.cursor.next } := rfl
  rw [reaches_bind_of_ok hrun, h _ (unbroken_next hc) hle, hc.proper.tokens_eq_cons heof]
  constructor
  · exact fun hrest => ⟨_, rfl, hrest⟩
  · rintro ⟨behind, hbehind, hrest⟩
    rwa [(List.cons.inj hbehind).2]

/-- An optional token chooses between the two ways to go on. -/
theorem recognizes_accept {f : Bool → CompileM β} (hkind : kind ≠ .eof)
    (htrue : Recognizes n (f true) relation) (hfalse : Recognizes n (f false) relation') :
    Recognizes n (accept kind >>= f) fun tokens rest =>
      (∃ behind, tokens = kind :: behind ∧ relation behind rest) ∨
        (tokens.head? ≠ some kind ∧ relation' tokens rest) := by
  intro c hc hn rest
  rw [reaches_bind_of_ok (accept_eq kind c)]
  by_cases heq : c.cursor.kind = kind
  · rw [decide_eq_true heq, if_pos heq]
    have hle : c.cursor.next.remaining ≤ n :=
      Nat.le_trans Cursor.Onward.refl.next.remaining_le hn
    have htokens : c.cursor.tokens = kind :: c.cursor.next.tokens :=
      heq ▸ hc.proper.tokens_eq_cons (heq ▸ hkind)
    rw [htrue _ (unbroken_next hc) hle, htokens]
    constructor
    · exact fun h => .inl ⟨_, rfl, h⟩
    · rintro (⟨behind, hbehind, h⟩ | ⟨hhead, -⟩)
      · rwa [(List.cons.inj hbehind).2]
      · exact absurd rfl hhead
  · rw [decide_eq_false heq, if_neg heq, hfalse c hc hn]
    have hhead : c.cursor.tokens.head? ≠ some kind := fun h => heq ((hc.proper.head?_eq hkind).mp h)
    constructor
    · exact fun h => .inr ⟨hhead, h⟩
    · rintro (⟨behind, hbehind, -⟩ | ⟨-, h⟩)
      · rw [hbehind] at hhead
        exact absurd rfl hhead
      · exact h

/-- Going on by whether a token is here. -/
theorem recognizes_accept_ite {x y : CompileM β} (hkind : kind ≠ .eof)
    (hx : Recognizes n x relation) (hy : Recognizes n y relation') :
    Recognizes n (accept kind >>= fun found => if found then x else y) fun tokens rest =>
      (∃ behind, tokens = kind :: behind ∧ relation behind rest) ∨
        (tokens.head? ≠ some kind ∧ relation' tokens rest) :=
  recognizes_accept hkind hx hy

end

/-! ### Actions that read nothing -/

/-- The same place, with further complaints about the meaning. -/
def Remarked (c c' : Cursor) : Prop :=
  ∃ more : List Diagnostic, (∀ d ∈ more, d.severity = .semantic) ∧
    c' = { c with diagnostics := c.diagnostics ++ more }

theorem Remarked.refl (c : Cursor) : Remarked c c :=
  ⟨[], by simp, by rw [List.append_nil]⟩

theorem Remarked.trans {c1 c2 c3 : Cursor} (h : Remarked c1 c2) (h' : Remarked c2 c3) :
    Remarked c1 c3 := by
  obtain ⟨more, hmore, rfl⟩ := h
  obtain ⟨more', hmore', rfl⟩ := h'
  exact ⟨more ++ more', List.forall_mem_append.mpr ⟨hmore, hmore'⟩, by rw [List.append_assoc]⟩

theorem Remarked.of_step (h : c.Step .silent c') : Remarked c.cursor c'.cursor := by
  cases h with
  | complained line complaint =>
      exact ⟨[⟨.semantic, line, complaint.message⟩], by simp, rfl⟩
  | passed hpasses => cases hpasses
  | reported hrecovers | skipped hrecovers => cases hrecovers
  | _ => exact .refl _

/-- An action that touches neither the tokens nor what is broken adds remarks at most. -/
theorem Remarked.of_evolves (h : c.Evolves .silent c') : Remarked c.cursor c'.cursor := by
  induction h with
  | refl => exact .refl _
  | tail _ hstep ih => exact ih.trans (.of_step hstep)

/-- Actions that never stop and read nothing. -/
abbrev Silent (act : CompileM α) : Prop :=
  Acts .silent act

/-- A silent action succeeds and adds remarks at most. -/
theorem Silent.run {act : CompileM α} [h : Silent act] (c : Compiler) :
    ∃ a c', act c = .ok a c' ∧ Remarked c.cursor c'.cursor := by
  cases hrun : act c with
  | ok a c' => exact ⟨a, c', rfl, .of_evolves ((h.here c).ok hrun)⟩
  | error d c' => cases ((h.here c).error hrun).1.1

/-- Remarks break nothing and take no token. -/
theorem Remarked.unbroken (h : Remarked c.cursor c'.cursor) :
    (c'.Unbroken ↔ c.Unbroken) ∧ c'.cursor.tokens = c.cursor.tokens ∧
      c'.cursor.remaining = c.cursor.remaining := by
  obtain ⟨more, hmore, heq⟩ := h
  rw [heq]
  refine ⟨⟨fun hc' => ?_, fun hc => ?_⟩, rfl, rfl⟩
  · obtain ⟨hproper, hquiet⟩ := hc'
    rw [heq] at hproper hquiet
    exact ⟨⟨hproper.rest, hproper.current⟩, fun d hd => hquiet d (List.mem_append_left more hd)⟩
  · refine ⟨by rw [heq]; exact ⟨hc.proper.rest, hc.proper.current⟩, fun d hd => ?_⟩
    rw [heq] at hd
    rcases List.mem_append.mp hd with hd | hd
    · exact hc.quiet d hd
    · rw [hmore d hd]
      nofun

section

variable {n : Nat} {relation : List TokenKind → List TokenKind → Prop}

/-- A silent action in front changes nothing about what is recognized. -/
theorem Recognizes.behind_silent {x : CompileM α} {f : α → CompileM β} [hx : Silent x]
    (h : ∀ a, Recognizes n (f a) relation) : Recognizes n (x >>= f) relation := by
  intro c hc hn rest
  obtain ⟨a, c1, hrun, hremarked⟩ := hx.run c
  obtain ⟨hunbroken, htokens, hremaining⟩ := hremarked.unbroken
  rw [reaches_bind_of_ok hrun, h a c1 (hunbroken.mpr hc) (hremaining ▸ hn), htokens]

/-- A silent action behind changes nothing about where a run ends. -/
theorem reaches_before_silent {x : CompileM α} {f : α → CompileM β} [hf : ∀ a, Silent (f a)]
    {rest : List TokenKind} : Reaches (x >>= f) c rest ↔ Reaches x c rest := by
  constructor
  · rintro ⟨b, c', hrun, hc', rfl⟩
    obtain ⟨a, c1, hfirst, hsecond⟩ := action_bind_eq_ok.mp hrun
    obtain ⟨b', c2, hrun', hremarked⟩ := (hf a).run c1
    rw [hsecond] at hrun'
    cases hrun'
    obtain ⟨hunbroken, htokens, -⟩ := hremarked.unbroken
    exact ⟨a, c1, hfirst, hunbroken.mp hc', htokens.symm⟩
  · rintro ⟨a, c1, hfirst, hc1, rfl⟩
    obtain ⟨b, c', hsecond, hremarked⟩ := (hf a).run c1
    obtain ⟨hunbroken, htokens, -⟩ := hremarked.unbroken
    exact ⟨b, c', action_bind_eq_ok.mpr ⟨a, c1, hfirst, hsecond⟩, hunbroken.mpr hc1, htokens⟩

theorem Recognizes.before_silent {x : CompileM α} {f : α → CompileM β} [hf : ∀ a, Silent (f a)]
    (h : Recognizes n x relation) : Recognizes n (x >>= f) relation :=
  fun c hc hn rest => reaches_before_silent.trans (h c hc hn rest)

end

/-- An action that takes one token out of some, and complains about all others. -/
theorem recognizes_token {ι : Type} {n : Nat} {f : TokenKind → CompileM β} (good : ι → TokenKind)
    (hgood : ∀ i, good i ≠ .eof ∧
      ∃ g : Unit → CompileM β, (∀ u, Silent (g u)) ∧ f (good i) = advance >>= g)
    (hbad : ∀ kind, (∀ i, kind ≠ good i) → ∃ what, f kind = unexpected what) :
    Recognizes n (peek >>= f) fun tokens rest => ∃ i, tokens = good i :: rest := by
  refine .of_peek fun c hc hn rest => ?_
  by_cases hkind : ∃ i, c.cursor.kind = good i
  · obtain ⟨i, hi⟩ := hkind
    obtain ⟨heof, g, hsilent, hf⟩ := hgood i
    rw [hi, hf, reaches_before_silent, reaches_advance hc (hi ▸ heof), hi]
    constructor
    · exact fun h => ⟨i, h⟩
    · rintro ⟨j, h⟩
      rw [h, ← hi, (hc.proper.kind_eq h).1]
  · obtain ⟨what, hf⟩ := hbad _ fun i hi => hkind ⟨i, hi⟩
    rw [hf]
    refine ⟨fun h => absurd h not_reaches_unexpected, ?_⟩
    rintro ⟨i, h⟩
    exact absurd ⟨i, (hc.proper.kind_eq h).1⟩ hkind

/-- Doing nothing recognizes the empty stretch. -/
theorem recognizes_pure {n : Nat} (a : α) :
    Recognizes n (pure a) fun tokens rest => tokens = rest :=
  fun _ hc _ _ => reaches_pure hc

end CompileM

end Ia32.C

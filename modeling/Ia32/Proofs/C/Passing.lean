import Ia32.Proofs.C.Braces
import Ia32.Proofs.C.Recognition

/-!
# How far statements without blocks read

A statement without blocks in it reads plain tokens and a semicolon, or it is broken and has read
plain tokens only. So wherever it breaks, it has not yet come to the first semicolon or brace
ahead. Neither makes a complaint about the syntax: the complaint of a broken statement is made by
who catches it.
-/

namespace Ia32.C

open CompileM

/-- The complaints about the syntax so far. -/
def Compiler.faults (c : Compiler) : Nat :=
  c.cursor.diagnostics.countP (·.severity = .syntactic)

namespace Compiler

/-- Plain tokens lie between two states, and no complaint about the syntax. -/
structure Passes (c c' : Compiler) : Prop where
  tokens : ∃ taken, Plain taken ∧ c.cursor.validTokens = taken ++ c'.cursor.validTokens
  faults : c'.faults = c.faults

/-- Plain tokens and a semicolon lie between two states, and no complaint about the syntax. -/
structure Finishes (c c' : Compiler) : Prop where
  tokens : ∃ taken, Plain taken ∧
    c.cursor.validTokens = taken ++ .semicolon :: c'.cursor.validTokens
  faults : c'.faults = c.faults

variable {c c' c'' : Compiler}

theorem Passes.refl (c : Compiler) : c.Passes c :=
  ⟨⟨[], .nil, rfl⟩, rfl⟩

/-- Plain tokens that are passed over first stand in front of those that are passed over later. -/
theorem Passes.prepend (h : c.Passes c') {behind : List TokenKind}
    (htokens : ∃ taken, Plain taken ∧ c'.cursor.validTokens = taken ++ behind) :
    ∃ taken, Plain taken ∧ c.cursor.validTokens = taken ++ behind := by
  obtain ⟨taken, hplain, htaken⟩ := h.tokens
  obtain ⟨taken', hplain', htaken'⟩ := htokens
  refine ⟨taken ++ taken', Plain.append_iff.mpr ⟨hplain, hplain'⟩, ?_⟩
  rw [htaken, htaken', List.append_assoc]

/-- Passing over plain tokens and over more of them. -/
theorem Passes.trans (h : c.Passes c') (h' : c'.Passes c'') : c.Passes c'' :=
  ⟨h.prepend h'.tokens, h'.faults.trans h.faults⟩

/-- A statement may pass over plain tokens before it finishes. -/
theorem Passes.finishes (h : c.Passes c') (h' : c'.Finishes c'') : c.Finishes c'' :=
  ⟨h.prepend h'.tokens, h'.faults.trans h.faults⟩

/-- Remarks that are not about the syntax are no faults. -/
theorem faults_of_lexical {more : List Diagnostic} (hmore : ∀ d ∈ more, d.severity ≠ .syntactic)
    (hsame : c'.cursor.diagnostics = c.cursor.diagnostics ++ more) : c'.faults = c.faults := by
  have hnone : more.countP (·.severity = .syntactic) = 0 :=
    List.countP_eq_zero.mpr fun d hd => by simpa using hmore d hd
  rw [faults, faults, hsame, List.countP_append, hnone, Nat.add_zero]

theorem faults_next (c : Compiler) : faults { c with cursor := c.cursor.next } = c.faults := by
  by_cases heof : c.cursor.kind = .eof
  · rw [Cursor.next_of_eof heof]
  · obtain ⟨skipped, hsame⟩ : ∃ skipped,
        c.cursor.next.diagnostics = c.cursor.diagnostics ++ remarksOn skipped := by
      rw [Cursor.next_of_ne_eof heof]
      obtain ⟨skipped, -, ⟨-, hsettle⟩ | ⟨token, rest, -, -, hsettle⟩⟩ :=
        Cursor.exists_settle c.cursor.lastLine c.cursor.diagnostics c.cursor.rest
      all_goals exact ⟨skipped, by rw [hsettle]⟩
    refine faults_of_lexical (fun d hd => ?_) hsame
    rw [severity_of_mem_remarksOn hd]
    nofun

/-- A plain token is passed over. -/
theorem passes_next (h : c.cursor.kind.isPlain = true) :
    c.Passes { c with cursor := c.cursor.next } := by
  refine ⟨?_, faults_next c⟩
  by_cases heof : c.cursor.kind = .eof
  · exact ⟨[], .nil, by rw [Cursor.next_of_eof heof]; rfl⟩
  · refine ⟨_, fun kind hkind => ?_, Cursor.validTokens_of_ne_eof heof⟩
    rw [List.mem_singleton.mp (List.mem_filter.mp hkind).1, h]

/-- A semicolon finishes. -/
theorem finishes_next (h : c.cursor.kind = .semicolon) :
    c.Finishes { c with cursor := c.cursor.next } := by
  refine ⟨⟨[], .nil, ?_⟩, faults_next c⟩
  rw [Cursor.validTokens_next (by simp [h]) (by simp [h, TokenKind.isInvalid]), h]
  rfl

/-- Remarks pass over nothing. -/
theorem passes_of_remarked (h : Remarked c.cursor c'.cursor) : c.Passes c' := by
  obtain ⟨more, hmore, heq⟩ := h
  have hsyntactic : ∀ d ∈ more, d.severity ≠ .syntactic := by
    intro d hd
    rw [hmore d hd]
    nofun
  exact ⟨⟨[], .nil, by rw [heq]; rfl⟩, faults_of_lexical hsyntactic (by rw [heq])⟩

/-- Where plain tokens are read, a step passes one at most. -/
theorem passes_of_step (h : c.Step .plain c') : c.Passes c' := by
  cases h with
  | passed hpasses => exact passes_next hpasses
  | complained line complaint =>
      exact passes_of_remarked ⟨[⟨.semantic, line, complaint.message⟩], by simp, rfl⟩
  | reported hrecovers | skipped hrecovers => cases hrecovers
  | _ => exact ⟨⟨[], .nil, rfl⟩, rfl⟩

/-- While plain tokens are read, nothing else is. -/
theorem passes_of_evolves (h : c.Evolves .plain c') : c.Passes c' := by
  induction h with
  | refl => exact .refl c
  | tail _ hstep ih => exact ih.trans (passes_of_step hstep)

end Compiler

/-- From a state, an action passes plain tokens only, whether or not it gives a result. -/
structure PassesAt {α : Type} (act : CompileM α) (c : Compiler) : Prop where
  ok : ∀ a c', act c = .ok a c' → c.Passes c'
  error : ∀ d c', act c = .error d c' → c.Passes c'

/-- From a state, an action gives a result behind the first semicolon, or it breaks in front. -/
structure FinishesAt {α : Type} (act : CompileM α) (c : Compiler) : Prop where
  ok : ∀ a c', act c = .ok a c' → c.Finishes c'
  error : ∀ d c', act c = .error d c' → c.Passes c'

/-- Actions that pass plain tokens only. -/
abbrev Passing {α : Type} (act : CompileM α) : Prop :=
  Acts .plain act

/-- Actions that give a result behind the first semicolon, or break in front. -/
class Finishing {α : Type} (act : CompileM α) : Prop where
  run : ∀ c, FinishesAt act c

variable {α β : Type} {c c' : Compiler}

namespace PassesAt

theorem finishes {x : CompileM α} {f : α → CompileM β} (hx : PassesAt x c)
    (hf : ∀ a c', x c = .ok a c' → FinishesAt (f a) c') : FinishesAt (x >>= f) c where
  ok b c' h := by
    obtain ⟨a, c1, hfirst, hsecond⟩ := action_bind_eq_ok.mp h
    exact (hx.ok a c1 hfirst).finishes ((hf a c1 hfirst).ok b c' hsecond)
  error d c' h := by
    rcases action_bind_eq_error.mp h with hfirst | ⟨a, c1, hfirst, hsecond⟩
    · exact hx.error d c' hfirst
    · exact (hx.ok a c1 hfirst).trans ((hf a c1 hfirst).error d c' hsecond)

theorem advance (h : c.cursor.kind.isPlain = true) : PassesAt CompileM.advance c where
  ok a c' h' := by cases h'; exact Compiler.passes_next h
  error d c' h' := by cases h'

theorem unexpected (what : String) : PassesAt (CompileM.unexpected what : CompileM α) c where
  ok a c' h := by cases h
  error d c' h := by cases h; exact .refl c

end PassesAt

namespace FinishesAt

theorem advance (h : c.cursor.kind = .semicolon) : FinishesAt CompileM.advance c where
  ok a c' h' := by cases h'; exact Compiler.finishes_next h
  error d c' h' := by cases h'

theorem unexpected (what : String) : FinishesAt (CompileM.unexpected what : CompileM α) c where
  ok a c' h := by cases h
  error := (PassesAt.unexpected what).error

/-- Behind the semicolon, nothing more is read. -/
theorem before_silent {x : CompileM α} {f : α → CompileM β} (hx : FinishesAt x c)
    [hf : ∀ a, Silent (f a)] : FinishesAt (x >>= f) c where
  ok b c' h := by
    obtain ⟨a, c1, hfirst, hsecond⟩ := action_bind_eq_ok.mp h
    obtain ⟨b', c2, hrun, hremarked⟩ := (hf a).run c1
    cases hsecond.symm.trans hrun
    obtain ⟨⟨taken, hplain, htaken⟩, hfaults⟩ := hx.ok a c1 hfirst
    obtain ⟨-, htokens, -⟩ := hremarked.unbroken
    refine ⟨⟨taken, hplain, ?_⟩, (Compiler.passes_of_remarked hremarked).faults.trans hfaults⟩
    rw [htaken, Cursor.validTokens, Cursor.validTokens, htokens]
  error d c' h := by
    rcases action_bind_eq_error.mp h with hfirst | ⟨a, c1, hfirst, hsecond⟩
    · exact hx.error d c' hfirst
    · obtain ⟨b, c2, hrun, -⟩ := (hf a).run c1
      cases hsecond.symm.trans hrun

end FinishesAt

/-- What passes does so wherever it stands. -/
theorem Passing.run {act : CompileM α} [h : Passing act] (c : Compiler) : PassesAt act c where
  ok _ _ hrun := Compiler.passes_of_evolves ((h.here c).ok hrun)
  error _ _ hrun := Compiler.passes_of_evolves ((h.here c).error hrun).2

namespace Finishing

instance bind {x : CompileM α} {f : α → CompileM β} [hx : Passing x]
    [hf : ∀ a, Finishing (f a)] : Finishing (x >>= f) where
  run c := (Passing.run c).finishes fun a c' _ => (hf a).run c'

instance get {f : Compiler → CompileM α} [h : ∀ c, Finishing (f c)] : Finishing (get >>= f) where
  run c := ⟨((h c).run c).ok, ((h c).run c).error⟩

instance before_silent {x : CompileM α} {f : α → CompileM β} [hx : Finishing x]
    [∀ a, Silent (f a)] : Finishing (x >>= f) where
  run c := (hx.run c).before_silent

instance ite {p : Prop} [Decidable p] {x y : CompileM α} [hx : Finishing x]
    [hy : Finishing y] : Finishing (if p then x else y) := by
  split
  · exact hx
  · exact hy

/-- A choice by the current token. -/
theorem of_peek {f : TokenKind → CompileM α} (h : ∀ c, FinishesAt (f c.cursor.kind) c) :
    Finishing (CompileM.peek >>= f) where
  run c := (Passing.run c).finishes fun a c' hrun => by cases hrun; exact h c

/-- Passing the current token, which is known. -/
theorem behind_advance {f : Unit → CompileM α} (h : c.cursor.kind.isPlain = true)
    (hf : ∀ u, Finishing (f u)) : FinishesAt (advance >>= f) c :=
  (PassesAt.advance h).finishes fun u c' _ => (hf u).run c'

instance expect (what : String) : Finishing (expect .semicolon what) :=
  of_peek fun c => by
    split
    next heq => exact .advance heq
    next => exact .unexpected what

/-- A semicolon, or something in front of one. -/
instance accept_ite {x y : CompileM α} [hx : Silent x] [hy : Finishing y] :
    Finishing (accept .semicolon >>= fun found => if found then x else y) where
  run c := by
    by_cases heq : c.cursor.kind = .semicolon
    · have hsame : (accept .semicolon >>= fun found => if found then x else y) c =
          (advance >>= fun _ => x) c := by
        rw [bind_of_ok (accept_eq _ c), decide_eq_true heq, if_pos heq]
        rfl
      have hadvance : FinishesAt (advance >>= fun _ => x) c :=
        (FinishesAt.advance heq).before_silent
      exact ⟨fun a c' h => hadvance.ok a c' (hsame ▸ h), fun d c' h =>
        hadvance.error d c' (hsame ▸ h)⟩
    · have hsame : (accept .semicolon >>= fun found => if found then x else y) c = y c := by
        rw [bind_of_ok (accept_eq _ c), decide_eq_false heq, if_neg heq]
        rfl
      exact ⟨fun a c' h => (hy.run c).ok a c' (hsame ▸ h),
        fun d c' h => (hy.run c).error d c' (hsame ▸ h)⟩

/-! ### Statements -/

instance initializer (line : Nat) (name : String) (type : CType) :
    Finishing (initializer line name type) :=
  of_peek fun c => by
    split
    next heq => exact behind_advance (by rw [heq]; rfl) inferInstance
    next => exact run c

instance callStatement (line : Nat) (name : String) : Finishing (callStatement line name) := by
  unfold CompileM.callStatement
  infer_instance

instance variableAssignment (line : Nat) (name : String) :
    Finishing (variableAssignment line name) := by
  unfold CompileM.variableAssignment
  infer_instance

instance syscallStatement : Finishing syscallStatement := by
  unfold CompileM.syscallStatement
  infer_instance

end Finishing

namespace FinishesAt

section

variable (h : c.cursor.kind.isPlain = true)
include h

/-- A declaration finishes at its semicolon. -/
theorem declaration : FinishesAt declaration c := by
  unfold CompileM.declaration
  dsimp only
  refine (Passing.run c).finishes fun line c' hrun => ?_
  cases hrun
  refine (Passing.run c).finishes fun kind c' hrun => ?_
  cases hrun
  exact Finishing.behind_advance h inferInstance

theorem pointerAssignment : FinishesAt pointerAssignment c := by
  unfold CompileM.pointerAssignment
  refine (Passing.run c).finishes fun line c' hrun => ?_
  cases hrun
  refine Finishing.behind_advance h fun _ => ?_
  exact @Finishing.bind _ _ _ _ Acts.expectIdent fun name => inferInstance

theorem returnStatement : FinishesAt returnStatement c := by
  unfold CompileM.returnStatement
  exact Finishing.behind_advance h inferInstance

theorem nameStatement (line : Nat) (name : String) : FinishesAt (nameStatement line name) c := by
  unfold CompileM.nameStatement
  exact Finishing.behind_advance h inferInstance

end

/-- Only branches, loops and blocks have braces inside. -/
theorem statementWith {block : CompileM Code} (hif : c.cursor.kind ≠ .kwIf)
    (hwhile : c.cursor.kind ≠ .kwWhile) (hbrace : c.cursor.kind ≠ .lbrace) :
    FinishesAt (statementWith block) c := by
  unfold CompileM.statementWith
  refine (Passing.run c).finishes fun line c' hrun => ?_
  cases hrun
  refine (Passing.run c).finishes fun kind c' hrun => ?_
  cases hrun
  split
  next hkind => exact .declaration (by rw [hkind]; rfl)
  next hkind => exact .declaration (by rw [hkind]; rfl)
  next hkind => exact .pointerAssignment (by rw [hkind]; rfl)
  next hkind => exact .returnStatement (by rw [hkind]; rfl)
  next hkind => exact absurd hkind hif
  next hkind => exact absurd hkind hwhile
  next => exact Finishing.syscallStatement.run c
  next hkind => exact absurd hkind hbrace
  next hkind => exact .nameStatement (by rw [hkind]; rfl) _ _
  next hkind => exact .nameStatement (by rw [hkind]; rfl) _ _
  next => exact .unexpected _

end FinishesAt

end Ia32.C

import Ia32.Proofs.C.Actions
import Ia32.Proofs.C.Onward

/-!
# Runs without errors

The compiler goes on after an error, so a run through its actions says something
about the source only if no error has been reported at its end. Every action moves its
cursor on, and no action takes a report back. A run that is clean at its end is
therefore clean all the way, and can be taken apart into clean runs of its steps.
-/

namespace Ia32.C

/-- Nothing has been reported that makes the compilation fail. -/
def Compiler.Clean (c : Compiler) : Prop :=
  Diagnostic.anyError c.cursor.diagnostics = false

theorem Compiler.not_clean_report {c : Compiler} {d : Diagnostic} (h : d.isError) :
    ¬ Clean { c with cursor := c.cursor.report d } := by
  simp [Clean, Cursor.report, Diagnostic.anyError, h]

/-- A cursor that has moved on has all the remarks that it had. -/
theorem Cursor.Onward.clean {c c' : Compiler} (h : c.cursor.Onward c'.cursor) (hclean : c'.Clean) :
    c.Clean := by
  obtain ⟨more, hmore⟩ := h.diagnostics
  rw [Compiler.Clean, ← hmore, Diagnostic.anyError, List.any_append, Bool.or_eq_false_iff] at hclean
  exact hclean.1

theorem isError_of_syntactic {d : Diagnostic} (h : d.severity = .syntactic) : d.isError := by
  rw [Diagnostic.isError, h]
  rfl

theorem Compiler.Step.onward {means : Means} {c c' : Compiler} (h : c.Step means c') :
    c.cursor.Onward c'.cursor := by
  cases h with
  | passed => exact Cursor.Onward.refl.next
  | complained => exact Cursor.Onward.refl.report nofun
  | reported _ hd => exact Cursor.Onward.refl.report (by rw [hd]; nofun)
  | skipped => exact c.cursor.onward_synchronize
  | _ => exact .refl

/-- Whatever the compiler does, its cursor moves on. -/
theorem Compiler.Evolves.onward {means : Means} {c c' : Compiler} (h : c.Evolves means c') :
    c.cursor.Onward c'.cursor := by
  induction h with
  | refl => exact .refl
  | tail _ hstep ih => exact ih.trans hstep.onward

/-- Actions of the compiler, whatever they do. -/
abbrev Steady {α : Type} (act : CompileM α) : Prop :=
  Acts .all act

/-- A run of an action at whose end no error has been reported. -/
structure Run {α : Type} (act : CompileM α) (c : Compiler) (a : α) (c' : Compiler) : Prop where
  eq : act c = .ok a c'
  clean : c'.Clean

variable {α β : Type}

namespace Steady

variable {act : CompileM α} {c c' : Compiler}

theorem ok [h : Steady act] {a : α} (heq : act c = .ok a c') : c.cursor.Onward c'.cursor :=
  ((h.here c).ok heq).onward

/-- What an action throws is a complaint about the syntax. -/
theorem error [h : Steady act] {d : Diagnostic} (heq : act c = .error d c') :
    d.severity = .syntactic ∧ c.cursor.Onward c'.cursor :=
  ⟨((h.here c).error heq).1.2, ((h.here c).error heq).2.onward⟩

end Steady

namespace Run

/-- A run of two actions is a run of the first and one of the second. -/
theorem bind_of {x : CompileM α} {f : α → CompileM β} {c c' : Compiler} {b : β}
    (h : Run (x >>= f) c b c') (hf : ∀ a, Steady (f a)) :
    ∃ a c1, Run x c a c1 ∧ Run (f a) c1 b c' := by
  obtain ⟨a, c1, hfirst, hsecond⟩ := action_bind_eq_ok.mp h.eq
  exact ⟨a, c1, ⟨hfirst, ((hf a).ok hsecond).clean h.clean⟩, hsecond, h.clean⟩

theorem bind {x : CompileM α} {f : α → CompileM β} [hf : ∀ a, Steady (f a)] {c c' : Compiler}
    {b : β} (h : Run (x >>= f) c b c') : ∃ a c1, Run x c a c1 ∧ Run (f a) c1 b c' :=
  h.bind_of hf

theorem pure {a b : α} {c c' : Compiler} (h : Run (Pure.pure a) c b c') : b = a ∧ c' = c := by
  cases h.eq
  exact ⟨rfl, rfl⟩

/-- A handler that reports what it catches is never part of a clean run. -/
theorem tryCatch {x : CompileM α} {handler : Diagnostic → CompileM α} {c c' : Compiler} {a : α}
    [hx : Steady x] (hhandler : ∀ d c1 a c', d.isError → ¬ Run (handler d) c1 a c')
    (h : Run (MonadExcept.tryCatch x handler) c a c') : Run x c a c' := by
  have heq := h.eq
  simp only [MonadExcept.tryCatch, tryCatchThe, MonadExceptOf.tryCatch, EStateM.tryCatch] at heq
  split at heq
  case h_1 d c1 hx' =>
    exact absurd ⟨heq, h.clean⟩ (hhandler d c1 a c' (isError_of_syntactic (hx.error hx').1))
  case h_2 hother => exact ⟨heq, h.clean⟩

end Run

/-! ### Cursors -/

namespace Cursor

/-- The tokens in front of the end of the text, from the current one on. -/
def tokens (c : Cursor) : List TokenKind :=
  ((c.current :: c.rest).map Token.kind).takeWhile (· ≠ .eof)

theorem anyError_settle {lastLine : Nat} {diagnostics : List Diagnostic} {tokens : List Token}
    (h : Diagnostic.anyError (settle lastLine diagnostics tokens).diagnostics = false) :
    Diagnostic.anyError diagnostics = false := by
  induction tokens generalizing diagnostics with
  | nil => exact h
  | cons token rest ih =>
      unfold settle at h
      split at h
      · have hmore := ih h
        simp only [Diagnostic.anyError, List.any_append, Bool.or_eq_false_iff] at hmore
        exact hmore.1
      · exact h

/-- A cursor that settles without an error passes nothing over. -/
theorem tokens_settle {lastLine : Nat} {diagnostics : List Diagnostic} {tokens : List Token}
    (h : Diagnostic.anyError (settle lastLine diagnostics tokens).diagnostics = false) :
    (settle lastLine diagnostics tokens).tokens =
      (tokens.map Token.kind).takeWhile (· ≠ .eof) := by
  cases tokens with
  | nil => rfl
  | cons token rest =>
      unfold settle at h ⊢
      split
      case h_1 cause hcause =>
        simp only [hcause] at h
        have hmore := anyError_settle h
        simp [Diagnostic.anyError, Diagnostic.isError] at hmore
      case h_2 => rfl

/-- The token in front is the first one, unless the next step meets an error. -/
theorem tokens_eq_cons {c : Cursor} (hkind : c.kind ≠ .eof)
    (h : Diagnostic.anyError c.next.diagnostics = false) : c.tokens = c.kind :: c.next.tokens := by
  have hsettled : c.next.tokens = (c.rest.map Token.kind).takeWhile (· ≠ .eof) := by
    unfold next at h ⊢
    rw [if_neg hkind] at h ⊢
    exact tokens_settle h
  rw [hsettled, tokens, List.map_cons, List.takeWhile_cons_of_pos (by simpa [kind] using hkind)]
  rfl

theorem kind_mem_tokens {c : Cursor} (h : c.kind ≠ .eof) : c.kind ∈ c.tokens := by
  rw [tokens, List.map_cons, List.takeWhile_cons_of_pos (by simpa [kind] using h)]
  exact List.mem_cons_self

theorem tokens_eq_nil {c : Cursor} (h : c.kind = .eof) : c.tokens = [] := by
  rw [tokens, List.map_cons, List.takeWhile_cons_of_neg]
  simpa [kind] using h

theorem length_tokens_le_remaining (c : Cursor) : c.tokens.length ≤ c.remaining := by
  unfold remaining
  split
  next heof => simp [tokens_eq_nil heof]
  next =>
    have hsublist : c.tokens.Sublist ((c.current :: c.rest).map Token.kind) :=
      List.takeWhile_sublist _
    simpa using hsublist.length_le

end Cursor

/-- The tokens still to be read. -/
def Compiler.tokens (c : Compiler) : List TokenKind :=
  c.cursor.tokens

end Ia32.C

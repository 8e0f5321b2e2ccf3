import Ia32.Proofs.C.Blocks
import Ia32.Proofs.C.Sums

/-!
# Remarks do not steer the compiler

What the compiler has remarked so far plays no part in what it does next. A statement that is
read without an error is therefore compiled as in a source without errors, whatever is wrong
with the source in front of it.
-/

namespace Ia32.C

variable {α : Type}

/-! ### Statements without errors -/

namespace Compiler

/-- No error is reported between two states. -/
def Quiet (c c' : Compiler) : Prop :=
  ∃ remarks, c'.cursor.diagnostics = c.cursor.diagnostics ++ remarks ∧
    Diagnostic.anyError remarks = false

/-- The state without its remarks. -/
def muted (c : Compiler) : Compiler :=
  { c with cursor := { c.cursor with diagnostics := [] } }

theorem muted_behind (c : Compiler) : c.muted.behind c.cursor.diagnostics = c := by
  simp [muted, behind, Cursor.behind]

/-- What names stand for in a state. -/
def frame (c : Compiler) : Frame :=
  ⟨c.constants, c.locals.names⟩

end Compiler

/-- A quiet run is a clean run from the state without its remarks. -/
theorem Steady.run_muted {act : CompileM α} [hact : Steady act] {c c' : Compiler} {a : α}
    (h : act c = .ok a c') (hquiet : c.Quiet c') :
    ∃ c1, Run act c.muted a c1 ∧ c' = c1.behind c.cursor.diagnostics := by
  have hrun := (hact.here c.muted).behind c.cursor.diagnostics
  rw [c.muted_behind, h] at hrun
  cases hmuted : act c.muted with
  | error d c1 =>
      rw [hmuted] at hrun
      cases hrun
  | ok b c1 =>
      rw [hmuted] at hrun
      cases hrun
      obtain ⟨remarks, hremarks, hclean⟩ := hquiet
      have hsame : c1.cursor.diagnostics = remarks := List.append_cancel_left hremarks
      exact ⟨c1, ⟨hmuted, by rwa [Compiler.Clean, hsame]⟩, rfl⟩

theorem Cursor.kind_of_tokens {c : Cursor} {kind : TokenKind} {rest : List TokenKind}
    (h : c.tokens = kind :: rest) : c.kind = kind := by
  rw [tokens, List.map_cons, List.takeWhile_cons] at h
  split at h
  · exact (List.cons.inj h).1
  · cases h

/-- The first token of a statement without statements inside tells what kind it is of. -/
theorem Simple.lead_kind {s : Simple} {c : Compiler} {rest : List TokenKind}
    (h : c.tokens = s.piece.tokens ++ rest) : c.cursor.kind.lead = some s.lead := by
  have hlead := s.lead_tokens rest
  rw [← h] at hlead
  cases htokens : c.tokens with
  | nil =>
      rw [htokens] at hlead
      cases hlead
  | cons kind others =>
      rw [htokens] at hlead
      rw [Cursor.kind_of_tokens htokens]
      exact hlead

/-- No block is read for a statement without statements inside. -/
theorem CompileM.statementWith_congr {s : Simple} {c : Compiler} {rest : List TokenKind}
    (h : c.tokens = s.piece.tokens ++ rest) (block block' : CompileM Code) :
    statementWith block c = statementWith block' c := by
  have hlead := Simple.lead_kind h
  rw [statementWith, statementWith, line_bind, line_bind, peek_bind, peek_bind]
  cases hkind : c.cursor.kind with
  | kwIf | kwWhile | lbrace =>
      rw [hkind] at hlead
      cases s <;> cases hlead
  | _ => rfl

/-- A clean run over the tokens of a statement without statements inside gives its code. -/
theorem Run.simpleStatement {s : Simple} {block : CompileM Code} {c c' : Compiler} {code : Code}
    {rest : List TokenKind} (h : Run (CompileM.statementWith block) c code c')
    (htokens : c.tokens = s.piece.tokens ++ rest) :
    Reads s.piece c c' ∧ ∀ frame, c'.Within frame → code = s.code c.functions frame := by
  suffices hother : ∃ s' : Simple, Reads s'.piece c c' ∧
      ∀ frame, c'.Within frame → code = s'.code c.functions frame by
    obtain ⟨s', hreads, hcode⟩ := hother
    obtain ⟨rfl, -⟩ := Simple.tokens_cancel (htokens.symm.trans hreads.tokens)
    exact ⟨hreads, hcode⟩
  have hlead := Simple.lead_kind htokens
  have h := h.of_line.of_peek
  split at h
  case h_1 hkind =>
    obtain ⟨s', hreads, hcode⟩ := h.declaration (.inl hkind)
    exact ⟨s', hreads, hcode _⟩
  case h_2 hkind =>
    obtain ⟨s', hreads, hcode⟩ := h.declaration (.inr hkind)
    exact ⟨s', hreads, hcode _⟩
  case h_3 hkind =>
    obtain ⟨s', hreads, hcode⟩ := h.pointerAssignment hkind
    exact ⟨s', hreads, hcode _⟩
  case h_4 hkind =>
    obtain ⟨s', hreads, hcode⟩ := h.returnStatement hkind
    exact ⟨s', hreads, hcode _⟩
  case h_5 hkind | h_6 hkind | h_8 hkind =>
    rw [hkind] at hlead
    cases s <;> cases hlead
  case h_7 hkind =>
    obtain ⟨s', hreads, hcode⟩ := h.syscallStatement
    exact ⟨s', hreads, hcode _⟩
  case h_9 name hkind =>
    have hname (other : String) {others : List TokenKind}
        (hfirst : c.tokens = nameToken other :: others) : c.cursor.kind = nameToken name := by
      have hsame : nameToken other = .ident name := (Cursor.kind_of_tokens hfirst).symm.trans hkind
      unfold nameToken at hsame
      split at hsame
      · cases hsame
      next hmain =>
        cases hsame
        rw [hkind, nameToken, if_neg hmain]
    rw [hkind] at hlead
    cases s with
    | assign other value => exact h.nameStatement (hname other htokens)
    | call other arguments => exact h.nameStatement (hname other htokens)
    | _ => cases hlead
  case h_10 hkind => exact h.nameStatement hkind
  case h_11 => exact absurd h not_unexpected

/-- A statement without statements inside that is read without an error, in whatever source, has
the code that its names stand for behind it. -/
theorem Simple.compiled {s : Simple} {c c' : Compiler} {code : Code} {rest : List TokenKind}
    (hsound : c.Sound) (h : CompileM.statement c = .ok code c') (hquiet : c.Quiet c')
    (htokens : c.tokens = s.piece.tokens ++ rest) :
    code = s.code c.functions c'.frame ∧ c'.tokens = rest ∧ c'.Sound := by
  have hsame := CompileM.statementWith_congr htokens CompileM.block (pure {})
  obtain ⟨c1, hrun, rfl⟩ := Steady.run_muted (hsame.symm.trans h) hquiet
  obtain ⟨hreads, hcode⟩ := @Run.simpleStatement _ _ _ _ _ rest hrun htokens
  have hmuted : c.muted.Sound :=
    ⟨hsound.dense, hsound.capacity, hsound.apart, hsound.nodup, hsound.labels⟩
  have hsound' := hreads.sound hmuted
  refine ⟨hcode c1.frame hsound'.within, ?_, ?_⟩
  · exact (List.append_cancel_left (htokens.symm.trans hreads.tokens)).symm
  · exact ⟨hsound'.dense, hsound'.capacity, hsound'.apart, hsound'.nodup, hsound'.labels⟩

end Ia32.C

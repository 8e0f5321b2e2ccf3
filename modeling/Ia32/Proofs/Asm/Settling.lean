import Ia32.Proofs.Asm.LineText

/-!
# Written instructions never stop the assembler

Numbers may be too large to be read back, but their text does not overflow. So the line of an
instruction is read in any case: as an instruction with the same operation, or as nothing with
a remark.
-/

namespace Ia32.Asm

/-! ### Readings that settle -/

/-- A reading does not overflow, and what it reads is good. -/
def Settles {α : Type} (reading : Reading α) (good : α → Prop) : Prop :=
  ∃ outcome, reading.run = .ok outcome ∧ ∀ a, outcome = .ok a → good a

namespace Settles

variable {α β : Type} {reading : Reading α} {good : α → Prop}

theorem pure {a : α} (h : good a) : Settles (pure a) good :=
  ⟨.ok a, rfl, fun _ heq => by cases heq; exact h⟩

theorem throw (refusal : Refusal) : Settles (throw refusal) good :=
  ⟨.error refusal, rfl, fun _ heq => by cases heq⟩

/-- What follows a reading only has to settle on what is read. -/
theorem bind (h : Settles reading good) {next : α → Reading β} {good' : β → Prop}
    (hnext : ∀ a, good a → Settles (next a) good') : Settles (reading >>= next) good' := by
  obtain ⟨outcome, hrun, hgood⟩ := h
  cases outcome with
  | error refusal =>
      refine ⟨.error refusal, ?_, fun _ heq => by cases heq⟩
      rw [ExceptT.run_bind, hrun]
      rfl
  | ok a =>
      obtain ⟨outcome, hrest, hgood'⟩ := hnext a (hgood a rfl)
      refine ⟨outcome, ?_, hgood'⟩
      rw [ExceptT.run_bind, hrun]
      exact hrest

end Settles

/-! ### Instructions -/

theorem settles_readOperand {a : Operand String} (h : Writable a) :
    Settles (readOperand (a.render id).toList) fun _ => True := by
  by_cases hreadable : Readable a
  · rw [readOperand_render hreadable]
    exact .pure trivial
  · -- every other operand is a number that does not fit
    cases a with
    | imm v =>
        have hnone : number? (toString v).toList = .ok none :=
          number?_toString_of_lt (Nat.lt_of_not_le hreadable)
        rw [Operand.render, readOperand_number hnone]
        exact .throw _
    | label name => exact absurd h hreadable
    | _ => exact absurd trivial hreadable

theorem settles_readOperands {args : List (Operand String)} (h : ∀ a ∈ args, Writable a) :
    Settles (readOperands (args.map fun a => (a.render id).toList)) fun _ => True := by
  induction args with
  | nil => exact .pure trivial
  | cons a rest ih =>
      have hrest := ih fun b hb => h b (List.mem_cons_of_mem a hb)
      exact (settles_readOperand (h a List.mem_cons_self)).bind fun _ _ =>
        hrest.bind fun _ _ => .pure trivial

theorem settles_readInstr {i : Instr String} (h : WritableInstr i) :
    Settles (readInstr i.op.name.toList (operandText i)) fun j => j.op = i.op := by
  unfold readInstr
  rw [ofName?_mnemonic]
  dsimp only
  rw [splitOperands_operandText h, pure_bind]
  refine (settles_readOperands h).bind fun args _ => ?_
  split
  · exact .pure rfl
  · exact .throw _

/-- The line of an instruction is read: it has no label, and its statement has the operation of
the instruction unless it is refused. -/
theorem exists_read_instr {i : Instr String} (h : WritableInstr i) (number : Nat) :
    ∃ line complaints,
      Line.read number ("  ".toList ++ i.text.toList) = .ok (line, complaints) ∧
        line.label = none ∧
        ∀ statement, line.statement = some statement → ∃ args, statement = .instr ⟨i.op, args⟩ := by
  obtain ⟨hcode, hlabel⟩ := code_instr h
  have hread : Settles (Statement.read i.text.toList) fun statement? =>
      ∃ args, statement? = some (.instr ⟨i.op, args⟩) := by
    rw [read_text h]
    refine (settles_readInstr h).bind fun j hop => .pure ⟨j.args, ?_⟩
    rw [← hop]
  obtain ⟨outcome, hrun, hgood⟩ := hread
  generalize "  ".toList ++ i.text.toList = source at hcode ⊢
  cases outcome with
  | error refusal =>
      refine ⟨⟨number, String.ofList source, none, none⟩, [⟨.syntactic, number, refusal.message⟩],
        ?_, rfl, by simp⟩
      simp only [Line.read, hcode, Line.splitLabel, hlabel, hrun]
      rfl
  | ok statement? =>
      obtain ⟨args, rfl⟩ := hgood statement? rfl
      refine ⟨⟨number, String.ofList source, none, some (.instr ⟨i.op, args⟩)⟩, [], ?_, rfl, ?_⟩
      · simp only [Line.read, hcode, Line.splitLabel, hlabel, hrun]
        rfl
      · rintro statement heq
        cases heq
        exact ⟨args, rfl⟩

end Ia32.Asm

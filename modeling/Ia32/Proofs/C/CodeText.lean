import Ia32.Proofs.C.AssemblyText
import Ia32.Proofs.Outcome

/-!
# Rendered code is read back verbatim

Every item of generated code is written on a line of its own. The assembler reads the
lines back as the same labels and instructions, in the same order and with their numbers.
-/

namespace Ia32.C

open Asm

/-- The line that the assembler makes of an item with a given number. -/
def Item.line (number : Nat) (item : Item) : Line where
  number := number
  source := match item with
    | .label name => name ++ ":"
    | .instr i => "  " ++ i.text
  label := item.contents.1
  statement := item.contents.2

theorem Item.renderItem_eq (number : Nat) (item : Item) :
    Code.renderItem item = (item.line number).source ++ "\n" := by
  cases item with
  | label name => rw [Code.renderItem, line, String.append_assoc]; rfl
  | instr i => rfl

/-- An item on the first line of a text is read as its line. -/
theorem Item.readFrom_renderItem {item : Item} (h : item.Readable) (number : Nat)
    (rest : List Char) {lines : List Line} {complaints : List Diagnostic}
    (hrest : Line.readFrom (number + 1) (Text.lines rest) = .ok (lines, complaints)) :
    Line.readFrom number (Text.lines ((Code.renderItem item).toList ++ rest)) =
      .ok (item.line number :: lines, complaints) := by
  obtain ⟨w, htext, hcontents⟩ := exists_written_item h
  have hsource : w.text = (item.line number).source.toList := by
    rw [item.renderItem_eq number, String.toList_append] at htext
    exact (List.append_cancel_right htext).symm
  have hline : (⟨number, String.ofList w.text, w.label, w.statement⟩ : Line) =
      item.line number := by
    rw [hsource, String.ofList_toList]
    obtain ⟨hlabel, hstatement⟩ := Prod.mk.inj hcontents
    rw [hlabel, hstatement]
    rfl
  rw [htext, List.append_assoc, List.singleton_append, Text.lines_append _ w.noEnd, Line.readFrom,
    w.readsAs number, hline, ok_bind]
  simp only [hrest, ok_bind, List.nil_append]
  rfl

theorem readFrom_render (number : Nat) {items : List Item} (h : ∀ item ∈ items, item.Readable) :
    Line.readFrom number (Text.lines (items.flatMap fun item => (Code.renderItem item).toList)) =
      .ok (items.mapIdx fun index item => item.line (number + index), []) := by
  induction items generalizing number with
  | nil => rfl
  | cons item rest ih =>
      have hrest := ih (number + 1) fun other hother => h other (List.mem_cons_of_mem _ hother)
      rw [List.flatMap_cons, Item.readFrom_renderItem (h item List.mem_cons_self) number _ hrest]
      simp only [List.mapIdx_cons, Nat.add_zero, Nat.add_assoc, Nat.add_comm 1]

/-- Rendered code is read back verbatim: without remarks, one line for each item, numbered
from one, with exactly the label or the instruction of the item. -/
theorem readAll_render (code : Code) (h : ∀ item ∈ code.items, item.Readable) :
    Line.readAll code.render =
      .ok (code.items.mapIdx fun index item => item.line (index + 1), []) := by
  have htext : code.render.toList =
      code.items.flatMap fun item => (Code.renderItem item).toList := by
    rw [Code.render, String.toList_join, List.flatMap_map]
  rw [Line.readAll, htext, readFrom_render 1 h]
  simp only [Nat.add_comm 1]

/-- A label may be named like a directive, and the extreme numbers survive. -/
theorem readAll_render_extremes :
    Line.readAll (⟨[.label "db", .instr ⟨.mov, [.mem ⟨.esp, -2147483648⟩,
        .imm (-9223372036854775807)]⟩, .instr ⟨.jmp, [.label "db"]⟩]⟩ : Code).render =
      .ok ([⟨1, "db:", some "db", none⟩,
        ⟨2, "  mov [esp-2147483648], -9223372036854775807", none,
          some (.instr ⟨.mov, [.mem ⟨.esp, -2147483648⟩, .imm (-9223372036854775807)]⟩)⟩,
        ⟨3, "  jmp db", none, some (.instr ⟨.jmp, [.label "db"]⟩)⟩], []) := by
  refine (readAll_render _ ?_).trans (congrArg Except.ok (by decide +kernel))
  intro item hitem
  simp only [List.mem_cons, List.not_mem_nil, or_false] at hitem
  rcases hitem with rfl | rfl | rfl
  · exact (by decide : isName "db".toList = true)
  · exact ⟨rfl, by simp [Readable]⟩
  · exact ⟨rfl, by simpa [Readable] using (by decide : isName "db".toList = true ∧ _)⟩

end Ia32.C

import Ia32.C.Program
import Ia32.Proofs.Asm.DataText

/-!
# The text of a compilation is read back

The assembler reads the text of generated code as that code, and the lines of string
constants as their bytes with a zero byte behind each.
-/

namespace Ia32.C

open Asm

/-! ### Lines of generated code -/

/-- Code that can be written and read back. -/
def Item.Readable : Item → Prop
  | .label name => isName name.toList = true
  | .instr i => ReadableInstr i

/-- What the assembler makes of the line of an item. -/
def Item.contents : Item → Option String × Option Statement
  | .label name => (some name, none)
  | .instr i => (none, some (.instr i))

theorem exists_written_item {item : Item} (h : item.Readable) :
    ∃ w : Written, (Code.renderItem item).toList = w.text ++ ['\n'] ∧
      (w.label, w.statement) = item.contents := by
  cases item with
  | label name =>
      have hcolon : Unquoted [':'] := by decide
      have hend := ((plain_of_isName h).solid.unquoted.append hcolon).noEnd
      exact ⟨⟨_, _, _, readsAs_label h, hend⟩, by simp [Code.renderItem], rfl⟩
  | instr i =>
      have hspaces : Unquoted "  ".toList := by decide
      have hend := (hspaces.append (unquoted_text h.writable)).noEnd
      exact ⟨⟨_, _, _, readsAs_instr h, hend⟩, by simp [Code.renderItem], rfl⟩

/-! ### Lines of string constants -/

/-- What the assembler makes of the line of a string constant. -/
def constantContents (constant : String × String) : Option String × Option Statement :=
  (some constant.1, some (.bytes (utf8Bytes constant.2 ++ [0])))

theorem exists_written_constant {name : String} (hname : isName name.toList = true)
    (content : String) :
    ∃ w : Written, (dataLine name content ++ "\n").toList = w.text ++ ['\n'] ∧
      (w.label, w.statement) = constantContents (name, content) := by
  have hfront : ∀ c ∈ name.toList ++ ": db ".toList, c ≠ '\n' ∧ c ≠ '\r' := by
    have hmiddle : Unquoted ": db ".toList := by decide
    exact ((plain_of_isName hname).solid.unquoted.append hmiddle).noEnd
  -- both quoted forms, which differ in the quote only
  have hquoted {quote : Char} (hquote : quote = '\'' ∨ quote = '"')
      (hcontent : quote ∉ content.toList)
      (hline : ∀ c ∈ content.toList, c ≠ '\n' ∧ c ≠ '\r') :
      ∃ w : Written, w.text = name.toList ++ ": db ".toList ++
          (quote :: (content.toList ++ [quote])) ∧
        (w.label, w.statement) = constantContents (name, content) := by
    have hcomment : dropComment none (quote :: (content.toList ++ [quote])) =
        quote :: (content.toList ++ [quote]) := by
      simpa [dropComment] using (passed_quoted hquote hcontent).comment []
    have hread := readsAs_bytes hname (trimmed_quoted hquote content.toList) (by simp) hcomment
      (readBytes_quoted hquote hcontent)
    refine ⟨⟨_, _, _, hread, ?_⟩, rfl, rfl⟩
    intro c hc
    rcases List.mem_append.mp hc with hc | hc
    · exact hfront c hc
    · simp only [List.mem_cons, List.mem_append, List.not_mem_nil, or_false] at hc
      rcases hc with rfl | hc | rfl
      · rcases hquote with rfl | rfl <;> decide
      · exact hline c hc
      · rcases hquote with rfl | rfl <;> decide
  unfold dataLine
  dsimp only
  split
  next h =>
    simp only [Bool.and_eq_true, Bool.not_eq_true', Bool.or_eq_false_iff] at h
    obtain ⟨w, htext, hcontents⟩ := hquoted (.inl rfl) (by simpa using h.2)
      (fun c hc => ⟨by rintro rfl; simp [hc] at h, by rintro rfl; simp [hc] at h⟩)
    exact ⟨w, by simp [htext], hcontents⟩
  next =>
    split
    next h =>
      simp only [Bool.and_eq_true, Bool.not_eq_true', Bool.or_eq_false_iff] at h
      obtain ⟨w, htext, hcontents⟩ := hquoted (.inr rfl) (by simpa using h.2)
        (fun c hc => ⟨by rintro rfl; simp [hc] at h, by rintro rfl; simp [hc] at h⟩)
      exact ⟨w, by simp [htext], hcontents⟩
    next =>
      have hbytes : utf8Bytes content ++ [0] ≠ [] := by simp
      obtain ⟨htrimmed, hfull⟩ := trimmed_byteText (utf8Bytes content ++ [0])
      have hunquoted := unquoted_byteText (utf8Bytes content ++ [0])
      have hread := readsAs_bytes hname htrimmed (hfull hbytes) (dropComment_eq_self hunquoted)
        (readBytes_byteText hbytes)
      refine ⟨⟨_, _, _, hread, ?_⟩, by simp [byteText], rfl⟩
      intro c hc
      rcases List.mem_append.mp hc with hc | hc
      · exact hfront c hc
      · exact hunquoted.noEnd c hc

/-- The line of a string constant is a single line, and it is read back without remarks as the
name of the constant with the bytes of its text and a zero byte behind them. -/
theorem dataLine_verbatim {name : String} (hname : isName name.toList = true)
    (content : String) :
    (∀ c ∈ (dataLine name content).toList, c ≠ '\n' ∧ c ≠ '\r') ∧
      ∀ number, Line.read number (dataLine name content).toList =
        .ok (⟨number, dataLine name content, some name,
          some (.bytes (utf8Bytes content ++ [0]))⟩, []) := by
  obtain ⟨w, htext, hcontents⟩ := exists_written_constant hname content
  have hline : (dataLine name content).toList = w.text := by
    rw [String.toList_append] at htext
    exact List.append_cancel_right htext
  obtain ⟨hlabel, hstatement⟩ := Prod.mk.inj hcontents
  refine ⟨fun c hc => w.noEnd c (hline ▸ hc), fun number => ?_⟩
  rw [hline, w.readsAs number, hlabel, hstatement, ← hline, String.ofList_toList]

/-- A text with both quotes, a comma, the mark of a comment, both line ends and a character of
several bytes. -/
theorem dataLine_verbatim_bytes :
    isName "s1".toList = true ∧
      (∀ c ∈ (dataLine "s1" "'\",;\r\né").toList, c ≠ '\n' ∧ c ≠ '\r') ∧
        Line.read 7 (dataLine "s1" "'\",;\r\né").toList =
          .ok (⟨7, dataLine "s1" "'\",;\r\né", some "s1",
            some (.bytes [39, 34, 44, 59, 13, 10, 195, 169, 0])⟩, []) := by
  have hname : isName "s1".toList = true := by decide
  obtain ⟨hline, hread⟩ := dataLine_verbatim hname "'\",;\r\né"
  exact ⟨hname, hline, hread 7⟩

/-! ### The whole text -/

/-- What the assembler makes of the string constants and the code of a program. -/
def assemblyContents (constants : List (String × String)) (code : Code) :
    List (Option String × Option Statement) :=
  (if constants.isEmpty then []
    else (none, some (.select .data)) :: constants.map constantContents) ++
    (none, some (.select .text)) :: code.items.map Item.contents

theorem exists_written_section (sect : Section) :
    ∃ w : Written, ("section ." ++ sect.name ++ "\n").toList = w.text ++ ['\n'] ∧
      (w.label, w.statement) = (none, some (.select sect)) := by
  have hread : ReadsAs ("section ." ++ sect.name).toList none (some (.select sect)) := by
    intro number
    cases sect <;> rfl
  have hend : Unquoted ("section ." ++ sect.name).toList := by cases sect <;> decide
  exact ⟨⟨_, _, _, hread, hend.noEnd⟩, by simp, rfl⟩

/-- The text of a compilation is read without remarks. -/
theorem readAll_assembly {constants : List (String × String)} {code : Code}
    (hconstants : ∀ constant ∈ constants, isName constant.1.toList = true)
    (hcode : ∀ item ∈ code.items, item.Readable) :
    ∃ lines, Line.readAll (dataSection constants ++ "section .text\n" ++ code.render) =
        .ok (lines, []) ∧ lines.map Line.contents = assemblyContents constants code := by
  obtain ⟨text, htext, htextContents⟩ := exists_written_section .text
  obtain ⟨data, hdata, hdataContents⟩ := exists_written_section .data
  obtain ⟨items, hitems, hitemContents⟩ := exists_written_list fun item hitem =>
    exists_written_item (hcode item hitem)
  obtain ⟨stored, hstored, hstoredContents⟩ := exists_written_list fun constant hconstant =>
    exists_written_constant (hconstants constant hconstant) constant.2
  have hcodeText : ("section .text\n" ++ code.render).toList = writtenText (text :: items) := by
    rw [String.toList_append, Code.render, String.toList_join, List.flatMap_map, hitems]
    exact congrArg (· ++ writtenText items) htext
  have hdataText : (dataSection constants).toList =
      writtenText (if constants.isEmpty then [] else data :: stored) := by
    unfold dataSection
    split
    · rfl
    · rw [String.toList_append, String.toList_join, List.flatMap_map, hstored]
      exact congrArg (· ++ writtenText stored) hdata
  have hsource : (dataSection constants ++ "section .text\n" ++ code.render).toList =
      writtenText ((if constants.isEmpty then [] else data :: stored) ++ text :: items) := by
    rw [writtenText_append, ← hdataText, ← hcodeText, String.append_assoc, String.toList_append]
  obtain ⟨lines, hlines, hcontents⟩ := readAll_written hsource
  refine ⟨lines, hlines, hcontents.trans ?_⟩
  rw [List.map_append, List.map_cons, hitemContents, htextContents, assemblyContents]
  congr 1
  split
  · rfl
  · rw [List.map_cons, hstoredContents, hdataContents]

end Ia32.C

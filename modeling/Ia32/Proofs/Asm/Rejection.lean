import Ia32.Proofs.Asm.Footprint
import Ia32.Proofs.Asm.LineText
import Ia32.Proofs.Asm.References
import Ia32.Proofs.Text.Lines

/-!
# Rejected lines

A line of source is rejected when its statement is refused, when it is an instruction in the
data, or when it is an instruction without an encoding. Rejected lines count for their labels
only: the program is the one of the source without their statements. None of them is silent:
there is one error for each, and one for each label that is no name.
-/

namespace Ia32.Asm

/-! ### What is rejected -/

namespace Line

/-- The label in front of a line of source, and the text of its statement. -/
def parts (content : List Char) : Option (List Char) × List Char :=
  splitLabel (Text.trim (dropComment none content))

/-- The label of a line of source, if it is a name. -/
def name? (content : List Char) : Option (List Char) :=
  (parts content).1.filter isName

/-- The statement of a line of source, or why it is refused. -/
def verdict (content : List Char) : Checked (Except Refusal (Option Statement)) :=
  (Statement.read (parts content).2).run

end Line

/-- Why a line of source is rejected. -/
inductive Rejection where
  | refused (reason : Refusal)
  | misplaced
  | unencodable (reason : EncodingError)
  deriving DecidableEq, Repr

/-- The remark about a rejected line. -/
def Rejection.diagnostic (number : Nat) : Rejection → Diagnostic
  | .refused reason => ⟨.syntactic, number, reason.message⟩
  | .misplaced => ⟨.semantic, number, "Instruction in data section"⟩
  | .unencodable reason => ⟨.semantic, number, reason.message⟩

/-- Why a line in a section is rejected, if it is. -/
def rejection? (sect : Section) (content : List Char) : Option Rejection :=
  match Line.verdict content with
  | .ok (.error reason) => some (.refused reason)
  | .ok (.ok (some (.instr i))) =>
      if sect = .data then some .misplaced
      else
        match i.size with
        | .ok _ => none
        | .error reason => some (.unencodable reason)
  | _ => none

/-- The section behind a line of source. -/
def sectionBehind (sect : Section) (content : List Char) : Section :=
  match Line.verdict content with
  | .ok (.ok (some (.select s))) => s
  | _ => sect

/-- The rejected lines of a source with their numbers, when the first line stands in a section
and has a number. -/
def rejections : Section → Nat → List (List Char) → List (Nat × Rejection)
  | _, _, [] => []
  | sect, number, content :: rest =>
      ((rejection? sect content).map fun reason => (number, reason)).toList ++
        rejections (sectionBehind sect content) (number + 1) rest

/-- The labels that are no names, with the numbers of their lines. -/
def malformedLabels : Nat → List (List Char) → List (Nat × List Char)
  | _, [] => []
  | number, content :: rest =>
      (((Line.parts content).1.filter (!isName ·)).map fun label => (number, label)).toList ++
        malformedLabels (number + 1) rest

/-- The remark about a label that is no name. -/
def invalidLabel (number : Nat) (label : List Char) : Diagnostic :=
  ⟨.syntactic, number, "Invalid label: `" ++ String.ofList label ++ "`"⟩

/-- What is left of a rejected line: its label if it is a name, else nothing. -/
def labelOnly (content : List Char) : List Char :=
  match Line.name? content with
  | some name => name ++ [':']
  | none => []

/-- Lines without the statements of those that are rejected. -/
def isolated : Section → List (List Char) → List (List Char)
  | _, [] => []
  | sect, content :: rest =>
      (if (rejection? sect content).isSome then labelOnly content else content) ::
        isolated (sectionBehind sect content) rest

/-- A source without the statements of its rejected lines. Every line keeps its ending. -/
def isolate (source : String) : String :=
  String.ofList (Text.replaceLines source.toList (isolated .text (Text.lines source.toList)))

/-- Only the refused statement and the last line, which is rejected and has no label, are left
out; the carriage return is part of an ending. -/
example : isolate "a: nop 1\r\nsection .data\nx: db 2\nret" = "a:\r\nsection .data\nx: db 2\n" := by
  decide +kernel

/-! ### Lines that are read -/

namespace Line

theorem labelDiagnostics_eq (number : Nat) (label? : Option (List Char)) :
    labelDiagnostics number label? =
      (((label?.filter (!isName ·)).map fun label => (number, label)).toList).map
        fun malformed => invalidLabel malformed.1 malformed.2 := by
  cases label? with
  | none => rfl
  | some label =>
      cases hname : isName label <;> simp [labelDiagnostics, hname, invalidLabel, Option.filter]

/-- What reading a line of source gives. -/
theorem read_eq_ok {number : Nat} {content : List Char} {line : Line}
    {complaints : List Diagnostic} (h : read number content = .ok (line, complaints)) :
    line.number = number ∧ line.label = (name? content).map String.ofList ∧
      ((∃ reason, verdict content = .ok (.error reason) ∧ line.statement = none ∧
          complaints = labelDiagnostics number (parts content).1 ++
            [⟨.syntactic, number, reason.message⟩]) ∨
        ∃ statement, verdict content = .ok (.ok statement) ∧ line.statement = statement ∧
          complaints = labelDiagnostics number (parts content).1) := by
  obtain ⟨outcome, hverdict, h⟩ := bind_eq_ok.mp h
  split at h
  next statement =>
    cases h
    exact ⟨rfl, rfl, .inr ⟨statement, hverdict, rfl, rfl⟩⟩
  next reason =>
    cases h
    exact ⟨rfl, rfl, .inl ⟨reason, hverdict, rfl, rfl⟩⟩

/-- What is left of a rejected line is read as its label. -/
theorem read_labelOnly (number : Nat) (content : List Char) :
    read number (labelOnly content) =
      .ok (⟨number, String.ofList (labelOnly content), (name? content).map String.ofList, none⟩,
        []) := by
  unfold labelOnly
  cases hname : name? content with
  | none => rfl
  | some name =>
      have hvalid : isName (String.ofList name).toList = true := by
        rw [name?, Option.filter_eq_some_iff] at hname
        simpa using hname.2
      have hreads := readsAs_label hvalid number
      simpa using hreads

end Line

namespace Assembler

theorem extent?_none {sect : Section} {line : Line} (h : line.statement = none) :
    extent? sect line = none := by
  simp only [extent?, measure, h]

theorem nextSection_none {sect : Section} {line : Line} (h : line.statement = none) :
    nextSection sect line = sect := by
  simp only [nextSection, h]

/-- The section behind a line that is read. -/
theorem nextSection_of_read {number : Nat} {content : List Char} {line : Line}
    {complaints : List Diagnostic} (h : Line.read number content = .ok (line, complaints))
    (sect : Section) : nextSection sect line = sectionBehind sect content := by
  unfold nextSection sectionBehind
  obtain ⟨-, -, ⟨reason, hverdict, hstatement, -⟩ | ⟨statement, hverdict, hstatement, -⟩⟩ :=
    Line.read_eq_ok h
  · rw [hverdict, hstatement]
  · rw [hverdict, hstatement]
    cases statement with
    | none => rfl
    | some statement => cases statement <;> rfl

/-- A rejected line emits nothing and stays in its section. -/
theorem extent?_of_rejection {number : Nat} {content : List Char} {line : Line}
    {complaints : List Diagnostic} (h : Line.read number content = .ok (line, complaints))
    {sect : Section} {reason : Rejection} (hrejection : rejection? sect content = some reason) :
    extent? sect line = none ∧ nextSection sect line = sect := by
  obtain ⟨-, -, ⟨refusal, -, hstatement, -⟩ | ⟨statement, hverdict, hstatement, -⟩⟩ :=
    Line.read_eq_ok h
  · exact ⟨extent?_none hstatement, nextSection_none hstatement⟩
  · rw [rejection?, hverdict] at hrejection
    cases statement with
    | none => cases hrejection
    | some statement =>
        cases statement with
        | select s => cases hrejection
        | bytes b => cases hrejection
        | instr i =>
            refine ⟨?_, by simp only [nextSection, hstatement]⟩
            cases hextent : extent? sect line with
            | none => rfl
            | some n =>
                obtain ⟨rfl, hsize⟩ := extent?_instr hstatement hextent
                simp [hsize] at hrejection

/-! ### The program without the rejected statements -/

/-- Lines without the statements of those that are rejected are read, and agree in what counts.
An empty last line may be missing. -/
theorem alike_isolated {sect : Section} {number : Nat} {contents kept : List (List Char)}
    {lines : List Line} {complaints : List Diagnostic}
    (hread : Line.readFrom number contents = .ok (lines, complaints))
    (hkept : kept = isolated sect contents ∨ isolated sect contents = kept ++ [[]]) :
    ∃ lines' complaints', Line.readFrom number kept = .ok (lines', complaints') ∧
      Alike sect lines lines' := by
  induction contents generalizing sect number kept lines complaints with
  | nil =>
      cases hread
      rcases hkept with rfl | hkept
      · exact ⟨[], [], rfl, .nil⟩
      · simp [isolated] at hkept
  | cons content rest ih =>
      obtain ⟨line, remarks, others, otherRemarks, hline, hrest, rfl, rfl⟩ :=
        Line.readFrom_cons_eq_ok hread
      have hnext := nextSection_of_read hline sect
      -- the line that stands in its place
      obtain ⟨line', remarks', hline', hnumber, hlabel, hextent, hnext', hstatement⟩ :
          ∃ line' remarks', Line.read number
              (if (rejection? sect content).isSome then labelOnly content else content) =
                .ok (line', remarks') ∧
            line'.number = line.number ∧ line'.label = line.label ∧
            extent? sect line' = extent? sect line ∧
            nextSection sect line' = nextSection sect line ∧
            (extent? sect line ≠ none → line'.statement = line.statement) := by
        cases hrejection : rejection? sect content with
        | none => exact ⟨line, remarks, hline, rfl, rfl, rfl, rfl, fun _ => rfl⟩
        | some reason =>
            obtain ⟨hextent, hsame⟩ := extent?_of_rejection hline hrejection
            obtain ⟨hnumber, hlabel, -⟩ := Line.read_eq_ok hline
            exact ⟨_, _, Line.read_labelOnly number content, hnumber.symm, hlabel.symm,
              hextent.symm, hsame.symm, fun h => absurd hextent h⟩
      have hcons {kept : List (List Char)}
          (hkept : kept = isolated (sectionBehind sect content) rest ∨
          isolated (sectionBehind sect content) rest = kept ++ [[]]) :
          ∃ lines' complaints', Line.readFrom number
              ((if (rejection? sect content).isSome then labelOnly content else content) :: kept) =
                .ok (lines', complaints') ∧ Alike sect (line :: others) lines' := by
        obtain ⟨others', otherRemarks', hrest', halike⟩ := ih hrest hkept
        refine ⟨line' :: others', remarks' ++ otherRemarks', ?_,
          .cons hnumber hlabel hextent hnext' hstatement (hnext ▸ halike)⟩
        simp only [Line.readFrom, hline', hrest', ok_bind]
        rfl
      rw [isolated] at hkept
      rcases hkept with rfl | hkept
      · exact hcons (.inl rfl)
      · cases kept with
        | cons content' kept =>
            obtain ⟨rfl, hrest'⟩ := List.cons.inj hkept
            exact hcons (.inr hrest')
        | nil =>
            -- the last line is empty, and may be missing because an empty line counts for nothing
            obtain ⟨hempty, hlast⟩ := List.cons.inj hkept
            have hblank : Line.read number [] = .ok (⟨number, "", none, none⟩, []) := rfl
            rw [hempty, hblank] at hline'
            cases hline'
            cases rest with
            | cons next rest => cases hlast
            | nil =>
                cases hrest
                exact ⟨[], [], rfl, .gone hlabel.symm hextent.symm hnext'.symm⟩

/-! ### Errors -/

/-- The remarks about lines that cannot be measured where they stand. -/
def misfits : Section → List Line → List Diagnostic
  | _, [] => []
  | sect, line :: rest =>
      (match measure sect line with
        | .error complaint => [⟨.semantic, line.number, complaint⟩]
        | .ok _ => []) ++ misfits (nextSection sect line) rest

/-- That a name is defined again is a warning. -/
theorem DefinesLabel.errors {sect : Section} {line : Line} {a a' : Assembler}
    (h : DefinesLabel sect line a a') :
    a'.diagnostics.filter Diagnostic.isError = a.diagnostics.filter Diagnostic.isError := by
  cases h with
  | unlabelled hlabel => rfl
  | free hlabel hfree hroom => rfl
  | again hlabel hfound => exact (List.filter_append _ _).trans (List.append_nil _)

theorem ExtendsSection.errors {sect : Section} {line : Line} {a a' : Assembler}
    (h : ExtendsSection sect line a a') :
    a'.diagnostics.filter Diagnostic.isError =
      a.diagnostics.filter Diagnostic.isError ++ misfits sect [line] := by
  unfold misfits
  cases h with
  | misfit hmeasure =>
      rw [hmeasure]
      exact List.filter_append _ _
  | silent hmeasure =>
      rw [hmeasure]
      exact (List.append_nil _).symm
  | longer hmeasure hroom =>
      rw [hmeasure]
      exact (List.append_nil _).symm

/-- The first pass has one error for each line that cannot be measured. -/
theorem errors_layoutLines {sect : Section} {lines : List Line} {a a' : Assembler}
    (h : layoutLines sect lines a = .ok () a') :
    a'.diagnostics.filter Diagnostic.isError =
      a.diagnostics.filter Diagnostic.isError ++ misfits sect lines := by
  induction lines generalizing sect a with
  | nil =>
      cases h
      exact (List.append_nil _).symm
  | cons line rest ih =>
      obtain ⟨_, b, hline, h⟩ := action_bind_eq_ok.mp h
      obtain ⟨c, hdefines, hextends⟩ := layoutLine_eq_ok hline
      rw [ih h, hextends.errors, hdefines.errors, List.append_assoc]
      simp only [misfits, List.append_nil]

/-- The errors of a program: what cannot be read, and what cannot be measured. -/
theorem Finished.errors {source : String} {config : Config} {lines : List Line}
    {complaints : List Diagnostic} {a : Assembler} {externs : SymbolTable} {asm : Assembly}
    {scope : Scope} {e : Emission} (hread : Line.readAll source = .ok (lines, complaints))
    (hlayout : layout lines { ofConfig config with diagnostics := complaints } = .ok () a)
    (h : Finished a lines externs asm scope e) :
    asm.diagnostics.filter Diagnostic.isError = complaints ++ misfits .text lines := by
  have hsyntactic : complaints.filter Diagnostic.isError = complaints := by
    refine List.filter_eq_self.mpr fun d hd => ?_
    rw [Diagnostic.isError, (Line.numbers_of_readFrom hread).2 d hd]
    rfl
  have hnames : ((lines.zip a.sizes.toList).flatMap (undefinedNames scope)).filter
      Diagnostic.isError = [] := by
    refine List.filter_eq_nil_iff.mpr fun d hd => ?_
    obtain ⟨entry, -, hd⟩ := List.mem_flatMap.mp hd
    obtain ⟨name, -, -, rfl⟩ := mem_undefinedNames.mp hd
    simp [Diagnostic.isError, undefinedName]
  have hentry : (findEntry a.labels a.config.entry lines.length).2.filter Diagnostic.isError =
      [] := by
    refine List.filter_eq_nil_iff.mpr fun d hd => ?_
    simp [Diagnostic.isError, (entry_remark hd).1]
  rw [h.result]
  dsimp only
  rw [emitLines_diagnostics h.emitted, List.filter_append, List.filter_append, hnames, hentry,
    List.append_nil, List.append_nil, errors_layoutLines hlayout]
  exact congrArg (· ++ misfits .text lines) hsyntactic

/-- The errors about one line that is read: what is refused is remarked when it is read, and
what is misplaced or has no encoding when it is laid out. -/
theorem perm_errors_line {sect : Section} {number : Nat} {content : List Char} {line : Line}
    {remarks : List Diagnostic} (h : Line.read number content = .ok (line, remarks)) :
    (remarks ++ misfits sect [line]).Perm
      (((rejection? sect content).map fun reason => reason.diagnostic number).toList ++
        Line.labelDiagnostics number (Line.parts content).1) := by
  obtain ⟨hnumber, -,
    ⟨reason, hverdict, hstatement, rfl⟩ | ⟨statement, hverdict, hstatement, rfl⟩⟩ :=
    Line.read_eq_ok h
  · simp only [misfits, measure, rejection?, hverdict, hstatement, List.append_nil]
    exact List.perm_append_comm
  · refine .trans (.of_eq (congrArg (_ ++ ·) ?_)) List.perm_append_comm
    simp only [misfits, measure, rejection?, hverdict, hstatement, hnumber, List.append_nil]
    cases statement with
    | none => rfl
    | some statement =>
        cases statement with
        | select s => rfl
        | bytes b => rfl
        | instr i =>
            cases sect with
            | data => rfl
            | text =>
                simp only [reduceCtorEq, if_false]
                cases i.size <;> rfl

/-- Every rejected line has one error, and so has every label that is no name. -/
theorem perm_errors {sect : Section} {number : Nat} {contents : List (List Char)}
    {lines : List Line} {complaints : List Diagnostic}
    (hread : Line.readFrom number contents = .ok (lines, complaints)) :
    (complaints ++ misfits sect lines).Perm
      (((rejections sect number contents).map fun r => r.2.diagnostic r.1) ++
        (malformedLabels number contents).map fun malformed =>
          invalidLabel malformed.1 malformed.2) := by
  induction contents generalizing sect number lines complaints with
  | nil =>
      cases hread
      exact .refl _
  | cons content rest ih =>
      obtain ⟨line, remarks, others, otherRemarks, hline, hrest, rfl, rfl⟩ :=
        Line.readFrom_cons_eq_ok hread
      have hothers := @ih (nextSection sect line) _ _ _ hrest
      rw [nextSection_of_read hline sect] at hothers
      have hfirst := @perm_errors_line sect _ _ _ _ hline
      rw [Line.labelDiagnostics_eq] at hfirst
      have hsplit : misfits sect (line :: others) =
          misfits sect [line] ++ misfits (sectionBehind sect content) others := by
        rw [← nextSection_of_read hline sect]
        simp only [misfits, List.append_nil]
      have hrejection : ((rejection? sect content).map fun reason => (number, reason)).toList.map
          (fun r => r.2.diagnostic r.1) =
            ((rejection? sect content).map fun reason => reason.diagnostic number).toList := by
        cases rejection? sect content <;> rfl
      rw [hsplit, rejections, malformedLabels, List.map_append, List.map_append, hrejection]
      -- the two sides list the errors of the first line at different places, so they are counted
      rw [List.perm_iff_count] at hfirst hothers ⊢
      intro d
      have hfirst := hfirst d
      have hothers := hothers d
      simp only [List.count_append] at hfirst hothers ⊢
      omega

/-- A rejected line emits nothing. -/
theorem extent?_of_mem_rejections {sect : Section} {number : Nat} {contents : List (List Char)}
    {lines : List Line} {complaints : List Diagnostic}
    (hread : Line.readFrom number contents = .ok (lines, complaints)) {r : Nat × Rejection}
    (h : r ∈ rejections sect number contents) :
    ∃ k line, r.1 = number + k ∧ lines[k]? = some line ∧ line.number = r.1 ∧
      extent? (sectionAfter sect (lines.take k)) line = none := by
  induction contents generalizing sect number lines complaints with
  | nil => cases h
  | cons content rest ih =>
      obtain ⟨line, remarks, others, otherRemarks, hline, hrest, rfl, rfl⟩ :=
        Line.readFrom_cons_eq_ok hread
      rcases List.mem_append.mp h with h | h
      · rw [Option.mem_toList, Option.map_eq_some_iff] at h
        obtain ⟨reason, hrejection, rfl⟩ := h
        exact ⟨0, line, rfl, rfl, (Line.read_eq_ok hline).1,
          (extent?_of_rejection hline hrejection).1⟩
      · rw [← nextSection_of_read hline sect] at h
        obtain ⟨k, found, hnumber, hfound, hsame, hextent⟩ := ih hrest h
        exact ⟨k + 1, found, by omega, hfound, hsame, hextent⟩

end Assembler

/-! ### The source without the rejected statements -/

theorem isContent_labelOnly (content : List Char) : Text.IsContent (labelOnly content) := by
  unfold labelOnly
  cases hname : Line.name? content with
  | none => exact ⟨by simp, by simp⟩
  | some name =>
      have hvalid : isName name = true := by
        rw [Line.name?, Option.filter_eq_some_iff] at hname
        exact hname.2
      refine ⟨fun hmem => ?_, by simp⟩
      rcases List.mem_append.mp hmem with hmem | hmem
      · exact absurd (isNameChar_of_isName hvalid _ hmem) (by decide)
      · simp at hmem

theorem replaces_isolated (sect : Section) (contents : List (List Char)) :
    List.Forall₂ Text.Replaces contents (isolated sect contents) := by
  induction contents generalizing sect with
  | nil => exact .nil
  | cons content rest ih =>
      refine .cons ?_ (ih _)
      split
      · exact .inr (isContent_labelOnly content)
      · exact .inl rfl

open Assembler

/-- Rejected lines are isolated and never silent. Leaving out their statements changes neither
the program, apart from its remarks and its listing, nor the fatal condition. The errors of a
program are one for each rejected line and one for each label that is no name, and the listing
shows neither an address nor bytes for a rejected line. -/
theorem assemble_isolate {source : String} {lines : List Line} {complaints : List Diagnostic}
    (hread : Line.readAll source = .ok (lines, complaints)) (config : Config)
    (externs : SymbolTable) :
    (assemble (isolate source) config externs).map Assembly.bare =
        (assemble source config externs).map Assembly.bare ∧
      ∀ asm, assemble source config externs = .ok asm →
        (asm.diagnostics.filter Diagnostic.isError).Perm
            (((rejections .text 1 (Text.lines source.toList)).map fun r => r.2.diagnostic r.1) ++
              (malformedLabels 1 (Text.lines source.toList)).map fun malformed =>
                invalidLabel malformed.1 malformed.2) ∧
          ∀ r ∈ rejections .text 1 (Text.lines source.toList),
            ∃ l, asm.listing[r.1 - 1]? = some l ∧ l.line = r.1 ∧ l.address = none ∧
              l.bytes = [] := by
  constructor
  · have hkept : Text.lines (isolate source).toList = isolated .text (Text.lines source.toList) ∨
        isolated .text (Text.lines source.toList) = Text.lines (isolate source).toList ++ [[]] := by
      rw [isolate, String.toList_ofList]
      exact Text.lines_replaceLines (replaces_isolated _ _)
    obtain ⟨lines', complaints', hread', halike⟩ := alike_isolated hread hkept
    exact (bare_assemble hread hread' halike config externs).symm
  · intro asm hasm
    obtain ⟨a, scope, e, hlayout, hfinished⟩ := assemble_lines_eq_ok hread hasm
    refine ⟨(hfinished.errors hread hlayout) ▸ perm_errors hread, fun r hr => ?_⟩
    obtain ⟨k, line, hnumber, hline, hsame, hextent⟩ := extent?_of_mem_rejections hread hr
    have hentries := (hfinished.described hlayout).entries
    obtain ⟨l, hl⟩ := exists_entry hentries.1 hline
    have hshows := hentries.2 k line l hline hl
    have haddress : l.address = none := by simpa [hextent] using hshows.size
    refine ⟨l, ?_, hshows.number.trans hsame, haddress, hshows.silent haddress⟩
    rwa [hnumber, Nat.add_sub_cancel_left]

/-- A source whose lines are rejected for every reason, some of them with labels. -/
def rejectingText : String :=
  "a: mov 1, eax\r\nsection .data\n9: call a\nx: db 256\nsection .text\n_start: jmp x\nb: nop"

theorem assemble_isolate_rejecting :
    (rejections .text 1 (Text.lines rejectingText.toList)).map Prod.fst = [1, 3, 4, 7] ∧
      malformedLabels 1 (Text.lines rejectingText.toList) = [(3, ['9'])] ∧
    ∃ asm, assemble rejectingText {} {} = .ok asm ∧
      (assemble (isolate rejectingText) {} {}).map Assembly.bare = .ok asm.bare ∧
      (asm.diagnostics.filter Diagnostic.isError).Perm
          (((rejections .text 1 (Text.lines rejectingText.toList)).map fun r =>
            r.2.diagnostic r.1) ++
            (malformedLabels 1 (Text.lines rejectingText.toList)).map fun malformed =>
              invalidLabel malformed.1 malformed.2) ∧
        ∀ r ∈ rejections .text 1 (Text.lines rejectingText.toList),
          ∃ l, asm.listing[r.1 - 1]? = some l ∧ l.line = r.1 ∧ l.address = none ∧ l.bytes = [] := by
  refine ⟨by decide +kernel, by decide +kernel, ?_⟩
  have hok : (assemble rejectingText {} {}).isOk = true := by decide +kernel
  cases hasm : assemble rejectingText {} {} with
  | error e => simp [hasm, Except.isOk, Except.toBool] at hok
  | ok asm =>
      obtain ⟨lines, complaints, -, -, -, hread, -⟩ := assemble_eq_ok hasm
      obtain ⟨hsame, hrest⟩ := assemble_isolate hread {} {}
      rw [hasm] at hsame
      exact ⟨asm, rfl, hsame, hrest asm hasm⟩

end Ia32.Asm

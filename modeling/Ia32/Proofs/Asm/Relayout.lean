import Ia32.Proofs.Asm.Rejection
import Ia32.Proofs.Asm.SymbolMap

/-!
# Laying out the same lines again

A layout keeps the labels and the remarks of the layouts before it. When it goes over the same
lines again, every label is defined already and keeps its first definition, sizes and lengths
come out as before, and no capacity is exceeded that was not. So another layout only adds
remarks, and a program does not depend on how often its lines were laid out.
-/

namespace Ia32.Asm

/-- A program with remarks in front of its own. -/
def Assembly.prepend (front : List Diagnostic) (asm : Assembly) : Assembly :=
  { asm with diagnostics := front ++ asm.diagnostics }

namespace Assembler

/-- The remarks of a layout of lines whose labels are all defined: that the label of a line is
defined again, after its first definition, and that a line cannot be measured where it stands. -/
def repeats (first : String → Label) : Section → List Line → List Diagnostic
  | _, [] => []
  | sect, line :: rest =>
      (line.label.map fun name => redefined name line.number (first name)).toList ++
        misfits sect [line] ++ repeats first (nextSection sect line) rest

/-- Lays out lines a number of times. -/
def layoutTimes (lines : List Line) : Nat → LayoutM Unit
  | 0 => return
  | n + 1 => do
      layout lines
      layoutTimes lines n

/-- The state behind lines whose labels are all defined. -/
def passed (first : String → Label) (sect : Section) (lines : List Line) (a : Assembler) :
    Assembler :=
  { a with
    diagnostics := a.diagnostics ++ repeats first sect lines
    sizes := a.sizes ++ extents sect lines
    codeLength := a.codeLength + lengthIn .text sect lines
    dataLength := a.dataLength + lengthIn .data sect lines }

/-- All labels of lines are defined. -/
def Defined (first : String → Label) (lines : List Line) (labels : Labels) : Prop :=
  ∀ line ∈ lines, ∀ name ∈ line.label, labels.get? name = some (first name)

/-- There is room for lines behind what is laid out already. -/
structure Fits (sect : Section) (lines : List Line) (a : Assembler) : Prop where
  code : a.codeLength + lengthIn .text sect lines ≤ a.config.limits.code
  data : a.dataLength + lengthIn .data sect lines ≤ a.config.limits.data

/-- Nothing of a layout of lines is left to do. -/
structure Settled (first : String → Label) (lines : List Line) (a : Assembler) : Prop where
  labels : Defined first lines a.labels
  sizes : a.sizes = (extents .text lines).toArray
  codeLength : a.codeLength = lengthIn .text .text lines
  dataLength : a.dataLength = lengthIn .data .text lines
  code : a.codeLength ≤ a.config.limits.code
  data : a.dataLength ≤ a.config.limits.data

variable {first : String → Label} {sect : Section} {line : Line} {lines : List Line}
  {a : Assembler}

/-! ### Lines whose labels are defined -/

/-- A label that is there already stays as it was, with a remark. -/
theorem defineLabel_defined (h : Defined first [line] a.labels) :
    defineLabel sect line a = .ok () { a with diagnostics := a.diagnostics ++
      (line.label.map fun name => redefined name line.number (first name)).toList } := by
  unfold defineLabel
  cases hlabel : line.label with
  | none =>
      dsimp only [Option.map_none, Option.toList_none]
      rw [List.append_nil]
      rfl
  | some name =>
      have hfound : a.labels.get? name = some (first name) :=
        h line List.mem_cons_self name hlabel
      dsimp only
      rw [get_bind]
      simp only [Labels.define, hfound]
      rfl

/-- A line that has been laid out before is passed over. -/
theorem layoutLine_defined (hlabels : Defined first [line] a.labels) (hfits : Fits sect [line] a) :
    layoutLine sect line a = .ok () (passed first sect [line] a) := by
  obtain ⟨hcode, hdata⟩ := hfits
  unfold layoutLine
  refine action_bind_eq_ok.mpr ⟨(), _, defineLabel_defined hlabels, ?_⟩
  have hextent : extents sect [line] = [extent? sect line] := rfl
  simp only [passed, repeats, misfits, hextent, lengthIn_singleton, List.append_nil,
    ← List.append_assoc] at hcode hdata ⊢
  cases hmeasure : measure sect line with
  | error complaint =>
      have hnone : extent? sect line = none := by rw [extent?, hmeasure]
      simp only [hnone, Option.getD_none, ite_self, Nat.add_zero]
      rfl
  | ok size? =>
      have hsize : extent? sect line = size? := by rw [extent?, hmeasure]
      rw [hsize] at hcode hdata ⊢
      simp only [List.append_nil]
      cases size? with
      | none =>
          simp only [Option.getD_none, ite_self, Nat.add_zero]
          rfl
      | some size =>
          have hroom : a.lengthOf sect + size ≤ a.config.limits.room sect := by
            cases sect with
            | text => exact hcode
            | data => exact hdata
          exact action_bind_eq_ok.mpr ⟨(), _, extend_eq_ok.mpr ⟨hroom, rfl⟩, rfl⟩

theorem lengthIn_cons (target sect : Section) (line : Line) (rest : List Line) :
    lengthIn target sect (line :: rest) =
      lengthIn target sect [line] + lengthIn target (nextSection sect line) rest := rfl

theorem passed_cons (line : Line) (rest : List Line) :
    passed first (nextSection sect line) rest (passed first sect [line] a) =
      passed first sect (line :: rest) a := by
  have hextents : extents sect (line :: rest) =
      extents sect [line] ++ extents (nextSection sect line) rest := rfl
  simp only [passed, lengthIn_cons _ _ line rest, hextents, repeats, List.append_nil,
    List.append_assoc, Nat.add_assoc]
  rfl

/-- Lines whose labels are all defined are laid out when there is room for them. -/
theorem layoutLines_defined (hlabels : Defined first lines a.labels) (hfits : Fits sect lines a) :
    layoutLines sect lines a = .ok () (passed first sect lines a) := by
  induction lines generalizing sect a with
  | nil =>
      simp only [passed, repeats, extents, lengthIn, List.append_nil, Nat.add_zero]
      rfl
  | cons line rest ih =>
      obtain ⟨hline, hrest⟩ := List.forall_mem_cons.mp hlabels
      obtain ⟨hcode, hdata⟩ := hfits
      -- room for all lines is room for the first, and behind it for the others
      rw [lengthIn_cons, ← Nat.add_assoc] at hcode hdata
      unfold layoutLines
      refine action_bind_eq_ok.mpr ⟨(), passed first sect [line] a, layoutLine_defined ?_ ?_, ?_⟩
      · exact fun other hother => (List.mem_singleton.mp hother) ▸ hline
      · exact ⟨Nat.le_of_add_right_le hcode, Nat.le_of_add_right_le hdata⟩
      · have hdefined : Defined first rest (passed first sect [line] a).labels := hrest
        exact passed_cons line rest ▸ ih hdefined ⟨hcode, hdata⟩

/-! ### Repeated layouts -/

theorem Settled.remarked (h : Settled first lines a) (remarks : List Diagnostic) :
    Settled first lines { a with diagnostics := remarks } :=
  ⟨h.labels, h.sizes, h.codeLength, h.dataLength, h.code, h.data⟩

/-- Another layout of the same lines only adds remarks. -/
theorem layout_settled (h : Settled first lines a) :
    layout lines a =
      .ok () { a with diagnostics := a.diagnostics ++ repeats first .text lines } := by
  have hfits : Fits .text lines { a with sizes := #[], codeLength := 0, dataLength := 0 } := by
    refine ⟨?_, ?_⟩
    · simpa [← h.codeLength] using h.code
    · simpa [← h.dataLength] using h.data
  have hlabels : Defined first lines
      ({ a with sizes := #[], codeLength := 0, dataLength := 0 } : Assembler).labels := h.labels
  refine (layoutLines_defined hlabels hfits).trans ?_
  simp [passed, h.sizes, h.codeLength, h.dataLength]

/-- What one more layout keeps, any number of layouts keeps. -/
theorem layoutTimes_settled (h : Settled first lines a) (n : Nat) :
    layoutTimes lines n a = .ok () { a with diagnostics := a.diagnostics ++
      (List.replicate n (repeats first .text lines)).flatten } := by
  induction n generalizing a with
  | zero =>
      simp only [List.replicate_zero, List.flatten_nil, List.append_nil]
      rfl
  | succ n ih =>
      unfold layoutTimes
      refine action_bind_eq_ok.mpr ⟨(), _, layout_settled h, ?_⟩
      rw [ih (h.remarked _)]
      simp [List.replicate_succ]

/-! ### The first layout -/

/-- Behind a layout the label of every line is defined, by the first line with this label. -/
theorem LaidOut.get?_of_label {a' : Assembler} (h : LaidOut .text lines a a')
    (hempty : a.labels.entries = []) (hline : line ∈ lines) {name : String}
    (hlabel : line.label = some name) :
    ∃ label k found, a'.labels.get? name = some label ∧ FirstDefinition lines name k found ∧
      label.line = found.number := by
  obtain ⟨k, found, hfirst⟩ := exists_firstDefinition hline hlabel
  let place := sectionAfter .text (lines.take k)
  let label : Label :=
    ⟨place, a.lengthOf place + lengthIn place .text (lines.take k), found.number⟩
  have hlookup : (definitions a.lengthOf .text lines).lookup name = some label :=
    lookup_definitions.mpr ⟨k, found, hfirst, rfl, rfl, rfl⟩
  refine ⟨label, k, found, Labels.get?_of_mem (h.nodup_names hempty) ?_, hfirst, rfl⟩
  rw [h.labels, hempty]
  exact mem_enter_iff.mpr (.inr ⟨rfl, hlookup⟩)

/-- The first layout leaves nothing to do. -/
theorem settled_of_layout {config : Config} (h : layout lines (ofConfig config) = .ok () a) :
    ∃ first, Settled first lines a ∧ ∀ line ∈ lines, ∀ name ∈ line.label,
      ∃ k found, FirstDefinition lines name k found ∧ (first name).line = found.number := by
  have hlaid := layout_eq_ok h
  have hlimits := hlaid.withinLimits (withinLimits_ofConfig config [])
  have hcode : a.codeLength = lengthIn .text .text lines := lengthOf_of_layout h .text
  have hdata : a.dataLength = lengthIn .data .text lines := lengthOf_of_layout h .data
  have hdefined {line : Line} (hline : line ∈ lines) {name : String} (hname : name ∈ line.label) :=
    hlaid.get?_of_label rfl hline hname
  refine ⟨fun name => (a.labels.get? name).getD ⟨.text, 0, 0⟩,
    ⟨?_, ?_, hcode, hdata, hlimits.code, hlimits.data⟩, ?_⟩
  · intro line hline name hname
    obtain ⟨label, -, -, hlabel, -⟩ := hdefined hline hname
    simp [hlabel]
  · rw [← sizes_of_layout h]
  · intro line hline name hname
    obtain ⟨label, k, found, hlabel, hfirst, hnumber⟩ := hdefined hline hname
    refine ⟨k, found, hfirst, ?_⟩
    simpa [hlabel] using hnumber

/-- The errors among the remarks of a repeated layout. -/
theorem errors_repeats : (repeats first sect lines).filter Diagnostic.isError =
    misfits sect lines := by
  induction lines generalizing sect with
  | nil => rfl
  | cons line rest ih =>
      have hlabel : (line.label.map fun name =>
          redefined name line.number (first name)).toList.filter Diagnostic.isError = [] := by
        cases line.label <;> rfl
      have hmisfits : (misfits sect [line]).filter Diagnostic.isError = misfits sect [line] := by
        unfold misfits
        cases measure sect line <;> rfl
      rw [repeats, List.filter_append, List.filter_append, hlabel, hmisfits, ih]
      simp only [misfits, List.nil_append, List.append_nil]

/-- The other remarks of a repeated layout are about the labels of its lines, one for each. -/
theorem warnings_repeats : ((repeats first sect lines).filter fun d => !d.isError) =
    lines.filterMap fun line =>
      line.label.map fun name => redefined name line.number (first name) := by
  induction lines generalizing sect with
  | nil => rfl
  | cons line rest ih =>
      have hmisfits : ((misfits sect [line]).filter fun d => !d.isError) = [] := by
        unfold misfits
        cases measure sect line <;> rfl
      rw [repeats, List.filter_append, List.filter_append, hmisfits, List.append_nil, ih,
        List.filterMap_cons]
      cases line.label <;> rfl

/-! ### Emission behind more remarks -/

/-- An emission with remarks in front of its own. -/
def Emission.prepend (front : List Diagnostic) (e : Emission) : Emission :=
  { e with diagnostics := front ++ e.diagnostics }

theorem emitBytes_prepend (scope : Scope) (front : List Diagnostic) (e : Emission) (line : Line)
    (bytes : Bytes) :
    emitBytes scope (e.prepend front) line bytes =
      (emitBytes scope e line bytes).map (Emission.prepend front) := by
  have hsect : (e.prepend front).sect = e.sect := rfl
  unfold emitBytes
  rw [hsect]
  cases e.sect with
  | text =>
      dsimp only [Emission.prepend]
      cases ofChecked (Word.offset scope.textBase e.code.size) <;> rfl
  | data =>
      dsimp only [Emission.prepend]
      cases ofChecked (Word.offset scope.dataBase e.data.size) <;> rfl

theorem emitInstr_prepend (scope : Scope) (front : List Diagnostic) (e : Emission) (line : Line)
    (i : Instr String) (expected : Nat) :
    emitInstr scope (e.prepend front) line i expected =
      (emitInstr scope e line i expected).map (Emission.prepend front) := by
  unfold emitInstr
  dsimp only [Emission.prepend]
  cases ofChecked (Word.offset scope.textBase e.code.size) with
  | error x => rfl
  | ok addr =>
      simp only [ok_bind]
      cases ofChecked (scope.resolveAll i.labels) with
      | error x => rfl
      | ok resolved =>
          simp only [ok_bind]
          cases (i.resolve (addressIn resolved)).encode addr with
          | error cause => rfl
          | ok bytes =>
              dsimp only
              split
              next =>
                rw [List.append_assoc]
                rfl
              next => rfl

theorem emitLine_prepend (scope : Scope) (front : List Diagnostic) (e : Emission) (line : Line)
    (size : Option Nat) :
    emitLine scope (e.prepend front) line size =
      (emitLine scope e line size).map (Emission.prepend front) := by
  unfold emitLine
  split
  next bytes n hline => exact emitBytes_prepend scope front e line bytes
  next i expected hline => exact emitInstr_prepend scope front e line i expected
  next => rfl

/-- Remarks that were there before make no difference to the emission. -/
theorem emitLines_prepend (scope : Scope) (front : List Diagnostic) (e : Emission)
    (lines : List (Line × Option Nat)) :
    emitLines scope (e.prepend front) lines =
      (emitLines scope e lines).map (Emission.prepend front) := by
  induction lines generalizing e with
  | nil => rfl
  | cons entry rest ih =>
      obtain ⟨line, size⟩ := entry
      rw [emitLines, emitLines, emitLine_prepend]
      cases emitLine scope e line size with
      | error x => rfl
      | ok next => exact ih next

/-- An emission does not read the remarks in front of it. -/
theorem emit_prepend (a : Assembler) (lines : List Line) (externs : SymbolTable)
    (front : List Diagnostic) :
    ({ a with diagnostics := front ++ a.diagnostics } : Assembler).emit lines externs =
      (a.emit lines externs).map (Assembly.prepend front) := by
  unfold emit
  dsimp only
  cases ofChecked a.config.layout.textBase with
  | error x => rfl
  | ok textBase =>
      cases ofChecked (a.config.layout.dataBase a.codeLength) with
      | error x => rfl
      | ok dataBase =>
          simp only [ok_bind]
          have hemit := emitLines_prepend ⟨a.labels, externs, textBase, dataBase⟩ front
            { diagnostics := a.diagnostics } (lines.zip a.sizes.toList)
          rw [Emission.prepend] at hemit
          rw [hemit]
          cases emitLines ⟨a.labels, externs, textBase, dataBase⟩ { diagnostics := a.diagnostics }
              (lines.zip a.sizes.toList) with
          | error x => rfl
          | ok e =>
              simp only [Except.map, ok_bind]
              dsimp only [Emission.prepend]
              by_cases hlength : e.code.size = a.codeLength
              · simp only [hlength, ne_eq, not_true_eq_false, if_false, List.append_assoc]
                rfl
              · simp only [hlength, ne_eq, not_false_eq_true, if_true]
                rfl

/-- A program is the one that is emitted without the remarks so far, behind these. -/
theorem emit_eq_prepend (a : Assembler) (lines : List Line) (externs : SymbolTable) :
    a.emit lines externs =
      (({ a with diagnostics := [] } : Assembler).emit lines externs).map
        (Assembly.prepend a.diagnostics) := by
  simpa using emit_prepend { a with diagnostics := [] } lines externs a.diagnostics

/-- More remarks in front of an emission change neither its fatal condition nor its program. -/
theorem emit_remarked (a : Assembler) (lines : List Line) (externs : SymbolTable)
    (extra : List Diagnostic) :
    (∀ x, a.emit lines externs = .error x →
      ({ a with diagnostics := a.diagnostics ++ extra } : Assembler).emit lines externs =
        .error x) ∧
    ∀ asm, a.emit lines externs = .ok asm → ∃ own, asm.diagnostics = a.diagnostics ++ own ∧
      ({ a with diagnostics := a.diagnostics ++ extra } : Assembler).emit lines externs =
        .ok { asm with diagnostics := a.diagnostics ++ extra ++ own } := by
  have hbefore := emit_eq_prepend a lines externs
  have hafter := emit_eq_prepend { a with diagnostics := a.diagnostics ++ extra } lines externs
  cases hbare : ({ a with diagnostics := [] } : Assembler).emit lines externs with
  | error x =>
      rw [hbare] at hbefore hafter
      refine ⟨fun y hy => ?_, fun asm hasm => ?_⟩
      · cases hbefore.symm.trans hy
        exact hafter
      · cases hbefore.symm.trans hasm
  | ok own =>
      rw [hbare] at hbefore hafter
      refine ⟨fun y hy => ?_, fun asm hasm => ?_⟩
      · cases hbefore.symm.trans hy
      · cases hbefore.symm.trans hasm
        exact ⟨own.diagnostics, rfl, hafter⟩

/-- Laying out the same lines again changes nothing but the remarks. Any number of further
layouts succeeds, also when the table of labels is full, and leaves the same state; each of them
adds one warning for each line with a label, that it keeps the definition on the first line with
the label, and the errors that the first layout had. Emission ends in the same fatal condition as
after the first layout, or in the same program but for the added remarks. -/
theorem emit_layoutTimes {config : Config} (h : layout lines (ofConfig config) = .ok () a)
    (externs : SymbolTable) :
    ∃ first : String → Label,
      (∀ line ∈ lines, ∀ name ∈ line.label, ∃ k found, FirstDefinition lines name k found ∧
        (first name).line = found.number) ∧
      ((repeats first .text lines).filter fun d => !d.isError) =
        (lines.filterMap fun line =>
          line.label.map fun name => redefined name line.number (first name)) ∧
      (repeats first .text lines).filter Diagnostic.isError =
        a.diagnostics.filter Diagnostic.isError ∧
      ∀ n, ∃ b, layoutTimes lines n a = .ok () b ∧
        b = { a with diagnostics := a.diagnostics ++
          (List.replicate n (repeats first .text lines)).flatten } ∧
        (∀ x, a.emit lines externs = .error x → b.emit lines externs = .error x) ∧
        ∀ asm, a.emit lines externs = .ok asm → ∃ own, asm.diagnostics = a.diagnostics ++ own ∧
          b.emit lines externs = .ok { asm with diagnostics := b.diagnostics ++ own } := by
  obtain ⟨first, hsettled, hfirst⟩ := settled_of_layout h
  have herrors := errors_layoutLines h
  refine ⟨first, hfirst, warnings_repeats, errors_repeats.trans herrors.symm, fun n => ?_⟩
  exact ⟨_, layoutTimes_settled hsettled n, rfl, emit_remarked a lines externs _⟩

/-- Lines that define a label twice, with an instruction in the data, and a call of a name that
is found nowhere. -/
def twiceDefining : List Line :=
  [⟨1, "f: call g", some "f", some (.instr ⟨.call, [.label "g"]⟩)⟩,
    ⟨2, "section .data", none, some (.select .data)⟩,
    ⟨3, "x: pusha", some "x", some (.instr ⟨.pusha, []⟩)⟩,
    ⟨4, "f: db 7", some "f", some (.bytes [7])⟩]

/-- An assembler whose table of labels is full with two of them. -/
def twoLabels : Config :=
  { entry := "f", limits := { labels := 2 } }

theorem emit_layoutTimes_full : ∃ a, layout twiceDefining (ofConfig twoLabels) = .ok () a ∧
    a.labels.entries.length = a.labels.capacity ∧
    ∃ first : String → Label,
      (∀ line ∈ twiceDefining, ∀ name ∈ line.label, ∃ k found,
        FirstDefinition twiceDefining name k found ∧ (first name).line = found.number) ∧
      ((repeats first .text twiceDefining).filter fun d => !d.isError) =
        (twiceDefining.filterMap fun line =>
          line.label.map fun name => redefined name line.number (first name)) ∧
      (repeats first .text twiceDefining).filter Diagnostic.isError =
        a.diagnostics.filter Diagnostic.isError ∧
      ∀ n, ∃ b, layoutTimes twiceDefining n a = .ok () b ∧
        b = { a with diagnostics := a.diagnostics ++
          (List.replicate n (repeats first .text twiceDefining)).flatten } ∧
        (∀ x, a.emit twiceDefining {} = .error x → b.emit twiceDefining {} = .error x) ∧
        ∀ asm, a.emit twiceDefining {} = .ok asm → ∃ own, asm.diagnostics = a.diagnostics ++ own ∧
          b.emit twiceDefining {} = .ok { asm with diagnostics := b.diagnostics ++ own } := by
  have hlayout : ∃ a, layout twiceDefining (ofConfig twoLabels) = .ok () a ∧
      a.labels.entries.length = a.labels.capacity := ⟨_, rfl, rfl⟩
  obtain ⟨a, ha, hfull⟩ := hlayout
  exact ⟨a, ha, hfull, emit_layoutTimes ha {}⟩

end Assembler

end Ia32.Asm

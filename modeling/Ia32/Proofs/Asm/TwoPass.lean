import Ia32.Proofs.Asm.Emission

/-!
# The two passes agree

Layout and emission are two walks over the same lines. What the second one emits
has exactly the lengths that the first one computed, so the addresses given to
labels in between are the addresses of the bytes behind them. Beside a sum that
leaves its range, only an exhausted capacity leaves a source without a program.
-/

namespace Ia32.Asm

namespace Assembler

theorem withinLimits_ofConfig (config : Config) (complaints : List Diagnostic) :
    WithinLimits { ofConfig config with diagnostics := complaints } :=
  ⟨Nat.zero_le _, Nat.zero_le _, Nat.zero_le _, rfl⟩

/-- Emission after a layout of the same lines: the scope and the emitted bytes
behind the program. -/
structure Finished (a : Assembler) (lines : List Line) (externs : SymbolTable) (asm : Assembly)
    (scope : Scope) (e : Emission) : Prop where
  labels : scope.labels = a.labels
  externs : scope.externs = externs
  textBase : a.config.layout.textBase = .ok scope.textBase
  dataBase : a.config.layout.dataBase a.codeLength = .ok scope.dataBase
  emitted : emitLines scope { diagnostics := a.diagnostics } (lines.zip a.sizes.toList) = .ok e
  codeLength : e.code.size = a.codeLength
  result : asm = {
    code := e.code.toList
    data := e.data.toList
    labels := a.labels
    needsLibrary := e.needsLibrary
    diagnostics := e.diagnostics ++ (findEntry a.labels a.config.entry lines.length).2
    listing := e.listing.toList
    layout := a.config.layout
    entry := (findEntry a.labels a.config.entry lines.length).1 }

/-- What has been emitted is finished. -/
theorem emit_eq_ok {a : Assembler} {lines : List Line} {externs : SymbolTable} {asm : Assembly}
    (h : a.emit lines externs = .ok asm) : ∃ scope e, Finished a lines externs asm scope e := by
  unfold emit at h
  obtain ⟨textBase, htext, h⟩ := bind_eq_ok.mp h
  obtain ⟨dataBase, hdata, h⟩ := bind_eq_ok.mp h
  obtain ⟨e, hemit, h⟩ := bind_eq_ok.mp h
  by_cases hlength : e.code.size = a.codeLength
  · rw [if_neg (not_not_intro hlength)] at h
    cases h
    exact ⟨⟨a.labels, externs, textBase, dataBase⟩, e, rfl, rfl, ofChecked_eq_ok.mp htext,
      ofChecked_eq_ok.mp hdata, hemit, hlength, rfl⟩
  · rw [if_pos hlength] at h
    cases h

/-- Emission after a layout of the same lines never drifts and never meets an
instruction without encoding. -/
theorem emit_eq_error {a a' : Assembler} {lines : List Line} {externs : SymbolTable} {x : Error}
    (hlayout : layout lines a = .ok () a') (h : a'.emit lines externs = .error x) :
    x = .overflow := by
  unfold emit at h
  rcases bind_eq_error.mp h with h | ⟨textBase, -, h⟩
  · exact ofChecked_eq_error h
  rcases bind_eq_error.mp h with h | ⟨dataBase, -, h⟩
  · exact ofChecked_eq_error h
  rw [sizes_of_layout hlayout] at h
  rcases bind_eq_error.mp h with h | ⟨e, hemit, h⟩
  · exact emitLines_eq_error h
  have hcode : e.code.size = a'.codeLength := by
    have hsize := (emitLines_eq_ok hemit).codeSize
    have hlength : a'.codeLength = lengthIn .text .text lines := lengthOf_of_layout hlayout .text
    simpa [hlength] using hsize
  rw [if_neg (not_not_intro hcode)] at h
  cases h

/-- The second pass emits the lines with the sizes that the first one found. -/
theorem Finished.emitted_extents {a a' : Assembler} {lines : List Line} {externs : SymbolTable}
    {asm : Assembly} {scope : Scope} {e : Emission} (hlayout : layout lines a = .ok () a')
    (h : Finished a' lines externs asm scope e) :
    emitLines scope { diagnostics := a'.diagnostics } (lines.zip (extents .text lines)) = .ok e :=
  sizes_of_layout hlayout ▸ h.emitted

theorem Finished.dataLength {a a' : Assembler} {lines : List Line} {externs : SymbolTable}
    {asm : Assembly} {scope : Scope} {e : Emission} (hlayout : layout lines a = .ok () a')
    (hfinished : Finished a' lines externs asm scope e) : e.data.size = a'.dataLength := by
  have hsize := (emitLines_eq_ok (hfinished.emitted_extents hlayout)).dataSize
  have hlength : a'.dataLength = lengthIn .data .text lines := lengthOf_of_layout hlayout .data
  simpa [hlength] using hsize

end Assembler

open Assembler

/-- A successful assembly is a reading, a layout and an emission of the same lines. -/
theorem assemble_eq_ok {source : String} {config : Config} {externs : SymbolTable}
    {asm : Assembly} (h : assemble source config externs = .ok asm) :
    ∃ lines complaints a scope e, Line.readAll source = .ok (lines, complaints) ∧
      layout lines { ofConfig config with diagnostics := complaints } = .ok () a ∧
      Finished a lines externs asm scope e := by
  unfold assemble at h
  obtain ⟨⟨lines, complaints⟩, hread, h⟩ := bind_eq_ok.mp h
  dsimp only at h
  split at h
  · cases h
  case h_2 a hlayout =>
    obtain ⟨scope, e, hfinished⟩ := emit_eq_ok h
    exact ⟨lines, complaints, a, scope, e, ofChecked_eq_ok.mp hread, hlayout, hfinished⟩

/-- The same for a text whose lines are known. -/
theorem assemble_lines_eq_ok {source : String} {config : Config} {externs : SymbolTable}
    {asm : Assembly} {lines : List Line} {complaints : List Diagnostic}
    (hread : Line.readAll source = .ok (lines, complaints))
    (h : assemble source config externs = .ok asm) :
    ∃ a scope e, layout lines { ofConfig config with diagnostics := complaints } = .ok () a ∧
      Finished a lines externs asm scope e := by
  obtain ⟨lines', complaints', a, scope, e, hread', hlayout, hfinished⟩ := assemble_eq_ok h
  cases hread.symm.trans hread'
  exact ⟨a, scope, e, hlayout, hfinished⟩

/-- Assembling fails by an overflow or for want of room. -/
theorem assemble_eq_error {source : String} {config : Config} {externs : SymbolTable} {x : Error}
    (h : assemble source config externs = .error x) : x = .overflow ∨ x.isCapacity := by
  unfold assemble at h
  rcases bind_eq_error.mp h with h | ⟨⟨lines, complaints⟩, -, h⟩
  · exact .inl (ofChecked_eq_error h)
  dsimp only at h
  split at h
  case h_1 e a hlayout =>
    cases h
    exact .inr (layout_eq_error hlayout)
  case h_2 a hlayout => exact .inl (emit_eq_error hlayout h)

/-- Two-pass consistency. Unless a number or an address overflows, assembling can
only fail by exceeding a capacity. When it succeeds, both sections have the lengths
found by the layout, everything is within the limits, and the program places its
data where the emission resolved the labels of the data. -/
theorem assemble_twoPass (source : String) (config : Config) (externs : SymbolTable) :
    match assemble source config externs with
    | .error e => e = .overflow ∨ e.isCapacity
    | .ok asm => ∃ lines complaints a scope e, Line.readAll source = .ok (lines, complaints) ∧
        layout lines { ofConfig config with diagnostics := complaints } = .ok () a ∧
        Finished a lines externs asm scope e ∧
        asm.code.length = a.codeLength ∧ asm.data.length = a.dataLength ∧
        asm.code.length ≤ config.limits.code ∧ asm.data.length ≤ config.limits.data ∧
        asm.labels.entries.length ≤ config.limits.labels ∧
        asm.dataBase = .ok scope.dataBase := by
  split
  case h_1 e h => exact assemble_eq_error h
  case h_2 asm h =>
    obtain ⟨lines, complaints, a, scope, e, hread, hlayout, hfinished⟩ := assemble_eq_ok h
    have hlaid := layout_eq_ok hlayout
    have hlimits := hlaid.withinLimits (withinLimits_ofConfig config complaints)
    have hconfig : a.config = config := hlaid.config
    have hcode : asm.code.length = a.codeLength := by
      rw [hfinished.result]
      simpa using hfinished.codeLength
    have hdata : asm.data.length = a.dataLength := by
      rw [hfinished.result]
      simpa using hfinished.dataLength hlayout
    have hlabels : asm.labels = a.labels := by rw [hfinished.result]
    have hbase : asm.dataBase = .ok scope.dataBase := by
      have hlayout' : asm.layout = a.config.layout := by rw [hfinished.result]
      rw [Assembly.dataBase, hcode, hlayout']
      exact hfinished.dataBase
    rw [← hconfig]
    exact ⟨lines, complaints, a, scope, e, hread, hconfig ▸ hlayout, hfinished, hcode, hdata,
      hcode ▸ hlimits.code, hdata ▸ hlimits.data, hlabels ▸ hlimits.labels, hbase⟩

end Ia32.Asm

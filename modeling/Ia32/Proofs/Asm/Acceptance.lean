import Ia32.Image.Writer
import Ia32.Proofs.Asm.TwoPass
import Ia32.Proofs.Instruction.Decoding

/-!
# Texts that are assembled without complaint

Lines with distinct labels that can be measured where they stand are laid out without
a remark. With room for both sections in the address space, emission then succeeds, and
remarks only about names that are neither defined nor external.
-/

namespace Ia32

theorem Word.exists_offset (base : UInt32) (n : Nat) (h : base.toNat + n < 4294967296) :
    ∃ addr, Word.offset base n = .ok addr ∧ addr.toNat = base.toNat + n := by
  refine ⟨_, if_pos h, ?_⟩
  rw [UInt32.toNat_ofNat']
  omega

/-- Rounding up to whole pages. -/
theorem Abi.alignUp_pageSize {n : Nat} (h : n + pageSize < 4294967296) :
    ∃ k, alignUp n pageSize = .ok k ∧ k % pageSize = 0 ∧ n ≤ k ∧ k < n + pageSize := by
  unfold alignUp
  rw [if_neg (by decide), if_pos h]
  refine ⟨_, rfl, ?_⟩
  have hmask : (n + pageSize - 1) &&& (pageSize - 1) = (n + pageSize - 1) % 4096 :=
    Nat.and_two_pow_sub_one_eq_mod _ 12
  rw [hmask]
  simp only [pageSize]
  omega

namespace Asm

/-! ### Layout -/

namespace Assembler

/-- Every line can be measured where it stands, and bytes are in the data only. -/
def Orderly : Section → List Line → Prop
  | _, [] => True
  | sect, line :: rest =>
      (match line.statement with
        | none | some (.select _) => True
        | some (.bytes _) => sect = .data
        | some (.instr i) => sect = .text ∧ ∃ n, i.size = .ok n) ∧
      Orderly (nextSection sect line) rest

/-- An orderly line has a size. -/
theorem Orderly.measure {sect : Section} {line : Line} {rest : List Line}
    (h : Orderly sect (line :: rest)) : ∃ size, measure sect line = .ok size := by
  have hline := h.1
  unfold Assembler.measure
  cases hstatement : line.statement with
  | none => exact ⟨none, rfl⟩
  | some statement =>
      rw [hstatement] at hline
      cases statement with
      | select other => exact ⟨none, rfl⟩
      | bytes b => exact ⟨some b.length, rfl⟩
      | instr i =>
          obtain ⟨rfl, n, hn⟩ := hline
          exact ⟨some n, by simp [hn]⟩

/-- Orderly lines stay so behind others, in the section they find there. -/
theorem Orderly.append {sect : Section} {first second : List Line} (h : Orderly sect first)
    (h' : Orderly (sectionAfter sect first) second) : Orderly sect (first ++ second) := by
  induction first generalizing sect with
  | nil => exact h'
  | cons line rest ih => exact ⟨h.1, ih h.2 h'⟩

/-- The names of the labels defined so far. -/
def labelNames (a : Assembler) : List String :=
  a.labels.entries.map Prod.fst

theorem lookup_eq_none {entries : List (String × Label)} {name : String}
    (h : name ∉ entries.map Prod.fst) : entries.lookup name = none := by
  rw [List.lookup_eq_none_iff]
  intro entry hentry
  rw [bne_iff_ne]
  rintro rfl
  exact h (List.mem_map_of_mem hentry)

/-- The label of a line that is new is defined without a remark. -/
theorem DefinesLabel.fresh {sect : Section} {line : Line} {a a' : Assembler}
    (h : DefinesLabel sect line a a') (hfresh : ∀ name ∈ line.label, name ∉ a.labelNames) :
    a'.diagnostics = a.diagnostics ∧ a'.labelNames = a.labelNames ++ line.label.toList := by
  cases h with
  | unlabelled hlabel => simp [hlabel]
  | free hlabel hfree hroom => exact ⟨rfl, by simp [labelNames, hlabel]⟩
  | again hlabel hfound =>
      have hnone := lookup_eq_none (hfresh _ hlabel)
      cases hnone.symm.trans hfound

/-- A line that can be measured and defines a new label adds the label and no remark. -/
theorem layoutLine_fresh {sect : Section} {line : Line} {a a' : Assembler}
    (h : layoutLine sect line a = .ok () a') (hmeasure : ∃ size, measure sect line = .ok size)
    (hfresh : ∀ name ∈ line.label, name ∉ a.labelNames) :
    a'.diagnostics = a.diagnostics ∧ a'.labelNames = a.labelNames ++ line.label.toList := by
  obtain ⟨b, hdefines, hextends⟩ := layoutLine_eq_ok h
  obtain ⟨hremarks, hnames⟩ := hdefines.fresh hfresh
  rw [← hremarks, ← hnames]
  cases hextends with
  | misfit hmisfit =>
      obtain ⟨size, hsize⟩ := hmeasure
      cases hsize.symm.trans hmisfit
  | silent _ => exact ⟨rfl, rfl⟩
  | longer _ _ => exact ⟨rfl, rfl⟩

/-- Lines with new and distinct labels are laid out without a remark. -/
theorem layoutLines_fresh {sect : Section} {lines : List Line} {a a' : Assembler}
    (h : layoutLines sect lines a = .ok () a') (horderly : Orderly sect lines)
    (hfresh : (a.labelNames ++ lines.filterMap Line.label).Nodup) :
    a'.diagnostics = a.diagnostics ∧
      a'.labelNames = a.labelNames ++ lines.filterMap Line.label := by
  induction lines generalizing sect a with
  | nil =>
      cases h
      simp
  | cons line rest ih =>
      unfold layoutLines at h
      obtain ⟨_, b, hline, h⟩ := action_bind_eq_ok.mp h
      have hlabels : (line :: rest).filterMap Line.label =
          line.label.toList ++ rest.filterMap Line.label := by
        cases hlabel : line.label <;> simp [hlabel]
      rw [hlabels, ← List.append_assoc] at hfresh ⊢
      obtain ⟨hremarks, hnames⟩ := layoutLine_fresh hline horderly.measure <| by
        intro name hname hmem
        have hnodup := (List.nodup_append.mp hfresh).1
        exact (List.nodup_append.mp hnodup).2.2 name hmem name (by simpa using hname) rfl
      rw [← hremarks, ← hnames]
      exact ih h horderly.2 (hnames ▸ hfresh)

/-! ### Emission -/

/-- Every name can be resolved: no label is beyond the last address. -/
def Scope.Resolves (scope : Scope) : Prop :=
  ∀ name, ∃ resolution, scope.resolve name = .ok resolution

theorem Scope.Resolves.resolveAll {scope : Scope} (h : scope.Resolves) (names : List String) :
    ∃ resolved, scope.resolveAll names = .ok resolved := by
  induction names with
  | nil => exact ⟨[], rfl⟩
  | cons name rest ih =>
      obtain ⟨resolution, hname⟩ := h name
      obtain ⟨resolved, hrest⟩ := ih
      refine ⟨(name, resolution) :: resolved, ?_⟩
      rw [Scope.resolveAll, hname, ok_bind, hrest, ok_bind]
      rfl

theorem exists_emitInstr {scope : Scope} (hscope : scope.Resolves) {e : Emission} (line : Line)
    {i : Instr String} {n : Nat} (hsize : i.size = .ok n)
    (hroom : scope.textBase.toNat + e.code.size < 4294967296) :
    ∃ e', emitInstr scope e line i n = .ok e' := by
  obtain ⟨addr, haddr, -⟩ := Word.exists_offset _ _ hroom
  obtain ⟨resolved, hresolved⟩ := hscope.resolveAll i.labels
  have hagrees := i.encode_agrees (addressIn resolved) addr
  rw [hsize] at hagrees
  obtain ⟨bytes, hbytes, hlength⟩ := hagrees.length
  simp only [emitInstr, haddr, hresolved, ofChecked, ok_bind, hbytes, if_pos hlength]
  exact ⟨_, rfl⟩

/-- A line is emitted as long as its section ends below the end of the address space. -/
theorem exists_emitLine {scope : Scope} (hscope : scope.Resolves) {e : Emission} (line : Line)
    (htext : scope.textBase.toNat + e.code.size < 4294967296)
    (hdata : scope.dataBase.toNat + e.data.size < 4294967296) :
    ∃ e', emitLine scope e line (extent? e.sect line) = .ok e' := by
  unfold emitLine
  split
  next bytes n hline hsize =>
    unfold emitBytes
    split
    · obtain ⟨addr, haddr, -⟩ := Word.exists_offset _ _ htext
      rw [haddr]
      exact ⟨_, rfl⟩
    · obtain ⟨addr, haddr, -⟩ := Word.exists_offset _ _ hdata
      rw [haddr]
      exact ⟨_, rfl⟩
  next i n hline hsize => exact exists_emitInstr hscope line (extent?_instr hline hsize).2 htext
  next => exact ⟨_, rfl⟩

theorem exists_emitLines {scope : Scope} (hscope : scope.Resolves) {e : Emission}
    (lines : List Line)
    (htext : scope.textBase.toNat + e.code.size + lengthIn .text e.sect lines < 4294967296)
    (hdata : scope.dataBase.toNat + e.data.size + lengthIn .data e.sect lines < 4294967296) :
    ∃ e', emitLines scope e (lines.zip (extents e.sect lines)) = .ok e' := by
  induction lines generalizing e with
  | nil => exact ⟨e, rfl⟩
  | cons line rest ih =>
      obtain ⟨next, hline⟩ := exists_emitLine hscope line (e := e) (by omega) (by omega)
      have hfirst := emitLine_eq_ok hline
      have hsect : next.sect = nextSection e.sect line := hfirst.sect
      obtain ⟨e', hrest⟩ := ih (e := next)
        (by rw [hfirst.codeSize, hsect]; simp only [lengthIn] at htext ⊢; omega)
        (by rw [hfirst.dataSize, hsect]; simp only [lengthIn] at hdata ⊢; omega)
      exact ⟨e', by simp only [extents, List.zip_cons_cons, emitLines, hline, ok_bind,
        ← hsect, hrest]⟩

/-! ### Labels within their sections -/

/-- An entry of the table was there or has been defined. -/
theorem mem_enter {entries definitions : List (String × Label)} {d : String × Label}
    (h : d ∈ enter entries definitions) : d ∈ entries ∨ d ∈ definitions := by
  induction definitions generalizing entries with
  | nil => exact .inl h
  | cons first rest ih =>
      obtain ⟨name, label⟩ := first
      simp only [enter] at h
      split at h
      · exact (ih h).imp_right (List.mem_cons_of_mem _)
      · rcases ih h with h | h
        · rcases List.mem_append.mp h with h | h
          · exact .inl h
          · exact .inr (List.mem_cons.mpr (.inl (List.mem_singleton.mp h)))
        · exact .inr (List.mem_cons_of_mem _ h)

/-- No label is defined behind the end of its section. -/
theorem offset_le_of_mem_definitions {lengths : Section → Nat} {sect : Section}
    {lines : List Line} {d : String × Label} (h : d ∈ definitions lengths sect lines) :
    d.2.offset ≤ lengths d.2.sect + lengthIn d.2.sect sect lines := by
  induction lines generalizing lengths sect with
  | nil => cases h
  | cons line rest ih =>
      rcases List.mem_append.mp h with h | h
      · simp only [Option.mem_toList, Option.map_eq_some_iff] at h
        obtain ⟨name, -, rfl⟩ := h
        exact Nat.le_add_right _ _
      · have hle := ih h
        simp only [lengthIn] at hle ⊢
        omega

/-- After a layout every label is inside its section or at its end. -/
theorem LaidOut.offset_le {lines : List Line} {a a' : Assembler} (h : LaidOut .text lines a a')
    (hlabels : a.labels.entries = []) {d : String × Label} (hd : d ∈ a'.labels.entries) :
    d.2.offset ≤ a'.lengthOf d.2.sect := by
  rw [h.labels, hlabels] at hd
  rcases mem_enter hd with hd | hd
  · cases hd
  · rw [h.lengthOf]
    exact offset_le_of_mem_definitions hd

theorem mem_of_get? {labels : Labels} {name : String} {label : Label}
    (h : labels.get? name = some label) : (name, label) ∈ labels.entries := by
  obtain ⟨front, back, heq, -⟩ := List.lookup_eq_some_iff.mp h
  rw [heq]
  simp

/-- A label of the program stands for its distance from its section. -/
theorem Scope.resolve_of_get? {scope : Scope} {name : String} {label : Label}
    (hlabel : scope.labels.get? name = some label)
    (hroom : (scope.base label.sect).toNat + label.offset < 4294967296) :
    ∃ addr, scope.resolve name = .ok (.internal addr) ∧
      addr.toNat = (scope.base label.sect).toNat + label.offset := by
  obtain ⟨addr, haddr, hnat⟩ := Word.exists_offset _ _ hroom
  refine ⟨addr, ?_, hnat⟩
  obtain ⟨sect, offset, line⟩ := label
  unfold Scope.resolve Labels.address?
  rw [hlabel]
  cases sect with
  | text => exact (congrArg (·.map some >>= _) haddr).trans rfl
  | data => exact (congrArg (·.map some >>= _) haddr).trans rfl

/-- A name without a label is left to the symbols from outside. -/
theorem Scope.resolve_of_not_get? {scope : Scope} {name : String}
    (h : scope.labels.get? name = none) :
    scope.resolve name = .ok (match scope.externs.lookup? name with
      | some addr => .external addr
      | none => .undefined) := by
  unfold Scope.resolve Labels.address?
  rw [h, ok_bind]
  cases houtside : scope.externs.lookup? name <;> rfl

/-- Every name resolves where all labels lie below the end of the address space. -/
theorem Scope.resolves {scope : Scope}
    (h : ∀ d ∈ scope.labels.entries,
      (scope.base d.2.sect).toNat + d.2.offset < 4294967296) : scope.Resolves := by
  intro name
  cases hlabel : scope.labels.get? name with
  | none => exact ⟨_, Scope.resolve_of_not_get? hlabel⟩
  | some label =>
      obtain ⟨addr, haddr, -⟩ := Scope.resolve_of_get? hlabel (h _ (mem_of_get? hlabel))
      exact ⟨_, haddr⟩

end Assembler

/-- There is room for the sections of a program in the address space. -/
def Config.Roomy (config : Config) : Prop :=
  config.layout.base.toNat + 3 * Abi.pageSize + config.limits.code + config.limits.data <
    4294967296

namespace Assembler

/-- The addresses of both sections behind a layout. -/
theorem exists_bases {a : Assembler} (hroom : a.config.Roomy) (hlimits : a.WithinLimits) :
    ∃ textBase dataBase, a.config.layout.textBase = .ok textBase ∧
      a.config.layout.dataBase a.codeLength = .ok dataBase ∧
      textBase.toNat + a.codeLength < 4294967296 ∧
      dataBase.toNat + a.dataLength < 4294967296 := by
  have hcode := hlimits.code
  have hdata := hlimits.data
  simp only [Config.Roomy] at hroom
  obtain ⟨k, hk, -, -, hlt⟩ := Abi.alignUp_pageSize (n := a.codeLength) (by omega)
  obtain ⟨textBase, htext, htextNat⟩ :=
    Word.exists_offset a.config.layout.base Abi.pageSize (by omega)
  obtain ⟨dataBase, hdataBase, hdataNat⟩ := Word.exists_offset textBase k (by omega)
  refine ⟨textBase, dataBase, htext, ?_, by omega, by omega⟩
  simp only [Abi.Layout.dataBase, Abi.Layout.textBase, htext, hk, ok_bind, hdataBase]

/-- After a layout every label has an address. -/
theorem resolves_of_layout {config : Config} (hroom : config.Roomy) {lines : List Line}
    {complaints : List Diagnostic} {a : Assembler}
    (hlayout : layout lines { ofConfig config with diagnostics := complaints } = .ok () a)
    {scope : Scope} (hlabels : scope.labels = a.labels)
    (htext : a.config.layout.textBase = .ok scope.textBase)
    (hdata : a.config.layout.dataBase a.codeLength = .ok scope.dataBase) : scope.Resolves := by
  have hlaid := layout_eq_ok hlayout
  have hconfig : a.config = config := hlaid.config
  have hlimits := hlaid.withinLimits (withinLimits_ofConfig config complaints)
  obtain ⟨textBase, dataBase, htext', hdata', htextRoom, hdataRoom⟩ :=
    exists_bases (hconfig ▸ hroom) hlimits
  obtain rfl : textBase = scope.textBase := by simpa [htext'] using htext
  obtain rfl : dataBase = scope.dataBase := by simpa [hdata'] using hdata
  refine Scope.resolves fun d hd => ?_
  have hle := hlaid.offset_le rfl (hlabels ▸ hd)
  cases hsect : d.2.sect with
  | text => simp only [hsect, lengthOf, Scope.base] at hle ⊢; omega
  | data => simp only [hsect, lengthOf, Scope.base] at hle ⊢; omega

/-- Emission after a layout succeeds when there is room for the sections. -/
theorem exists_emit {config : Config} (hroom : config.Roomy) {lines : List Line}
    {complaints : List Diagnostic} {a : Assembler}
    (hlayout : layout lines { ofConfig config with diagnostics := complaints } = .ok () a)
    (externs : SymbolTable) : ∃ asm, a.emit lines externs = .ok asm := by
  have hlaid := layout_eq_ok hlayout
  have hconfig : a.config = config := hlaid.config
  have hlimits := hlaid.withinLimits (withinLimits_ofConfig config complaints)
  obtain ⟨textBase, dataBase, htext, hdata, htextRoom, hdataRoom⟩ :=
    exists_bases (hconfig ▸ hroom) hlimits
  have hcode : a.codeLength = lengthIn .text .text lines := lengthOf_of_layout hlayout .text
  have hdataLength : a.dataLength = lengthIn .data .text lines := lengthOf_of_layout hlayout .data
  have hscope : Scope.Resolves ⟨a.labels, externs, textBase, dataBase⟩ :=
    resolves_of_layout hroom hlayout rfl htext hdata
  obtain ⟨e, he⟩ := exists_emitLines hscope (e := { diagnostics := a.diagnostics }) lines
    (by simpa [hcode] using htextRoom) (by simpa [hdataLength] using hdataRoom)
  have hsize : e.code.size = a.codeLength := by
    have hemitted := (emitLines_eq_ok he).codeSize
    simpa [hcode] using hemitted
  simp only [emit, htext, hdata, sizes_of_layout hlayout, ofChecked, ok_bind, he, hsize, ne_eq,
    not_true_eq_false, if_false]
  exact ⟨_, rfl⟩

end Assembler

open Assembler

/-- With room for both sections only an exhausted capacity leaves a text that can be read
without a program. -/
theorem isCapacity_of_assemble {source : String} {config : Config} (hroom : config.Roomy)
    {externs : SymbolTable} {lines : List Line} {complaints : List Diagnostic}
    (hread : Line.readAll source = .ok (lines, complaints)) {x : Error}
    (h : assemble source config externs = .error x) : x.isCapacity := by
  unfold assemble at h
  simp only [hread, ofChecked, ok_bind] at h
  split at h
  case h_1 e a hlayout =>
    cases h
    exact layout_eq_error hlayout
  case h_2 a hlayout =>
    obtain ⟨asm, hasm⟩ := exists_emit hroom hlayout externs
    rw [hasm] at h
    cases h

/-! ### Remarks -/

namespace Assembler

theorem message_undefinedName (line : Nat) (name : String) :
    (undefinedName line name).message.toList.head? = some 'U' := by
  simp [undefinedName]

theorem message_redefined (name : String) (line : Nat) (previous : Label) :
    (redefined name line previous).message.toList.head? = some 'R' := by
  simp [redefined]

/-- The only remark about the entry is a warning. -/
theorem entry_remark {labels : Labels} {name : String} {lineCount : Nat} {d : Diagnostic}
    (h : d ∈ (findEntry labels name lineCount).2) :
    d.severity = .warning ∧ d.message.toList.head? = some 'E' := by
  unfold findEntry at h
  split at h
  next => cases h
  next =>
    rw [List.mem_singleton.mp h]
    simp
  next =>
    rw [List.mem_singleton.mp h]
    simp

/-- An undefined name is neither a label nor a symbol from outside. -/
theorem undefined_of_resolution {scope : Scope} {name : String}
    (h : scope.resolution name = .undefined) (hscope : scope.Resolves) :
    scope.labels.get? name = none ∧ scope.externs.lookup? name = none := by
  obtain ⟨resolution, hresolve⟩ := hscope name
  have hundefined : resolution = .undefined := by
    rw [← h, Scope.resolution, hresolve]
  subst hundefined
  cases hlabel : scope.labels.get? name with
  | some label =>
      exfalso
      unfold Scope.resolve Labels.address? at hresolve
      rw [hlabel] at hresolve
      obtain ⟨found, hfound, hresolve⟩ := bind_eq_ok.mp hresolve
      dsimp only at hfound
      generalize Word.offset _ _ = address at hfound
      cases address with
      | error x => cases hfound
      | ok addr =>
          cases hfound
          cases hresolve
  | none =>
      rw [Scope.resolve_of_not_get? hlabel] at hresolve
      cases houtside : scope.externs.lookup? name with
      | none => exact ⟨rfl, rfl⟩
      | some addr => rw [houtside] at hresolve; cases hresolve

/-- The remarks of the second pass are about names in the operands of instructions that
are neither labels nor external symbols. -/
structure Unresolved (scope : Scope) (lines : List Line) (d : Diagnostic) : Prop where
  exists_name : ∃ line ∈ lines, ∃ i, line.statement = some (.instr i) ∧ ∃ name ∈ i.labels,
    scope.resolution name = .undefined ∧ d = undefinedName line.number name

/-- The remarks about the names that a line refers to. -/
def undefinedNames (scope : Scope) (entry : Line × Option Nat) : List Diagnostic :=
  ((referred entry).filter fun name => scope.resolution name == .undefined).map
    (undefinedName entry.1.number)

/-- A line adds a warning for each undefined name that it refers to, and nothing else. -/
theorem emitLine_diagnostics {scope : Scope} {e e' : Emission} {line : Line} {size : Option Nat}
    (h : emitLine scope e line size = .ok e') :
    e'.diagnostics = e.diagnostics ++ undefinedNames scope (line, size) :=
  (emits_of_emitLine h).remarks.2

theorem emitLines_diagnostics {scope : Scope} {e e' : Emission} {lines : List (Line × Option Nat)}
    (h : emitLines scope e lines = .ok e') :
    e'.diagnostics = e.diagnostics ++ lines.flatMap (undefinedNames scope) := by
  induction lines generalizing e with
  | nil =>
      cases h
      exact (List.append_nil _).symm
  | cons entry rest ih =>
      obtain ⟨next, hline, h⟩ := bind_eq_ok.mp h
      rw [ih h, emitLine_diagnostics hline, List.flatMap_cons, List.append_assoc]

theorem mem_undefinedNames {scope : Scope} {entry : Line × Option Nat} {d : Diagnostic} :
    d ∈ undefinedNames scope entry ↔ ∃ name ∈ referred entry,
      scope.resolution name = .undefined ∧ d = undefinedName entry.1.number name := by
  simp only [undefinedNames, List.mem_map, List.mem_filter, beq_iff_eq, and_assoc, eq_comm (a := d)]

/-- Every remark that emission adds is about an undefined name of some line. -/
theorem emitLines_remarks {scope : Scope} {e e' : Emission} {lines : List Line}
    {sizes : List (Option Nat)} (h : emitLines scope e (lines.zip sizes) = .ok e') :
    ∀ d ∈ e'.diagnostics, d ∈ e.diagnostics ∨ Unresolved scope lines d := by
  intro d hd
  rw [emitLines_diagnostics h, List.mem_append] at hd
  refine hd.imp_right fun hd => ?_
  obtain ⟨⟨line, size⟩, hentry, hd⟩ := List.mem_flatMap.mp hd
  obtain ⟨name, hname, hundefined, rfl⟩ := mem_undefinedNames.mp hd
  obtain ⟨i, n, hline, -, hname⟩ := mem_referred.mp hname
  exact ⟨line, (List.of_mem_zip hentry).1, i, hline, name, hname, hundefined, rfl⟩

/-! ### The first byte -/

/-- No instruction starts with the first byte of an image, because no instruction is
decoded from it. -/
theorem head?_encode {i : Instr UInt32} {addr : UInt32} {bytes : Bytes}
    (h : i.encode addr = .ok bytes) : ∃ b rest, bytes = b :: rest ∧ some b ≠ Image.magic.head? := by
  have hdecode := Decoder.instruction_encode h []
  rw [List.append_nil] at hdecode
  cases bytes with
  | nil => cases hdecode
  | cons b rest =>
      refine ⟨b, rest, rfl, ?_⟩
      rintro hb
      cases hb
      cases hdecode

/-- The code does not start like an image. -/
def NotMagic (code : Array UInt8) : Prop :=
  code.toList.head? ≠ Image.magic.head?

/-- No instruction begins with the first byte of an image. -/
theorem notMagic_emitLine {scope : Scope} {e e' : Emission} {line : Line} {size : Option Nat}
    (horderly : Orderly e.sect [line]) (h : emitLine scope e line size = .ok e')
    (hcode : NotMagic e.code) : NotMagic e'.code := by
  cases emits_of_emitLine h with
  | bytes hline haddr =>
      have hsect := horderly.1
      rw [hline] at hsect
      have hdata : e.sect = .data := by simpa using hsect
      simpa only [Emission.write, hdata, reduceCtorEq, if_false] using hcode
  | instr hline hnames haddr hencode =>
      obtain ⟨b, rest, rfl, hb⟩ := head?_encode hencode
      simp only [NotMagic, Emission.write, if_true, Array.toList_appendList] at hcode ⊢
      cases hlist : e.code.toList with
      | nil => exact hb
      | cons c others => simpa [hlist] using hcode
  | silent hbytes hinstr => exact hcode

theorem notMagic_emitLines {scope : Scope} {e e' : Emission} {lines : List Line}
    (horderly : Orderly e.sect lines)
    (h : emitLines scope e (lines.zip (extents e.sect lines)) = .ok e') (hcode : NotMagic e.code) :
    NotMagic e'.code := by
  induction lines generalizing e with
  | nil =>
      cases h
      exact hcode
  | cons line rest ih =>
      simp only [extents, List.zip_cons_cons, emitLines] at h
      obtain ⟨next, hline, h⟩ := bind_eq_ok.mp h
      have hsect : next.sect = nextSection e.sect line := (emitLine_eq_ok hline).sect
      rw [← hsect] at h
      exact ih (hsect ▸ horderly.2) h (notMagic_emitLine ⟨horderly.1, trivial⟩ hline hcode)

/-- The entry lies within any bound on the labels of the code. -/
theorem findEntry_le (labels : Labels) (name : String) (lineCount bound : Nat)
    (h : ∀ d ∈ labels.entries, d.2.sect = .text → d.2.offset ≤ bound) :
    (findEntry labels name lineCount).1 ≤ bound := by
  unfold findEntry
  split
  next offset line hlabel => exact h _ (mem_of_get? hlabel) rfl
  next => exact Nat.zero_le _
  next => exact Nat.zero_le _

end Assembler

end Asm

/-- The image of a program can be formed when its code does not start like an image and
there is room for its sections. -/
theorem Image.exists_ofAssembly {asm : Asm.Assembly} (limits : Asm.Limits)
    (hroom : Asm.Config.Roomy { layout := asm.layout, limits := limits })
    (hcode : asm.code.length ≤ limits.code) (hdata : asm.data.length ≤ limits.data)
    (hentry : asm.entry ≤ asm.code.length) (hmagic : asm.code.head? ≠ magic.head?) :
    ∃ image, ofAssembly asm = .ok image := by
  simp only [Asm.Config.Roomy] at hroom
  obtain ⟨textSize, htextSize, -, -, htextLt⟩ :=
    Abi.alignUp_pageSize (n := asm.code.length) (by omega)
  obtain ⟨dataSize, hdataSize, -, -, hdataLt⟩ :=
    Abi.alignUp_pageSize (n := asm.data.length) (by omega)
  have hpage : (UInt32.ofNat Abi.pageSize).toNat = Abi.pageSize := rfl
  obtain ⟨dataOffset, hoffset, hoffsetNat⟩ :=
    Word.exists_offset (UInt32.ofNat Abi.pageSize) textSize (by omega)
  obtain ⟨finish, hfinish, -⟩ := Word.exists_offset dataOffset dataSize (by omega)
  obtain ⟨textBase, htext, htextNat⟩ :=
    Word.exists_offset asm.layout.base Abi.pageSize (by omega)
  obtain ⟨entry, hentryOk, -⟩ := Word.exists_offset textBase asm.entry (by omega)
  obtain ⟨dataBase, hdataBase, -⟩ := Word.exists_offset textBase textSize (by omega)
  simp only [ofAssembly, if_neg hmagic, htextSize, hdataSize, hoffset, hfinish, htext, hdataBase,
    hentryOk, Asm.Assembly.entryAddress, Asm.Assembly.textBase, Asm.Assembly.dataBase,
    Abi.Layout.textBase, Abi.Layout.dataBase, Asm.ofChecked, ok_bind]
  exact ⟨_, rfl⟩

namespace Asm

open Assembler

/-- A remark of the assembler about orderly lines: a name in an instruction that is neither
a label nor external, or the entry. -/
inductive Harmless (config : Config) (externs : SymbolTable) (lines : List Line) (labels : Labels) :
    Diagnostic → Prop
  | undefined {line : Line} {i : Instr String} {name : String} (hline : line ∈ lines)
      (hinstr : line.statement = some (.instr i)) (hname : name ∈ i.labels)
      (hlabel : name ∉ lines.filterMap Line.label) (houtside : externs.contains name = false) :
      Harmless config externs lines labels (undefinedName line.number name)
  | entry {d : Diagnostic} (h : d ∈ (findEntry labels config.entry lines.length).2) :
      Harmless config externs lines labels d

/-- Orderly lines with distinct labels are assembled without errors, and the program has
an image. -/
theorem assemble_orderly {source : String} {config : Config} (hroom : config.Roomy)
    {externs : SymbolTable} {lines : List Line} (hread : Line.readAll source = .ok (lines, []))
    (horderly : Orderly .text lines) (hnodup : (lines.filterMap Line.label).Nodup)
    {asm : Assembly} (h : assemble source config externs = .ok asm) :
    (∀ d ∈ asm.diagnostics, Harmless config externs lines asm.labels d) ∧
      ∃ image, Image.ofAssembly asm = .ok image := by
  obtain ⟨a, scope, e, hlayout, hfinished⟩ := assemble_lines_eq_ok hread h
  have hlaid := layout_eq_ok hlayout
  have hconfig : a.config = config := hlaid.config
  have hlimits := hlaid.withinLimits (withinLimits_ofConfig config [])
  obtain ⟨hremarks, hnames⟩ : a.diagnostics = [] ∧ a.labelNames = lines.filterMap Line.label := by
    simpa [labelNames, ofConfig] using
      layoutLines_fresh hlayout horderly (by simpa [labelNames, ofConfig] using hnodup)
  have hemitted := hfinished.emitted_extents hlayout
  have hscope : scope.Resolves := resolves_of_layout hroom hlayout hfinished.labels
    hfinished.textBase hfinished.dataBase
  have hasm := hfinished.result
  refine ⟨?_, ?_⟩
  · intro d hd
    rw [hasm] at hd
    rcases List.mem_append.mp hd with hd | hd
    · rcases emitLines_remarks hemitted d hd with hd | ⟨line, hline, i, hinstr, name, hname,
        hres, rfl⟩
      · rw [hremarks] at hd
        cases hd
      · obtain ⟨hlabel, houtside⟩ := undefined_of_resolution hres hscope
        refine .undefined hline hinstr hname ?_ ?_
        · rw [← hnames]
          intro hmem
          obtain ⟨⟨name', label⟩, hentry, rfl⟩ := List.mem_map.mp hmem
          rw [hfinished.labels] at hlabel
          have hne := List.lookup_eq_none_iff.mp hlabel _ hentry
          simp at hne
        · rw [SymbolTable.contains, ← hfinished.externs, houtside]
          rfl
    · refine .entry ?_
      rw [hasm, ← hconfig]
      exact hd
  · have hmagic : NotMagic e.code :=
      notMagic_emitLines horderly hemitted (by simp [NotMagic, Image.magic])
    have hcode : asm.code.length = a.codeLength := by
      rw [hasm]
      simpa using hfinished.codeLength
    have hdataLength : asm.data.length = a.dataLength := by
      rw [hasm]
      simpa using hfinished.dataLength hlayout
    refine Image.exists_ofAssembly config.limits ?_ ?_ ?_ ?_ ?_
    · rw [hasm, hconfig]
      exact hroom
    · rw [hcode, ← hconfig]
      exact hlimits.code
    · rw [hdataLength, ← hconfig]
      exact hlimits.data
    · rw [hcode, hasm]
      refine findEntry_le _ _ _ _ fun d hd hsect => ?_
      have hle := hlaid.offset_le rfl hd
      rwa [hsect] at hle
    · rw [hasm]
      exact hmagic

end Asm

end Ia32

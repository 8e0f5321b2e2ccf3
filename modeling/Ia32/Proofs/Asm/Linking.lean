import Ia32.Proofs.Asm.References

/-!
# Programs linked with a table of symbols

Every name in an emitted instruction stands for exactly one address, and the remarks and the
library flag of a program say which of its names are looked up in the table and which are
found nowhere. Lines that are rejected refer to nothing.
-/

namespace Ia32

namespace Asm

open Assembler

/-- Address of a section of a program. -/
def Assembly.base (asm : Assembly) : Section → Checked UInt32
  | .text => asm.textBase
  | .data => asm.dataBase

/-- A line whose instruction has been emitted at an address: the listing shows it there. -/
structure Emits (lines : List Line) (asm : Assembly) (line : Line) (i : Instr String)
    (addr : UInt32) (bytes : Bytes) : Prop where
  instr : line.statement = some (.instr i)
  listed : (line, ⟨line.number, some addr, bytes, line.source⟩) ∈ lines.zip asm.listing

/-- Whether an emitted instruction on a line of the source refers to a name. -/
def Refers (lines : List Line) (asm : Assembly) (number : Nat) (name : String) : Prop :=
  ∃ line i addr bytes, Emits lines asm line i addr bytes ∧ line.number = number ∧ name ∈ i.labels

/-- Whether no line defines a name. -/
def Foreign (lines : List Line) (name : String) : Prop :=
  ∀ line ∈ lines, line.label ≠ some name

/-- The address that a name stands for in a program. -/
inductive StandsFor (lines : List Line) (externs : SymbolTable) (asm : Assembly) (name : String) :
    UInt32 → Prop
  /-- A name that lines define stands for the place of the first of them: the bytes in front of
  it in its section, counted from the address of the section. -/
  | label {k : Nat} {line : Line} {sect : Section} {base addr : UInt32}
      (hfirst : FirstDefinition lines name k line)
      (hsect : sect = sectionAfter .text (lines.take k))
      (hbase : asm.base sect = .ok base)
      (haddr : addr.toNat =
        base.toNat + (shownIn sect .text ((lines.zip asm.listing).take k)).length) :
      StandsFor lines externs asm name addr
  /-- Another name stands for the address in the first record of the table with the name. -/
  | external {before after : List Symbol} {addr : UInt32} (hforeign : Foreign lines name)
      (htable : externs.entries = before ++ ⟨name, addr⟩ :: after)
      (hfirst : ∀ entry ∈ before, entry.name ≠ name) : StandsFor lines externs asm name addr
  /-- A name that is found nowhere stands for zero. -/
  | undefined (hforeign : Foreign lines name)
      (htable : ∀ entry ∈ externs.entries, entry.name ≠ name) :
      StandsFor lines externs asm name 0

/-- What a program says about the names in its instructions. -/
structure Linked (lines : List Line) (externs : SymbolTable) (asm : Assembly) : Prop where
  /-- The code holds every emitted instruction at its address, with each name replaced by the
  address that it stands for. -/
  encoded : ∀ line i addr bytes, Emits lines asm line i addr bytes →
    ∃ base target, asm.textBase = .ok base ∧ bytes <+: asm.code.drop (addr.toNat - base.toNat) ∧
      (i.resolve target).encode addr = .ok bytes ∧
      ∀ name ∈ i.labels, StandsFor lines externs asm name (target name)
  /-- About a name that is found nowhere there is one remark, the only one of its kind on the
  line. -/
  remarked : ∀ number name, Refers lines asm number name → Foreign lines name →
    externs.contains name = false →
    ∀ other, asm.diagnostics.count (undefinedName number other) = if other = name then 1 else 0
  /-- There is such a remark about no other name. -/
  unremarked : ∀ number name, undefinedName number name ∈ asm.diagnostics →
    Refers lines asm number name ∧ Foreign lines name ∧ externs.contains name = false
  /-- The library is needed for the names that are found in the table, and only for them. -/
  library : asm.needsLibrary = true ↔ ∃ number name, Refers lines asm number name ∧
    Foreign lines name ∧ externs.contains name = true

end Asm

namespace SymbolTable

/-- A symbol that is looked up is the first one with its name. -/
theorem exists_first_of_lookup? {table : SymbolTable} {name : String} {addr : UInt32}
    (h : table.lookup? name = some addr) :
    ∃ before after, table.entries = before ++ ⟨name, addr⟩ :: after ∧
      ∀ entry ∈ before, entry.name ≠ name := by
  obtain ⟨⟨name', addr'⟩, hfound, rfl⟩ := Option.map_eq_some_iff.mp h
  obtain ⟨hname, before, after, hentries, hfirst⟩ := List.find?_eq_some_iff_append.mp hfound
  obtain rfl : name' = name := by simpa using hname
  exact ⟨before, after, hentries, by simpa using hfirst⟩

theorem name_ne_of_lookup?_eq_none {table : SymbolTable} {name : String}
    (h : table.lookup? name = none) : ∀ entry ∈ table.entries, entry.name ≠ name := by
  simpa [lookup?] using h

end SymbolTable

namespace Asm

namespace Assembler

variable {scope : Scope} {lines : List Line} {asm : Assembly}

/-! ### Names and lines -/

/-- A label that is defined has a first definition. -/
theorem exists_firstDefinition {lines : List Line} {line : Line} {name : String}
    (hline : line ∈ lines) (hlabel : line.label = some name) :
    ∃ k first, FirstDefinition lines name k first := by
  induction lines with
  | nil => cases hline
  | cons head rest ih =>
      by_cases hhead : head.label = some name
      · exact ⟨0, head, firstDefinition_zero.mpr ⟨rfl, hhead⟩⟩
      · have hrest : line ∈ rest :=
          (List.mem_cons.mp hline).resolve_left fun heq => hhead (heq ▸ hlabel)
        obtain ⟨k, first, hfirst⟩ := ih hrest
        exact ⟨k + 1, first, firstDefinition_succ.mpr ⟨hhead, hfirst⟩⟩

/-- The names without a label are those that no line defines. -/
theorem Described.foreign_iff (h : Described scope lines asm) {name : String} :
    Foreign lines name ↔ asm.labels.get? name = none := by
  refine ⟨h.get?_eq_none, fun hnone line hline hlabel => ?_⟩
  obtain ⟨k, first, hfirst⟩ := exists_firstDefinition hline hlabel
  have hentry := (h.labels name ⟨sectionAfter .text (lines.take k),
    (shownIn (sectionAfter .text (lines.take k)) .text ((lines.zip asm.listing).take k)).length,
    first.number⟩).mpr ⟨k, first, hfirst, rfl, rfl, rfl⟩
  have hne := List.lookup_eq_none_iff.mp hnone _ hentry
  simp at hne

/-- The references of emitted instructions are those of the lines with their sizes. -/
theorem Described.refers_iff (h : Described scope lines asm) {number : Nat} {name : String} :
    Refers lines asm number name ↔ ∃ entry ∈ lines.zip (extents .text lines),
      entry.1.number = number ∧ name ∈ referred entry := by
  constructor
  · rintro ⟨line, i, addr, bytes, ⟨hinstr, hlisted⟩, hnumber, hname⟩
    obtain ⟨k, hk⟩ := List.mem_iff_getElem?.mp hlisted
    obtain ⟨hline, hl⟩ := List.getElem?_zip_eq_some.mp hk
    have hsize := (h.entries.2 k line _ hline hl).size
    exact ⟨_, mem_zip_extents.mpr ⟨k, hline, rfl⟩, hnumber,
      mem_referred.mpr ⟨i, bytes.length, hinstr, hsize.symm, hname⟩⟩
  · rintro ⟨⟨line, size⟩, hentry, hnumber, hname⟩
    obtain ⟨k, hline, rfl⟩ := mem_zip_extents.mp hentry
    obtain ⟨i, n, hinstr, hsize, hname⟩ := mem_referred.mp hname
    -- the listing shows the line with an address, because the line has a size
    obtain ⟨⟨number', address, bytes, source⟩, hl⟩ := exists_entry h.entries.1 hline
    have hshows := h.entries.2 k line _ hline hl
    obtain rfl : number' = line.number := hshows.number
    obtain rfl : source = line.source := hshows.source
    obtain ⟨addr, rfl, -⟩ := Option.map_eq_some_iff.mp (hshows.size.trans hsize)
    refine ⟨line, i, addr, bytes, ⟨hinstr, ?_⟩, hnumber, hname⟩
    exact List.mem_of_getElem? (List.getElem?_zip_eq_some.mpr ⟨hline, hl⟩)

/-- A name that can be resolved stands for its target. -/
theorem Described.standsFor (h : Described scope lines asm) (hlabels : scope.labels = asm.labels)
    (hbase : ∀ sect, asm.base sect = .ok (scope.base sect)) {name : String}
    {resolution : Resolution} (hresolve : scope.resolve name = .ok resolution) :
    StandsFor lines scope.externs asm name (scope.target name) := by
  cases hlabel : scope.labels.get? name with
  | some label =>
      obtain ⟨haddr, -⟩ := Scope.toNat_target hresolve hlabel
      obtain ⟨k, line, hfirst, hsect, hoffset, -⟩ :=
        (h.labels name label).mp (mem_of_get? (hlabels ▸ hlabel))
      exact .label hfirst hsect (hbase label.sect) (hoffset ▸ haddr)
  | none =>
      have hforeign : Foreign lines name := h.foreign_iff.mpr (hlabels ▸ hlabel)
      rw [Scope.target, hlabel]
      dsimp only
      cases hlookup : scope.externs.lookup? name with
      | some addr =>
          obtain ⟨before, after, htable, hfirst⟩ := SymbolTable.exists_first_of_lookup? hlookup
          exact .external hforeign htable hfirst
      | none => exact .undefined hforeign (SymbolTable.name_ne_of_lookup?_eq_none hlookup)

/-- An emitted instruction stands in the code at its address. -/
theorem Described.encoded (h : Described scope lines asm) {line : Line} {i : Instr String}
    {addr : UInt32} {bytes : Bytes} (hemits : Emits lines asm line i addr bytes) :
    bytes <+: asm.code.drop (addr.toNat - scope.textBase.toNat) ∧
      (i.resolve scope.target).encode addr = .ok bytes := by
  obtain ⟨k, hk⟩ := List.mem_iff_getElem?.mp hemits.listed
  obtain ⟨hline, hl⟩ := List.getElem?_zip_eq_some.mp hk
  have hshows := h.entries.2 k line _ hline hl
  obtain ⟨hsect, hencode⟩ := hshows.instr i addr hemits.instr rfl
  have haddr := Word.toNat_offset (hshows.address addr rfl)
  -- the code in front of the line is as long as its place in the text
  obtain ⟨rest, hsplit⟩ := shownIn_split h.entries.1 hline hl .text
  rw [hsect] at hsplit haddr
  rw [h.code] at hsplit
  rw [Nat.zero_add, Scope.base] at haddr
  refine ⟨?_, hencode⟩
  rw [haddr, Nat.add_sub_cancel_left, hsplit, List.drop_left]
  exact List.prefix_append bytes rest

/-! ### Remarks -/

theorem exists_of_mem_undefinedNames {entries : List (Line × Option Nat)} {number : Nat}
    {name : String} (h : undefinedName number name ∈ entries.flatMap (undefinedNames scope)) :
    ∃ entry ∈ entries, entry.1.number = number ∧ name ∈ referred entry ∧
      scope.resolution name = .undefined := by
  obtain ⟨entry, hentry, h⟩ := List.mem_flatMap.mp h
  obtain ⟨name', hname, hundefined, heq⟩ := mem_undefinedNames.mp h
  obtain ⟨rfl, rfl⟩ := undefinedName_inj heq
  exact ⟨entry, hentry, rfl, hname, hundefined⟩

/-- A line that refers to one undefined name is remarked once. -/
theorem count_undefinedNames {entries : List (Line × Option Nat)}
    (hnumbers : (entries.map fun entry => entry.1.number).Nodup) {entry : Line × Option Nat}
    (hentry : entry ∈ entries) {name : String}
    (hremark : undefinedNames scope entry = [undefinedName entry.1.number name]) (other : String) :
    (entries.flatMap (undefinedNames scope)).count (undefinedName entry.1.number other) =
      if other = name then 1 else 0 := by
  obtain ⟨before, after, rfl⟩ := List.append_of_mem hentry
  -- the other lines have other numbers
  have helsewhere : ∀ part : List (Line × Option Nat),
      (∀ found ∈ part, found.1.number ≠ entry.1.number) →
      (part.flatMap (undefinedNames scope)).count (undefinedName entry.1.number other) = 0 := by
    intro part hpart
    refine List.count_eq_zero.mpr fun hmem => ?_
    obtain ⟨found, hfound, hnumber, -⟩ := exists_of_mem_undefinedNames hmem
    exact hpart found hfound hnumber
  rw [List.map_append, List.map_cons, List.nodup_append] at hnumbers
  obtain ⟨-, hafter, hbefore⟩ := hnumbers
  rw [List.flatMap_append, List.flatMap_cons, List.count_append, List.count_append, hremark,
    helsewhere before fun found hfound =>
      hbefore _ (List.mem_map_of_mem hfound) _ List.mem_cons_self,
    helsewhere after fun found hfound heq =>
      (List.nodup_cons.mp hafter).1 (heq ▸ List.mem_map_of_mem hfound),
    Nat.zero_add, Nat.add_zero, List.count_singleton]
  by_cases heq : other = name
  · rw [heq, beq_self_eq_true, if_pos rfl, if_pos rfl]
  · rw [if_neg heq, if_neg]
    rw [beq_iff_eq]
    exact fun hsame => heq (undefinedName_inj hsame).2.symm

/-- A line that refers to an undefined name refers to nothing else. -/
theorem undefinedNames_eq_singleton {sect : Section} {line : Line} {name : String}
    (hname : name ∈ referred (line, extent? sect line))
    (hundefined : scope.resolution name = .undefined) :
    undefinedNames scope (line, extent? sect line) = [undefinedName line.number name] := by
  obtain ⟨i, n, hinstr, hsize, hlabel⟩ := mem_referred.mp hname
  have hlabels : i.labels = [name] :=
    Instr.labels_eq_singleton (extent?_instr hinstr hsize).2 hlabel
  simp only [undefinedNames, referred, hinstr, hsize, hlabels, List.filter_cons, hundefined,
    beq_self_eq_true, if_true, List.filter_nil, List.map_cons, List.map_nil]

/-! ### The library flag -/

theorem refersOutside_iff {entry : Line × Option Nat} :
    refersOutside scope entry = true ↔
      ∃ name ∈ referred entry, (scope.resolution name).isExternal = true := by
  rw [refersOutside_eq_any, List.any_eq_true]

/-! ### The whole program -/

/-- Emission with a table that gives the same result. -/
theorem Finished.emit_eq_ok {a : Assembler} {externs externs' : SymbolTable} {e : Emission}
    (h : Finished a lines externs asm scope e)
    (hemitted : emitLines (scope.withExterns externs') { diagnostics := a.diagnostics }
      (lines.zip a.sizes.toList) = .ok e) : a.emit lines externs' = .ok asm := by
  rw [Scope.withExterns, h.labels] at hemitted
  simp only [emit, h.textBase, h.dataBase, ofChecked, ok_bind, hemitted, h.codeLength, ne_eq,
    not_true_eq_false, if_false, h.result]
  rfl

theorem Finished.base_eq {a : Assembler} {externs : SymbolTable} {e : Emission}
    (h : Finished a lines externs asm scope e) (sect : Section) :
    asm.base sect = .ok (scope.base sect) := by
  cases sect with
  | text => exact h.textBase_eq
  | data =>
      have hcode : asm.code.length = a.codeLength := by
        rw [h.result]
        simpa using h.codeLength
      rw [Assembly.base, Assembly.dataBase, hcode, h.result]
      exact h.dataBase

/-- Remarks about undefined names come from emission only. -/
theorem undefinedName_not_mem {source : String} {config : Config} {complaints : List Diagnostic}
    {a : Assembler} (hread : Line.readAll source = .ok (lines, complaints))
    (hlayout : layout lines { ofConfig config with diagnostics := complaints } = .ok () a)
    (number : Nat) (name : String) :
    undefinedName number name ∉ a.diagnostics ∧
      undefinedName number name ∉ (findEntry a.labels a.config.entry lines.length).2 := by
  constructor
  · intro hmem
    rcases layoutLines_remarks hlayout _ hmem with hmem | hremark
    · cases (Line.numbers_of_readFrom hread).2 _ hmem
    · exact not_layoutRemark_undefinedName number name hremark
  · intro hmem
    have hhead := (entry_remark hmem).2
    rw [message_undefinedName] at hhead
    cases hhead

/-- A finished assembly is linked to the table it was emitted with. -/
theorem Finished.linked {source : String} {config : Config} {complaints : List Diagnostic}
    {a : Assembler} {externs : SymbolTable} {e : Emission}
    (hread : Line.readAll source = .ok (lines, complaints))
    (hlayout : layout lines { ofConfig config with diagnostics := complaints } = .ok () a)
    (h : Finished a lines externs asm scope e) : Linked lines externs asm := by
  have hdescribed := h.described hlayout
  -- what is emitted is said about the lines with their sizes, which the listing shows
  have hemitted := h.emitted_extents hlayout
  have hresolves := emitLines_resolves hemitted
  have hforeign (name : String) : Foreign lines name ↔ scope.labels.get? name = none :=
    h.scope_labels ▸ hdescribed.foreign_iff
  have hdiagnostics : asm.diagnostics = a.diagnostics ++
      (lines.zip (extents .text lines)).flatMap (undefinedNames scope) ++
        (findEntry a.labels a.config.entry lines.length).2 := by
    rw [h.result, emitLines_diagnostics hemitted]
  obtain rfl : scope.externs = externs := h.externs
  refine {
    encoded := ?encoded
    remarked := ?remarked
    unremarked := ?unremarked
    library := ?library }
  case encoded =>
    intro line i addr bytes hemits
    obtain ⟨hstands, hencode⟩ := hdescribed.encoded hemits
    refine ⟨scope.textBase, scope.target, h.textBase_eq, hstands, hencode, fun name hname => ?_⟩
    obtain ⟨entry, hentry, -, hname⟩ :=
      hdescribed.refers_iff.mp ⟨line, i, addr, bytes, hemits, rfl, hname⟩
    obtain ⟨resolution, hresolve⟩ := hresolves entry hentry name hname
    exact hdescribed.standsFor h.scope_labels h.base_eq hresolve
  case remarked =>
    intro number name hrefers hname houtside other
    obtain ⟨⟨line, size⟩, hentry, rfl, hreferred⟩ := hdescribed.refers_iff.mp hrefers
    obtain ⟨resolution, hresolve⟩ := hresolves _ hentry name hreferred
    have hundefined := (Scope.resolution_eq_undefined_iff hresolve).mpr
      ⟨(hforeign name).mp hname, houtside⟩
    obtain ⟨k, hline, rfl⟩ := mem_zip_extents.mp hentry
    -- lines are numbered one after another, so the remarks on a line are those of one line
    have hnumbers : ((lines.zip (extents .text lines)).map fun entry => entry.1.number).Nodup := by
      rw [← Function.comp_def Line.number, ← List.map_map,
        List.map_fst_zip (Nat.le_of_eq (length_extents .text lines).symm),
        (Line.numbers_of_readFrom hread).1]
      exact List.nodup_range'
    obtain ⟨hlaid, hend⟩ := undefinedName_not_mem hread hlayout line.number other
    rw [hdiagnostics, List.count_append, List.count_append, List.count_eq_zero.mpr hlaid,
      List.count_eq_zero.mpr hend, Nat.zero_add, Nat.add_zero]
    exact count_undefinedNames hnumbers hentry (undefinedNames_eq_singleton hreferred hundefined)
      other
  case unremarked =>
    intro number name hmem
    obtain ⟨hlaid, hend⟩ := undefinedName_not_mem hread hlayout number name
    rw [hdiagnostics, List.mem_append, List.mem_append] at hmem
    obtain ⟨entry, hentry, hnumber, hname, hundefined⟩ :=
      exists_of_mem_undefinedNames ((hmem.resolve_right hend).resolve_left hlaid)
    obtain ⟨resolution, hresolve⟩ := hresolves entry hentry name hname
    rw [Scope.resolution_eq_undefined_iff hresolve, ← hforeign] at hundefined
    exact ⟨hdescribed.refers_iff.mpr ⟨entry, hentry, hnumber, hname⟩, hundefined⟩
  case library =>
    have hlibrary : asm.needsLibrary =
        (lines.zip (extents .text lines)).any (refersOutside scope) := by
      rw [h.result]
      exact emitLines_needsLibrary hemitted
    rw [hlibrary, List.any_eq_true]
    simp only [refersOutside_iff, Scope.isExternal_iff, ← hforeign, hdescribed.refers_iff]
    constructor
    · rintro ⟨entry, hentry, name, hname, houtside⟩
      exact ⟨entry.1.number, name, ⟨entry, hentry, rfl, hname⟩, houtside⟩
    · rintro ⟨number, name, ⟨entry, hentry, -, hname⟩, houtside⟩
      exact ⟨entry, hentry, name, hname, houtside⟩

end Assembler

open Assembler

/-- Names in instructions are linked as `Linked` says, and the program is the same for every
table that agrees on the names which its instructions refer to and its lines do not define. -/
theorem assemble_linked {source : String} {config : Config} {externs : SymbolTable}
    {asm : Assembly} (h : assemble source config externs = .ok asm) :
    ∃ lines complaints, Line.readAll source = .ok (lines, complaints) ∧ Linked lines externs asm ∧
      ∀ externs' : SymbolTable, (∀ number name, Refers lines asm number name → Foreign lines name →
          externs'.lookup? name = externs.lookup? name) →
        assemble source config externs' = .ok asm := by
  obtain ⟨lines, complaints, a, scope, e, hread, hlayout, hfinished⟩ := assemble_eq_ok h
  refine ⟨lines, complaints, hread, hfinished.linked hread hlayout, fun externs' hsame => ?_⟩
  have hdescribed := hfinished.described hlayout
  have hsizes : a.sizes.toList = extents .text lines := by simpa using (layout_eq_ok hlayout).sizes
  -- a name with a label is resolved without the table, and on others the tables agree
  have hagree : ∀ entry ∈ lines.zip (extents .text lines), ∀ name ∈ referred entry,
      (scope.withExterns externs').resolve name = scope.resolve name := by
    intro entry hentry name hname
    refine Scope.resolve_withExterns fun hnone => ?_
    rw [hfinished.externs]
    exact hsame entry.1.number name (hdescribed.refers_iff.mpr ⟨entry, hentry, rfl, hname⟩)
      (hdescribed.foreign_iff.mpr (hfinished.scope_labels ▸ hnone))
  have hemit : a.emit lines externs' = .ok asm :=
    hfinished.emit_eq_ok ((emitLines_withExterns (hsizes ▸ hagree) _).trans hfinished.emitted)
  simp only [assemble, hread, ofChecked, ok_bind, hlayout]
  exact hemit

/-- A table with a name that the program defines, and with two records of another name. -/
def shadowingTable : SymbolTable := ⟨[⟨"x", 1⟩, ⟨"f", 0x9000⟩, ⟨"f", 2⟩]⟩

/-- A program that refers to a label in front of its definition, to a symbol of the table and to
a name that is found nowhere; its last line is rejected. -/
def shadowingText : String :=
  "mov eax, x\ncall f\ncall g\nsection .data\nx: db 1\ncall h"

theorem assemble_linked_shadowing :
    ∃ asm, assemble shadowingText {} shadowingTable = .ok asm ∧
      ∃ lines complaints, Line.readAll shadowingText = .ok (lines, complaints) ∧
        Linked lines shadowingTable asm ∧
        ∀ externs' : SymbolTable, (∀ number name, Refers lines asm number name →
            Foreign lines name → externs'.lookup? name = shadowingTable.lookup? name) →
          assemble shadowingText {} externs' = .ok asm := by
  have hok : (assemble shadowingText {} shadowingTable).isOk = true := by decide +kernel
  cases hasm : assemble shadowingText {} shadowingTable with
  | error e => simp [hasm, Except.isOk, Except.toBool] at hok
  | ok asm => exact ⟨asm, rfl, assemble_linked hasm⟩

end Asm

end Ia32

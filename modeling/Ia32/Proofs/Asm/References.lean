import Ia32.Proofs.Asm.Listing

/-!
# What names in instructions stand for

A name in an instruction stands for the first label of that name, wherever it is defined, else
for the first symbol of that name in the table, else for zero, and then there is one remark
about it. The table is read for nothing else: a program is the same for two tables that agree on
the names that it refers to and does not define.
-/

namespace Ia32

/-! ### Instructions have one place for a name -/

/-- An instruction that has a size refers to one name at most. -/
theorem Instr.length_labels_le {i : Instr String} {n : Nat} (h : i.size = .ok n) :
    i.labels.length ≤ 1 := by
  obtain ⟨op, args⟩ := i
  rcases args with _ | ⟨a, _ | ⟨b, _ | ⟨c, rest⟩⟩⟩
  · exact Nat.zero_le 1
  · exact List.length_filterMap_le ..
  · cases a with
    | label l => cases op <;> cases h
    | _ => exact List.length_filterMap_le Operand.label? [b]
  · cases op <;> cases a <;> cases b <;> cases h

/-- An instruction with a size has one label at most. -/
theorem Instr.labels_eq_singleton {i : Instr String} {n : Nat} (h : i.size = .ok n) {name : String}
    (hname : name ∈ i.labels) : i.labels = [name] := by
  obtain ⟨other, hother⟩ := List.length_eq_one_iff.mp
    (Nat.le_antisymm (length_labels_le h) (List.length_pos_of_mem hname))
  rw [hother] at hname ⊢
  rw [List.mem_singleton.mp hname]

namespace Asm

/-! ### Lines that are read -/

/-- A line has the number it is read with, and complaints about it are syntactic. -/
theorem Line.number_of_read {number : Nat} {source : List Char} {line : Line}
    {complaints : List Diagnostic} (h : read number source = .ok (line, complaints)) :
    line.number = number ∧ ∀ d ∈ complaints, d.severity = .syntactic := by
  have hlabel (name? : Option (List Char)) :
      ∀ d ∈ labelDiagnostics number name?, d.severity = .syntactic := by
    unfold labelDiagnostics
    split
    · split
      · exact nofun
      · simp
    · exact nofun
  obtain ⟨outcome, -, h⟩ := bind_eq_ok.mp h
  split at h
  · cases h
    exact ⟨rfl, hlabel _⟩
  · cases h
    refine ⟨rfl, fun d hd => ?_⟩
    rcases List.mem_append.mp hd with hd | hd
    · exact hlabel _ d hd
    · rw [List.mem_singleton.mp hd]

theorem Line.readFrom_cons_eq_ok {number : Nat} {source : List Char} {rest : List (List Char)}
    {lines : List Line} {complaints : List Diagnostic}
    (h : readFrom number (source :: rest) = .ok (lines, complaints)) :
    ∃ line remarks others otherRemarks, read number source = .ok (line, remarks) ∧
      readFrom (number + 1) rest = .ok (others, otherRemarks) ∧
      lines = line :: others ∧ complaints = remarks ++ otherRemarks := by
  obtain ⟨⟨line, remarks⟩, hline, h⟩ := bind_eq_ok.mp h
  obtain ⟨⟨others, otherRemarks⟩, hrest, h⟩ := bind_eq_ok.mp h
  cases h
  exact ⟨line, remarks, others, otherRemarks, hline, hrest, rfl, rfl⟩

/-- Lines are numbered one by one, and what cannot be read is no more than bad syntax. -/
theorem Line.numbers_of_readFrom {number : Nat} {sources : List (List Char)} {lines : List Line}
    {complaints : List Diagnostic} (h : readFrom number sources = .ok (lines, complaints)) :
    lines.map Line.number = List.range' number lines.length ∧
      ∀ d ∈ complaints, d.severity = .syntactic := by
  induction sources generalizing number lines complaints with
  | nil =>
      cases h
      exact ⟨rfl, nofun⟩
  | cons source rest ih =>
      obtain ⟨line, remarks, others, otherRemarks, hline, hrest, rfl, rfl⟩ :=
        readFrom_cons_eq_ok h
      obtain ⟨hnumber, hremarks⟩ := number_of_read hline
      obtain ⟨hnumbers, hothers⟩ := ih hrest
      refine ⟨?_, fun d hd => ?_⟩
      · rw [List.map_cons, hnumber, hnumbers, List.length_cons, List.range'_succ]
      · exact (List.mem_append.mp hd).elim (hremarks d) (hothers d)

namespace Assembler

/-! ### Remarks of the first pass -/

/-- A remark of the first pass: about a name that is defined again, or about a statement that
has no place or no size. -/
inductive LayoutRemark : Diagnostic → Prop
  | redefined (name : String) (line : Nat) (previous : Label) :
      LayoutRemark (redefined name line previous)
  | unmeasured (line : Nat) (complaint : String) : LayoutRemark ⟨.semantic, line, complaint⟩

/-- A label that is defined twice is the only thing to remark about a label. -/
theorem DefinesLabel.remarks {sect : Section} {line : Line} {a a' : Assembler}
    (h : DefinesLabel sect line a a') :
    ∀ d ∈ a'.diagnostics, d ∈ a.diagnostics ∨ LayoutRemark d := by
  intro d hd
  cases h with
  | unlabelled hlabel => exact .inl hd
  | free hlabel hfree hroom => exact .inl hd
  | again hlabel hfound =>
      refine (List.mem_append.mp hd).imp_right fun hd => ?_
      rw [List.mem_singleton.mp hd]
      exact .redefined _ line.number _

/-- A section that grows adds remarks of the layout only. -/
theorem ExtendsSection.remarks {sect : Section} {line : Line} {a a' : Assembler}
    (h : ExtendsSection sect line a a') :
    ∀ d ∈ a'.diagnostics, d ∈ a.diagnostics ∨ LayoutRemark d := by
  intro d hd
  cases h with
  | misfit hmeasure =>
      refine (List.mem_append.mp hd).imp_right fun hd => ?_
      rw [List.mem_singleton.mp hd]
      exact .unmeasured line.number _
  | silent hmeasure => exact .inl hd
  | longer hmeasure hroom => exact .inl hd

/-- The layout adds remarks of its own kinds only. -/
theorem layoutLines_remarks {sect : Section} {lines : List Line} {a a' : Assembler}
    (h : layoutLines sect lines a = .ok () a') :
    ∀ d ∈ a'.diagnostics, d ∈ a.diagnostics ∨ LayoutRemark d := by
  induction lines generalizing sect a with
  | nil =>
      cases h
      exact fun d hd => .inl hd
  | cons line rest ih =>
      obtain ⟨_, b, hline, h⟩ := action_bind_eq_ok.mp h
      intro d hd
      obtain ⟨c, hdefines, hextends⟩ := layoutLine_eq_ok hline
      rcases ih h d hd with hd | hd
      · exact (hextends.remarks d hd).elim (hdefines.remarks d) .inr
      · exact .inr hd

/-- A warning about an undefined name tells line and name. -/
theorem undefinedName_inj {number number' : Nat} {name name' : String}
    (h : undefinedName number name = undefinedName number' name') :
    number = number' ∧ name = name' := by
  obtain ⟨-, hnumber, hmessage⟩ := Diagnostic.mk.inj h
  refine ⟨hnumber, ?_⟩
  have hmessage := congrArg String.toList hmessage
  simpa only [String.toList_append, List.append_cancel_right_eq, List.append_cancel_left_eq,
    String.toList_inj] using hmessage

/-- It is no remark of the layout. -/
theorem not_layoutRemark_undefinedName (number : Nat) (name : String) :
    ¬LayoutRemark (undefinedName number name) := by
  have hhead := message_undefinedName number name
  have hseverity : (undefinedName number name).severity = .warning := rfl
  generalize undefinedName number name = d at hhead hseverity
  rintro (⟨name, line, previous⟩ | ⟨line, complaint⟩)
  · simp [message_redefined] at hhead
  · cases hseverity

/-! ### Names that are not labels -/

/-- A name that no line defines has no label. -/
theorem Described.get?_eq_none {scope : Scope} {lines : List Line} {asm : Assembly}
    (h : Described scope lines asm) {name : String}
    (hname : ∀ line ∈ lines, line.label ≠ some name) : asm.labels.get? name = none := by
  cases hfound : asm.labels.get? name with
  | none => rfl
  | some label =>
      obtain ⟨k, line, hfirst, -⟩ := (h.labels name label).mp (mem_of_get? hfound)
      exact absurd hfirst.label (hname line (List.mem_of_getElem? hfirst.found))

/-- Such a name stands for the external symbol. -/
theorem Scope.target_of_not_get? {scope : Scope} {name : String} {addr : UInt32}
    (hlabel : scope.labels.get? name = none) (haddr : scope.externs.lookup? name = some addr) :
    scope.target name = addr ∧ (scope.resolution name).isExternal = true := by
  constructor
  · rw [target, hlabel, haddr]
    rfl
  · rw [resolution, resolve_of_not_get? hlabel, haddr]
    rfl

/-- A label is not external, even if a symbol from outside has its name. -/
theorem isExternal_of_get? {scope : Scope} {name : String} {label : Label}
    (h : scope.labels.get? name = some label) : (scope.resolution name).isExternal = false := by
  unfold Scope.resolution Scope.resolve Labels.address?
  rw [h]
  dsimp only
  generalize Word.offset _ _ = addr
  cases addr <;> rfl

/-- Whether a line that emits bytes refers to an external symbol. -/
def refersOutside (scope : Scope) (entry : Line × Option Nat) : Bool :=
  match entry.1.statement, entry.2 with
  | some (.instr i), some _ => i.labels.any fun name => (scope.resolution name).isExternal
  | _, _ => false

/-- A line refers outside if one of its labels is external. -/
theorem refersOutside_eq_any {scope : Scope} {entry : Line × Option Nat} :
    refersOutside scope entry =
      (referred entry).any fun name => (scope.resolution name).isExternal := by
  unfold refersOutside referred
  split <;> simp only [*, List.any_nil]

/-- A line makes the library needed if it refers outside. -/
theorem emitLine_needsLibrary {scope : Scope} {e e' : Emission} {line : Line} {size : Option Nat}
    (h : emitLine scope e line size = .ok e') :
    e'.needsLibrary = (e.needsLibrary || refersOutside scope (line, size)) := by
  rw [refersOutside_eq_any]
  exact (emits_of_emitLine h).remarks.1

/-- A program needs the library if and only if one of its instructions refers to an external
symbol. -/
theorem emitLines_needsLibrary {scope : Scope} {e e' : Emission} {lines : List (Line × Option Nat)}
    (h : emitLines scope e lines = .ok e') :
    e'.needsLibrary = (e.needsLibrary || lines.any (refersOutside scope)) := by
  induction lines generalizing e with
  | nil =>
      cases h
      exact (Bool.or_false _).symm
  | cons entry rest ih =>
      obtain ⟨next, hline, h⟩ := bind_eq_ok.mp h
      rw [ih h, emitLine_needsLibrary hline, List.any_cons, Bool.or_assoc]

/-- A name stands for an external symbol if it is no label and the table has it. -/
theorem Scope.isExternal_iff {scope : Scope} {name : String} :
    (scope.resolution name).isExternal = true ↔
      scope.labels.get? name = none ∧ scope.externs.contains name = true := by
  cases hlabel : scope.labels.get? name with
  | some label => simp [isExternal_of_get? hlabel]
  | none =>
      rw [resolution, resolve_of_not_get? hlabel, SymbolTable.contains]
      cases scope.externs.lookup? name <;> simp [Resolution.isExternal]

/-- A name that can be resolved stands for the place of its label without wrapping around. -/
theorem Scope.toNat_target {scope : Scope} {name : String} {resolution : Resolution}
    (h : scope.resolve name = .ok resolution) {label : Label}
    (hlabel : scope.labels.get? name = some label) :
    (scope.target name).toNat = (scope.base label.sect).toNat + label.offset ∧
      scope.resolution name ≠ .undefined := by
  obtain ⟨addr, haddr, hnat⟩ := resolve_of_get? hlabel (lt_of_resolve h hlabel)
  rw [← addressOf_eq_target h, addressOf, Scope.resolution, haddr]
  exact ⟨hnat, by simp⟩

/-- A name that can be resolved is undefined if it is no label and the table lacks it. -/
theorem Scope.resolution_eq_undefined_iff {scope : Scope} {name : String} {resolution : Resolution}
    (h : scope.resolve name = .ok resolution) :
    scope.resolution name = .undefined ↔
      scope.labels.get? name = none ∧ scope.externs.contains name = false := by
  cases hlabel : scope.labels.get? name with
  | some label => simp [(toNat_target h hlabel).2]
  | none =>
      rw [Scope.resolution, resolve_of_not_get? hlabel, SymbolTable.contains]
      cases scope.externs.lookup? name <;> simp

/-! ### Lines with their sizes -/

/-- The sizes of lines are those of the sections that they stand in. -/
theorem getElem?_extents (sect : Section) (lines : List Line) (k : Nat) :
    (extents sect lines)[k]? =
      lines[k]?.map (extent? (sectionAfter sect (lines.take k))) := by
  induction lines generalizing sect k with
  | nil => rfl
  | cons line rest ih =>
      cases k with
      | zero => rfl
      | succ k => exact ih (nextSection sect line) k

theorem length_extents (sect : Section) (lines : List Line) :
    (extents sect lines).length = lines.length := by
  induction lines generalizing sect with
  | nil => rfl
  | cons line rest ih => exact congrArg (· + 1) (ih (nextSection sect line))

/-- Each line is paired with the extent it has in its section. -/
theorem mem_zip_extents {sect : Section} {lines : List Line} {line : Line} {size : Option Nat} :
    (line, size) ∈ lines.zip (extents sect lines) ↔
      ∃ k, lines[k]? = some line ∧ size = extent? (sectionAfter sect (lines.take k)) line := by
  rw [List.mem_iff_getElem?]
  refine exists_congr fun k => ?_
  rw [List.getElem?_zip_eq_some, getElem?_extents]
  refine and_congr_right fun hline => ?_
  rw [hline, Option.map_some, Option.some.injEq, eq_comm]

/-! ### Emission reads the names that lines refer to -/

/-- The names that emitted lines refer to can be resolved. -/
theorem emitLine_resolves {scope : Scope} {e e' : Emission} {line : Line} {size : Option Nat}
    (h : emitLine scope e line size = .ok e') :
    ∀ name ∈ referred (line, size), ∃ resolution, scope.resolve name = .ok resolution := by
  intro name hreferred
  obtain ⟨i, n, hline, hsize, hname⟩ := mem_referred.mp hreferred
  cases emits_of_emitLine h with
  | bytes hbytes haddr => cases hline.symm.trans hbytes
  | instr hinstr hnames haddr hencode =>
      cases hline.symm.trans hinstr
      exact hnames name hname
  | silent hbytes hinstr => exact absurd hsize (hinstr i n hline)

/-- Where lines have been emitted, all names that they refer to resolve. -/
theorem emitLines_resolves {scope : Scope} {e e' : Emission} {lines : List (Line × Option Nat)}
    (h : emitLines scope e lines = .ok e') :
    ∀ entry ∈ lines, ∀ name ∈ referred entry, ∃ resolution,
      scope.resolve name = .ok resolution := by
  induction lines generalizing e with
  | nil => exact nofun
  | cons entry rest ih =>
      obtain ⟨next, hline, h⟩ := bind_eq_ok.mp h
      exact List.forall_mem_cons.mpr ⟨emitLine_resolves hline, ih h⟩

/-- Names resolve together as they do one by one. -/
theorem Scope.resolveAll_congr {scope scope' : Scope} {names : List String}
    (h : ∀ name ∈ names, scope'.resolve name = scope.resolve name) :
    scope'.resolveAll names = scope.resolveAll names := by
  induction names with
  | nil => rfl
  | cons name rest ih =>
      obtain ⟨hname, hrest⟩ := List.forall_mem_cons.mp h
      rw [resolveAll, resolveAll, hname, ih hrest]

/-! ### Another table -/

/-- The same scope with another table of symbols. -/
def Scope.withExterns (scope : Scope) (externs : SymbolTable) : Scope :=
  { scope with externs := externs }

/-- A label is resolved without the table. -/
theorem Scope.resolve_withExterns {scope : Scope} {externs : SymbolTable} {name : String}
    (h : scope.labels.get? name = none → externs.lookup? name = scope.externs.lookup? name) :
    (scope.withExterns externs).resolve name = scope.resolve name := by
  cases hlabel : scope.labels.get? name with
  | none =>
      -- only the table decides
      rw [resolve_of_not_get? hlabel, @resolve_of_not_get? (scope.withExterns externs) name hlabel,
        ← h hlabel]
      rfl
  | some label =>
      unfold resolve Labels.address?
      rw [withExterns, hlabel]
      dsimp only
      generalize Word.offset _ _ = address
      cases address <;> rfl

/-- Emission is the same with a table that agrees on the names that the lines refer to. -/
theorem emitLines_withExterns {scope : Scope} {externs : SymbolTable}
    {lines : List (Line × Option Nat)}
    (h : ∀ entry ∈ lines, ∀ name ∈ referred entry,
      (scope.withExterns externs).resolve name = scope.resolve name) (e : Emission) :
    emitLines (scope.withExterns externs) e lines = emitLines scope e lines := by
  induction lines generalizing e with
  | nil => rfl
  | cons entry rest ih =>
      obtain ⟨hentry, hrest⟩ := List.forall_mem_cons.mp h
      obtain ⟨line, size⟩ := entry
      have hline : emitLine (scope.withExterns externs) e line size =
          emitLine scope e line size := by
        unfold emitLine
        split
        · rfl
        next i n hstatement =>
          have hnames := Scope.resolveAll_congr fun name hname =>
            hentry name (mem_referred.mpr ⟨i, n, hstatement, rfl, hname⟩)
          simp only [emitInstr, hnames]
          rfl
        · rfl
      rw [emitLines, emitLines, hline]
      exact bind_congr fun next => ih hrest next

end Assembler

end Asm

end Ia32

import Ia32.Proofs.Asm.SymbolMap

/-!
# Emission of other lines than those laid out

Nothing keeps the second pass from being given other lines than the first. It pairs them with
the sizes of the first pass, and ends in a fatal condition unless they have as much code as was
laid out. The amount of data is not checked: it is what the lines write to the data where the
first pass has a size. Where that is less than was laid out, labels may be left behind the end of
the data, and then the program has no symbol map.
-/

namespace Ia32.Asm

namespace Assembler

/-! ### What is written to the data -/

/-- Bytes that lines with sizes write to the data, when the first of them starts in a section. -/
def dataWritten : Section → List (Line × Option Nat) → Nat
  | _, [] => 0
  | sect, (line, size) :: rest =>
      (match sect, line.statement, size with
        | .data, some (.bytes bytes), some _ => bytes.length
        | _, _, _ => 0) + dataWritten (nextSection sect line) rest

/-- A line writes to the data what it emits there, whatever its size was. -/
theorem emitLine_dataWritten {scope : Scope} {e e' : Emission} {line : Line} {size : Option Nat}
    (h : emitLine scope e line size = .ok e') :
    e'.sect = nextSection e.sect line ∧
      e'.data.size = e.data.size + dataWritten e.sect [(line, size)] := by
  cases emits_of_emitLine h with
  | @bytes n bytes addr hline haddr =>
      refine ⟨(nextSection_of_bytes hline).symm, (e.size_write e.sect line addr bytes).2.trans ?_⟩
      cases hsect : e.sect <;> simp [dataWritten, hline]
  | @instr i bytes addr hline hnames haddr hbytes =>
      refine ⟨(nextSection_of_instr hline).symm, (e.size_write .text line addr bytes).2.trans ?_⟩
      simp [dataWritten, hline]
  | silent hbytes hinstr =>
      refine ⟨rfl, ?_⟩
      simp only [dataWritten, Nat.add_zero]
      split
      next bytes n _ hline => exact absurd rfl (hbytes bytes n hline)
      next => rfl

/-- The data grows by what the lines write. -/
theorem emitLines_dataWritten {scope : Scope} {e e' : Emission} {lines : List (Line × Option Nat)}
    (h : emitLines scope e lines = .ok e') :
    e'.data.size = e.data.size + dataWritten e.sect lines := by
  induction lines generalizing e with
  | nil =>
      cases h
      rfl
  | cons entry rest ih =>
      obtain ⟨line, size⟩ := entry
      obtain ⟨next, hline, h⟩ := bind_eq_ok.mp h
      obtain ⟨hsect, hsize⟩ := emitLine_dataWritten hline
      rw [ih h, hsize, hsect, Nat.add_assoc]
      rfl

end Assembler

/-! ### Programs with a symbol map -/

namespace Assembly

variable {asm : Assembly} {sect : Section}

theorem offset_le_nextOffset_of_symbolEntry {label : Label} {entry : SymbolEntry}
    (h : asm.symbolEntry label = .ok entry) :
    label.offset ≤ asm.nextOffset label.sect label.offset (asm.bytesOf label.sect).length := by
  obtain ⟨sect, offset, line⟩ := label
  by_contra hbehind
  cases sect
  all_goals
    obtain ⟨base, -, h⟩ := bind_eq_ok.mp h
    obtain ⟨addr, -, h⟩ := bind_eq_ok.mp h
    obtain ⟨size, hsize, -⟩ := bind_eq_ok.mp h
    cases hsize.symm.trans (if_neg hbehind)

/-- If the map has all entries of a section, each of its labels has one. -/
theorem exists_symbolEntry {labels : List (String × Label)}
    {entries : List (String × SymbolEntry)} (h : asm.symbolEntries sect labels = .ok entries)
    {d : String × Label} (hd : d ∈ labels) (hsect : d.2.sect = sect) :
    ∃ entry, asm.symbolEntry d.2 = .ok entry := by
  induction labels generalizing entries with
  | nil => cases hd
  | cons first rest ih =>
      rw [symbolEntries] at h
      by_cases hfirst : first.2.sect = sect
      · rw [if_pos hfirst] at h
        obtain ⟨entry, hentry, h⟩ := bind_eq_ok.mp h
        obtain ⟨others, hothers, -⟩ := bind_eq_ok.mp h
        rcases List.mem_cons.mp hd with rfl | hd
        · exact ⟨entry, hentry⟩
        · exact ih hothers hd
      · rw [if_neg hfirst] at h
        rcases List.mem_cons.mp hd with rfl | hd
        · exact absurd hsect hfirst
        · exact ih h hd

/-- When no extent is negative, the last label of a section is not behind its end, and so none
is. -/
theorem offset_le_of_le_nextOffset {finish : Nat}
    (h : ∀ offset ∈ asm.offsets sect, offset ≤ asm.nextOffset sect offset finish) :
    ∀ offset ∈ asm.offsets sect, offset ≤ finish := by
  intro offset hoffset
  obtain ⟨last, hlast, hgreatest⟩ :=
    (asm.offsets sect).toFinset.exists_max_image id ⟨offset, List.mem_toFinset.mpr hoffset⟩
  have hmem : last ∈ asm.offsets sect := List.mem_toFinset.mp hlast
  have habove : ∀ other ∈ asm.offsets sect, other ≤ last :=
    fun other hother => hgreatest other (List.mem_toFinset.mpr hother)
  have hle := h last hmem
  rw [nextOffset_last habove] at hle
  exact (habove offset hoffset).trans hle

/-- A program with a symbol map has its labels inside its sections or at their ends. -/
theorem offset_le_of_symbolMap {map : SymbolMap} (h : asm.symbolMap = .ok map) :
    ∀ d ∈ asm.labels.entries, d.2.offset ≤ (asm.bytesOf d.2.sect).length := by
  obtain ⟨code, hcode, h⟩ := bind_eq_ok.mp h
  obtain ⟨data, hdata, -⟩ := bind_eq_ok.mp h
  have hentries (sect : Section) : ∃ entries,
      asm.symbolEntries sect asm.labels.entries = .ok entries := by
    cases sect with
    | text => exact ⟨code, hcode⟩
    | data => exact ⟨data, hdata⟩
  intro d hd
  refine offset_le_of_le_nextOffset ?_ _ (mem_offsets.mpr ⟨d, hd, rfl, rfl⟩)
  intro offset hoffset
  obtain ⟨other, hother, hsect, rfl⟩ := mem_offsets.mp hoffset
  obtain ⟨entries, hall⟩ := hentries d.2.sect
  obtain ⟨entry, hentry⟩ := exists_symbolEntry hall hother hsect
  rw [← hsect]
  exact offset_le_nextOffset_of_symbolEntry hentry

end Assembly

namespace Assembler

variable {lines others : List Line} {externs : SymbolTable} {asm : Assembly} {scope : Scope}
  {a : Assembler} {e : Emission}

/-- A program whose labels are placed in both sections has a symbol map. -/
theorem Finished.exists_symbolMap (h : Finished a others externs asm scope e)
    (hplaced : ∀ sect, asm.Placed sect (scope.base sect)) : ∃ map, asm.symbolMap = .ok map := by
  have hentries (sect : Section) : asm.symbolEntries sect asm.labels.entries =
      .ok (asm.entriesAt sect (scope.base sect)) :=
    Assembly.symbolEntries_eq (hplaced sect) fun d hd => hd
  obtain ⟨entry, hentry⟩ := h.exists_entryAddress (hplaced .text)
  refine ⟨⟨entry, asm.needsLibrary, asm.entriesAt .text scope.textBase,
    asm.entriesAt .data scope.dataBase⟩, ?_⟩
  rw [Assembly.symbolMap, hentries .text, hentries .data, hentry]
  rfl

/-- What becomes of other lines than those laid out. The code has the length that was laid out.
The data has it exactly if the lines write as much to the data, at lines that have a size; then,
and in the code always, every label is inside its section or at its end. And when the addresses
of the labels exist, the program has a symbol map exactly if no label is behind its section. -/
theorem emit_others {config : Config} (hlayout : layout lines (ofConfig config) = .ok () a)
    (hemit : a.emit others externs = .ok asm) :
    asm.code.length = a.codeLength ∧
      (asm.data.length = a.dataLength ↔
        dataWritten .text (others.zip (extents .text lines)) = lengthIn .data .text lines) ∧
      (∀ d ∈ asm.labels.entries,
        d.2.sect = .text ∨
          dataWritten .text (others.zip (extents .text lines)) = lengthIn .data .text lines →
        d.2.offset ≤ (asm.bytesOf d.2.sect).length) ∧
      ((∀ d ∈ asm.labels.entries, ∀ base, asm.base d.2.sect = .ok base →
          base.toNat + d.2.offset < 4294967296) →
        ((∃ map, asm.symbolMap = .ok map) ↔
          ∀ d ∈ asm.labels.entries, d.2.offset ≤ (asm.bytesOf d.2.sect).length)) := by
  obtain ⟨scope, e, hfinished⟩ := emit_eq_ok hemit
  have hlaid := layout_eq_ok hlayout
  have hcode : asm.code.length = a.codeLength := by
    rw [hfinished.result]
    exact (Array.length_toList).trans hfinished.codeLength
  have hlaidData : a.dataLength = lengthIn .data .text lines := by
    simpa [lengthOf] using hlaid.lengthOf .data
  have hdata : asm.data.length = dataWritten .text (others.zip (extents .text lines)) := by
    have hsizes : a.sizes.toList = extents .text lines := by simpa using hlaid.sizes
    have hwritten := emitLines_dataWritten hfinished.emitted
    rw [hsizes] at hwritten
    rw [hfinished.result]
    simpa using hwritten
  have hlabels : asm.labels = a.labels := by rw [hfinished.result]
  have hwithin (d : String × Label) (hd : d ∈ asm.labels.entries) :
      d.2.offset ≤ a.lengthOf d.2.sect :=
    hlaid.offset_le rfl (hlabels ▸ hd)
  refine ⟨hcode, by rw [hdata, hlaidData], ?_, ?_⟩
  · intro d hd hagrees
    refine (hwithin d hd).trans (Nat.le_of_eq ?_)
    cases hsect : d.2.sect with
    | text => exact hcode.symm
    | data =>
        have hsame := hagrees.resolve_left (by simp [hsect])
        exact hlaidData.trans (hsame.symm.trans hdata.symm)
  · intro hroom
    constructor
    · rintro ⟨map, hmap⟩
      exact Assembly.offset_le_of_symbolMap hmap
    · intro hinside
      refine hfinished.exists_symbolMap fun sect => ⟨hfinished.base_eq sect, fun d hd hsect => ?_⟩
      subst hsect
      exact ⟨hinside d hd, hroom d hd _ (hfinished.base_eq _)⟩

/-- Lines with a byte of code, three bytes of data and a label at the end of the data. -/
def threeBytes : List Line :=
  [⟨1, "_start: ret", some "_start", some (.instr ⟨.ret, []⟩)⟩,
    ⟨2, "section .data", none, some (.select .data)⟩,
    ⟨3, "x: db 'ab'", some "x", some (.bytes [97, 98, 0])⟩,
    ⟨4, "y:", some "y", none⟩]

/-- Other lines with as much code and data at the same places, without labels. -/
def threeOthers : List Line :=
  [⟨1, "popa", none, some (.instr ⟨.popa, []⟩)⟩,
    ⟨2, "section .data", none, some (.select .data)⟩,
    ⟨3, "db 1, 2, 3", none, some (.bytes [1, 2, 3])⟩]

/-- The first lines with a byte less of data. -/
def twoBytes : List Line :=
  [⟨1, "_start: ret", some "_start", some (.instr ⟨.ret, []⟩)⟩,
    ⟨2, "section .data", none, some (.select .data)⟩,
    ⟨3, "x: db 'a'", some "x", some (.bytes [97, 0])⟩,
    ⟨4, "y:", some "y", none⟩]

theorem emit_others_three : ∃ a asm, layout threeBytes (ofConfig {}) = .ok () a ∧
    a.emit threeOthers {} = .ok asm ∧ asm.code = [0x61] ∧ asm.data = [1, 2, 3] ∧
    asm.code.length = a.codeLength ∧ asm.data.length = a.dataLength ∧
    (∀ d ∈ asm.labels.entries, d.2.offset ≤ (asm.bytesOf d.2.sect).length) ∧
    ∃ map, asm.symbolMap = .ok map := by
  have hrun : ∃ a, layout threeBytes (ofConfig {}) = .ok () a ∧
      (a.emit threeOthers {}).toOption.any (fun asm =>
        asm.code = [0x61] && asm.data = [1, 2, 3] && asm.labels.entries.all fun d =>
          (asm.base d.2.sect).toOption.all fun base => base.toNat + d.2.offset < 4294967296) =
        true := ⟨_, rfl, by decide +kernel⟩
  obtain ⟨a, hlayout, hrun⟩ := hrun
  cases hemit : a.emit threeOthers {} with
  | error x =>
      rw [hemit] at hrun
      cases hrun
  | ok asm =>
      rw [hemit] at hrun
      obtain ⟨hbytes, hroom⟩ := Bool.and_eq_true_iff.mp hrun
      obtain ⟨hcodeBytes, hdataBytes⟩ := Bool.and_eq_true_iff.mp hbytes
      obtain ⟨hcode, hdata, hinside, hmap⟩ := emit_others hlayout hemit
      have hagrees : dataWritten .text (threeOthers.zip (extents .text threeBytes)) =
          lengthIn .data .text threeBytes := rfl
      have hlabels := fun d hd => hinside d hd (.inr hagrees)
      refine ⟨a, asm, hlayout, hemit, of_decide_eq_true hcodeBytes, of_decide_eq_true hdataBytes,
        hcode, hdata.mpr hagrees, hlabels, (hmap fun d hd base hbase => ?_).mpr hlabels⟩
      have hlabel := List.all_eq_true.mp hroom d hd
      rw [hbase] at hlabel
      simpa [Except.toOption] using hlabel

/-- With a byte less of data the drift goes unnoticed: the label at the end of the data is behind
it, and the difference that would be its extent is negative. -/
theorem emit_others_two :
    Line.readAll "_start: ret\nsection .data\nx: db 'ab'\ny:\n" = .ok (threeBytes, []) ∧
      Line.readAll "_start: ret\nsection .data\nx: db 'a'\ny:\n" = .ok (twoBytes, []) ∧
      ∃ a asm, layout threeBytes (ofConfig {}) = .ok () a ∧
        a.emit twoBytes {} = .ok asm ∧ a.dataLength = 3 ∧ asm.data.length = 2 ∧
        asm.labels.get? "y" = some ⟨.data, 3, 4⟩ ∧ asm.symbolMap = .error .overflow := by
  have hrun : ∃ a, layout threeBytes (ofConfig {}) = .ok () a ∧ a.dataLength = 3 ∧
      (a.emit twoBytes {}).toOption.any (fun asm =>
        asm.data.length = 2 && asm.labels.get? "y" = some ⟨.data, 3, 4⟩ &&
          asm.symbolMap = .error .overflow) = true := ⟨_, rfl, rfl, by decide +kernel⟩
  refine ⟨by decide +kernel, by decide +kernel, ?_⟩
  obtain ⟨a, hlayout, hlaid, hrun⟩ := hrun
  cases hemit : a.emit twoBytes {} with
  | error x =>
      rw [hemit] at hrun
      cases hrun
  | ok asm =>
      rw [hemit] at hrun
      obtain ⟨hdata, hmap⟩ := Bool.and_eq_true_iff.mp hrun
      obtain ⟨hdata, hlabel⟩ := Bool.and_eq_true_iff.mp hdata
      exact ⟨a, asm, hlayout, hemit, hlaid, of_decide_eq_true hdata, of_decide_eq_true hlabel,
        of_decide_eq_true hmap⟩

end Assembler

end Ia32.Asm

import Ia32.Proofs.Asm.Layout
import Ia32.Proofs.Instruction.Size

/-!
# What the second pass emits

The second pass walks over the same lines with the sizes of the first. It stays
in step with the first pass: at every line both are in the same section, and the
line emits as many bytes as were laid out for it. Apart from sums of addresses
that leave the address space, nothing can go wrong in it.
-/

namespace Ia32

namespace Instr

variable {L M : Type}

/-- An instruction depends on the targets of its own labels only. -/
theorem resolve_congr {f g : L → M} {i : Instr L} (h : ∀ l ∈ i.labels, f l = g l) :
    i.resolve f = i.resolve g := by
  obtain ⟨op, args⟩ := i
  have hargs : args.map (Operand.resolve f) = args.map (Operand.resolve g) := by
    apply List.map_congr_left
    intro a ha
    cases a with
    | reg r => rfl
    | mem m => rfl
    | imm v => rfl
    | label l => exact congrArg Operand.label (h l (List.mem_filterMap.mpr ⟨_, ha, rfl⟩))
  unfold resolve
  rw [hargs]

end Instr

namespace Asm

theorem ofChecked_eq_ok {α : Type} {x : Checked α} {a : α} : ofChecked x = .ok a ↔ x = .ok a := by
  cases x with
  | error e => cases e; simp [ofChecked]
  | ok b => simp [ofChecked]

theorem ofChecked_eq_error {α : Type} {x : Checked α} {e : Error} (h : ofChecked x = .error e) :
    e = .overflow := by
  cases x with
  | error e' => cases e'; cases h; rfl
  | ok b => cases h

namespace Assembler

/-- What a name stands for, when its address can be formed. -/
def Scope.resolution (scope : Scope) (name : String) : Resolution :=
  match scope.resolve name with
  | .ok resolution => resolution
  | .error _ => .undefined

/-- The address that a name is encoded as. -/
def Scope.addressOf (scope : Scope) (name : String) : UInt32 :=
  (scope.resolution name).address

/-- Names that are resolved together are resolved one by one. -/
theorem Scope.resolveAll_eq_ok {scope : Scope} {names : List String}
    {resolved : List (String × Resolution)} (h : scope.resolveAll names = .ok resolved) :
    resolved = names.map fun name => (name, scope.resolution name) := by
  induction names generalizing resolved with
  | nil =>
      cases h
      rfl
  | cons name rest ih =>
      unfold resolveAll at h
      obtain ⟨resolution, hname, h⟩ := bind_eq_ok.mp h
      obtain ⟨others, hrest, h⟩ := bind_eq_ok.mp h
      cases h
      rw [ih hrest, List.map_cons, Scope.resolution, hname]

/-- The address of a resolved name is that of its scope. -/
theorem addressIn_map (scope : Scope) {names : List String} {name : String} (h : name ∈ names) :
    addressIn (names.map fun n => (n, scope.resolution n)) name = scope.addressOf name := by
  have hlookup : (names.map fun n => (n, scope.resolution n)).lookup name =
      some (scope.resolution name) := by
    induction names with
    | nil => cases h
    | cons head rest ih =>
        rw [List.map_cons]
        by_cases heq : name = head
        · rw [heq, List.lookup_cons_self]
        · have hbeq : (name == head) = false := beq_eq_false_iff_ne.mpr heq
          rw [List.lookup_cons, hbeq]
          exact ih ((List.mem_cons.mp h).resolve_left heq)
  unfold addressIn
  rw [hlookup]
  rfl

/-- Whether a name stands for an external symbol. -/
def Resolution.isExternal : Resolution → Bool
  | .external _ => true
  | _ => false

/-- If all names resolve, each one does. -/
theorem Scope.resolve_of_resolveAll {scope : Scope} {names : List String}
    {resolved : List (String × Resolution)} (h : scope.resolveAll names = .ok resolved) :
    ∀ name ∈ names, ∃ resolution, scope.resolve name = .ok resolution := by
  induction names generalizing resolved with
  | nil =>
      intro name hname
      cases hname
  | cons first rest ih =>
      unfold Scope.resolveAll at h
      obtain ⟨resolution, hfirst, h⟩ := bind_eq_ok.mp h
      obtain ⟨others, hrest, -⟩ := bind_eq_ok.mp h
      intro name hname
      rcases List.mem_cons.mp hname with rfl | hname
      · exact ⟨resolution, hfirst⟩
      · exact ih hrest name hname

theorem size_appendList (xs : Array UInt8) (bytes : Bytes) :
    (xs ++ bytes).size = xs.size + bytes.length := by
  rw [← Array.length_toList, Array.toList_appendList, List.length_append, Array.length_toList]

/-! ### What is emitted at a line -/

/-- Address of a section. -/
def Scope.base (scope : Scope) : Section → UInt32
  | .text => scope.textBase
  | .data => scope.dataBase

/-- Bytes emitted so far into a section. -/
def Emission.bytesOf (e : Emission) : Section → Bytes
  | .text => e.code.toList
  | .data => e.data.toList

theorem Emission.length_bytesOf (e : Emission) :
    (e.bytesOf .text).length = e.code.size ∧ (e.bytesOf .data).length = e.data.size :=
  ⟨Array.length_toList, Array.length_toList⟩

/-- The emission behind bytes that a line puts into a section at an address. -/
def Emission.write (e : Emission) (target : Section) (line : Line) (addr : UInt32)
    (bytes : Bytes) : Emission :=
  { e with
    code := if target = .text then e.code ++ bytes else e.code
    data := if target = .data then e.data ++ bytes else e.data
    listing := e.listing.push ⟨line.number, some addr, bytes, line.source⟩ }

/-- A write adds its bytes to its own section. -/
theorem Emission.bytesOf_write (e : Emission) (target : Section) (line : Line) (addr : UInt32)
    (bytes : Bytes) (sect : Section) :
    (e.write target line addr bytes).bytesOf sect =
      e.bytesOf sect ++ if target = sect then bytes else [] := by
  cases target <;> cases sect <;> simp [bytesOf, write]

/-- A write makes its own section longer by its bytes. -/
theorem Emission.size_write (e : Emission) (target : Section) (line : Line) (addr : UInt32)
    (bytes : Bytes) :
    (e.write target line addr bytes).code.size =
        e.code.size + (if target = .text then bytes.length else 0) ∧
      (e.write target line addr bytes).data.size =
        e.data.size + (if target = .data then bytes.length else 0) := by
  cases target <;> simp [write, size_appendList]

/-- The names that a line of a given size refers to. Only an instruction that is emitted
refers to names. -/
def referred (entry : Line × Option Nat) : List String :=
  match entry.1.statement, entry.2 with
  | some (.instr i), some _ => i.labels
  | _, _ => []

/-- A line refers to the labels of its instruction, as far as it has been measured. -/
theorem mem_referred {line : Line} {size : Option Nat} {name : String} :
    name ∈ referred (line, size) ↔
      ∃ i n, line.statement = some (.instr i) ∧ size = some n ∧ name ∈ i.labels := by
  unfold referred
  split
  next i n hline hsize =>
    dsimp only at hline hsize
    simp [hline, hsize]
  next hnone =>
    refine iff_of_false List.not_mem_nil ?_
    rintro ⟨i, n, hline, hsize, -⟩
    exact hnone i n hline hsize

/-- What the second pass does at a line with a size: bytes go to the section that the line stands
in, an instruction is encoded at its address with every name replaced by its address, and any other
line is only listed. -/
inductive EmitsLine (scope : Scope) (e : Emission) (line : Line) : Option Nat → Emission → Prop
  | bytes {n : Nat} {bytes : Bytes} {addr : UInt32}
      (hline : line.statement = some (.bytes bytes))
      (haddr : Word.offset (scope.base e.sect) (e.bytesOf e.sect).length = .ok addr) :
      EmitsLine scope e line (some n) (e.write e.sect line addr bytes)
  | instr {i : Instr String} {bytes : Bytes} {addr : UInt32}
      (hline : line.statement = some (.instr i))
      (hnames : ∀ name ∈ i.labels, ∃ resolution, scope.resolve name = .ok resolution)
      (haddr : Word.offset scope.textBase e.code.size = .ok addr)
      (hbytes : (i.resolve scope.addressOf).encode addr = .ok bytes) :
      EmitsLine scope e line (some bytes.length) { e.write .text line addr bytes with
        needsLibrary := e.needsLibrary ||
          i.labels.any fun name => (scope.resolution name).isExternal
        diagnostics := e.diagnostics ++
          (i.labels.filter fun name => scope.resolution name == .undefined).map
            (undefinedName line.number) }
  | silent {size : Option Nat}
      (hbytes : ∀ b n, line.statement = some (.bytes b) → size ≠ some n)
      (hinstr : ∀ i n, line.statement = some (.instr i) → size ≠ some n) :
      EmitsLine scope e line size { e with
        sect := nextSection e.sect line
        listing := e.listing.push ⟨line.number, none, [], line.source⟩ }

/-- Emitting an instruction is one of the three outcomes of a line. -/
theorem emits_of_emitInstr {scope : Scope} {e e' : Emission} {line : Line} {i : Instr String}
    {expected : Nat} (hline : line.statement = some (.instr i))
    (h : emitInstr scope e line i expected = .ok e') :
    EmitsLine scope e line (some expected) e' := by
  unfold emitInstr at h
  obtain ⟨addr, haddr, h⟩ := bind_eq_ok.mp h
  obtain ⟨resolved, hall, h⟩ := bind_eq_ok.mp h
  have hresolved := Scope.resolveAll_eq_ok (ofChecked_eq_ok.mp hall)
  have hinstr : i.resolve (addressIn resolved) = i.resolve scope.addressOf := by
    apply Instr.resolve_congr
    intro l hl
    rw [hresolved, addressIn_map scope hl]
  rw [hinstr] at h
  split at h
  case h_1 => cases h
  case h_2 bytes hbytes =>
    by_cases hlength : bytes.length = expected
    · rw [if_pos hlength] at h
      cases h
      subst hlength
      have hnames := Scope.resolve_of_resolveAll (ofChecked_eq_ok.mp hall)
      subst hresolved
      simp only [List.any_map, List.filter_map, List.map_map]
      exact .instr hline hnames (ofChecked_eq_ok.mp haddr) hbytes
    · rw [if_neg hlength] at h
      cases h

/-- An instruction of the expected size fails in an address only. -/
theorem emitInstr_eq_error {scope : Scope} {e : Emission} {line : Line} {i : Instr String}
    {expected : Nat} {x : Error} (hsize : i.size = .ok expected)
    (h : emitInstr scope e line i expected = .error x) : x = .overflow := by
  unfold emitInstr at h
  rcases bind_eq_error.mp h with h | ⟨addr, -, h⟩
  · exact ofChecked_eq_error h
  rcases bind_eq_error.mp h with h | ⟨resolved, -, h⟩
  · exact ofChecked_eq_error h
  have hagrees := i.encode_agrees (addressIn resolved) addr
  rw [hsize] at hagrees
  obtain ⟨bytes, hbytes, hlength⟩ := hagrees.length
  rw [hbytes] at h
  simp only [if_pos hlength] at h
  cases h

/-- The second pass went over lines: where it stands, and how much it emitted. -/
structure Emitted (lines : List Line) (e e' : Emission) : Prop where
  sect : e'.sect = sectionAfter e.sect lines
  codeSize : e'.code.size = e.code.size + lengthIn .text e.sect lines
  dataSize : e'.data.size = e.data.size + lengthIn .data e.sect lines

theorem extent?_bytes (sect : Section) {line : Line} {bytes : Bytes}
    (h : line.statement = some (.bytes bytes)) : extent? sect line = some bytes.length := by
  simp only [extent?, measure, h]

/-- Only an instruction of the code with a size has an extent. -/
theorem extent?_instr {sect : Section} {line : Line} {i : Instr String} {n : Nat}
    (hline : line.statement = some (.instr i)) (h : extent? sect line = some n) :
    sect = .text ∧ i.size = .ok n := by
  simp only [extent?, measure, hline] at h
  cases sect with
  | data => simp at h
  | text =>
      cases hsize : i.size with
      | error e => simp [hsize] at h
      | ok k =>
          refine ⟨rfl, ?_⟩
          simp only [hsize, reduceCtorEq, if_false, Option.some.injEq] at h
          rw [h]

theorem emits_of_emitBytes {scope : Scope} {e e' : Emission} {line : Line} {bytes : Bytes}
    {n : Nat} (hline : line.statement = some (.bytes bytes))
    (h : emitBytes scope e line bytes = .ok e') : EmitsLine scope e line (some n) e' := by
  obtain ⟨sect, code, data, listing, needsLibrary, diagnostics⟩ := e
  unfold emitBytes at h
  cases sect with
  | text =>
      obtain ⟨addr, haddr, h⟩ := bind_eq_ok.mp h
      cases h
      exact .bytes hline (ofChecked_eq_ok.mp haddr)
  | data =>
      obtain ⟨addr, haddr, h⟩ := bind_eq_ok.mp h
      cases h
      exact .bytes hline (ofChecked_eq_ok.mp haddr)

/-- Whatever a line is, its emission is one of the three outcomes. -/
theorem emits_of_emitLine {scope : Scope} {e e' : Emission} {line : Line} {size : Option Nat}
    (h : emitLine scope e line size = .ok e') : EmitsLine scope e line size e' := by
  unfold emitLine at h
  split at h
  case h_1 bytes n hline => exact emits_of_emitBytes hline h
  case h_2 i expected hline => exact emits_of_emitInstr hline h
  case h_3 hbytes hinstr =>
    cases h
    exact .silent hbytes hinstr

/-- A line adds remarks about the names that it refers to, and sets the library flag by them. -/
theorem EmitsLine.remarks {scope : Scope} {e e' : Emission} {line : Line} {size : Option Nat}
    (h : EmitsLine scope e line size e') :
    e'.needsLibrary = (e.needsLibrary ||
        (referred (line, size)).any fun name => (scope.resolution name).isExternal) ∧
      e'.diagnostics = e.diagnostics ++
        ((referred (line, size)).filter fun name => scope.resolution name == .undefined).map
          (undefinedName line.number) := by
  cases h with
  | bytes hline haddr =>
      simp only [referred, hline]
      exact ⟨(Bool.or_false _).symm, (List.append_nil _).symm⟩
  | instr hline hnames haddr hbytes =>
      simp only [referred, hline, and_self]
  | silent hbytes hinstr =>
      have hnone : referred (line, size) = [] :=
        List.eq_nil_iff_forall_not_mem.mpr fun name hname => by
          obtain ⟨i, n, hline, hsize, -⟩ := mem_referred.mp hname
          exact hinstr i n hline hsize
      rw [hnone]
      exact ⟨(Bool.or_false _).symm, (List.append_nil _).symm⟩

theorem emitBytes_eq_error {scope : Scope} {e : Emission} {line : Line} {bytes : Bytes}
    {x : Error} (h : emitBytes scope e line bytes = .error x) : x = .overflow := by
  unfold emitBytes at h
  split at h
  all_goals
    rcases bind_eq_error.mp h with h | ⟨addr, -, h⟩
    · exact ofChecked_eq_error h
    · cases h

theorem nextSection_of_bytes {sect : Section} {line : Line} {bytes : Bytes}
    (h : line.statement = some (.bytes bytes)) : nextSection sect line = sect := by
  simp only [nextSection, h]

theorem nextSection_of_instr {sect : Section} {line : Line} {i : Instr String}
    (h : line.statement = some (.instr i)) : nextSection sect line = sect := by
  simp only [nextSection, h]

/-- Only data and instructions take bytes. -/
theorem extent?_eq_none {sect : Section} {line : Line}
    (hbytes : ∀ b n, line.statement = some (.bytes b) → extent? sect line ≠ some n)
    (hinstr : ∀ i n, line.statement = some (.instr i) → extent? sect line ≠ some n) :
    extent? sect line = none := by
  cases hextent : extent? sect line with
  | none => rfl
  | some n =>
      cases hline : line.statement with
      | none => simp [extent?, measure, hline] at hextent
      | some statement =>
          cases statement with
          | select s => simp [extent?, measure, hline] at hextent
          | bytes b => exact absurd hextent (hbytes b n hline)
          | instr i => exact absurd hextent (hinstr i n hline)

/-- The second pass at one line: it goes to the section that the first pass goes
to, and emits what was laid out. -/
theorem emitLine_eq_ok {scope : Scope} {e e' : Emission} {line : Line}
    (h : emitLine scope e line (extent? e.sect line) = .ok e') : Emitted [line] e e' := by
  generalize hsize : extent? e.sect line = size at h
  cases emits_of_emitLine h with
  | @bytes _ bytes addr hline haddr =>
      have hextent := extent?_bytes e.sect hline
      obtain ⟨hcode, hdata⟩ := e.size_write e.sect line addr bytes
      refine ⟨(nextSection_of_bytes hline).symm, ?_, ?_⟩
      · rw [hcode, lengthIn_singleton, hextent, Option.getD_some]
      · rw [hdata, lengthIn_singleton, hextent, Option.getD_some]
  | @instr i bytes addr hline hnames haddr hbytes =>
      obtain ⟨hsect, -⟩ := extent?_instr hline hsize
      obtain ⟨hcode, hdata⟩ := e.size_write .text line addr bytes
      refine ⟨(nextSection_of_instr hline).symm, ?_, ?_⟩
      · rw [lengthIn_singleton, hsize, hsect]
        exact hcode
      · rw [lengthIn_singleton, hsect]
        exact hdata
  | silent hbytes hinstr =>
      have hextent : extent? e.sect line = none :=
        extent?_eq_none (fun b n hline => hsize ▸ hbytes b n hline)
          fun i n hline => hsize ▸ hinstr i n hline
      refine ⟨rfl, ?_, ?_⟩ <;> simp [lengthIn_singleton, hextent]

/-- A line that is emitted as it was measured fails in an address only. -/
theorem emitLine_eq_error {scope : Scope} {e : Emission} {line : Line} {x : Error}
    (h : emitLine scope e line (extent? e.sect line) = .error x) : x = .overflow := by
  unfold emitLine at h
  split at h
  case h_1 => exact emitBytes_eq_error h
  case h_2 i expected hline hsize => exact emitInstr_eq_error (extent?_instr hline hsize).2 h
  case h_3 => cases h

/-- The second pass over lines with the sizes of the first stays in step with it. -/
theorem emitLines_eq_ok {scope : Scope} {e e' : Emission} {lines : List Line}
    (h : emitLines scope e (lines.zip (extents e.sect lines)) = .ok e') : Emitted lines e e' := by
  induction lines generalizing e with
  | nil =>
      cases h
      exact ⟨rfl, by simp [lengthIn], by simp [lengthIn]⟩
  | cons line rest ih =>
      simp only [extents, List.zip_cons_cons, emitLines] at h
      obtain ⟨next, hline, h⟩ := bind_eq_ok.mp h
      have hfirst := emitLine_eq_ok hline
      have hsect : nextSection e.sect line = next.sect := hfirst.sect.symm
      rw [hsect] at h
      have hrest := ih h
      refine ⟨?_, ?_, ?_⟩
      · rw [hrest.sect, hfirst.sect]
        rfl
      · rw [hrest.codeSize, hfirst.codeSize, hfirst.sect, Nat.add_assoc]
        rfl
      · rw [hrest.dataSize, hfirst.dataSize, hfirst.sect, Nat.add_assoc]
        rfl

theorem emitLines_eq_error {scope : Scope} {e : Emission} {lines : List Line} {x : Error}
    (h : emitLines scope e (lines.zip (extents e.sect lines)) = .error x) : x = .overflow := by
  induction lines generalizing e with
  | nil => cases h
  | cons line rest ih =>
      simp only [extents, List.zip_cons_cons, emitLines] at h
      rcases bind_eq_error.mp h with h | ⟨next, hline, h⟩
      · exact emitLine_eq_error h
      · have hsect : nextSection e.sect line = next.sect := (emitLine_eq_ok hline).sect.symm
        rw [hsect] at h
        exact ih h

end Assembler

end Asm

end Ia32

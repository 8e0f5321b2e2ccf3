import Ia32.Proofs.C.Placement
import Ia32.Proofs.Image.Loading
import Ia32.Proofs.Machine.Execution

/-!
# Processes of compiled programs

A compiled program, loaded: its code and its data stand at their addresses, far below the
stack, and no memory lies between the image and the stack. As long as nothing is stored
into the image, the machine finds the instruction of the item that it is at.
-/

namespace Ia32.C

open Asm Assembler

/-- No address of an image reaches this one. -/
def imageLimit : Nat := 0x80000000

/-- Lowest address of the stack. -/
def stackBottom : Nat := 0xBFEFF000

/-- The address behind the stack. -/
def stackEnd : Nat := 0xBFFFF000

/-- The numbers behind these names, for arithmetic. -/
theorem places : imageLimit = 0x80000000 ∧ stackBottom = 0xBFEFF000 ∧ stackEnd = 0xBFFFF000 :=
  ⟨rfl, rfl, rfl⟩

/-- A compiled program in memory, before its first instruction. -/
structure Loaded (p : Program) (lines : List Line) (asm : Assembly) (target : String → UInt32)
    (textBase dataBase : UInt32) (mem : Memory) : Prop where
  built : Built p lines asm target textBase dataBase
  textEnd : textBase.toNat + Abi.wholePages asm.code.length ≤ imageLimit
  dataEnd : dataBase.toNat + Abi.wholePages asm.data.length ≤ imageLimit
  code : ∀ i < Abi.wholePages asm.code.length,
    mem.get? (textBase + UInt32.ofNat i) = some (asm.code.getD i 0)
  data : ∀ i < Abi.wholePages asm.data.length,
    mem.get? (dataBase + UInt32.ofNat i) = some (asm.data.getD i 0)
  stack : ∀ a : UInt32, stackBottom ≤ a.toNat → a.toNat < stackEnd → mem.isMapped a = true
  gap : ∀ a : UInt32, imageLimit ≤ a.toNat → a.toNat < stackBottom → mem.isMapped a = false
  zero : ∀ a : UInt32, imageLimit ≤ a.toNat → mem.byteAt a = 0

/-- What has been built can be loaded, and lies in memory as the simulation asks for. -/
theorem Built.exists_loaded {p : Program} {lines : List Line} {asm : Assembly}
    {target : String → UInt32} {textBase dataBase : UInt32}
    (h : Built p lines asm target textBase dataBase) {source : String} {externs : SymbolTable}
    (hasm : assemble source {} externs = .ok asm)
    (himage : ∃ file, Image.ofAssembly asm = .ok file) :
    ∃ file mem, Image.ofAssembly asm = .ok file ∧
      Image.load file = .ok (Machine.start mem (target Abi.entryLabel)) ∧
      Loaded p lines asm target textBase dataBase
        (Machine.start mem (target Abi.entryLabel)).memory := by
  have hmagic : asm.code.head? ≠ Image.magic.head? := by
    obtain ⟨file, hfile⟩ := himage
    intro hmagic
    rw [Image.ofAssembly, if_pos hmagic] at hfile
    cases hfile
  have hcodeLength := h.codeLength
  have hdataLength := h.dataLength
  have hcode : Abi.wholePages asm.code.length ≤ 1048576 := by
    simp only [Abi.wholePages, Abi.pageSize]
    omega
  have hdata : Abi.wholePages asm.data.length ≤ 1048576 := by
    simp only [Abi.wholePages, Abi.pageSize]
    omega
  have hpage : Abi.pageSize = 4096 := rfl
  have hlength : Abi.pageSize + Abi.wholePages asm.code.length + Abi.wholePages asm.data.length <
      4294967296 := by omega
  obtain ⟨textBase', entry, htext, hentry, htextNat, hdataNat, hfile⟩ :=
    Image.ofAssembly_eq_fileWith hmagic (entry_le_of_assemble hasm) h.dataBase_eq hlength
  obtain rfl : textBase = textBase' := Except.ok.inj (h.textBase_eq.symm.trans htext)
  obtain rfl : target Abi.entryLabel = entry := Except.ok.inj (h.entry.symm.trans hentry)
  have hbase : asm.layout.base.toNat = 0x400000 := by rw [h.layout]; rfl
  obtain ⟨mem, hload, hholds⟩ := @Image.load_fileWith asm textBase dataBase (target Abi.entryLabel)
    h.needsLibrary htextNat hdataNat hlength (by omega)
  have hbottomNat : (0xBFEFF000 : UInt32).toNat = stackBottom := rfl
  have hstackSize : stackBottom + Machine.stackSize = stackEnd := rfl
  have hlimit : imageLimit = 0x80000000 := rfl
  have hmemory : (Machine.start mem (target Abi.entryLabel)).memory =
      mem.map 0xBFEFF000 Machine.stackSize := rfl
  have hfront := Image.length_frontOf asm textBase dataBase (target Abi.entryLabel)
  refine ⟨_, mem, hfile, hload, {
    built := h
    textEnd := by omega
    dataEnd := by omega
    code := ?code
    data := ?data
    stack := ?stack
    gap := ?gap
    zero := ?zero }⟩
  case code =>
    intro i hi
    rw [hmemory]
    refine Memory.get?_map_of_get? ?_ _ _
    rw [hholds.get? (by omega) htextNat (by omega), Image.getD_fileWith_code hfront hi]
  case data =>
    intro i hi
    have hplace : dataBase.toNat = asm.layout.base.toNat +
        (Abi.pageSize + Abi.wholePages asm.code.length) := by omega
    rw [hmemory]
    refine Memory.get?_map_of_get? ?_ _ _
    rw [hholds.get? (by omega) hplace (by omega), Image.getD_fileWith_data hfront i]
  case stack =>
    intro a hlow hhigh
    rw [hmemory]
    exact Memory.isMapped_map (by omega) (by omega)
  case gap =>
    intro a hlow hhigh
    rw [hmemory]
    -- the stack begins with its own page, so it maps nothing below its bottom
    refine Memory.isMapped_map_eq_false (hholds.isUnmapped a (by omega)) (.inr ?_)
    have hbottomPage : stackBottom / Abi.pageSize * Abi.pageSize = stackBottom := rfl
    rw [hbottomNat]
    exact (Nat.div_lt_iff_lt_mul (by decide)).mpr (by omega)
  case zero =>
    intro a ha
    rw [hmemory, Memory.byteAt_map, hholds.byteAt, if_neg (by omega)]

/-- A compilation without errors has an image. -/
theorem exists_image_of_compile {source : String} {options : Options}
    (hsymbols : options.limits.symbols < 2 ^ 29)
    (hcompile : (compile source options).hasError = false) {externs : SymbolTable} {asm : Assembly}
    (hasm : assemble (compile source options).asm {} externs = .ok asm) :
    ∃ file, Image.ofAssembly asm = .ok file := by
  obtain ⟨lines, hread, horderly, hnodup, -⟩ := exists_lines_of_compile hsymbols hcompile
  have hroom : Config.Roomy {} := by unfold Config.Roomy; decide
  exact (assemble_orderly hroom hread horderly hnodup hasm).2

/-! ### Places in the code -/

/-- The address of the code that is left of a program. -/
def addressOf (p : Program) (textBase : UInt32) (rest : List Item) : UInt32 :=
  textBase + UInt32.ofNat (codeSize p.code.items - codeSize rest)

/-- Whether a machine is in front of the given rest of a program. -/
structure At (p : Program) (textBase : UInt32) (rest : List Item) (m : Machine) : Prop where
  suffix : rest <:+ p.code.items
  eip : m.eip = addressOf p textBase rest

theorem addressOf_label (p : Program) (textBase : UInt32) (name : String) (rest : List Item) :
    addressOf p textBase (.label name :: rest) = addressOf p textBase rest := by
  simp [addressOf]

/-- Code stands behind the bytes of what is in front of it. -/
theorem addressOf_append {p : Program} {textBase : UInt32} {front rest : List Item}
    (h : p.code.items = front ++ rest) :
    addressOf p textBase rest = textBase + UInt32.ofNat (codeSize front) := by
  rw [addressOf, h, codeSize_append, Nat.add_sub_cancel]

theorem suffix_of_cons {item : Item} {items rest : List Item} (h : item :: rest <:+ items) :
    rest <:+ items :=
  (List.suffix_cons item rest).trans h

theorem suffix_of_append {front rest items : List Item} (h : front ++ rest <:+ items) :
    rest <:+ items :=
  (List.suffix_append front rest).trans h

/-- A label takes no step. -/
theorem At.skip {p : Program} {textBase : UInt32} {name : String} {rest : List Item} {m : Machine}
    (h : At p textBase (.label name :: rest) m) : At p textBase rest m :=
  ⟨suffix_of_cons h.suffix, h.eip.trans (addressOf_label p textBase name rest)⟩

/-- Behind an instruction is the rest of the program. -/
theorem At.past {p : Program} {textBase : UInt32} {i : Instr String} {rest : List Item}
    {m : Machine}
    (h : At p textBase (.instr i :: rest) m) : At p textBase rest (m.past (Item.instr i).size) := by
  obtain ⟨front, hitems⟩ := h.suffix
  have hnext : p.code.items = (front ++ [.instr i]) ++ rest := by simp [← hitems]
  refine ⟨suffix_of_cons h.suffix, ?_⟩
  rw [Machine.eip_past, h.eip, addressOf_append hitems.symm, addressOf_append hnext,
    codeSize_append, codeSize_cons, codeSize_nil, Nat.add_zero, UInt32.ofNat_add, UInt32.add_assoc]

/-- Memory as it was loaded, but for the stack. -/
abbrev Kept (mem mem' : Memory) : Prop :=
  Memory.SameOutside imageLimit 4294967296 mem mem'

namespace Loaded

variable {p : Program} {lines : List Line} {asm : Assembly} {target : String → UInt32}
variable {textBase dataBase : UInt32} {mem : Memory} {m m' : Machine} {rest : List Item}
variable {i : Instr String} {u : Unit}

/-- A label stands for the place behind it. -/
theorem target_eq (h : Loaded p lines asm target textBase dataBase mem) {name : String}
    (hsuffix : .label name :: rest <:+ p.code.items) :
    target name = addressOf p textBase rest := by
  obtain ⟨front, hitems⟩ := hsuffix
  rw [h.built.placed.label hitems.symm, ← addressOf_append hitems.symm, addressOf_label]

/-- The bytes of the instruction in front are in memory. -/
theorem hasBytes (h : Loaded p lines asm target textBase dataBase mem) {mem' : Memory}
    (hkept : Kept mem mem') (hsuffix : .instr i :: rest <:+ p.code.items) :
    ∃ bytes, (i.resolve target).encode (addressOf p textBase (.instr i :: rest)) = .ok bytes ∧
      bytes.length = (Item.instr i).size ∧ bytes.length ≤ maxInstructionLength ∧
      mem'.HasBytes (addressOf p textBase (.instr i :: rest)) bytes := by
  obtain ⟨front, hitems⟩ := hsuffix
  obtain ⟨bytes, others, hencode, hsize, hmax, hcode⟩ := h.built.placed.instr hitems.symm
  rw [addressOf_append hitems.symm]
  refine ⟨bytes, hencode, hsize, hmax, Memory.hasBytes_of_get? fun k hk => ?_⟩
  have hlength := congrArg List.length hcode
  rw [List.length_drop, List.length_append] at hlength
  have hpages := Abi.le_wholePages asm.code.length
  have hend := h.textEnd
  have hlimit : imageLimit = 0x80000000 := rfl
  have hsum : textBase + UInt32.ofNat (codeSize front) + UInt32.ofNat k =
      textBase + UInt32.ofNat (codeSize front + k) := by
    rw [UInt32.ofNat_add, UInt32.add_assoc]
  have hnat := @Memory.toNat_add_of_lt textBase (codeSize front + k) (by omega)
  have hbyte : asm.code.getD (codeSize front + k) 0 = bytes.getD k 0 := by
    rw [List.getD_eq_getElem?_getD, List.getD_eq_getElem?_getD, ← List.getElem?_drop, hcode,
      List.getElem?_append_left hk]
  rw [hsum, hkept.get? (.inl (by omega)), h.code _ (by omega), hbyte]

/-- A step in front of an instruction performs it. -/
theorem step_eq (h : Loaded p lines asm target textBase dataBase mem) (hkept : Kept mem m.memory)
    (hat : At p textBase (.instr i :: rest) m) (hexec : i.Executable) :
    Exec.step m = (Exec.perform m.eip (i.resolve target) >>= fun _ =>
      pure (m.eip, (i.resolve target).normalize)) (m.past (Item.instr i).size) := by
  obtain ⟨bytes, hencode, hsize, hmax, hbytes⟩ := h.hasBytes hkept hat.suffix
  rw [← hat.eip] at hencode hbytes
  rw [Exec.step_eq (hexec.resolve target) hencode hbytes hmax, hsize]

/-- Performing the instruction in front is a step of the process. -/
theorem steps (h : Loaded p lines asm target textBase dataBase mem) (hkept : Kept mem m.memory)
    (hat : At p textBase (.instr i :: rest) m) (hexec : i.Executable) (hexit : m.exit = none)
    (hperform : Exec.perform m.eip (i.resolve target) (m.past (Item.instr i).size) = .ok u m') :
    m.Steps m' := by
  refine ⟨hexit, (m.eip, (i.resolve target).normalize), ?_⟩
  rw [h.step_eq hkept hat hexec]
  exact action_bind_eq_ok.mpr ⟨u, m', hperform, rfl⟩

end Loaded

/-! ### Statements and their frame -/

@[simp]
theorem Code.items_append (a b : Code) : (a ++ b).items = a.items ++ b.items := rfl

@[simp]
theorem Code.items_label (name : String) : (Code.label name).items = [.label name] := rfl

@[simp]
theorem Code.items_instr (op : Mnemonic) (args : List (Operand String)) :
    (Code.instr op args).items = [.instr ⟨op, args⟩] := rfl

/-- Whether a statement stores into variables only. -/
def Simple.isDirect : Simple → Bool
  | .storeThrough _ _ => false
  | _ => true

/-- Whether statements store into variables only. -/
def Body.isDirect : Body → Bool
  | .done => true
  | .simple s rest => s.isDirect && rest.isDirect
  | .block inner rest | .ifThen _ inner rest | .loop _ inner rest => inner.isDirect && rest.isDirect
  | .ifElse _ first second rest => first.isDirect && second.isDirect && rest.isDirect

/-- A program that stores nothing through pointers. -/
def Program.Direct (p : Program) : Prop :=
  ∀ f ∈ p, f.body.isDirect = true

/-- A piece of a function: every name in it is a constant or has a word of the frame, no
constant is assigned to, and every called function is in the program. -/
structure Piece.Suits (functions : List String) (frame : Frame) (p : Piece) : Prop where
  names : ∀ name ∈ p.names, name ∈ frame.constants ∨ name ∈ frame.locals
  written : ∀ name ∈ p.written, name ∉ frame.constants
  calls : ∀ call ∈ p.calls, call.1 ∈ functions

namespace Piece.Suits

variable {functions : List String} {frame : Frame} {p q : Piece}

theorem of_append (h : (p ++ q).Suits functions frame) :
    p.Suits functions frame ∧ q.Suits functions frame := by
  obtain ⟨hpnames, hqnames⟩ := List.forall_mem_append.mp h.names
  obtain ⟨hpwritten, hqwritten⟩ := List.forall_mem_append.mp h.written
  obtain ⟨hpcalls, hqcalls⟩ := List.forall_mem_append.mp h.calls
  exact ⟨⟨hpnames, hpwritten, hpcalls⟩, ⟨hqnames, hqwritten, hqcalls⟩⟩

theorem of_braced (h : p.braced.Suits functions frame) : p.Suits functions frame :=
  h.of_append.1.of_append.2

theorem assigned {name : String} (h : (Piece.assigned name).Suits functions frame) :
    name ∈ frame.locals :=
  (h.names name List.mem_cons_self).resolve_left (h.written name List.mem_cons_self)

end Piece.Suits

/-- Inserting names adds these names. -/
theorem mem_foldl_insertName {name : String} {names : List String} (found : List String) :
    name ∈ names.foldl insertName found ↔ name ∈ found ∨ name ∈ names := by
  induction names generalizing found with
  | nil => simp
  | cons other names ih =>
      rw [List.foldl_cons, ih, insertName, List.mem_cons]
      split
      next hmem =>
        constructor
        · rintro (h | h)
          · exact .inl h
          · exact .inr (.inr h)
        · rintro (h | rfl | h)
          · exact .inl h
          · exact .inl (by simpa using hmem)
          · exact .inr h
      next =>
        rw [List.mem_append, List.mem_singleton, or_assoc]

/-- The statements of a function suit its frame. -/
theorem Program.Legal.suits {options : Options} {p : Program} (h : p.Legal options)
    (hlocal : p.Local)
    {r : Routine} (hr : r ∈ p.routines) : r.function.body.piece.Suits p.functions r.frame := by
  have hmem := Program.mem_of_mem_routines hr
  refine ⟨fun name hname => ?_, (h.routines r hr).written, hlocal r.function hmem⟩
  by_cases hconstant : name ∈ r.constants
  · exact .inl hconstant
  · refine .inr ((mem_foldl_insertName []).mpr (.inr (List.mem_filter.mpr ⟨hname, ?_⟩)))
    simpa using hconstant

/-- The address of a variable. -/
theorem toNat_address_slotAt (m : Machine) {index : Nat} (hindex : index < 2 ^ 29)
    (hroom : 4 * (index + 1) ≤ (m.get .ebp).toNat) :
    (m.address (Locals.slotAt index)).toNat = (m.get .ebp).toNat - 4 * (index + 1) := by
  have hlt := (m.get .ebp).toNat_lt
  have hdisp := Locals.toInt_disp_slotAt hindex
  change (m.get .ebp + Word.ofInt (Locals.slotAt index).disp.toInt).toNat = _
  rw [hdisp, UInt32.toNat_add, Word.toNat_ofInt]
  omega

end Ia32.C

import Ia32.Instruction.Encoding
import Ia32.Proofs.C.AssemblyText
import Ia32.Proofs.C.Labels

/-!
# Generated code can be encoded

Every instruction that the compiler generates has operands that suit it, can be written
and read back, and refers only to labels of the program or to functions of the library.
-/

namespace Ia32.C

open Asm

/-! ### Operands and instructions -/

/-- Operands of generated code, whose labels are known. -/
def Usable (known : String → Prop) : Operand String → Prop
  | .reg _ => True
  | .mem m => m.base ≠ .esp
  | .imm v => 0 ≤ v ∧ v ≤ Scan.maxNumber
  | .label name => isName name.toList = true ∧ Reg.ofName? name.toList = none ∧ known name

/-- What can be encoded is read back from its text. -/
theorem Usable.readable {known : String → Prop} {a : Operand String} (h : Usable known a) :
    Readable a := by
  cases a with
  | reg r => trivial
  | mem m => trivial
  | imm v =>
      have hv : 0 ≤ v ∧ v ≤ Scan.maxNumber := h
      simp only [Scan.maxNumber] at hv
      simp only [Readable]
      omega
  | label name => exact ⟨h.1, h.2.1⟩

/-- A label with a name, or an instruction that can be written and encoded and refers to
known labels. -/
def Item.Sound (known : String → Prop) : Item → Prop
  | .label name => isName name.toList = true
  | .instr i => i.args.length = i.op.arity ∧ (∀ a ∈ i.args, Usable known a) ∧ ∃ n, i.size = .ok n

theorem Item.Sound.readable {known : String → Prop} {item : Item} (h : item.Sound known) :
    item.Readable := by
  cases item with
  | label name => exact h
  | instr i => exact ⟨h.1, fun a ha => (h.2.1 a ha).readable⟩

/-- The names in a sound instruction are known. -/
theorem Item.Sound.known {known : String → Prop} {i : Instr String}
    (h : (Item.instr i).Sound known) : ∀ l ∈ i.labels, known l := by
  intro l hl
  obtain ⟨a, ha, hlabel⟩ := List.mem_filterMap.mp hl
  have husable := h.2.1 a ha
  cases a with
  | label name =>
      cases hlabel
      exact husable.2.2
  | _ => cases hlabel

/-- Code of such items. -/
def Code.Sound (known : String → Prop) (code : Code) : Prop :=
  ∀ item ∈ code.items, item.Sound known

section

variable {known : String → Prop}

theorem Code.Sound.append {a b : Code} (ha : a.Sound known) (hb : b.Sound known) :
    (a ++ b).Sound known := by
  intro item hitem
  rcases List.mem_append.mp hitem with h | h
  · exact ha item h
  · exact hb item h

theorem Code.sound_empty : ({} : Code).Sound known := by simp [Sound]

theorem Code.sound_label {name : String} (h : isName name.toList = true) :
    (Code.label name).Sound known := by
  intro item hitem
  rw [List.mem_singleton.mp hitem]
  exact h

/-- An instruction is sound if its operands are usable and it has a size. -/
theorem Code.sound_instr {op : Mnemonic} {args : List (Operand String)}
    (harity : args.length = op.arity) (hargs : ∀ a ∈ args, Usable known a)
    (hsize : ∃ n, (⟨op, args⟩ : Instr String).size = .ok n) :
    (Code.instr op args).Sound known := by
  intro item hitem
  rw [List.mem_singleton.mp hitem]
  exact ⟨harity, hargs, hsize⟩

/-! Widths of usable operands. -/

/-- The compiler never uses the stack pointer as a base, so every place in memory has a width. -/
theorem Usable.memWidth {m : Mem} (h : Usable known (.mem m)) :
    Encoding.memWidth m = .ok (1 + m.dispWidth) :=
  if_neg h

theorem Usable.fitsWord {v : Int} (h : Usable known (.imm v)) : fitsWord v = true := by
  have hv : 0 ≤ v ∧ v ≤ Scan.maxNumber := h
  simp only [Scan.maxNumber] at hv
  simp only [Ia32.fitsWord, Bool.and_eq_true, decide_eq_true_eq]
  omega

theorem Usable.shortWidth {v : Int} (h : Usable known (.imm v)) :
    ∃ n, Encoding.shortWidth v = .ok n :=
  ⟨_, if_pos h.fitsWord⟩

theorem Usable.immediate {v : Int} (h : Usable known (.imm v)) :
    ∃ bytes, Encoding.immediate v = .ok bytes :=
  ⟨_, if_pos h.fitsWord⟩

theorem usable_pair {a b : Operand String} (ha : Usable known a) (hb : Usable known b) :
    ∀ x ∈ [a, b], Usable known x := by
  simp only [List.mem_cons, List.not_mem_nil, or_false]
  rintro x (rfl | rfl)
  · exact ha
  · exact hb

/-! The forms of instructions that the compiler uses. -/

theorem sound_load (r : Reg) {a : Operand String} (h : Usable known a) :
    (Code.instr .mov [.reg r, a]).Sound known := by
  refine Code.sound_instr rfl (usable_pair trivial h) ?_
  cases a with
  | reg s => exact ⟨_, rfl⟩
  | mem m =>
      refine ⟨1 + (1 + m.dispWidth), ?_⟩
      simp [Instr.size, Mnemonic.alu, h.memWidth]
  | imm v =>
      obtain ⟨bytes, hbytes⟩ := h.immediate
      refine ⟨1 + bytes.length, ?_⟩
      simp [Instr.size, Mnemonic.alu, hbytes]
  | label name => exact ⟨_, rfl⟩

/-- A register or an immediate is stored in memory; no instruction moves memory to memory. -/
theorem sound_save {m : Mem} (hm : m.base ≠ .esp) {a : Operand String} (h : Usable known a)
    (hshape : a.shape ≠ .mem) : (Code.instr .mov [.mem m, a]).Sound known := by
  have hmem : Usable known (.mem m) := hm
  refine Code.sound_instr rfl (usable_pair hmem h) ?_
  cases a with
  | reg s =>
      refine ⟨1 + (1 + m.dispWidth), ?_⟩
      simp [Instr.size, Mnemonic.alu, hmem.memWidth]
  | mem m' => exact absurd rfl hshape
  | imm v =>
      obtain ⟨bytes, hbytes⟩ := h.immediate
      refine ⟨1 + (1 + m.dispWidth) + bytes.length, ?_⟩
      simp [Instr.size, Mnemonic.alu, hbytes, hmem.memWidth]
  | label name =>
      refine ⟨5 + (1 + m.dispWidth), ?_⟩
      simp [Instr.size, Mnemonic.alu, hmem.memWidth]

theorem sound_push {a : Operand String} (h : Usable known a) :
    (Code.instr .push [a]).Sound known := by
  refine Code.sound_instr rfl (by simp [h]) ?_
  cases a with
  | reg s => exact ⟨_, rfl⟩
  | mem m =>
      refine ⟨1 + (1 + m.dispWidth), ?_⟩
      simp [Instr.size, Mnemonic.alu, h.memWidth]
  | imm v =>
      obtain ⟨n, hn⟩ := h.shortWidth
      refine ⟨1 + n, ?_⟩
      simp [Instr.size, Mnemonic.alu, hn]
  | label name => exact ⟨_, rfl⟩

/-- Sums and comparisons take any operand but the address of a label. -/
theorem sound_alu {op : Mnemonic} (hop : op.alu.isSome = true) (harity : op.arity = 2) (r : Reg)
    {a : Operand String} (h : Usable known a) (hshape : a.shape ≠ .label) :
    (Code.instr op [.reg r, a]).Sound known := by
  refine Code.sound_instr harity.symm (usable_pair trivial h) ?_
  simp only [Instr.size, hop, if_true]
  cases a with
  | reg s => exact ⟨_, rfl⟩
  | mem m =>
      refine ⟨1 + (1 + m.dispWidth), ?_⟩
      simp [h.memWidth]
  | imm v =>
      obtain ⟨n, hn⟩ := h.shortWidth
      refine ⟨2 + n, ?_⟩
      simp [hn]
  | label name => exact absurd rfl hshape

/-- Branches and calls go to labels that are known. -/
theorem sound_branch {op : Mnemonic} (hop : op = .jmp ∨ op = .je ∨ op = .jge ∨ op = .call)
    {name : String} (h : Usable known (.label name)) :
    (Code.instr op [.label name]).Sound known := by
  have hargs : ∀ a ∈ [Operand.label name], Usable known a := by simpa using h
  rcases hop with rfl | rfl | rfl | rfl
  all_goals exact Code.sound_instr rfl hargs ⟨_, rfl⟩

theorem sound_trap : (Code.instr .int [.imm Abi.syscallVector]).Sound known :=
  Code.sound_instr rfl (by simp [Usable, Abi.syscallVector, Scan.maxNumber]) ⟨_, rfl⟩

theorem sound_bare {op : Mnemonic} (hop : op = .pusha ∨ op = .popa ∨ op = .ret) :
    (Code.instr op []).Sound known := by
  rcases hop with rfl | rfl | rfl
  all_goals exact Code.sound_instr rfl (by simp) ⟨_, rfl⟩

theorem sound_pop (r : Reg) : (Code.instr .pop [.reg r]).Sound known :=
  Code.sound_instr rfl (by simp [Usable]) ⟨_, rfl⟩

end

/-! ### Pieces of source texts -/

/-- A piece of tokens that scanning produces. -/
def Piece.Lexical (p : Piece) : Prop :=
  ∀ kind ∈ p.tokens, kind.Lexical

theorem Piece.lexical_append {p q : Piece} : (p ++ q).Lexical ↔ p.Lexical ∧ q.Lexical :=
  List.forall_mem_append

theorem Piece.lexical_joined {pieces : List Piece} (h : (joined pieces).Lexical) :
    ∀ p ∈ pieces, p.Lexical := by
  induction pieces with
  | nil => simp
  | cons p rest ih =>
      obtain ⟨hp, hrest⟩ := lexical_append.mp h
      exact List.forall_mem_cons.mpr ⟨hp, ih hrest⟩

theorem lexical_furtherArguments {es : List Expr} (h : (furtherArguments es).Lexical) :
    ∀ e ∈ es, e.piece.Lexical := by
  intro e he
  exact (Piece.lexical_append.mp
    (Piece.lexical_joined h _ (List.mem_map_of_mem (f := fun e => _) he))).2

/-! ### Code of constructs -/

section

variable {known : String → Prop} {frame : Frame}

/-- A variable is a place in the frame, and a constant is a label. -/
theorem usable_operand (hframe : ∀ name ∈ frame.constants, Usable known (.label name))
    (name : String) : Usable known (frame.operand name) := by
  unfold Frame.operand
  split
  next h => exact hframe name h
  next => exact (by decide : Abi.frame ≠ .esp)

/-- The scanner reads no number that an immediate does not hold. -/
theorem usable_number {value : Nat} (h : (TokenKind.number value).Lexical) :
    Usable known (.imm value) := by
  have hvalue : value ≤ Scan.maxNumber := h
  exact ⟨by omega, by omega⟩

theorem Primary.usable (hframe : ∀ name ∈ frame.constants, Usable known (.label name))
    {p : Primary} (h : p.piece.Lexical) : Usable known (p.operand frame) := by
  cases p with
  | number value => exact usable_number (h _ List.mem_cons_self)
  | named name => exact usable_operand hframe name

theorem sound_additionCode {addends : List Nat}
    (h : ∀ value ∈ addends, (TokenKind.number value).Lexical) :
    (additionCode addends).Sound known := by
  intro item hitem
  obtain ⟨value, hvalue, rfl⟩ := List.mem_map.mp hitem
  have hadd : (Code.instr .add [.reg Abi.accumulator, .imm value]).Sound known :=
    sound_alu rfl rfl _ (usable_number (h value hvalue)) (by simp [Operand.shape])
  exact hadd _ List.mem_cons_self

/-- The code of an expression is sound, and so is the operand that holds its value. -/
theorem Expr.sound (hframe : ∀ name ∈ frame.constants, Usable known (.label name)) {e : Expr}
    (h : e.piece.Lexical) :
    (e.value frame).code.Sound known ∧ Usable known (e.value frame).operand := by
  obtain ⟨hfirst, haddends⟩ := Piece.lexical_append.mp h
  have husable := Primary.usable hframe hfirst
  unfold Expr.value
  split
  · exact ⟨Code.sound_empty, husable⟩
  · refine ⟨(sound_load _ husable).append (sound_additionCode fun value hvalue => ?_), trivial⟩
    exact haddends _ (List.mem_flatMap.mpr ⟨value, hvalue, by simp⟩)

/-- The arguments of a trap go to registers, whatever they are. -/
theorem sound_argumentCode (hframe : ∀ name ∈ frame.constants, Usable known (.label name))
    (regs : List Reg) {es : List Expr} (h : ∀ e ∈ es, e.piece.Lexical) :
    (argumentCode frame regs es).Sound known := by
  induction regs generalizing es with
  | nil =>
      rw [argumentCode]
      · exact Code.sound_empty
      · simp
  | cons r regs ih =>
      cases es with
      | nil => exact Code.sound_empty
      | cons e rest =>
          obtain ⟨hcode, husable⟩ := Expr.sound hframe (h e List.mem_cons_self)
          exact (hcode.append (sound_load r husable)).append
            (ih fun e' he' => h e' (List.mem_cons_of_mem e he'))

/-- A trap saves all registers, loads its arguments and restores the registers. -/
theorem Trap.sound (hframe : ∀ name ∈ frame.constants, Usable known (.label name)) {t : Trap}
    (h : t.piece.Lexical) : (t.code frame).Sound known := by
  obtain ⟨hfront, -⟩ := Piece.lexical_append.mp h
  obtain ⟨hnumber, harguments⟩ := Piece.lexical_append.mp hfront
  have hnumber : (TokenKind.number t.number).Lexical := hnumber _ (by simp [Piece.spelled])
  exact (((sound_bare (.inl rfl)).append
    (sound_argumentCode hframe _ (lexical_furtherArguments harguments))).append
    (sound_load _ (usable_number hnumber))).append sound_trap

/-- A place that can be stored into. -/
def Place.Usable (known : String → Prop) : Place → Prop
  | .slot m => m.base ≠ .esp
  | .pointee pointer => C.Usable known pointer

/-- A value is stored in a variable or through a pointer in a register. -/
theorem sound_store {place : Place} (hplace : place.Usable known) {value : Operand String}
    (h : Usable known value) : (Code.store place value).Sound known := by
  -- behind the load the value is no word in memory
  have hsave {value : Operand String} (h : Usable known value) (hshape : value.shape ≠ .mem)
      {load : Code} (hload : load.Sound known) :
      (match place with
        | .slot m => load ++ Code.instr .mov [.mem m, value]
        | .pointee pointer => load ++ Code.instr .mov [.reg Abi.scratch, pointer] ++
            Code.instr .mov [.mem ⟨Abi.scratch, 0⟩, value]).Sound known := by
    cases place with
    | slot m => exact hload.append (sound_save hplace h hshape)
    | pointee pointer =>
        exact (hload.append (sound_load _ hplace)).append (sound_save (by decide) h hshape)
  cases value with
  | mem m =>
      have hreg : Usable known (.reg Abi.accumulator) := trivial
      exact hsave hreg (by simp [Operand.shape]) (sound_load _ h)
  | reg r => exact hsave h (by simp [Operand.shape]) Code.sound_empty
  | imm v => exact hsave h (by simp [Operand.shape]) Code.sound_empty
  | label l => exact hsave h (by simp [Operand.shape]) Code.sound_empty

/-- The right-hand side of an assignment is a sum or the result of a trap. -/
theorem Rhs.sound (hframe : ∀ name ∈ frame.constants, Usable known (.label name)) {place : Place}
    (hplace : place.Usable known) {r : Rhs} (h : r.piece.Lexical) :
    (r.code frame place).Sound known := by
  cases r with
  | expr e =>
      obtain ⟨hcode, husable⟩ := Expr.sound hframe h
      exact hcode.append (sound_store hplace husable)
  | trap t =>
      have hreg : Usable known (.reg Abi.accumulator) := trivial
      exact ((Trap.sound hframe h).append (sound_store hplace hreg)).append
        (sound_bare (.inr (.inl rfl)))

theorem sound_exit {status : Operand String} (h : Usable known status) :
    (Code.exit status).Sound known := by
  have hnumber : Usable known (.imm Abi.sysExit) := ⟨by decide, by decide⟩
  exact ((sound_load _ h).append (sound_load _ hnumber)).append sound_trap

/-- Calls that can be generated: to the label of a function, or with few arguments to
the library. -/
def Callable (known : String → Prop) (functions : List String) (call : String × Nat) : Prop :=
  if functions.contains call.1 then Usable known (.label (functionLabel call.1))
  else Usable known (.label call.1) ∧ call.2 ≤ Abi.maxCallArguments

theorem sound_eachReg {op : Mnemonic} (regs : List Reg)
    (h : ∀ r ∈ regs, (Code.instr op [.reg r]).Sound known) :
    (CompileM.eachReg op regs).Sound known := by
  intro item hitem
  obtain ⟨r, hr, rfl⟩ := List.mem_map.mp hitem
  exact h r hr _ List.mem_cons_self

/-- The arguments of a call are pushed from the last to the first. -/
theorem sound_pushArguments (hframe : ∀ name ∈ frame.constants, Usable known (.label name))
    {es : List Expr} (h : ∀ e ∈ es, e.piece.Lexical) :
    (CompileM.pushArguments (es.map (Expr.value frame))).Sound known := by
  intro item hitem
  obtain ⟨value, hvalue, hitem⟩ := List.mem_flatMap.mp hitem
  obtain ⟨e, he, rfl⟩ := List.mem_map.mp (List.mem_reverse.mp hvalue)
  obtain ⟨hcode, husable⟩ := Expr.sound hframe (h e he)
  exact (hcode.append (sound_push husable)) item hitem

theorem lexical_argumentList {es : List Expr} (h : (argumentList es).Lexical) :
    ∀ e ∈ es, e.piece.Lexical := by
  cases es with
  | nil => simp
  | cons e rest =>
      obtain ⟨he, hrest⟩ := Piece.lexical_append.mp h
      exact List.forall_mem_cons.mpr ⟨he, lexical_furtherArguments hrest⟩

/-- The number of arguments is limited, so the stack is cleaned up by an immediate that fits. -/
theorem sound_libraryCall (hframe : ∀ name ∈ frame.constants, Usable known (.label name))
    {name : String} (hname : Usable known (.label name)) {es : List Expr}
    (hes : ∀ e ∈ es, e.piece.Lexical) (hlength : es.length ≤ Abi.maxCallArguments) :
    (CompileM.libraryCall name (es.map (Expr.value frame))).Sound known := by
  have hpush : (CompileM.eachReg .push Abi.callerSaved).Sound known :=
    sound_eachReg _ fun r _ => sound_push trivial
  have hpop : (CompileM.eachReg .pop Abi.callerSaved.reverse).Sound known :=
    sound_eachReg _ fun r _ => sound_pop r
  refine (((hpush.append (sound_pushArguments hframe hes)).append
    (sound_branch (by simp) hname)).append ?_).append hpop
  split
  · exact Code.sound_empty
  · have hcleanup : Usable known (.imm ((es.map (Expr.value frame)).length * Abi.wordSize)) := by
      simp only [Usable, List.length_map, Abi.wordSize, Abi.maxCallArguments, Scan.maxNumber]
        at hlength ⊢
      omega
    exact sound_alu rfl rfl _ hcleanup (by simp [Operand.shape])

/-- The code of a statement without blocks is sound if the functions that it calls are known. -/
theorem Simple.sound (hframe : ∀ name ∈ frame.constants, Usable known (.label name))
    {functions : List String} {s : Simple} (h : s.piece.Lexical)
    (hcalls : ∀ call ∈ s.piece.calls, Callable known functions call) :
    (s.code functions frame).Sound known := by
  have hslot (name : String) : (Place.slot (frame.slot name)).Usable known :=
    (by decide : Abi.frame ≠ .esp)
  cases s with
  | declare type name => exact Code.sound_empty
  | constant type name content => exact Code.sound_empty
  | declareWith type name value =>
      obtain ⟨h, -⟩ := Piece.lexical_append.mp h
      obtain ⟨-, h⟩ := Piece.lexical_append.mp h
      obtain ⟨h, -⟩ := Piece.lexical_append.mp h
      exact Rhs.sound hframe (hslot name) h
  | assign name value =>
      obtain ⟨h, -⟩ := Piece.lexical_append.mp h
      obtain ⟨-, h⟩ := Piece.lexical_append.mp h
      obtain ⟨h, -⟩ := Piece.lexical_append.mp h
      exact Rhs.sound hframe (hslot name) h
  | storeThrough pointer value =>
      obtain ⟨h, -⟩ := Piece.lexical_append.mp h
      obtain ⟨-, h⟩ := Piece.lexical_append.mp h
      have hplace : (Place.pointee (frame.operand pointer)).Usable known :=
        usable_operand hframe pointer
      exact Rhs.sound hframe hplace h
  | exit status =>
      cases status with
      | none =>
          have hzero : Usable known (.imm 0) := ⟨by decide, by decide⟩
          exact sound_exit hzero
      | some e =>
          obtain ⟨h, -⟩ := Piece.lexical_append.mp h
          obtain ⟨hcode, husable⟩ := Expr.sound hframe (Piece.lexical_append.mp h).2
          exact hcode.append (sound_exit husable)
  | trap t =>
      exact (Trap.sound hframe (Piece.lexical_append.mp h).1).append (sound_bare (.inr (.inl rfl)))
  | call name es =>
      obtain ⟨h, -⟩ := Piece.lexical_append.mp h
      obtain ⟨h, -⟩ := Piece.lexical_append.mp h
      obtain ⟨-, h⟩ := Piece.lexical_append.mp h
      have hcall := hcalls (name, es.length) (by simp [piece])
      by_cases hmem : functions.contains name
      · simp only [Callable, if_pos hmem] at hcall
        simp only [Simple.code, if_pos hmem]
        exact sound_branch (by simp) hcall
      · simp only [Callable, if_neg hmem] at hcall
        simp only [Simple.code, if_neg hmem]
        exact sound_libraryCall hframe hcall.1 (lexical_argumentList h) hcall.2

/-- The code of a condition compares its two sides in a register. -/
theorem Test.sound (hframe : ∀ name ∈ frame.constants, Usable known (.label name)) {test : Test}
    {comparison : TokenKind} (h : (test.piece comparison).Lexical) :
    (test.code frame).Sound known := by
  obtain ⟨h, -⟩ := Piece.lexical_append.mp h
  obtain ⟨h, hright⟩ := Piece.lexical_append.mp h
  obtain ⟨h, -⟩ := Piece.lexical_append.mp h
  have hleft := Primary.usable hframe (Piece.lexical_append.mp h).2
  have hright := Primary.usable hframe hright
  have hscratch : Usable known (.reg Abi.scratch) := trivial
  unfold Test.code
  generalize test.right.operand frame = right at hright
  cases right with
  | label name =>
      exact ((sound_load _ hleft).append (sound_load _ hright)).append
        (sound_alu rfl rfl _ hscratch (by simp [Operand.shape]))
  | reg r =>
      exact (sound_load _ hleft).append (sound_alu rfl rfl _ hright (by simp [Operand.shape]))
  | mem m =>
      exact (sound_load _ hleft).append (sound_alu rfl rfl _ hright (by simp [Operand.shape]))
  | imm v =>
      exact (sound_load _ hleft).append (sound_alu rfl rfl _ hright (by simp [Operand.shape]))

/-- Labels of branches and loops are names. -/
theorem Control.isName_name (l : Control) : isName l.name.toList = true := by
  have hdigits : (Nat.toDigits 10 l.number).all isNameChar = true :=
    List.all_eq_true.mpr fun c hc =>
      isNameChar_of_isDigit (Nat.isDigit_of_mem_toDigits (by decide) (by decide) hc)
  rw [toList_name]
  cases l <;> simpa [stem, isName, isNameStart, isNameChar] using hdigits

/-- Labels of branches and loops are not taken for registers. -/
theorem Control.ofName?_name (l : Control) : Reg.ofName? l.name.toList = none := by
  have hlength : 3 < (Text.lower l.name.toList).length := by
    rw [Text.lower, List.length_map, toList_name, List.length_append]
    cases l <;> simp [stem] <;> omega
  refine List.find?_eq_none.mpr fun r _ heq => ?_
  -- the names of registers are shorter
  have hname : r.name.toList.length = 3 := by cases r <;> rfl
  rw [← beq_iff_eq.mp heq, hname] at hlength
  omega

theorem Control.usable {l : Control} (h : known l.name) : Usable known (.label l.name) :=
  ⟨l.isName_name, l.ofName?_name, h⟩

/-- A piece of a source text whose calls can be generated. -/
structure Piece.Sound (known : String → Prop) (functions : List String) (p : Piece) : Prop where
  lexical : p.Lexical
  calls : ∀ call ∈ p.calls, Callable known functions call

theorem Piece.Sound.of_append {functions : List String} {p q : Piece}
    (h : (p ++ q).Sound known functions) : p.Sound known functions ∧ q.Sound known functions := by
  obtain ⟨hp, hq⟩ := Piece.lexical_append.mp h.lexical
  obtain ⟨hpcalls, hqcalls⟩ := List.forall_mem_append.mp h.calls
  exact ⟨⟨hp, hpcalls⟩, ⟨hq, hqcalls⟩⟩

theorem Piece.Sound.of_braced {functions : List String} {p : Piece}
    (h : p.braced.Sound known functions) : p.Sound known functions :=
  h.of_append.1.of_append.2

/-- The code of statements is sound if their own labels are known. -/
theorem Body.sound (hframe : ∀ name ∈ frame.constants, Usable known (.label name))
    {functions : List String} {b : Body} (n m : Nat) (h : b.piece.Sound known functions)
    (hknown : ∀ l ∈ b.controls n m, known l.name) :
    (b.code functions frame n m).Sound known := by
  induction b generalizing n m with
  | done => exact Code.sound_empty
  | simple s rest ih =>
      obtain ⟨hs, hr⟩ := h.of_append
      exact (Simple.sound hframe hs.lexical hs.calls).append (ih n m hr hknown)
  | block inner rest hinner hrest =>
      obtain ⟨hi, hr⟩ := h.of_append
      simp only [controls, List.forall_mem_append] at hknown
      exact (hinner n m hi.of_braced hknown.1).append (hrest _ _ hr hknown.2)
  | ifThen test inner rest hinner hrest =>
      obtain ⟨h, hr⟩ := h.of_append
      obtain ⟨h, hi⟩ := h.of_append
      have htest := Test.sound hframe h.of_append.2.lexical
      simp only [controls, List.forall_mem_append, List.forall_mem_cons] at hknown
      obtain ⟨hiknown, helse, -, hrknown⟩ := hknown
      exact ((((htest.append (sound_branch (by simp) (Control.usable helse))).append
        (hinner _ _ hi.of_braced hiknown)).append
        (Code.sound_label (Control.otherwise n).isName_name)).append
        (Code.sound_label (Control.endIf n).isName_name)).append (hrest _ _ hr hrknown)
  | ifElse test first second rest hfirst hsecond hrest =>
      obtain ⟨h, hr⟩ := h.of_append
      obtain ⟨h, hs⟩ := h.of_append
      obtain ⟨h, -⟩ := h.of_append
      obtain ⟨h, hf⟩ := h.of_append
      have htest := Test.sound hframe h.of_append.2.lexical
      simp only [controls, List.forall_mem_append, List.forall_mem_cons] at hknown
      obtain ⟨hfknown, helse, hsknown, hend, hrknown⟩ := hknown
      exact ((((((htest.append (sound_branch (by simp) (Control.usable helse))).append
        (hfirst _ _ hf.of_braced hfknown)).append
        (sound_branch (by simp) (Control.usable hend))).append
        (Code.sound_label (Control.otherwise n).isName_name)).append
        (hsecond _ _ hs.of_braced hsknown)).append
        (Code.sound_label (Control.endIf n).isName_name)).append (hrest _ _ hr hrknown)
  | loop test inner rest hinner hrest =>
      obtain ⟨h, hr⟩ := h.of_append
      obtain ⟨h, hi⟩ := h.of_append
      have htest := Test.sound hframe h.of_append.2.lexical
      simp only [controls, List.forall_mem_append, List.forall_mem_cons] at hknown
      obtain ⟨hloop, hiknown, hend, hrknown⟩ := hknown
      exact ((((((Code.sound_label (Control.loop m).isName_name).append htest).append
        (sound_branch (by simp) (Control.usable hend))).append
        (hinner _ _ hi.of_braced hiknown)).append
        (sound_branch (by simp) (Control.usable hloop))).append
        (Code.sound_label (Control.endLoop m).isName_name)).append (hrest _ _ hr hrknown)

end

/-! ### Names in source texts -/

/-- A word of the language is a name of the assembler. -/
theorem IsWord.isName {name : String} (h : IsWord name) : isName name.toList = true := by
  obtain ⟨c, rest, heq, hc, hrest⟩ := h
  rw [heq]
  simp only [Asm.isName, isNameStart, Bool.and_eq_true, List.all_eq_true] at hc hrest ⊢
  refine ⟨?_, fun d hd => ?_⟩
  · simp [hc]
  · have hd := hrest d hd
    simp only [Scan.isWordChar, Bool.or_eq_true] at hd
    simp only [isNameChar, Bool.or_eq_true]
    exact .inl hd

theorem isWord_of_nameToken {name : String} (h : (nameToken name).Lexical) : IsWord name := by
  unfold nameToken at h
  split at h
  next heq =>
    subst heq
    exact ⟨'m', ['a', 'i', 'n'], by decide, by decide, by decide⟩
  next => exact h.1

/-- The names of constants and called functions are words. -/
structure Piece.Worded (p : Piece) : Prop where
  constants : ∀ constant ∈ p.constants, IsWord constant.1
  calls : ∀ call ∈ p.calls, IsWord call.1

namespace Piece

theorem Worded.append {p q : Piece} (hp : p.Worded) (hq : q.Worded) : (p ++ q).Worded :=
  ⟨List.forall_mem_append.mpr ⟨hp.constants, hq.constants⟩,
    List.forall_mem_append.mpr ⟨hp.calls, hq.calls⟩⟩

theorem Plain.worded {p : Piece} (h : p.Plain) : p.Worded :=
  ⟨by simp [h.constants], by simp [h.calls]⟩

theorem worded_counted (n m : Nat) : Worded { branches := n, loops := m } :=
  ⟨by simp, by simp⟩

theorem Worded.braced {p : Piece} (h : p.Worded) : p.braced.Worded :=
  ((plain_spelled _).worded.append h).append (plain_spelled _).worded

theorem Lexical.of_braced {p : Piece} (h : p.braced.Lexical) : p.Lexical :=
  (lexical_append.mp (lexical_append.mp h).1).2

end Piece

theorem Simple.worded {s : Simple} (h : s.piece.Lexical) : s.piece.Worded := by
  cases s with
  | constant type name content =>
      have hname : (TokenKind.ident name).Lexical := h _ (by simp [piece, Piece.spelled])
      exact ⟨by simpa [piece, Piece.spelled] using hname.1, by simp [piece, Piece.spelled]⟩
  | call name es =>
      have hname : (nameToken name).Lexical := h _ (by simp [piece, Piece.spelled])
      have hplain := plain_argumentList es
      exact ⟨by simp [piece, Piece.spelled, hplain.constants],
        by simpa [piece, Piece.spelled, hplain.calls] using isWord_of_nameToken hname⟩
  | exit status =>
      cases status with
      | none => exact (Piece.plain_spelled _).worded
      | some e =>
          exact (((Piece.plain_spelled _).append e.plain).append (Piece.plain_spelled _)).worded
  | declare type name => exact ((Piece.plain_spelled _).append (Piece.plain_assigned name)).worded
  | declareWith type name value =>
      exact (((Piece.plain_spelled _).append
        (value.plain.append (Piece.plain_assigned name))).append
        (Piece.plain_spelled _)).worded
  | assign name value =>
      exact (((Piece.plain_spelled _).append
        (value.plain.append (Piece.plain_assigned name))).append
        (Piece.plain_spelled _)).worded
  | storeThrough pointer value =>
      exact (((((Piece.plain_spelled _).append (Piece.plain_looked pointer)).append
        (Piece.plain_spelled _)).append value.plain).append (Piece.plain_spelled _)).worded
  | trap t => exact (t.plain.append (Piece.plain_spelled _)).worded

/-- All names in statements are words of the language. -/
theorem Body.worded {b : Body} (h : b.piece.Lexical) : b.piece.Worded := by
  induction b with
  | done => exact Piece.worded_counted 0 0
  | simple s rest ih =>
      obtain ⟨hs, hr⟩ := Piece.lexical_append.mp h
      exact (Simple.worded hs).append (ih hr)
  | block inner rest hinner hrest =>
      obtain ⟨hi, hr⟩ := Piece.lexical_append.mp h
      exact (hinner hi.of_braced).braced.append (hrest hr)
  | ifThen test inner rest hinner hrest =>
      obtain ⟨h, hr⟩ := Piece.lexical_append.mp h
      obtain ⟨-, hi⟩ := Piece.lexical_append.mp h
      have hhead : (Piece.spelled [.kwIf] ++ { branches := 1 } ++ test.piece .notEqual).Worded :=
        ((Piece.plain_spelled _).worded.append (Piece.worded_counted _ _)).append
          (test.plain _).worded
      exact (hhead.append (hinner hi.of_braced).braced).append (hrest hr)
  | ifElse test first second rest hfirst hsecond hrest =>
      obtain ⟨h, hr⟩ := Piece.lexical_append.mp h
      obtain ⟨h, hs⟩ := Piece.lexical_append.mp h
      obtain ⟨h, -⟩ := Piece.lexical_append.mp h
      obtain ⟨-, hf⟩ := Piece.lexical_append.mp h
      have hhead : (Piece.spelled [.kwIf] ++ { branches := 1 } ++ test.piece .notEqual).Worded :=
        ((Piece.plain_spelled _).worded.append (Piece.worded_counted _ _)).append
          (test.plain _).worded
      exact (((hhead.append (hfirst hf.of_braced).braced).append
        (Piece.plain_spelled _).worded).append (hsecond hs.of_braced).braced).append (hrest hr)
  | loop test inner rest hinner hrest =>
      obtain ⟨h, hr⟩ := Piece.lexical_append.mp h
      obtain ⟨-, hi⟩ := Piece.lexical_append.mp h
      have hhead : (Piece.spelled [.kwWhile] ++ { loops := 1 } ++ test.piece .less).Worded :=
        ((Piece.plain_spelled _).worded.append (Piece.worded_counted _ _)).append
          (test.plain _).worded
      exact (hhead.append (hinner hi.of_braced).braced).append (hrest hr)

/-! ### Code of programs -/

/-- Names of registers are reserved. -/
theorem ofName?_of_isReserved {name : String} (h : isReserved name = false) :
    Reg.ofName? name.toList = none := by
  simp only [isReserved, Bool.or_eq_false_iff] at h
  exact Option.isSome_eq_false_iff.mp h.1.2 |> Option.isNone_iff_eq_none.mp

theorem usable_name {known : String → Prop} {name : String} (hword : IsWord name)
    (hreserved : isReserved name = false) (hknown : known name) : Usable known (.label name) :=
  ⟨hword.isName, ofName?_of_isReserved hreserved, hknown⟩

/-- The label of a function is an operand; that of the main function is the entry label. -/
theorem usable_functionLabel {known : String → Prop} {name : String} (hword : IsWord name)
    (hreserved : isReserved name = false) (hknown : known (functionLabel name)) :
    Usable known (.label (functionLabel name)) := by
  unfold functionLabel at hknown ⊢
  by_cases hmain : name = "main"
  · rw [if_pos hmain] at hknown ⊢
    exact ⟨by decide, by decide, hknown⟩
  · rw [if_neg hmain] at hknown ⊢
    exact usable_name hword hreserved hknown

/-- A function is sound if its body is and its frame can be subtracted from the stack pointer. -/
theorem sound_functionCode {known : String → Prop} {name : String}
    (hname : Usable known (.label (functionLabel name))) {size : Nat}
    (hsize : size ≤ Scan.maxNumber) {body : Code} (hbody : body.Sound known) :
    (CompileM.functionCode name size body).Sound known := by
  have hesp : Usable known (.reg .esp) := trivial
  have hframe : Usable known (.reg Abi.frame) := trivial
  have himm : Usable known (.imm size) := ⟨by omega, by omega⟩
  have hprologue : (CompileM.prologue size).Sound known :=
    ((sound_push hframe).append (sound_load _ hesp)).append
      (sound_alu rfl rfl _ himm (by simp [Operand.shape]))
  have hepilogue : CompileM.epilogue.Sound known := (sound_load _ hframe).append (sound_pop _)
  refine ((Code.sound_label hname.1).append ?_).append ?_
  · split
    · exact (hprologue.append hbody).append hepilogue
    · exact hbody
  · have hzero : Usable known (.imm 0) := ⟨by decide, by decide⟩
    split
    · exact sound_exit hzero
    · exact sound_bare (.inr (.inr rfl))

namespace Program

/-- What code may refer to: a label of the program, or a function that the settings
do not rule out. -/
def Refers (options : Options) (p : Program) (name : String) : Prop :=
  name ∈ p.labels ∨ ∀ table, options.externs = some table → table.contains name

theorem lexical_function {p : Program} (h : ∀ kind ∈ p.tokens, kind.Lexical) :
    ∀ f ∈ p, f.piece.Lexical :=
  fun _ hf => Piece.lexical_joined h _ (List.mem_map_of_mem hf)

/-- The constants of a program are those of its functions in order. -/
theorem constants_eq_flatMap (p : Program) :
    p.constants = p.flatMap fun f => f.body.piece.constants := by
  induction p with
  | nil => rfl
  | cons f rest ih =>
      have hcons : constants (f :: rest) = f.body.piece.constants ++ constants rest := by
        simp [constants, Piece.joined, Function.piece, Piece.braced, Piece.spelled]
      rw [hcons, ih, List.flatMap_cons]

/-- A routine knows the constants of the functions in front of it and its own. -/
theorem mem_constants_routinesFrom {constants : List String} {n m : Nat} {p : Program}
    {r : Routine} (hr : r ∈ p.routinesFrom constants n m) {name : String}
    (h : name ∈ r.constants) : name ∈ constants ∨ name ∈ p.constants.map Prod.fst := by
  induction p generalizing constants n m with
  | nil => simp [routinesFrom] at hr
  | cons f rest ih =>
      rw [constants_eq_flatMap, List.flatMap_cons, List.map_append, List.mem_append,
        ← constants_eq_flatMap]
      rcases List.mem_cons.mp hr with rfl | hr
      · rcases List.mem_append.mp h with h | h
        · exact .inl h
        · exact .inr (.inl h)
      · rcases ih hr with h | h
        · rcases List.mem_append.mp h with h | h
          · exact .inl h
          · exact .inr (.inl h)
        · exact .inr (.inr h)

theorem isWord_function {p : Program} (h : ∀ kind ∈ p.tokens, kind.Lexical) :
    ∀ name ∈ p.functions, IsWord name := by
  intro name hname
  obtain ⟨f, hf, rfl⟩ := List.mem_map.mp hname
  exact isWord_of_nameToken (lexical_function h f hf _ (by simp [Function.piece, Piece.spelled]))

theorem lexical_body {p : Program} (h : ∀ kind ∈ p.tokens, kind.Lexical) :
    ∀ f ∈ p, f.body.piece.Lexical :=
  fun f hf => (Piece.lexical_append.mp (lexical_function h f hf)).2.of_braced

/-- The names of string constants are words of the language. -/
theorem isWord_constant {p : Program} (h : ∀ kind ∈ p.tokens, kind.Lexical) :
    ∀ constant ∈ p.constants, IsWord constant.1 := by
  intro constant hconstant
  rw [constants_eq_flatMap] at hconstant
  obtain ⟨f, hf, hconstant⟩ := List.mem_flatMap.mp hconstant
  exact (Body.worded (lexical_body h f hf)).constants constant hconstant

end Program

/-- The functions of a program that keeps the rules can be called by their labels. -/
theorem Program.Legal.usable_function {options : Options} {p : Program} (h : p.Legal options)
    (hlexical : ∀ kind ∈ p.tokens, kind.Lexical) {name : String} (hname : name ∈ p.functions) :
    Usable (p.Refers options) (.label (functionLabel name)) :=
  usable_functionLabel (isWord_function hlexical name hname) (h.isReserved_functions name hname)
    (.inl (functionLabel_mem_labels hname))

/-- The code of statements can be written and encoded, whatever the size of the frame. -/
theorem Program.Legal.sound_body {options : Options} {p : Program} (h : p.Legal options)
    (hlexical : ∀ kind ∈ p.tokens, kind.Lexical) {r : Routine} (hr : r ∈ p.routines) :
    (r.function.body.code p.functions r.frame r.branches r.loops).Sound (p.Refers options) := by
  have hlegal := h.routines r hr
  have hbody := lexical_body hlexical r.function (mem_of_mem_routines hr)
  refine Body.sound ?_ _ _ ⟨hbody, ?_⟩ ?_
  · intro name hname
    have hconstant : name ∈ p.constants.map Prod.fst := by
      simpa using mem_constants_routinesFrom hr hname
    obtain ⟨constant, hmem, rfl⟩ := List.mem_map.mp hconstant
    exact usable_name (isWord_constant hlexical constant hmem) (h.labels _ hconstant).1
      (.inl (List.mem_append_left _ hconstant))
  · intro call hcall
    have hword := (Body.worded hbody).calls call hcall
    have hadmits := hlegal.calls call hcall
    unfold Callable
    unfold Options.Admits at hadmits
    split
    next hlocal => exact h.usable_function hlexical (by simpa using hlocal)
    next hlocal =>
      rw [if_neg hlocal] at hadmits
      exact ⟨usable_name hword hadmits.1 (.inr hadmits.2.1), hadmits.2.2⟩
  · intro l hl
    exact .inl (List.mem_append_right _ (List.mem_flatMap.mpr
      ⟨r, hr, List.mem_cons_of_mem _ (List.mem_map_of_mem hl)⟩))

/-- The code of a program from a source text that keeps the rules can be written and
encoded, and refers to its own labels and to functions of the library only. -/
theorem Program.Legal.sound {options : Options} {p : Program} (h : p.Legal options)
    (hsymbols : options.limits.symbols < 2 ^ 29) (hlexical : ∀ kind ∈ p.tokens, kind.Lexical) :
    p.code.Sound (p.Refers options) := by
  intro item hitem
  obtain ⟨r, hr, hitem⟩ := List.mem_flatMap.mp hitem
  have hname : r.function.name ∈ p.functions := List.mem_map_of_mem (mem_of_mem_routines hr)
  have hsize : r.frame.size ≤ Scan.maxNumber := by
    have hlocals := (h.routines r hr).locals
    simp only [Frame.size, Abi.wordSize, Scan.maxNumber]
    omega
  exact sound_functionCode (h.usable_function hlexical hname) hsize (h.sound_body hlexical hr)
    item hitem

end Ia32.C

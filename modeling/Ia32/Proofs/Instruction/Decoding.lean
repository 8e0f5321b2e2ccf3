import Ia32.Instruction.Encoding
import Ia32.Machine.Decoding
import Ia32.Proofs.Outcome
import Ia32.Proofs.Word

/-!
# Decoding undoes encoding

Encoding forgets how an operand was spelled: the target of a branch is kept as a
distance, and a label or a large number elsewhere as 32 bits. `Instr.normalize`
is the spelling that decoding chooses. Whatever bytes follow, decoding the bytes
of an instruction gives its normal form back.
-/

namespace Ia32

/-- The spelling of an operand that decoding gives back. Targets of branches are
addresses; everywhere else numbers are read in two's complement. -/
def Operand.normalize (isTarget : Bool) : Operand UInt32 → Operand UInt32
  | .imm v => if isTarget then .label (Word.ofInt v) else .imm (Word.wrap v)
  | .label a => if isTarget then .label a else .imm (Word.toSigned a)
  | place => place

/-- The instruction with every operand in the spelling that decoding gives back. -/
def Instr.normalize (i : Instr UInt32) : Instr UInt32 :=
  ⟨i.op, i.args.map (Operand.normalize i.op.isBranch)⟩

namespace Encoding

/-- The three fields of an addressing byte do not overlap. -/
theorem toNat_modrm (mode : Nat) {field rm : Nat} (hmode : mode < 4) (hfield : field < 8)
    (hrm : rm < 8) : (modrm mode field rm).toNat = 64 * mode + 8 * field + rm := by
  unfold modrm
  rw [UInt8.toNat_ofNat']
  omega

end Encoding

namespace Decoder

open Encoding

/-! ### Parts of an instruction -/

@[simp]
theorem byte_cons (addr : UInt32) (b : UInt8) (rest : Bytes) :
    byte addr (b :: rest) = .ok (b, rest) := rfl

@[simp]
theorem word_toBytes (addr w : UInt32) (rest : Bytes) :
    word addr (Word.toBytes w ++ rest) = .ok (w, rest) := by
  simp only [Word.toBytes, List.cons_append, List.nil_append, word, Word.ofBytes_toBytes]

/-- A value that fits a byte is read back from that byte. -/
theorem shortImmediate_byteOfInt {v : Int} (hv : fitsByte v) (addr : UInt32) (rest : Bytes) :
    shortImmediate addr (byteOfInt v :: rest) = .ok (v, rest) := by
  simp only [fitsByte, Bool.and_eq_true, decide_eq_true_eq] at hv
  have hsigned := signedByte_byteOfInt hv.1 hv.2
  change Except.ok (signedByte (byteOfInt v), rest) = _
  rw [hsigned]

/-- Four little endian bytes are read as the signed value of their word. -/
theorem longImmediate_toBytes (addr w : UInt32) (rest : Bytes) :
    longImmediate addr (Word.toBytes w ++ rest) = .ok (Word.toSigned w, rest) := by
  change (word addr (Word.toBytes w ++ rest) >>= fun p => Except.ok (Word.toSigned p.1, p.2)) = _
  rw [word_toBytes]
  rfl

/-- The distance stored in a branch leads back to its target, also across the
end of the address space. -/
theorem target_relative (goal addr length : UInt32) (rest : Bytes) :
    target addr length (relative goal addr length ++ rest) = .ok (.label goal, rest) := by
  change (word addr (relative goal addr length ++ rest) >>= fun p =>
    Except.ok (Operand.label (addr + length + p.1), p.2)) = _
  rw [relative, word_toBytes]
  have hsum : addr + length + (goal - (addr + length)) = goal := by
    rw [UInt32.add_comm, UInt32.sub_add_cancel]
  change Except.ok (Operand.label (addr + length + (goal - (addr + length))), rest) = _
  rw [hsum]

/-- Mode three is the register itself. -/
theorem place_reg {field : Nat} (hfield : field < 8) (r : Reg) (addr : UInt32) (rest : Bytes) :
    place addr (modrm 3 field r.code :: rest) = .ok ((field, .reg r), rest) := by
  have hnat := toNat_modrm 3 (by omega) hfield r.code_lt
  have hr := r.code_lt
  have hmode : (modrm 3 field r.code).toNat / 64 = 3 := by omega
  have hbits : (modrm 3 field r.code).toNat / 8 % 8 = field := by omega
  have hrm : (modrm 3 field r.code).toNat % 8 = r.code := by omega
  change (if (modrm 3 field r.code).toNat / 64 = 3 then
    (pure ((modrm 3 field r.code).toNat / 8 % 8,
      Operand.reg (Reg.ofCode ((modrm 3 field r.code).toNat % 8))) : Decoder _) else _) rest = _
  rw [if_pos hmode, hbits, hrm, Reg.ofCode_code]
  rfl

/-- The displacement that follows a byte with a given mode. -/
def displacement (addr : UInt32) : Nat → Decoder Int
  | 0 => pure 0
  | 1 => shortImmediate addr
  | _ => longImmediate addr

theorem code_ne_of_ne_esp {r : Reg} (hr : r ≠ .esp) : r.code ≠ 4 := by
  cases r <;> simp_all [Reg.code]

theorem code_ne_of_ne_ebp {r : Reg} (hr : r ≠ .ebp) : r.code ≠ 5 := by
  cases r <;> simp_all [Reg.code]

/-- The other modes are memory behind a register, with the displacement the mode says. The two
registers whose codes mean something else there are excluded. -/
theorem place_mem (mode : Nat) {field : Nat} (hmode : mode < 3) (hfield : field < 8) {r : Reg}
    (hesp : r ≠ .esp) (hebp : mode = 0 → r ≠ .ebp) {addr : UInt32} {tail rest : Bytes} {d : Int}
    (hdisp : displacement addr mode tail = .ok (d, rest)) :
    place addr (modrm mode field r.code :: tail) =
      .ok ((field, .mem ⟨r, Int32.ofInt d⟩), rest) := by
  have hr := r.code_lt
  have hnat := toNat_modrm mode (by omega) hfield hr
  have hbits : (modrm mode field r.code).toNat / 8 % 8 = field := by omega
  have hrm : (modrm mode field r.code).toNat % 8 = r.code := by omega
  have htop : (modrm mode field r.code).toNat / 64 = mode := by omega
  have hreg : ¬ mode = 3 := by omega
  have hknown : ¬ (r.code = 4 ∨ (mode = 0 ∧ r.code = 5)) := by
    rintro (h4 | ⟨hzero, h5⟩)
    · exact code_ne_of_ne_esp hesp h4
    · exact code_ne_of_ne_ebp (hebp hzero) h5
  simp only [place, bind, StateT.bind, Except.bind, byte_cons, htop, hrm, hbits, if_neg hreg,
    if_neg hknown, Reg.ofCode_code]
  match mode, hmode with
  | 0, _ | 1, _ | 2, _ =>
    simp only [displacement] at hdisp
    simp only [StateT.bind, bind, Except.bind, hdisp]
    rfl

theorem toSigned_ofInt_toInt (d : Int32) : Word.toSigned (Word.ofInt d.toInt) = d.toInt := by
  have hlow := d.le_toInt
  have hhigh := d.toInt_lt
  rw [Word.toSigned_ofInt (by omega) (by omega), Word.wrap, if_pos (by omega)]

/-- The bytes of a memory operand name its base and its displacement, whichever
width the displacement has. -/
theorem place_memory {field : Nat} (hfield : field < 8) {m : Mem} {bytes : Bytes}
    (hbytes : memory field m = .ok bytes) (addr : UInt32) (rest : Bytes) :
    place addr (bytes ++ rest) = .ok ((field, .mem m), rest) := by
  obtain ⟨base, disp⟩ := m
  have hesp : base ≠ .esp := by
    intro heq
    simp [memory, heq] at hbytes
  simp only [memory, if_neg hesp, Mem.dispWidth] at hbytes
  by_cases hnone : disp = 0 ∧ base ≠ .ebp
  · rw [if_pos hnone] at hbytes
    obtain rfl : [modrm 0 field base.code] = bytes := by simpa using hbytes
    rw [hnone.1]
    exact place_mem 0 (by omega) hfield hesp (fun _ => hnone.2) rfl
  rw [if_neg hnone] at hbytes
  by_cases hshort : fitsByte disp.toInt
  · rw [if_pos hshort] at hbytes
    obtain rfl : [modrm 1 field base.code, byteOfInt disp.toInt] = bytes := by simpa using hbytes
    have hplace := place_mem 1 (by omega) hfield hesp (by omega)
      (shortImmediate_byteOfInt hshort addr rest)
    rwa [Int32.ofInt_toInt] at hplace
  · rw [if_neg hshort] at hbytes
    obtain rfl : modrm 2 field base.code :: Word.toBytes (Word.ofInt disp.toInt) = bytes := by
      simpa using hbytes
    have hplace := place_mem 2 (by omega) hfield hesp (by omega)
      (longImmediate_toBytes addr (Word.ofInt disp.toInt) rest)
    rwa [toSigned_ofInt_toInt, Int32.ofInt_toInt] at hplace

/-! ### Whole instructions -/

theorem instruction_cons (addr : UInt32) (opcode : UInt8) (bytes : Bytes) :
    instruction addr (opcode :: bytes) = operands addr opcode bytes := rfl

/-- Continues behind a place that has been read. -/
theorem place_bind {addr : UInt32} {bytes rest : Bytes} {field : Nat} {rm : Operand UInt32}
    {α : Type} (hplace : place addr bytes = .ok ((field, rm), rest))
    (next : Nat × Operand UInt32 → Decoder α) :
    (place addr >>= next) bytes = next (field, rm) rest := by
  simp only [bind, StateT.bind, hplace, Except.bind]

/-- The opcode of an arithmetic instruction from a register to a place. -/
theorem operands_toPlace {op : Mnemonic} {code : AluCode} (hcode : op.alu = some code)
    (addr : UInt32) :
    operands addr code.toPlace = (do
      let (field, rm) ← place addr
      return ⟨op, [rm, .reg (.ofCode field)]⟩) := by
  cases op <;> cases hcode <;> rfl

/-- The opcode of an arithmetic instruction from a place to a register. -/
theorem operands_toReg {op : Mnemonic} {code : AluCode} (hcode : op.alu = some code)
    (addr : UInt32) :
    operands addr code.toReg = (do
      let (field, rm) ← place addr
      return ⟨op, [.reg (.ofCode field), rm]⟩) := by
  cases op <;> cases hcode <;> rfl

/-- The field of an arithmetic instruction with an immediate names the instruction. -/
theorem aluOfField?_field {op : Mnemonic} {code : AluCode} (hcode : op.alu = some code) :
    aluOfField? code.field = some op := by
  cases op <;> cases hcode <;> rfl

theorem alu_field_lt {op : Mnemonic} {code : AluCode} (hcode : op.alu = some code) :
    code.field < 8 := by
  cases op <;> cases hcode <;> decide

theorem wrap_eq_of_fitsByte {v : Int} (hv : fitsByte v) : Word.wrap v = v := by
  simp only [fitsByte, Bool.and_eq_true, decide_eq_true_eq] at hv
  exact if_pos (by omega)

theorem toSigned_ofInt_of_fitsWord {v : Int} (hv : fitsWord v) :
    Word.toSigned (Word.ofInt v) = Word.wrap v := by
  simp only [fitsWord, Bool.and_eq_true, decide_eq_true_eq] at hv
  exact Word.toSigned_ofInt hv.1 hv.2

end Decoder

namespace Encoding

/-- An immediate that encodes fits a word and is written in its four bytes. -/
theorem immediate_eq_ok {v : Int} {bytes : Bytes} (h : immediate v = .ok bytes) :
    fitsWord v ∧ bytes = Word.toBytes (Word.ofInt v) := by
  unfold immediate at h
  split at h
  case isTrue hv => exact ⟨hv, by cases h; rfl⟩
  case isFalse => cases h

/-- A trap vector that encodes is a byte. -/
theorem vector_eq_ok {v : Int} {b : UInt8} (h : vector v = .ok b) :
    (0 ≤ v ∧ v ≤ 255) ∧ b = byteOfInt v := by
  unfold vector at h
  split at h
  case isTrue hv => exact ⟨hv, by cases h; rfl⟩
  case isFalse => cases h

/-- An immediate takes one byte if it fits, and four bytes otherwise. -/
theorem withImmediate_eq_ok {short long : UInt8} {place : Except EncodingError Bytes} {v : Int}
    {bytes : Bytes} (h : withImmediate short long place v = .ok bytes) :
    ∃ front, place = .ok front ∧
      ((fitsByte v ∧ bytes = short :: (front ++ [byteOfInt v])) ∨
        (fitsWord v ∧ bytes = long :: (front ++ Word.toBytes (Word.ofInt v)))) := by
  simp only [withImmediate, bind_eq_ok, shortWidth] at h
  obtain ⟨width, hwidth, front, hfront, h⟩ := h
  refine ⟨front, hfront, ?_⟩
  split at hwidth
  case isFalse => cases hwidth
  case isTrue hv =>
    by_cases hshort : fitsByte v
    · rw [if_pos hshort] at hwidth
      cases hwidth
      exact .inl ⟨hshort, by cases h; rfl⟩
    · rw [if_neg hshort] at hwidth
      cases hwidth
      obtain ⟨tail, htail, h⟩ := bind_eq_ok.mp h
      obtain ⟨-, rfl⟩ := immediate_eq_ok htail
      exact .inr ⟨hv, by cases h; rfl⟩

end Encoding

namespace Decoder

open Encoding

/-- The arithmetic group with an immediate, in both widths. -/
theorem instruction_aluImmediate {op : Mnemonic} {code : AluCode} (hcode : op.alu = some code)
    {place? : Except EncodingError Bytes} {rm : Operand UInt32} {addr : UInt32}
    (hplace : ∀ front rest, place? = .ok front →
      place addr (front ++ rest) = .ok ((code.field, rm), rest))
    {v : Int} {bytes : Bytes} (h : withImmediate 0x83 0x81 place? v = .ok bytes) (rest : Bytes) :
    instruction addr (bytes ++ rest) = .ok (⟨op, [rm, .imm (Word.wrap v)]⟩, rest) := by
  obtain ⟨front, hfront, ⟨hv, rfl⟩ | ⟨hv, rfl⟩⟩ := withImmediate_eq_ok h
  · have hread := hplace front ([byteOfInt v] ++ rest) hfront
    have himm := shortImmediate_byteOfInt hv addr rest
    rw [List.cons_append, List.append_assoc, instruction_cons, wrap_eq_of_fitsByte hv]
    change (place addr >>= _) _ = _
    rw [place_bind hread]
    simp only [aluOfField?_field hcode]
    change (shortImmediate addr >>= _) _ = _
    simp only [bind, StateT.bind, List.cons_append, List.nil_append, himm, Except.bind]
    rfl
  · have hread := hplace front (Word.toBytes (Word.ofInt v) ++ rest) hfront
    have himm := longImmediate_toBytes addr (Word.ofInt v) rest
    rw [toSigned_ofInt_of_fitsWord hv] at himm
    rw [List.cons_append, List.append_assoc, instruction_cons]
    change (place addr >>= _) _ = _
    rw [place_bind hread]
    simp only [aluOfField?_field hcode]
    change (longImmediate addr >>= _) _ = _
    simp only [bind, StateT.bind, himm, Except.bind]
    rfl

theorem isBranch_eq_false_of_alu {op : Mnemonic} {code : AluCode} (hcode : op.alu = some code) :
    op.isBranch = false := by
  cases op <;> cases hcode <;> rfl

/-- Each form of an arithmetic instruction is read back, normalized. -/
theorem instruction_encodeAlu {i : Instr UInt32} {code : AluCode} (hcode : i.op.alu = some code)
    {bytes : Bytes} (h : i.encodeAlu code = .ok bytes) (addr : UInt32) (rest : Bytes) :
    instruction addr (bytes ++ rest) = .ok (i.normalize, rest) := by
  obtain ⟨op, args⟩ := i
  have hnormal : ∀ args', (⟨op, args'⟩ : Instr UInt32).normalize =
      ⟨op, args'.map (Operand.normalize false)⟩ := by
    intro args'
    simp only [Instr.normalize, isBranch_eq_false_of_alu hcode]
  rw [hnormal]
  unfold Instr.encodeAlu at h
  split at h
  case h_1 d s hargs =>
    obtain rfl : args = [.reg d, .reg s] := hargs
    cases h
    change operands addr code.toPlace (modrm 3 s.code d.code :: rest) = _
    rw [operands_toPlace hcode, place_bind (place_reg s.code_lt d addr rest)]
    simp only [Reg.ofCode_code]
    rfl
  case h_2 d m hargs =>
    obtain rfl : args = [.reg d, .mem m] := hargs
    obtain ⟨front, hfront, h⟩ := bind_eq_ok.mp h
    cases h
    change operands addr code.toReg (front ++ rest) = _
    rw [operands_toReg hcode, place_bind (place_memory d.code_lt hfront addr rest)]
    simp only [Reg.ofCode_code]
    rfl
  case h_3 m s hargs =>
    obtain rfl : args = [.mem m, .reg s] := hargs
    obtain ⟨front, hfront, h⟩ := bind_eq_ok.mp h
    cases h
    change operands addr code.toPlace (front ++ rest) = _
    rw [operands_toPlace hcode, place_bind (place_memory s.code_lt hfront addr rest)]
    simp only [Reg.ofCode_code]
    rfl
  case h_4 d v hargs =>
    obtain rfl : args = [.reg d, .imm v] := hargs
    refine instruction_aluImmediate hcode ?_ h rest
    intro front tail hfront
    cases hfront
    exact place_reg (alu_field_lt hcode) d addr tail
  case h_5 m v hargs =>
    obtain rfl : args = [.mem m, .imm v] := hargs
    refine instruction_aluImmediate hcode ?_ h rest
    intro front tail hfront
    exact place_memory (alu_field_lt hcode) hfront addr tail
  case h_6 => cases h

/-- The condition of a conditional jump names the jump. -/
theorem ofCondition?_condition {op : Mnemonic} {byte : UInt8} (h : op.condition = some byte) :
    Mnemonic.ofCondition? byte = some op := by
  cases op <;> cases h <;> rfl

/-! ### First bytes outside the arithmetic group -/

/-- A jump or a call to an address reads the distance behind its five bytes. -/
theorem operands_branch (addr : UInt32) {op : Mnemonic} {opcode : UInt8}
    (h : (op = .jmp ∧ opcode = 0xE9) ∨ (op = .call ∧ opcode = 0xE8)) :
    operands addr opcode = (do return ⟨op, [← target addr 5]⟩) := by
  obtain ⟨rfl, rfl⟩ | ⟨rfl, rfl⟩ := h <;> rfl

/-- A conditional jump has its condition in a second byte. -/
theorem operands_conditional (addr : UInt32) :
    operands addr 0x0F = (do
      let second ← byte addr
      match Mnemonic.ofCondition? second with
      | none => throw (.unknownOpcode addr second)
      | some op => return ⟨op, [← target addr 6]⟩) :=
  rfl

theorem operands_movFromReg (addr : UInt32) :
    operands addr 0x89 = (do
      let (field, rm) ← place addr
      return ⟨.mov, [rm, .reg (.ofCode field)]⟩) :=
  rfl

theorem operands_movToReg (addr : UInt32) :
    operands addr 0x8B = (do
      let (field, rm) ← place addr
      return ⟨.mov, [.reg (.ofCode field), rm]⟩) :=
  rfl

theorem operands_movToRegImmediate (addr : UInt32) (r : Reg) :
    operands addr (UInt8.ofNat (0xB8 + r.code)) = (do
      return ⟨.mov, [.reg r, .imm (← longImmediate addr)]⟩) := by
  cases r <;> simp +decide [operands, Reg.code, Reg.ofCode]

theorem operands_movImmediate (addr : UInt32) :
    operands addr 0xC7 = (do
      let (field, rm) ← place addr
      if field = 0 then return ⟨.mov, [rm, .imm (← longImmediate addr)]⟩
      else throw (.unknownOpcode addr 0xC7)) :=
  rfl

theorem operands_callOrPush (addr : UInt32) :
    operands addr 0xFF = (do
      match ← place addr with
      | (2, rm) => return ⟨.call, [rm]⟩
      | (6, .mem m) => return ⟨.push, [.mem m]⟩
      | _ => throw (.unknownOpcode addr 0xFF)) :=
  rfl

theorem operands_int (addr : UInt32) :
    operands addr 0xCD = (do return ⟨.int, [.imm (← byte addr).toNat]⟩) :=
  rfl

theorem operands_pushReg (addr : UInt32) (r : Reg) :
    operands addr (UInt8.ofNat (0x50 + r.code)) = (return ⟨.push, [.reg r]⟩) := by
  cases r <;> rfl

theorem operands_popReg (addr : UInt32) (r : Reg) :
    operands addr (UInt8.ofNat (0x58 + r.code)) = (return ⟨.pop, [.reg r]⟩) := by
  cases r <;> rfl

theorem operands_pushShort (addr : UInt32) :
    operands addr 0x6A = (do return ⟨.push, [.imm (← shortImmediate addr)]⟩) :=
  rfl

theorem operands_pushLong (addr : UInt32) :
    operands addr 0x68 = (do return ⟨.push, [.imm (← longImmediate addr)]⟩) :=
  rfl

theorem operands_popMem (addr : UInt32) :
    operands addr 0x8F = (do
      match ← place addr with
      | (0, .mem m) => return ⟨.pop, [.mem m]⟩
      | _ => throw (.unknownOpcode addr 0x8F)) :=
  rfl

theorem operands_bare (addr : UInt32) {op : Mnemonic} {opcode : UInt8}
    (h : (op = .pusha ∧ opcode = 0x60) ∨ (op = .popa ∧ opcode = 0x61) ∨
      (op = .ret ∧ opcode = 0xC3)) :
    operands addr opcode = (return ⟨op, []⟩) := by
  obtain ⟨rfl, rfl⟩ | ⟨rfl, rfl⟩ | ⟨rfl, rfl⟩ := h <;> rfl

/-- A jump or call with a fixed target keeps the target, whatever the distance. -/
theorem instruction_encodeBranch {i : Instr UInt32} {goal addr : UInt32} {bytes : Bytes}
    (h : i.encodeBranch goal addr = .ok bytes) (rest : Bytes) :
    i.op.isBranch ∧ instruction addr (bytes ++ rest) = .ok (⟨i.op, [.label goal]⟩, rest) := by
  unfold Instr.encodeBranch at h
  split at h
  case h_1 hop =>
    cases h
    refine ⟨by rw [hop]; rfl, ?_⟩
    rw [List.cons_append, instruction_cons, operands_branch addr (.inl ⟨hop, rfl⟩)]
    simp only [bind, StateT.bind, target_relative, Except.bind]
    rfl
  case h_2 hop =>
    cases h
    refine ⟨by rw [hop]; rfl, ?_⟩
    rw [List.cons_append, instruction_cons, operands_branch addr (.inr ⟨hop, rfl⟩)]
    simp only [bind, StateT.bind, target_relative, Except.bind]
    rfl
  case h_3 =>
    split at h
    case h_2 => cases h
    case h_1 byte hbyte =>
      cases h
      refine ⟨by simp [Mnemonic.isBranch, hbyte], ?_⟩
      rw [List.cons_append, List.cons_append, instruction_cons, operands_conditional]
      simp only [bind, StateT.bind, byte_cons, Except.bind, ofCondition?_condition hbyte,
        target_relative]
      rfl

theorem longImmediate_bind {α : Type} (addr w : UInt32) (rest : Bytes)
    (next : Int → Decoder α) :
    (longImmediate addr >>= next) (Word.toBytes w ++ rest) = next (Word.toSigned w) rest := by
  simp only [bind, StateT.bind, longImmediate_toBytes, Except.bind]

/-- Each form of a move is read back, normalized. -/
theorem instruction_encodeMov {a b : Operand UInt32} {addr : UInt32} {bytes : Bytes}
    (h : (⟨.mov, [a, b]⟩ : Instr UInt32).encode addr = .ok bytes) (rest : Bytes) :
    instruction addr (bytes ++ rest) =
      .ok ((⟨.mov, [a, b]⟩ : Instr UInt32).normalize, rest) := by
  cases a <;> cases b
  case reg.reg d s =>
    change Except.ok [0x89, modrm 3 s.code d.code] = Except.ok bytes at h
    cases h
    change operands addr 0x89 (modrm 3 s.code d.code :: rest) = _
    rw [operands_movFromReg, place_bind (place_reg s.code_lt d addr rest)]
    simp only [Reg.ofCode_code]
    rfl
  case reg.mem d m =>
    obtain ⟨front, hfront, h⟩ := bind_eq_ok.mp h
    cases h
    change operands addr 0x8B (front ++ rest) = _
    rw [operands_movToReg, place_bind (place_memory d.code_lt hfront addr rest)]
    simp only [Reg.ofCode_code]
    rfl
  case mem.reg m s =>
    obtain ⟨front, hfront, h⟩ := bind_eq_ok.mp h
    cases h
    change operands addr 0x89 (front ++ rest) = _
    rw [operands_movFromReg, place_bind (place_memory s.code_lt hfront addr rest)]
    simp only [Reg.ofCode_code]
    rfl
  case reg.imm d v =>
    obtain ⟨tail, htail, h⟩ := bind_eq_ok.mp h
    obtain ⟨hv, rfl⟩ := immediate_eq_ok htail
    cases h
    rw [List.cons_append, instruction_cons, operands_movToRegImmediate, longImmediate_bind,
      toSigned_ofInt_of_fitsWord hv]
    rfl
  case reg.label d l =>
    change Except.ok (UInt8.ofNat (0xB8 + d.code) :: Word.toBytes l) = Except.ok bytes at h
    cases h
    rw [List.cons_append, instruction_cons, operands_movToRegImmediate, longImmediate_bind]
    rfl
  case mem.imm m v =>
    obtain ⟨front, hfront, h⟩ := bind_eq_ok.mp h
    obtain ⟨tail, htail, h⟩ := bind_eq_ok.mp h
    obtain ⟨hv, rfl⟩ := immediate_eq_ok htail
    cases h
    rw [List.cons_append, instruction_cons, operands_movImmediate, List.append_assoc,
      place_bind (place_memory (by omega) hfront addr _)]
    change (longImmediate addr >>= _) _ = _
    rw [longImmediate_bind, toSigned_ofInt_of_fitsWord hv]
    rfl
  case mem.label m l =>
    obtain ⟨front, hfront, h⟩ := bind_eq_ok.mp h
    cases h
    rw [List.cons_append, instruction_cons, operands_movImmediate, List.append_assoc,
      place_bind (place_memory (by omega) hfront addr _)]
    change (longImmediate addr >>= _) _ = _
    rw [longImmediate_bind]
    rfl
  all_goals cases h

theorem normalize_push_of_fitsByte {v : Int} (hv : fitsByte v) :
    (⟨.push, [.imm v]⟩ : Instr UInt32).normalize = ⟨.push, [.imm v]⟩ := by
  change (⟨.push, [.imm (Word.wrap v)]⟩ : Instr UInt32) = _
  rw [wrap_eq_of_fitsByte hv]

/-- Each form of a push is read back, normalized. -/
theorem instruction_encodePush {a : Operand UInt32} {addr : UInt32} {bytes : Bytes}
    (h : (⟨.push, [a]⟩ : Instr UInt32).encode addr = .ok bytes) (rest : Bytes) :
    instruction addr (bytes ++ rest) = .ok ((⟨.push, [a]⟩ : Instr UInt32).normalize, rest) := by
  cases a with
  | reg r =>
      change Except.ok [UInt8.ofNat (0x50 + r.code)] = Except.ok bytes at h
      cases h
      rw [List.cons_append, instruction_cons, operands_pushReg]
      rfl
  | mem m =>
      obtain ⟨front, hfront, h⟩ := bind_eq_ok.mp h
      cases h
      rw [List.cons_append, instruction_cons, operands_callOrPush,
        place_bind (place_memory (by omega) hfront addr rest)]
      rfl
  | imm v =>
      obtain ⟨front, hfront, ⟨hv, rfl⟩ | ⟨hv, rfl⟩⟩ := withImmediate_eq_ok h
      · cases hfront
        change operands addr 0x6A (byteOfInt v :: rest) = _
        rw [operands_pushShort, normalize_push_of_fitsByte hv]
        simp only [bind, StateT.bind, shortImmediate_byteOfInt hv, Except.bind]
        rfl
      · cases hfront
        change operands addr 0x68 (Word.toBytes (Word.ofInt v) ++ rest) = _
        rw [operands_pushLong, longImmediate_bind, toSigned_ofInt_of_fitsWord hv]
        rfl
  | label l =>
      change Except.ok (0x68 :: Word.toBytes l) = Except.ok bytes at h
      cases h
      rw [List.cons_append, instruction_cons, operands_pushLong, longImmediate_bind]
      rfl

theorem instruction_encodeInt {v : Int} {addr : UInt32} {bytes : Bytes}
    (h : (⟨.int, [.imm v]⟩ : Instr UInt32).encode addr = .ok bytes) (rest : Bytes) :
    instruction addr (bytes ++ rest) =
      .ok ((⟨.int, [.imm v]⟩ : Instr UInt32).normalize, rest) := by
  obtain ⟨b, hb, h⟩ := bind_eq_ok.mp h
  obtain ⟨hv, rfl⟩ := vector_eq_ok hb
  cases h
  have hnat : ((v % 256).toNat : Int) = Word.wrap v := by
    unfold Word.wrap
    split <;> omega
  change operands addr 0xCD (byteOfInt v :: rest) = _
  rw [operands_int]
  simp only [bind, StateT.bind, byte_cons, Except.bind, toNat_byteOfInt, hnat]
  rfl

/-- An instruction without operands is read back. -/
theorem instruction_encodeBare {op : Mnemonic} {addr : UInt32} {bytes : Bytes}
    (h : (⟨op, []⟩ : Instr UInt32).encode addr = .ok bytes) (rest : Bytes) :
    instruction addr (bytes ++ rest) = .ok ((⟨op, []⟩ : Instr UInt32).normalize, rest) := by
  cases op
  case pusha =>
    change Except.ok [0x60] = Except.ok bytes at h
    cases h
    rw [List.cons_append, instruction_cons, operands_bare addr (.inl ⟨rfl, rfl⟩)]
    rfl
  case popa =>
    change Except.ok [0x61] = Except.ok bytes at h
    cases h
    rw [List.cons_append, instruction_cons, operands_bare addr (.inr (.inl ⟨rfl, rfl⟩))]
    rfl
  case ret =>
    change Except.ok [0xC3] = Except.ok bytes at h
    cases h
    rw [List.cons_append, instruction_cons, operands_bare addr (.inr (.inr ⟨rfl, rfl⟩))]
    rfl
  all_goals cases h

/-- A call through a register, or a pop into one. -/
theorem instruction_encodeReg {op : Mnemonic} (hpush : op ≠ .push) {r : Reg} {addr : UInt32}
    {bytes : Bytes} (h : (⟨op, [.reg r]⟩ : Instr UInt32).encode addr = .ok bytes) (rest : Bytes) :
    instruction addr (bytes ++ rest) = .ok ((⟨op, [.reg r]⟩ : Instr UInt32).normalize, rest) := by
  cases op
  case push => exact (hpush rfl).elim
  case call =>
    change Except.ok [0xFF, modrm 3 2 r.code] = Except.ok bytes at h
    cases h
    change operands addr 0xFF (modrm 3 2 r.code :: rest) = _
    rw [operands_callOrPush, place_bind (place_reg (by omega) r addr rest)]
    rfl
  case pop =>
    change Except.ok [UInt8.ofNat (0x58 + r.code)] = Except.ok bytes at h
    cases h
    rw [List.cons_append, instruction_cons, operands_popReg]
    rfl
  all_goals cases h

/-- A call through memory, or a pop into it. -/
theorem instruction_encodeMem {op : Mnemonic} (hpush : op ≠ .push) {m : Mem} {addr : UInt32}
    {bytes : Bytes} (h : (⟨op, [.mem m]⟩ : Instr UInt32).encode addr = .ok bytes) (rest : Bytes) :
    instruction addr (bytes ++ rest) = .ok ((⟨op, [.mem m]⟩ : Instr UInt32).normalize, rest) := by
  cases op
  case push => exact (hpush rfl).elim
  case call =>
    obtain ⟨front, hfront, h⟩ := bind_eq_ok.mp h
    cases h
    rw [List.cons_append, instruction_cons, operands_callOrPush,
      place_bind (place_memory (by omega) hfront addr rest)]
    rfl
  case pop =>
    obtain ⟨front, hfront, h⟩ := bind_eq_ok.mp h
    cases h
    rw [List.cons_append, instruction_cons, operands_popMem,
      place_bind (place_memory (by omega) hfront addr rest)]
    rfl
  all_goals cases h

/-- Each instruction with one operand is read back, normalized. -/
theorem instruction_encodeUnary {op : Mnemonic} {a : Operand UInt32} {addr : UInt32} {bytes : Bytes}
    (h : (⟨op, [a]⟩ : Instr UInt32).encode addr = .ok bytes) (rest : Bytes) :
    instruction addr (bytes ++ rest) = .ok ((⟨op, [a]⟩ : Instr UInt32).normalize, rest) := by
  by_cases hpush : op = .push
  · subst hpush
    exact instruction_encodePush h rest
  cases a with
  | reg r => exact instruction_encodeReg hpush h rest
  | mem m => exact instruction_encodeMem hpush h rest
  | imm v =>
      by_cases hint : op = .int
      · subst hint
        exact instruction_encodeInt h rest
      have hencode : (⟨op, [.imm v]⟩ : Instr UInt32).encodeBranch (Word.ofInt v) addr =
          .ok bytes := by
        rw [← h]
        cases op <;> first | rfl | contradiction
      obtain ⟨hbranch, hread⟩ := instruction_encodeBranch hencode rest
      rw [hread]
      simp only [Instr.normalize, hbranch]
      rfl
  | label l =>
      have hencode : (⟨op, [.label l]⟩ : Instr UInt32).encodeBranch l addr = .ok bytes := by
        rw [← h]
        cases op <;> first | rfl | contradiction
      obtain ⟨hbranch, hread⟩ := instruction_encodeBranch hencode rest
      rw [hread]
      simp only [Instr.normalize, hbranch]
      rfl

/-- Whatever follows them, the bytes of an instruction are read as its normal
form, and nothing behind them is read. -/
theorem instruction_encode {i : Instr UInt32} {addr : UInt32} {bytes : Bytes}
    (h : i.encode addr = .ok bytes) (rest : Bytes) :
    instruction addr (bytes ++ rest) = .ok (i.normalize, rest) := by
  obtain ⟨op, args⟩ := i
  cases hcode : op.alu with
  | some code =>
      have hencode : (⟨op, args⟩ : Instr UInt32).encodeAlu code = .ok bytes := by
        have hop : (⟨op, args⟩ : Instr UInt32).op.alu = some code := hcode
        unfold Instr.encode at h
        rwa [hop] at h
      exact instruction_encodeAlu hcode hencode addr rest
  | none =>
      rcases args with _ | ⟨a, _ | ⟨b, _ | ⟨c, others⟩⟩⟩
      · exact instruction_encodeBare h rest
      · exact instruction_encodeUnary h rest
      · by_cases hmov : op = .mov
        · subst hmov
          exact instruction_encodeMov h rest
        · cases op <;> first | contradiction | (cases a <;> cases h)
      · cases op <;> cases a <;> cases b <;> cases h

end Decoder

/-- Decoding takes as many bytes as reading the instruction did. -/
theorem decode_of_instruction {i : Instr UInt32} {addr : UInt32} {bytes rest : Bytes}
    (h : Decoder.instruction addr (bytes ++ rest) = .ok (i, rest)) :
    decode (bytes ++ rest) addr = .ok (i, bytes.length) := by
  have hrun : (Decoder.instruction addr).run (bytes ++ rest) = .ok (i, rest) := h
  unfold decode
  rw [hrun]
  simp only [List.length_append, Nat.add_sub_cancel]

/-- Decoding the bytes of an instruction, followed by any others, gives back the
normal form of the instruction and the number of its bytes. -/
theorem decode_encode (i : Instr UInt32) (addr : UInt32) (bytes suffix : Bytes)
    (h : i.encode addr = .ok bytes) :
    decode (bytes ++ suffix) addr = .ok (i.normalize, bytes.length) :=
  decode_of_instruction (Decoder.instruction_encode h suffix)

/-- A jump placed at the end of the address space reaches a target at its start. -/
theorem decode_encode_wrapping_branch :
    (⟨.jne, [.imm 5]⟩ : Instr UInt32).encode 0xFFFFFFFE = .ok [0x0F, 0x85, 1, 0, 0, 0] ∧
      decode ([0x0F, 0x85, 1, 0, 0, 0] ++ [0xC3]) 0xFFFFFFFE = .ok (⟨.jne, [.label 5]⟩, 6) :=
  have hbytes : (⟨.jne, [.imm 5]⟩ : Instr UInt32).encode 0xFFFFFFFE =
      .ok [0x0F, 0x85, 1, 0, 0, 0] := by rfl
  ⟨hbytes, decode_encode ⟨.jne, [.imm 5]⟩ 0xFFFFFFFE [0x0F, 0x85, 1, 0, 0, 0] [0xC3] hbytes⟩

end Ia32

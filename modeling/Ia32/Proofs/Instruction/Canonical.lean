import Ia32.Proofs.Instruction.Window

/-!
# Instructions that decoding finds

The decoder knows spellings that the encoder never chooses: a displacement or an immediate
that is wider than it has to be, and a second opcode between two registers. Whatever it finds
is in its normal form and has an encoding that is no longer, so that encoding it again and
decoding the result changes nothing.
-/

namespace Ia32

open Encoding

/-- Instructions in normal form that have an encoding of no more than some bytes. -/
def Instr.Canonical (addr : UInt32) (i : Instr UInt32) (length : Nat) : Prop :=
  i.normalize = i ∧ ∃ bytes, i.encode addr = .ok bytes ∧ bytes.length ≤ length

/-- The bytes of a place, behind an opcode that is extended by a field. -/
def Encoding.placeBytes (field : Nat) : Operand UInt32 → Except EncodingError Bytes
  | .reg r => .ok [modrm 3 field r.code]
  | .mem m => memory field m
  | _ => .ok []

/-- A place that can be decoded has an encoding no longer than what was read. -/
theorem Decoder.IsPlace.exists_bytes {p : Operand UInt32} {k : Nat} (h : IsPlace p k)
    (field : Nat) : ∃ bytes, placeBytes field p = .ok bytes ∧ bytes.length ≤ k := by
  cases h with
  | reg r => exact ⟨_, rfl, Nat.le_refl 1⟩
  | @mem m _ base width =>
      have hagrees := memory_agrees field m
      rw [memWidth, if_neg base] at hagrees
      obtain ⟨bytes, hbytes, hlength⟩ := hagrees.length
      exact ⟨bytes, hbytes, hlength.trans_le width⟩

/-- An immediate behind a place is written in its short form if it fits, else in the long one. -/
theorem Encoding.exists_withImmediate (short long : UInt8) {place : Except EncodingError Bytes}
    {front : Bytes} (hplace : place = .ok front) {v : Int} (hv : IsSigned v) {width : Nat}
    (hwidth : (if fitsByte v then 1 else 4) ≤ width) :
    ∃ bytes, withImmediate short long place v = .ok bytes ∧
      bytes.length ≤ 1 + (front.length + width) := by
  have hagrees : Agrees (.ok front.length) place := by
    rw [hplace]
    rfl
  have hlength := withImmediate_agrees hagrees short long v
  rw [shortWidth, if_pos hv.1] at hlength
  obtain ⟨bytes, hbytes, hlength⟩ := hlength.length
  exact ⟨bytes, hbytes, by omega⟩

namespace Decoder

variable {op : Mnemonic} {code : AluCode} {p : Operand UInt32} {k : Nat} {v : Int} {addr : UInt32}

/-- An instruction that is an opcode in front of a place is no longer than what it was found in. -/
theorem canonical_of_place {i : Instr UInt32} (opcode : UInt8) (field : Nat) (hp : IsPlace p k)
    (hnormal : i.normalize = i)
    (hencode : i.encode addr = placeBytes field p >>= fun bytes => .ok (opcode :: bytes)) :
    i.Canonical addr (1 + k) := by
  obtain ⟨bytes, hbytes, hlength⟩ := hp.exists_bytes field
  refine ⟨hnormal, opcode :: bytes, ?_, ?_⟩
  · rw [hencode, hbytes]
    rfl
  · rw [List.length_cons]
    omega

theorem encode_of_alu (hcode : op.alu = some code) (args : List (Operand UInt32)) (addr : UInt32) :
    (⟨op, args⟩ : Instr UInt32).encode addr = (⟨op, args⟩ : Instr UInt32).encodeAlu code := by
  unfold Instr.encode
  simp only [hcode]

/-- An arithmetic instruction has no operand that is a target. -/
theorem normalize_of_alu (hcode : op.alu = some code) {args : List (Operand UInt32)}
    (h : args.map (Operand.normalize false) = args) :
    (⟨op, args⟩ : Instr UInt32).normalize = ⟨op, args⟩ := by
  simp only [Instr.normalize, isBranch_eq_false_of_alu hcode, h]

theorem IsPlace.normalize (h : IsPlace p k) (isTarget : Bool) : p.normalize isTarget = p := by
  cases h <;> rfl

theorem canonical_toPlace (hcode : op.alu = some code) (hp : IsPlace p k) (r : Reg) :
    Instr.Canonical addr ⟨op, [p, .reg r]⟩ (1 + k) := by
  have hargs : [p, .reg r].map (Operand.normalize false) = [p, .reg r] := by
    rw [List.map_cons, hp.normalize]
    rfl
  refine canonical_of_place code.toPlace r.code hp (normalize_of_alu hcode hargs) ?_
  rw [encode_of_alu hcode]
  cases hp <;> rfl

/-- A register goes to a register by the opcode that stores. -/
theorem canonical_toReg (hcode : op.alu = some code) (hp : IsPlace p k) (r : Reg) :
    Instr.Canonical addr ⟨op, [.reg r, p]⟩ (1 + k) := by
  cases hp with
  | reg s => exact canonical_toPlace hcode (.reg r) s
  | mem base width =>
      refine canonical_of_place code.toReg r.code (.mem base width) (normalize_of_alu hcode rfl) ?_
      rw [encode_of_alu hcode]
      rfl

/-- Arithmetic with an immediate is encoded no longer than it was read, since the short form is
taken where it fits. -/
theorem canonical_aluImmediate (hcode : op.alu = some code) (hp : IsPlace p k) (hv : IsSigned v)
    {width : Nat} (hwidth : (if fitsByte v then 1 else 4) ≤ width) :
    Instr.Canonical addr ⟨op, [p, .imm v]⟩ (1 + (k + width)) := by
  have himm : (Operand.imm v : Operand UInt32).normalize false = .imm v :=
    congrArg Operand.imm hv.2
  have hargs : [p, .imm v].map (Operand.normalize false) = [p, .imm v] := by
    rw [List.map_cons, hp.normalize, List.map_cons, himm]
    rfl
  have hencode : (⟨op, [p, .imm v]⟩ : Instr UInt32).encode addr =
      withImmediate 0x83 0x81 (placeBytes code.field p) v := by
    rw [encode_of_alu hcode]
    cases hp <;> rfl
  obtain ⟨front, hfront, hlength⟩ := hp.exists_bytes code.field
  obtain ⟨bytes, hbytes, hle⟩ := exists_withImmediate 0x83 0x81 hfront hv hwidth
  exact ⟨normalize_of_alu hcode hargs, bytes, hencode.trans hbytes, by omega⟩

theorem canonical_movToPlace (hp : IsPlace p k) (r : Reg) :
    Instr.Canonical addr ⟨.mov, [p, .reg r]⟩ (1 + k) := by
  refine canonical_of_place 0x89 r.code hp ?_ ?_ <;> cases hp <;> rfl

theorem canonical_movToReg (hp : IsPlace p k) (r : Reg) :
    Instr.Canonical addr ⟨.mov, [.reg r, p]⟩ (1 + k) := by
  cases hp with
  | reg s => exact canonical_movToPlace (.reg r) s
  | mem base width => exact canonical_of_place 0x8B r.code (.mem base width) rfl rfl

theorem normalize_movImmediate (hv : IsSigned v) (hp : IsPlace p k) :
    (⟨.mov, [p, .imm v]⟩ : Instr UInt32).normalize = ⟨.mov, [p, .imm v]⟩ := by
  have himm : (Operand.imm v : Operand UInt32).normalize false = .imm v :=
    congrArg Operand.imm hv.2
  change (⟨.mov, [p.normalize false, (Operand.imm v).normalize false]⟩ : Instr UInt32) = _
  rw [hp.normalize, himm]

theorem immediate_of_isSigned (hv : IsSigned v) :
    immediate v = .ok (Word.toBytes (Word.ofInt v)) :=
  if_pos hv.1

theorem canonical_movImmediateToReg (hv : IsSigned v) (r : Reg) :
    Instr.Canonical addr ⟨.mov, [.reg r, .imm v]⟩ 5 :=
  ⟨normalize_movImmediate hv (.reg r), _,
    bind_eq_ok.mpr ⟨_, immediate_of_isSigned hv, rfl⟩, Nat.le_refl 5⟩

/-- A move of an immediate to a place. -/
theorem canonical_movImmediate (hp : IsPlace p k) (hv : IsSigned v) :
    Instr.Canonical addr ⟨.mov, [p, .imm v]⟩ (1 + (k + 4)) := by
  refine ⟨normalize_movImmediate hv hp, ?_⟩
  cases hp with
  | reg d =>
      obtain ⟨-, bytes, hbytes, hlength⟩ := @canonical_movImmediateToReg _ addr hv d
      exact ⟨bytes, hbytes, by omega⟩
  | @mem m _ base width =>
      obtain ⟨front, hfront, hlength⟩ := (IsPlace.mem base width).exists_bytes 0
      refine ⟨_, bind_eq_ok.mpr ⟨front, hfront,
        bind_eq_ok.mpr ⟨_, immediate_of_isSigned hv, rfl⟩⟩, ?_⟩
      rw [List.length_cons, List.length_append, Word.length_toBytes]
      omega

/-- A conditional jump to any address. -/
theorem canonical_conditional {second : UInt8} (h : Mnemonic.ofCondition? second = some op)
    (goal : UInt32) : Instr.Canonical addr ⟨op, [.label goal]⟩ 6 := by
  have hcondition : op.condition = some second := by
    have hfound := List.find?_some h
    exact beq_iff_eq.mp hfound
  cases op <;> first | exact ⟨rfl, _, rfl, Nat.le_refl 6⟩ | cases hcondition

theorem canonical_call (hp : IsPlace p k) : Instr.Canonical addr ⟨.call, [p]⟩ (1 + k) := by
  refine canonical_of_place 0xFF 2 hp ?_ ?_ <;> cases hp <;> rfl

/-- A push of an immediate, short where it fits. -/
theorem canonical_pushImmediate (hv : IsSigned v) {width : Nat}
    (hwidth : (if fitsByte v then 1 else 4) ≤ width) :
    Instr.Canonical addr ⟨.push, [.imm v]⟩ (1 + width) := by
  refine ⟨?_, ?_⟩
  · change (⟨.push, [.imm (Word.wrap v)]⟩ : Instr UInt32) = _
    rw [hv.2]
  · obtain ⟨bytes, hbytes, hlength⟩ :=
      exists_withImmediate 0x6A 0x68 (Eq.refl (Except.ok [])) hv hwidth
    exact ⟨bytes, hbytes, by rwa [List.length_nil, Nat.zero_add] at hlength⟩

theorem canonical_int (b : UInt8) : Instr.Canonical addr ⟨.int, [.imm b.toNat]⟩ 2 := by
  have hlt := b.toNat_lt
  refine ⟨?_, [0xCD, byteOfInt b.toNat], bind_eq_ok.mpr ⟨_, if_pos (by omega), rfl⟩, Nat.le_refl 2⟩
  change (⟨.int, [.imm (Word.wrap b.toNat)]⟩ : Instr UInt32) = _
  rw [Word.wrap, if_pos (by omega)]

/-! ### The whole table -/

/-- The instruction of an arithmetic opcode has codes to encode it with. -/
theorem exists_aluOf (opcode : UInt8) : ∃ code, (aluOf opcode).alu = some code := by
  unfold aluOf
  split
  · exact ⟨_, rfl⟩
  · split <;> exact ⟨_, rfl⟩

theorem exists_aluOfField {field : Nat} (h : aluOfField? field = some op) :
    ∃ code, op.alu = some code := by
  unfold aluOfField? at h
  split at h <;> cases h <;> exact ⟨_, rfl⟩

/-- Immediates of some width, which is no less than the shortest that holds them. -/
def IsImmediate (v : Int) (width : Nat) : Prop :=
  IsSigned v ∧ (if fitsByte v then 1 else 4) ≤ width

theorem windowed_shortSigned (addr : UInt32) :
    Windowed addr 1 IsImmediate (shortImmediate addr) :=
  (windowed_shortImmediate addr).mono (Nat.le_refl 1) fun _ _ hv =>
    ⟨isSigned_of_fitsByte hv.1, by rw [if_pos hv.1, hv.2]⟩

theorem windowed_longSigned (addr : UInt32) :
    Windowed addr 4 IsImmediate (longImmediate addr) :=
  (windowed_longImmediate addr).mono (Nat.le_refl 4) fun _ _ hv =>
    ⟨hv.1, by rw [hv.2]; split <;> omega⟩

/-- An unknown opcode is reported whatever is behind it. -/
theorem windowed_unknownOpcode (addr : UInt32) (b : UInt8) {n : Nat}
    {found : Instr UInt32 → Nat → Prop} : Windowed addr n found (throw (.unknownOpcode addr b)) :=
  .throw trivial

/-- Behind a place there are four bytes left. -/
theorem windowed_behind_place {addr : UInt32} {found : Instr UInt32 → Nat → Prop}
    {next : Nat × Operand UInt32 → Decoder (Instr UInt32)}
    (hnext : ∀ field rm k, IsPlace rm k →
      Windowed addr 4 (fun i j => found i (k + j)) (next (field, rm))) :
    Windowed addr 9 found (place addr >>= next) :=
  (windowed_place addr).bind (m := 4) fun p k hp => hnext p.1 p.2 k hp

/-- An instruction with four bytes behind its opcode. -/
theorem windowed_of_word {α : Type} {addr : UInt32} {good : α → Prop} {x : Decoder α}
    {f : α → Instr UInt32} (hx : Windowed addr 4 (fun a k => good a ∧ k = 4) x)
    (hf : ∀ a, good a → (f a).Canonical addr 5) :
    Windowed addr 9 (fun i k => i.Canonical addr (1 + k)) (x >>= fun a => pure (f a)) := by
  refine (hx.map (f := f) fun a k ha => ?_).wider (by omega)
  rw [ha.2]
  exact hf a ha.1

/-- Whatever its opcode, an instruction is found in its normal form in nine more bytes, and has an
encoding that is no longer. -/
theorem windowed_operands (addr : UInt32) (opcode : UInt8) :
    Windowed addr 9 (fun i k => i.Canonical addr (1 + k)) (operands addr opcode) := by
  unfold operands
  refine .ite ?aluToPlace fun _ => .ite ?aluToReg fun _ => .ite ?aluImmediate fun _ =>
    .ite ?movToPlace fun _ => .ite ?movToReg fun _ => .ite ?movImmediateToReg fun _ =>
    .ite ?movImmediate fun _ => .ite ?jmp fun _ => .ite ?call fun _ => .ite ?conditional fun _ =>
    .ite ?callOrPush fun _ => .ite ?int fun _ => .ite ?pushReg fun _ => .ite ?popReg fun _ =>
    .ite ?pushShort fun _ => .ite ?pushLong fun _ => .ite ?popMem fun _ => .ite ?pusha fun _ =>
    .ite ?popa fun _ => .ite ?ret fun _ => windowed_unknownOpcode addr opcode
  case aluToPlace =>
    exact fun _ => windowed_behind_place fun field rm k hp =>
      have ⟨_, hcode⟩ := exists_aluOf opcode
      .pure (canonical_toPlace hcode hp _)
  case aluToReg =>
    exact fun _ => windowed_behind_place fun field rm k hp =>
      have ⟨_, hcode⟩ := exists_aluOf opcode
      .pure (canonical_toReg hcode hp _)
  case aluImmediate =>
    refine fun _ => windowed_behind_place fun field rm k hp => ?_
    dsimp only
    cases hop : aluOfField? field with
    | none => exact windowed_unknownOpcode addr opcode
    | some op =>
        obtain ⟨_, hcode⟩ := exists_aluOfField hop
        refine .ite (fun _ => ?_) fun _ => ?_
        · exact ((windowed_shortSigned addr).wider (by omega)).map fun v j hv =>
            canonical_aluImmediate hcode hp hv.1 hv.2
        · exact (windowed_longSigned addr).map fun v j hv =>
            canonical_aluImmediate hcode hp hv.1 hv.2
  case movToPlace =>
    exact fun _ => windowed_behind_place fun field rm k hp => .pure (canonical_movToPlace hp _)
  case movToReg =>
    exact fun _ => windowed_behind_place fun field rm k hp => .pure (canonical_movToReg hp _)
  case movImmediateToReg =>
    exact fun _ => windowed_of_word (windowed_longImmediate addr) fun v hv =>
      canonical_movImmediateToReg hv _
  case movImmediate =>
    refine fun _ => windowed_behind_place fun field rm k hp => .ite (fun _ => ?_) fun _ =>
      windowed_unknownOpcode addr opcode
    refine (windowed_longImmediate addr).map fun v j hv => ?_
    rw [hv.2]
    exact canonical_movImmediate hp hv.1
  case jmp | call =>
    refine fun _ => windowed_of_word (windowed_target addr 5) ?_
    rintro _ ⟨goal, rfl⟩
    exact ⟨rfl, _, rfl, Nat.le_refl 5⟩
  case conditional =>
    refine fun _ => (windowed_byte addr).bind (m := 8) fun second k hk => ?_
    cases hop : Mnemonic.ofCondition? second with
    | none => exact windowed_unknownOpcode addr second
    | some op =>
        refine ((windowed_target addr 6).map ?_).wider (by omega)
        rintro _ j ⟨⟨goal, rfl⟩, rfl⟩
        rw [hk]
        exact canonical_conditional hop goal
  case callOrPush =>
    refine fun _ => windowed_behind_place fun field rm k hp => ?_
    split
    next heq =>
      cases heq
      exact .pure (canonical_call hp)
    next heq =>
      cases heq
      exact .pure (canonical_of_place 0xFF 6 hp rfl rfl)
    next => exact windowed_unknownOpcode addr opcode
  case int =>
    refine fun _ => ((windowed_byte addr).map fun b k hk => ?_).wider (by omega)
    rw [hk]
    exact canonical_int b
  case pushShort =>
    exact fun _ => ((windowed_shortSigned addr).map fun v k hv =>
      canonical_pushImmediate hv.1 hv.2).wider (by omega)
  case pushLong =>
    exact fun _ => ((windowed_longSigned addr).map fun v k hv =>
      canonical_pushImmediate hv.1 hv.2).wider (by omega)
  case popMem =>
    refine fun _ => windowed_behind_place fun field rm k hp => ?_
    split
    next heq =>
      cases heq
      exact .pure (canonical_of_place 0x8F 0 hp rfl rfl)
    next => exact windowed_unknownOpcode addr opcode
  case pushReg | popReg | pusha | popa | ret => exact fun _ => .pure ⟨rfl, _, rfl, Nat.le_refl 1⟩

/-- An instruction takes at least its opcode and at most ten bytes, in which the decoder finds it
in its normal form. -/
theorem windowed_instruction (addr : UInt32) :
    Windowed addr maxInstructionLength (fun i k => 1 ≤ k ∧ i.Canonical addr k)
      (instruction addr) := by
  refine (windowed_byte addr).bind (m := 9) fun opcode k hk => ?_
  refine (windowed_operands addr opcode).mono (Nat.le_refl 9) fun i j h => ?_
  rw [hk]
  exact ⟨Nat.le_add_right 1 j, h⟩

end Decoder

/-! ### Decoding -/

variable {addr : UInt32} {i : Instr UInt32}

/-- Decoding the encoding of what was found finds it again. -/
theorem Instr.Canonical.exists_shortest {length : Nat} (h : i.Canonical addr length) :
    ∃ bytes, i.encode addr = .ok bytes ∧ bytes.length ≤ length ∧
      decode bytes addr = .ok (i, bytes.length) := by
  obtain ⟨hnormal, bytes, hbytes, hlength⟩ := h
  have hdecode := decode_of_instruction (Decoder.instruction_encode hbytes [])
  rw [List.append_nil, hnormal] at hdecode
  exact ⟨bytes, hbytes, hlength, hdecode⟩

theorem decode_eq_error {bytes : Bytes} {fault : Fault}
    (h : Decoder.instruction addr bytes = .error fault) : decode bytes addr = .error fault := by
  have hrun : (Decoder.instruction addr).run bytes = .error fault := h
  unfold decode
  rw [hrun]

/-- An instruction is found by its bytes alone, and a part of them that ends early is not
enough. -/
structure Found (addr : UInt32) (i : Instr UInt32) (front : Bytes) : Prop where
  nonempty : 1 ≤ front.length
  fits : front.length ≤ maxInstructionLength
  reads : ∀ tail, decode (front ++ tail) addr = .ok (i, front.length)
  short : ∀ part, part <+: front → part ≠ front →
    decode part addr = .error (.truncatedInstruction addr)
  canonical : i.Canonical addr front.length

/-- Decoding finds an instruction within the window, or fails as it does on the window alone. -/
theorem decode_cases (bytes : Bytes) (addr : UInt32) :
    (∃ i front rest, bytes = front ++ rest ∧ Found addr i front) ∨
      ∃ fault, (fault.IsMalformed ∨ fault = .truncatedInstruction addr) ∧
        decode bytes addr = .error fault ∧
          decode (bytes.take maxInstructionLength) addr = .error fault := by
  cases Decoder.windowed_instruction addr bytes with
  | @value i front rest fits reads short holds =>
      exact .inl ⟨i, front, rest, rfl, holds.1, fits,
        fun tail => decode_of_instruction (reads tail),
        fun part hpart hne => decode_eq_error (short part hpart hne), holds.2⟩
  | @malformed fault front rest fits cause fails =>
      refine .inr ⟨fault, .inl cause, decode_eq_error (fails rest), ?_⟩
      rw [List.take_append, List.take_of_length_le fits]
      exact decode_eq_error (fails _)
  | truncated fits fails =>
      refine .inr ⟨_, .inr rfl, decode_eq_error fails, ?_⟩
      rw [List.take_of_length_le (Nat.le_of_lt fits)]
      exact decode_eq_error fails

end Ia32

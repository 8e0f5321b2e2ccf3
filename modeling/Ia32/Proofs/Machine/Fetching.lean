import Ia32.Proofs.Instruction.Canonical
import Ia32.Proofs.Machine.Execution

/-!
# Fetched instructions

A step fetches as many bytes as the longest instruction has, and never needs more. The
instruction that it finds there suits its operands, so that nothing but an access, a system
call or an interrupt can stop it.
-/

namespace Ia32

/-- The faults of instructions whose operands suit them. -/
def Fault.IsEffect (fault : Fault) : Prop :=
  fault.IsAccess ∨ ∃ addr vector, fault = .unhandledInterrupt addr vector

namespace Exec

variable {m m' : Machine} {fault : Fault} {addr : UInt32}

theorem accessing_write (invalid : Fault) {p : Operand UInt32} (h : p.shape = .reg ∨ p.shape = .mem)
    (value : UInt32) : Accessing (write invalid p value) := by
  cases p with
  | reg r => exact accessing_setReg r value
  | mem place => exact accessing_get.bind fun _ => accessing_store _ _
  | imm v => rcases h with h | h <;> cases h
  | label l => rcases h with h | h <;> cases h

theorem accessing_alu {op : Mnemonic} {code : AluCode} (hcode : op.alu = some code)
    {dst src : Operand UInt32} (h : dst.shape = .reg ∨ dst.shape = .mem) (addr : UInt32) :
    Accessing (perform addr ⟨op, [dst, src]⟩) := by
  cases op <;> cases hcode
  case cmp =>
    exact (accessing_read dst).bind fun _ => (accessing_read src).bind fun _ => accessing_modify _
  all_goals
    exact (accessing_read dst).bind fun _ => (accessing_read src).bind fun _ =>
      (accessing_modify _).bind fun _ => accessing_write _ h _

theorem accessing_mov {dst src : Operand UInt32} (h : dst.shape = .reg ∨ dst.shape = .mem)
    (addr : UInt32) : Accessing (perform addr ⟨.mov, [dst, src]⟩) :=
  (accessing_read src).bind fun _ => accessing_write _ h _

theorem accessing_branch {op : Mnemonic} (h : op = .jmp ∨ op.condition.isSome)
    (target : Operand UInt32) (addr : UInt32) : Accessing (perform addr ⟨op, [target]⟩) := by
  have hperform : perform addr ⟨op, [target]⟩ = (do
      if (← get).flags.holds op then jump (← read target)) := by
    cases op <;> first | rfl | exact absurd h (by decide)
  rw [hperform]
  refine accessing_get.bind fun m => ?_
  split
  · exact (accessing_read target).bind fun _ => accessing_modify _
  · exact accessing_pure _

end Exec

namespace Instr

/-- The operands that an operation suits, as far as performing it is concerned. -/
inductive Suited : Instr UInt32 → Prop
  | alu {op : Mnemonic} {code : AluCode} (hcode : op.alu = some code) {dst src : Operand UInt32}
      (h : dst.shape = .reg ∨ dst.shape = .mem) : Suited ⟨op, [dst, src]⟩
  | mov {dst src : Operand UInt32} (h : dst.shape = .reg ∨ dst.shape = .mem) :
      Suited ⟨.mov, [dst, src]⟩
  | branch {op : Mnemonic} (h : op = .jmp ∨ op.condition.isSome) (target : Operand UInt32) :
      Suited ⟨op, [target]⟩
  | call (target : Operand UInt32) : Suited ⟨.call, [target]⟩
  | int (v : Int) : Suited ⟨.int, [.imm v]⟩
  | push (src : Operand UInt32) : Suited ⟨.push, [src]⟩
  | pop {dst : Operand UInt32} (h : dst.shape = .reg ∨ dst.shape = .mem) : Suited ⟨.pop, [dst]⟩
  | pusha : Suited ⟨.pusha, []⟩
  | popa : Suited ⟨.popa, []⟩
  | ret : Suited ⟨.ret, []⟩

theorem suited_of_encodeAlu {i : Instr UInt32} {code : AluCode} (hcode : i.op.alu = some code)
    {bytes : Bytes} (h : i.encodeAlu code = .ok bytes) : i.Suited := by
  obtain ⟨op, args⟩ := i
  unfold encodeAlu at h
  split at h
  case h_6 => cases h
  all_goals
    rename_i hargs
    dsimp only at hargs
    subst hargs
  case h_1 | h_2 | h_4 => exact .alu hcode (.inl rfl)
  case h_3 | h_5 => exact .alu hcode (.inr rfl)

/-- An instruction that encodes has operands it can be performed with. -/
theorem suited_of_encode {i : Instr UInt32} {addr : UInt32} {bytes : Bytes}
    (h : i.encode addr = .ok bytes) : i.Suited := by
  obtain ⟨op, args⟩ := i
  cases hcode : op.alu with
  | some code =>
      rw [Decoder.encode_of_alu hcode] at h
      exact suited_of_encodeAlu hcode h
  | none =>
      rcases args with _ | ⟨a, _ | ⟨b, _ | ⟨c, others⟩⟩⟩
      · cases op
        case pusha => exact .pusha
        case popa => exact .popa
        case ret => exact .ret
        all_goals cases h
      · cases op
        case jmp | je | jne | jl | jle | jg | jge => exact .branch (by decide) a
        case call => exact .call a
        case push => exact .push a
        case int =>
          cases a
          case imm v => exact .int v
          all_goals cases h
        case pop =>
          cases a
          case reg => exact .pop (.inl rfl)
          case mem => exact .pop (.inr rfl)
          all_goals cases h
        all_goals cases a <;> cases h
      · by_cases hmov : op = .mov
        · subst hmov
          cases a
          case reg => exact .mov (.inl rfl)
          case mem => exact .mov (.inr rfl)
          all_goals cases b <;> cases h
        · cases op <;> first | contradiction | (cases a <;> cases h)
      · cases op <;> cases a <;> cases b <;> cases h

end Instr

namespace Exec

variable {m m' : Machine} {fault : Fault} {addr : UInt32}

/-- An instruction with suitable operands fails in its effect only. -/
theorem perform_eq_error {i : Instr UInt32} (hsuited : i.Suited)
    (h : perform addr i m = .error fault m') : fault.IsEffect := by
  have haccess : Accessing (perform addr i) → fault.IsEffect := fun ha => .inl (ha m fault m' h)
  cases hsuited with
  | alu hcode hplace => exact haccess (accessing_alu hcode hplace addr)
  | mov hplace => exact haccess (accessing_mov hplace addr)
  | branch hop target => exact haccess (accessing_branch hop target addr)
  | call target =>
      exact haccess ((accessing_read target).bind fun _ => accessing_get.bind fun _ =>
        (accessing_push _).bind fun _ => accessing_modify _)
  | int v =>
      by_cases hv : v = Abi.syscallVector
      · subst hv
        exact haccess accessing_syscall
      · have hperform : perform addr ⟨.int, [.imm v]⟩ =
            throw (.unhandledInterrupt addr (byteOfInt v)) := if_neg hv
        rw [hperform] at h
        cases h
        exact .inr ⟨_, _, rfl⟩
  | push src => exact haccess ((accessing_read src).bind fun _ => accessing_push _)
  | pop hplace => exact haccess (accessing_pop.bind fun _ => accessing_write _ hplace _)
  | pusha => exact haccess (accessing_perform .pusha addr)
  | popa => exact haccess (accessing_perform .popa addr)
  | ret => exact haccess (accessing_perform .ret addr)

/-- A step fails because there is no instruction, or because of the effect of one. -/
theorem step_eq_error (h : step m = .error fault m') :
    fault.IsMalformed ∨ (∃ addr, fault = .truncatedInstruction addr) ∨ fault.IsEffect := by
  rw [step_run] at h
  have hcases := decode_cases (m.memory.fetch m.eip maxInstructionLength) m.eip
  split at h
  · cases h
    exact .inr (.inr (.inl (.inl ⟨_, rfl⟩)))
  split at h
  next f hdecode =>
    cases h
    rcases hcases with ⟨i, front, rest, hbytes, hfound⟩ | ⟨f, hcause, herror, -⟩
    · rw [hbytes, hfound.reads] at hdecode
      cases hdecode
    · rw [hdecode] at herror
      cases herror
      rcases hcause with hcause | rfl
      · exact .inl hcause
      · exact .inr (.inl ⟨_, rfl⟩)
  next i length hdecode =>
    rcases hcases with ⟨j, front, rest, hbytes, hfound⟩ | ⟨f, -, herror, -⟩
    · rw [hbytes, hfound.reads] at hdecode
      cases hdecode
      -- what has an encoding has operands that suit it, so only its effect can fail
      obtain ⟨-, bytes, hencode, -⟩ := hfound.canonical
      rcases action_bind_eq_error.mp h with herror | ⟨_, _, -, herror⟩
      · exact .inr (.inr (perform_eq_error (Instr.suited_of_encode hencode) herror))
      · cases herror
    · rw [hdecode] at herror
      cases herror

/-- No step comes to operands that cannot be performed. -/
theorem step_ne_invalidOperands (h : step m = .error fault m') (op : Mnemonic) :
    fault ≠ .invalidOperands addr op := by
  rintro rfl
  obtain h | ⟨_, h⟩ | (⟨_, h⟩ | ⟨_, h⟩) | ⟨_, _, h⟩ := step_eq_error h
  · exact h
  all_goals cases h

end Exec

/-! ### What decoding finds -/

/-- An instruction that is found depends on its own bytes only. -/
theorem Found.decode_eq_of_take {addr : UInt32} {i : Instr UInt32} {front rest other : Bytes}
    (h : Found addr i front)
    (hother : other.take front.length = (front ++ rest).take front.length) :
    decode other addr = .ok (i, front.length) := by
  rw [List.take_left] at hother
  obtain ⟨tail, rfl⟩ : front <+: other := hother ▸ List.take_prefix _ _
  exact h.reads tail

/-- Decoding an instruction takes between one and ten bytes and looks at no others. What it
finds can be encoded in no more bytes than it was found in, and is found again in those. Less
of its bytes are reported as too few, the bytes behind the tenth do not matter to any outcome,
and a machine that performs what it has decoded never finds that the operands do not suit. -/
theorem decode_canonical (bytes : Bytes) (addr : UInt32) :
    (∀ i length, decode bytes addr = .ok (i, length) →
      1 ≤ length ∧ length ≤ min maxInstructionLength bytes.length ∧
      (∀ other, other.take length = bytes.take length → decode other addr = .ok (i, length)) ∧
      (∃ shortest, i.encode addr = .ok shortest ∧ shortest.length ≤ length ∧
        decode shortest addr = .ok (i, shortest.length)) ∧
      ∀ n < length, decode (bytes.take n) addr = .error (.truncatedInstruction addr)) ∧
    decode bytes addr = decode (bytes.take maxInstructionLength) addr ∧
    ∀ m fault m', Exec.step m = .error fault m' →
      ∀ place op, fault ≠ .invalidOperands place op := by
  refine ⟨?_, ?_, fun m fault m' h place op => Exec.step_ne_invalidOperands h op⟩
  · intro i length hdecode
    rcases decode_cases bytes addr with ⟨j, front, rest, rfl, hfound⟩ | ⟨f, -, herror, -⟩
    · rw [hfound.reads] at hdecode
      cases hdecode
      refine ⟨hfound.nonempty, ?_, fun other => hfound.decode_eq_of_take,
        hfound.canonical.exists_shortest, fun n hn => ?_⟩
      · rw [List.length_append]
        exact Nat.le_min.mpr ⟨hfound.fits, Nat.le_add_right _ _⟩
      · rw [List.take_append_of_le_length (Nat.le_of_lt hn)]
        refine hfound.short _ (List.take_prefix n front) fun heq => ?_
        have hlength := congrArg List.length heq
        rw [List.length_take] at hlength
        omega
    · rw [hdecode] at herror
      cases herror
  · rcases decode_cases bytes addr with ⟨j, front, rest, rfl, hfound⟩ | ⟨f, -, herror, htake⟩
    · rw [List.take_append, List.take_of_length_le hfound.fits, hfound.reads, hfound.reads]
    · rw [herror, htake]

/-- An addition with an immediate that is wider than it has to be, and a byte behind it. -/
theorem decode_canonical_wide_immediate :
    decode [0x81, 0xC0, 5, 0, 0, 0, 0x90] 0 = .ok (⟨.add, [.reg .eax, .imm 5]⟩, 6) ∧
      ∃ shortest, (⟨.add, [.reg .eax, .imm 5]⟩ : Instr UInt32).encode 0 = .ok shortest ∧
        shortest.length ≤ 6 ∧
        decode shortest 0 = .ok (⟨.add, [.reg .eax, .imm 5]⟩, shortest.length) :=
  have hdecode : decode [0x81, 0xC0, 5, 0, 0, 0, 0x90] 0 =
      .ok (⟨.add, [.reg .eax, .imm 5]⟩, 6) := by rfl
  have ⟨_, _, _, hshortest, _⟩ :=
    (decode_canonical [0x81, 0xC0, 5, 0, 0, 0, 0x90] 0).1 _ _ hdecode
  ⟨hdecode, hshortest⟩

end Ia32

import Ia32.Proofs.Machine.Fetching
import Ia32.Proofs.Machine.Flags
import Ia32.Proofs.Machine.Stack

/-!
# Comparisons and the jumps behind them

Sums, differences and comparisons take their operands from registers, memory or the instruction
itself, where an immediate of one byte stands for the same word as one of four. Whichever form it
has, an instruction that finds its operands succeeds, and the flags that it leaves decide later
jumps by the order of the two words.
-/

namespace Ia32

open Word

/-- The word of four bytes that memory holds. -/
theorem Memory.read32_of_hasBytes {mem : Memory} {addr : UInt32} {b0 b1 b2 b3 : UInt8}
    (h : mem.HasBytes addr [b0, b1, b2, b3]) :
    mem.read32 addr = .ok (Word.ofBytes b0 b1 b2 b3) := by
  have h2 : addr + 1 + 1 = addr + 2 := UInt32.add_assoc addr 1 1
  have h3 : addr + 2 + 1 = addr + 3 := UInt32.add_assoc addr 2 1
  obtain ⟨hb0, hb1, hb2, hb3, -⟩ := h
  rw [h2] at hb2 hb3
  rw [h3] at hb3
  simp only [read32, read8, hb0, hb1, hb2, hb3, ok_bind]
  rfl

namespace Machine

/-- The machine with a word in a register or in memory. -/
def assign (m : Machine) (dst : Operand UInt32) (w : UInt32) : Machine :=
  match dst with
  | .reg r => m.set r w
  | .mem place => m.poke (m.address place) w
  | _ => m

/-- Instructions can store into registers and memory. -/
def IsWritable (dst : Operand UInt32) : Prop :=
  dst.shape = .reg ∨ dst.shape = .mem

variable {m : Machine} {dst : Operand UInt32} {a : UInt32}

theorem mappedFrom_of_value {place : Mem} (h : m.value (.mem place) = .ok a) :
    m.memory.MappedFrom (m.address place) 4 :=
  (Memory.read32_eq_ok.mp h).1

/-- What is stored in a place is its value, as long as the place is there. -/
theorem value_assign (hdst : IsWritable dst) (ha : m.value dst = .ok a) (w : UInt32) :
    (m.assign dst w).value dst = .ok w := by
  cases dst with
  | reg r => exact congrArg Except.ok (m.get_set_self r w)
  | mem place =>
      have hplace : (m.poke (m.address place) w).address place = m.address place := by
        rw [address, address, get_poke]
      have hmapped := mappedFrom_of_value ha
      change (m.poke (m.address place) w).memory.read32
        ((m.poke (m.address place) w).address place) = .ok w
      rw [hplace, memory_poke]
      apply Memory.read32_eq_ok.mpr
      exact ⟨hmapped.same (Memory.isMapped_put _ _ _), (Memory.wordAt_put hmapped w).symm⟩
  | imm v => rcases hdst with h | h <;> cases h
  | label l => rcases hdst with h | h <;> cases h

@[simp]
theorem value_withFlags (flags : Flags) (src : Operand UInt32) :
    (m.withFlags flags).value src = m.value src := by
  cases src <;> rfl

@[simp]
theorem flags_assign (w : UInt32) : (m.assign dst w).flags = m.flags := by
  cases dst <;> simp only [assign, poke, flags_set]

end Machine

namespace Exec

open Machine

variable {m : Machine} {dst src target : Operand UInt32} {a b w addr : UInt32} {op : Mnemonic}
variable {bytes : Bytes}

/-! ### Performing -/

theorem write_of_value (fault : Fault) (hdst : IsWritable dst) (ha : m.value dst = .ok a)
    (w : UInt32) (flags : Flags) :
    write fault dst w (m.withFlags flags) = .ok () ((m.withFlags flags).assign dst w) := by
  cases dst with
  | reg r => exact write_reg_eq_ok.mpr rfl
  | mem place => exact write_mem_eq_ok.mpr ⟨mappedFrom_of_value ha, rfl⟩
  | imm v => rcases hdst with h | h <;> cases h
  | label l => rcases hdst with h | h <;> cases h

/-- A sum or difference of operands that have values is stored. -/
theorem perform_alu (hop : op = .add ∨ op = .sub) (hdst : IsWritable dst) (ha : m.value dst = .ok a)
    (hb : m.value src = .ok b) :
    perform addr ⟨op, [dst, src]⟩ m =
      .ok () ((m.withFlags (alu op a b).2).assign dst (alu op a b).1) := by
  have hperform : perform addr ⟨op, [dst, src]⟩ m = (read dst >>= fun a => read src >>= fun b =>
      (modify fun m' : Machine => { m' with flags := (alu op a b).2 }) >>= fun _ =>
        write (.invalidOperands addr op) dst (alu op a b).1) m := by
    rcases hop with rfl | rfl <;> rfl
  rw [hperform]
  exact action_bind_eq_ok.mpr ⟨a, m, read_eq_ok.mpr ⟨ha, rfl⟩,
    action_bind_eq_ok.mpr ⟨b, m, read_eq_ok.mpr ⟨hb, rfl⟩,
      action_bind_eq_ok.mpr ⟨(), _, rfl, write_of_value _ hdst ha _ _⟩⟩⟩

/-- A comparison of operands that have values sets the flags of their difference. -/
theorem perform_cmp (ha : m.value dst = .ok a) (hb : m.value src = .ok b) :
    perform addr ⟨.cmp, [dst, src]⟩ m = .ok () (m.withFlags (Flags.sub a b).2) := by
  have hperform : perform addr ⟨.cmp, [dst, src]⟩ m = (read dst >>= fun a => read src >>= fun b =>
      modify fun m' : Machine => { m' with flags := (Flags.sub a b).2 }) m := rfl
  rw [hperform]
  exact action_bind_eq_ok.mpr ⟨a, m, read_eq_ok.mpr ⟨ha, rfl⟩,
    action_bind_eq_ok.mpr ⟨b, m, read_eq_ok.mpr ⟨hb, rfl⟩, rfl⟩⟩

/-- Every conditional jump reads its target where its condition holds. -/
theorem perform_conditional (hop : op.condition.isSome) (target : Operand UInt32) :
    perform addr ⟨op, [target]⟩ = (do
      if (← get).flags.holds op then jump (← read target)) := by
  cases op <;> first | rfl | cases hop

/-- A conditional jump whose target has a value is taken or not, and never fails. -/
theorem perform_conditional_of_value (hop : op.condition.isSome) (hw : m.value target = .ok w) :
    perform addr ⟨op, [target]⟩ m = .ok () (if m.flags.holds op then m.goto w else m) := by
  rw [perform_conditional hop]
  change (if m.flags.holds op then read target >>= jump else pure ()) m = _
  split
  · exact action_bind_eq_ok.mpr ⟨w, m, read_eq_ok.mpr ⟨hw, rfl⟩, rfl⟩
  · rfl

/-! ### Fetching and decoding -/

/-- Where memory holds the encoding of an instruction that succeeds, a step performs it. -/
theorem step_of_perform {i : Instr UInt32} {m' : Machine} (hencode : i.encode m.eip = .ok bytes)
    (hbytes : m.memory.HasBytes m.eip bytes)
    (hnormal : perform m.eip i.normalize = perform m.eip i)
    (hperform : perform m.eip i (m.past bytes.length) = .ok () m') :
    step m = .ok (m.eip, i.normalize) m' := by
  rw [step_eq_of_normal hnormal hencode hbytes (Instr.length_encode_le hencode)]
  exact action_bind_eq_ok.mpr ⟨(), m', hperform, rfl⟩

/-- The destination of an arithmetic instruction that encodes can be written to. -/
theorem isWritable_of_encode {code : AluCode} (hcode : op.alu = some code)
    (h : (⟨op, [dst, src]⟩ : Instr UInt32).encode addr = .ok bytes) : IsWritable dst := by
  have hsuited := Instr.suited_of_encode h
  cases hsuited with
  | alu _ hdst => exact hdst
  | mov hdst => exact hdst

theorem normalize_of_isWritable (h : IsWritable dst) : dst.normalize false = dst := by
  cases dst with
  | imm v => rcases h with h | h <;> cases h
  | label l => rcases h with h | h <;> cases h
  | _ => rfl

theorem perform_normalize_alu {code : AluCode} (hcode : op.alu = some code)
    (hdst : IsWritable dst) :
    perform addr (Instr.normalize ⟨op, [dst, src]⟩) = perform addr ⟨op, [dst, src]⟩ := by
  have hargs : Instr.normalize ⟨op, [dst, src]⟩ = ⟨op, [dst, src.normalize false]⟩ := by
    rw [Instr.normalize, Decoder.isBranch_eq_false_of_alu hcode]
    simp only [List.map_cons, List.map_nil, normalize_of_isWritable hdst]
  have hread := read_normalize false src
  rw [hargs]
  cases op <;> cases hcode
  case add | sub =>
    change (read dst >>= fun _ => read (src.normalize false) >>= _) = _
    rw [hread]
    rfl
  case cmp =>
    change (read dst >>= fun _ => read (src.normalize false) >>= _) = _
    rw [hread]
    rfl

theorem perform_normalize_conditional (hop : op.condition.isSome) :
    perform addr (Instr.normalize ⟨op, [target]⟩) = perform addr ⟨op, [target]⟩ := by
  have hbranch : op.isBranch = true := by cases op <;> first | rfl | cases hop
  have hargs : Instr.normalize ⟨op, [target]⟩ = ⟨op, [target.normalize true]⟩ := by
    rw [Instr.normalize, hbranch]
    rfl
  rw [hargs, perform_conditional hop, perform_conditional hop, read_normalize]

end Exec

/-! ### Jumps by the order of words -/

/-- On a machine with such flags every conditional jump succeeds, and it is taken exactly if two
words are in the order that it asks for. -/
def Flags.Orders (flags : Flags) (a b : UInt32) : Prop :=
  ∀ (m : Machine) (op : Mnemonic) (target : Operand UInt32) (bytes : Bytes) (goal : UInt32),
    m.flags = flags → op.condition.isSome →
    (⟨op, [target]⟩ : Instr UInt32).encode m.eip = .ok bytes → m.memory.HasBytes m.eip bytes →
    m.value target = .ok goal →
    ∃ seen m', Exec.step m = .ok seen m' ∧
      (op.Asks a b → m' = (m.past bytes.length).goto goal) ∧
      (¬op.Asks a b → m' = m.past bytes.length)

/-- The flags of a difference of two words tell their order. -/
theorem Flags.orders_sub (a b : UInt32) : (Flags.sub a b).2.Orders a b := by
  intro m op target bytes goal hflags hop hencode hbytes hgoal
  have hperform : Exec.perform m.eip ⟨op, [target]⟩ (m.past bytes.length) = .ok () _ :=
    Exec.perform_conditional_of_value hop ((m.value_past _ _).trans hgoal)
  have hstep :=
    Exec.step_of_perform hencode hbytes (Exec.perform_normalize_conditional hop) hperform
  have hholds : (m.past bytes.length).flags.holds op = true ↔ op.Asks a b := by
    rw [← holds_sub_iff, ← hflags]
    rfl
  refine ⟨_, _, hstep, fun hasks => if_pos (hholds.mpr hasks), fun hasks => if_neg fun h => ?_⟩
  exact hasks (hholds.mp h)

namespace Machine

/-- What a sum, a difference or a comparison leaves of the machine: it is past the instruction
with other flags, and a sum or a difference is in its first operand. -/
structure Computed (m : Machine) (op : Mnemonic) (dst : Operand UInt32) (length : Nat)
    (result : UInt32) (m' : Machine) : Prop where
  compared : op = .cmp → m' = (m.past length).withFlags m'.flags
  stored : op ≠ .cmp →
    m'.value dst = .ok result ∧ m' = ((m.past length).withFlags m'.flags).assign dst result

/-- An arithmetic instruction that stands at the instruction pointer computes what its operands
give. -/
theorem exists_computed {m : Machine} {op : Mnemonic} (hop : op.alu.isSome)
    {dst src : Operand UInt32} {bytes : Bytes} {a b : UInt32}
    (hencode : (⟨op, [dst, src]⟩ : Instr UInt32).encode m.eip = .ok bytes)
    (hbytes : m.memory.HasBytes m.eip bytes) (ha : m.value dst = .ok a) (hb : m.value src = .ok b) :
    ∃ seen m', Exec.step m = .ok seen m' ∧ m'.flags = (Exec.alu op a b).2 ∧
      m.Computed op dst bytes.length (Exec.alu op a b).1 m' := by
  obtain ⟨code, hcode⟩ := Option.isSome_iff_exists.mp hop
  have hdst := Exec.isWritable_of_encode hcode hencode
  have hnormal := @Exec.perform_normalize_alu dst src m.eip op code hcode hdst
  have ha' : (m.past bytes.length).value dst = .ok a := (m.value_past _ _).trans ha
  have hb' : (m.past bytes.length).value src = .ok b := (m.value_past _ _).trans hb
  by_cases hcmp : op = .cmp
  · subst hcmp
    have hstep := Exec.step_of_perform hencode hbytes hnormal (Exec.perform_cmp ha' hb')
    exact ⟨_, _, hstep, rfl, fun _ => rfl, fun h => absurd rfl h⟩
  · have hstores : op = .add ∨ op = .sub := by
      cases op <;> cases hcode
      case cmp => exact absurd rfl hcmp
      case add => exact .inl rfl
      case sub => exact .inr rfl
    have hstep := Exec.step_of_perform hencode hbytes hnormal
      (Exec.perform_alu hstores hdst ha' hb')
    have hflags := @flags_assign ((m.past bytes.length).withFlags (Exec.alu op a b).2) dst
      (Exec.alu op a b).1
    have hvalue : ((m.past bytes.length).withFlags (Exec.alu op a b).2).value dst = .ok a :=
      (value_withFlags _ _).trans ha'
    refine ⟨_, _, hstep, hflags, fun h => absurd h hcmp, fun _ => ⟨value_assign hdst hvalue _, ?_⟩⟩
    rw [hflags]
    rfl

/-- Wherever the two operands of a sum, a difference or a comparison come from, the instruction
succeeds if they have values. Behind a difference or a comparison every conditional jump is taken
exactly if the values are in the order that it asks for, as numbers with a sign, and the carry
tells the order without a sign. Behind a sum the carry and the overflow tell that the sum leaves
the range of numbers without and with a sign, and the other flags describe the word that is
stored. -/
theorem flags_agree {m : Machine} {op : Mnemonic} (hop : op.alu.isSome) {dst src : Operand UInt32}
    {bytes : Bytes} {a b : UInt32}
    (hencode : (⟨op, [dst, src]⟩ : Instr UInt32).encode m.eip = .ok bytes)
    (hbytes : m.memory.HasBytes m.eip bytes) (ha : m.value dst = .ok a) (hb : m.value src = .ok b) :
    ∃ seen m' result, Exec.step m = .ok seen m' ∧ m.Computed op dst bytes.length result m' ∧
      (op ≠ .add → result = a - b ∧ m'.flags.Orders a b ∧
        (m'.flags.carry = true ↔ a.toNat < b.toNat)) ∧
      (op = .add → result.toNat = (a.toNat + b.toNat) % 4294967296 ∧
        (m'.flags.carry = true ↔ 4294967296 ≤ a.toNat + b.toNat) ∧
        (m'.flags.overflow = true ↔ ¬Fits (toSigned a + toSigned b)) ∧
        (m'.flags.zero = true ↔ result = 0) ∧ (m'.flags.sign = true ↔ toSigned result < 0)) := by
  obtain ⟨seen, m', hstep, hflags, hcomputed⟩ := exists_computed hop hencode hbytes ha hb
  refine ⟨seen, m', _, hstep, hcomputed, fun hne => ?_, fun hadd => ?_⟩
  · have halu : Exec.alu op a b = Flags.sub a b := if_neg hne
    rw [hflags, halu]
    exact ⟨rfl, Flags.orders_sub a b, Flags.sub_carry_iff a b⟩
  · have halu : Exec.alu op a b = Flags.add a b := if_pos hadd
    rw [hflags, halu]
    exact ⟨UInt32.toNat_add a b, Flags.add_carry_iff a b, Flags.add_overflow_iff a b,
      Flags.add_zero_iff a b, Flags.add_sign_iff a b⟩

/-- A machine about to compare a word of its memory with an immediate of one byte, and to jump
if the word is greater. -/
def comparing : Machine where
  regs := { ebp := 0x100E }
  eip := 0x1000
  flags := {}
  -- cmp [ebp-4], -3; jg 0x2000; and the word 0x7FFFFFFF
  memory := (({} : Memory).map 0x1000 14).put 0x1000
    ([0x83, 0x7D, 0xFC, 0xFD] ++ ([0x0F, 0x8F, 0xF6, 0x0F, 0x00, 0x00] ++ [0xFF, 0xFF, 0xFF, 0x7F]))
  output := #[]
  exit := none
  steps := 0

/-- The difference overflows, and still the jump is taken. -/
theorem flags_agree_comparing : ∃ seen m' seen' m'', Exec.step comparing = .ok seen m' ∧
    m'.flags.carry = true ∧ Exec.step m' = .ok seen' m'' ∧ m''.eip = 0x2000 := by
  have hstored : comparing.memory.HasBytes 0x1000 _ :=
    Memory.hasBytes_put (by decide) fun a hlow hhigh => Memory.isMapped_map hlow hhigh
  rw [Memory.hasBytes_append, Memory.hasBytes_append] at hstored
  obtain ⟨hcompare, hjump, hword⟩ := hstored
  have hvalue : comparing.value (.mem ⟨.ebp, -4⟩) = .ok 0x7FFFFFFF :=
    Memory.read32_of_hasBytes hword
  obtain ⟨seen, m', result, hstep, hcomputed, hordered, -⟩ :=
    @flags_agree comparing .cmp rfl (.mem ⟨.ebp, -4⟩) (.imm (-3)) _ _ _ (by decide) hcompare
      hvalue rfl
  obtain ⟨-, horders, hcarry⟩ := hordered (by decide)
  have hm' := hcomputed.compared rfl
  have heip : m'.eip = 0x1004 := by rw [hm']; rfl
  have hmemory : m'.memory = comparing.memory := by rw [hm']; rfl
  obtain ⟨seen', m'', hstep', htaken, -⟩ := horders m' .jg (.label 0x2000)
    [0x0F, 0x8F, 0xF6, 0x0F, 0x00, 0x00] 0x2000 rfl rfl (by rw [heip]; rfl)
    (by rw [heip, hmemory]; exact hjump) rfl
  have hgreater : Mnemonic.jg.Asks 0x7FFFFFFF (ofInt (-3)) := by
    rw [Mnemonic.Asks]
    decide
  refine ⟨seen, m', seen', m'', hstep, hcarry.mpr (by decide), hstep', ?_⟩
  rw [htaken hgreater]
  rfl

end Machine

end Ia32

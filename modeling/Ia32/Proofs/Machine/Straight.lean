import Ia32.Proofs.Instruction.Size
import Ia32.Proofs.Machine.Execution

/-!
# Instructions one after another

Code without jumps is executed from its first byte to its last. A machine `Faces` such code if
the encodings of the instructions lie in its memory at the instruction pointer; performing the
first instruction leaves a machine that faces the others.
-/

namespace Ia32

namespace Instr

variable {L : Type}

/-- The bytes of instructions placed one behind the other from an address on. -/
def encodeAll : UInt32 → List (Instr UInt32) → Except EncodingError Bytes
  | _, [] => .ok []
  | addr, i :: rest => do
      let first ← i.encode addr
      let others ← encodeAll (addr + UInt32.ofNat first.length) rest
      return first ++ others

/-- Instructions that have sizes can be placed at every address. -/
theorem exists_encodeAll {is : List (Instr L)} (h : ∀ i ∈ is, ∃ n, i.size = .ok n)
    (f : L → UInt32) (addr : UInt32) :
    ∃ bytes, encodeAll addr (is.map (resolve f)) = .ok bytes := by
  induction is generalizing addr with
  | nil => exact ⟨[], rfl⟩
  | cons i rest ih =>
      obtain ⟨⟨n, hsize⟩, hrest⟩ := List.forall_mem_cons.mp h
      have hagrees := i.encode_agrees f addr
      rw [hsize] at hagrees
      obtain ⟨first, hfirst, -⟩ := hagrees.length
      obtain ⟨others, hothers⟩ := ih hrest (addr + UInt32.ofNat first.length)
      exact ⟨first ++ others, bind_eq_ok.mpr ⟨first, hfirst, bind_eq_ok.mpr ⟨others, hothers, rfl⟩⟩⟩

/-- Fetching gets whole instructions. -/
theorem length_encode_le {i : Instr UInt32} {addr : UInt32} {bytes : Bytes}
    (h : i.encode addr = .ok bytes) : bytes.length ≤ maxInstructionLength := by
  have hself : i.resolve id = i := by
    have hargs : i.args.map (Operand.resolve id) = i.args.map id :=
      List.map_congr_left fun a _ => by cases a <;> rfl
    rw [resolve, hargs, List.map_id]
  have hagrees := i.encode_agrees id addr
  rw [hself, h] at hagrees
  cases hsize : i.size with
  | error e =>
      rw [hsize] at hagrees
      exact hagrees.elim
  | ok n =>
      rw [hsize] at hagrees
      exact (Nat.le_of_eq hagrees).trans (size_bounds hsize).2

end Instr

/-- Executes some instructions. -/
def Exec.steps : Nat → Exec Unit
  | 0 => return
  | n + 1 => do
      let _ ← step
      steps n

namespace Machine

/-- The machine behind some instructions that take the given length in all. -/
def behind (m : Machine) (count length : Nat) : Machine :=
  { m with eip := m.eip + UInt32.ofNat length, steps := m.steps + count }

theorem behind_zero (m : Machine) : m.behind 0 0 = m := by
  have heip : m.eip + UInt32.ofNat 0 = m.eip := UInt32.add_zero _
  rw [behind, heip]
  rfl

theorem set_get_self (m : Machine) (r : Reg) : m.set r (m.get r) = m := by
  have hregs : m.regs.set r (m.regs.get r) = m.regs := by cases r <;> rfl
  rw [set, get, hregs]

/-- A change of a register and the flags is lost behind the next one. -/
theorem set_behind_set (m : Machine) (r : Reg) (length count length' : Nat) (flags flags' : Flags)
    (x y : UInt32) :
    ((((((m.past length).withFlags flags).set r x).behind count length').withFlags
        flags').set r y) =
      ((m.behind (count + 1) (length + length')).withFlags flags').set r y := by
  have heip : m.eip + UInt32.ofNat length + UInt32.ofNat length' =
      m.eip + UInt32.ofNat (length + length') := by
    rw [UInt32.ofNat_add, UInt32.add_assoc]
  have hregs : (m.regs.set r x).set r y = m.regs.set r y := by cases r <;> rfl
  have hsteps : m.steps + 1 + count = m.steps + (count + 1) := by omega
  simp only [past, behind, withFlags, set, heip, hregs, hsteps]

/-- Instructions with the given bytes come next. -/
structure Faces (m : Machine) (is : List (Instr UInt32)) (bytes : Bytes) : Prop where
  encoded : Instr.encodeAll m.eip is = .ok bytes
  stored : m.memory.HasBytes m.eip bytes

variable {m : Machine} {i : Instr UInt32} {rest : List (Instr UInt32)} {bytes : Bytes}

theorem Faces.eq_nil (h : m.Faces [] bytes) : bytes = [] := by
  cases h.encoded
  rfl

/-- The first instruction is performed. The others come next, if memory still holds them. -/
theorem Faces.advance (h : m.Faces (i :: rest) bytes) (hexec : i.Executable) :
    ∃ first others, bytes = first ++ others ∧
      ∀ m', Exec.perform m.eip i (m.past first.length) = .ok () m' →
        (∀ n, Exec.steps (n + 1) m = Exec.steps n m') ∧
          (m'.eip = m.eip + UInt32.ofNat first.length → m'.memory = m.memory →
            m'.Faces rest others) := by
  obtain ⟨first, hfirst, hbehind⟩ := bind_eq_ok.mp h.encoded
  obtain ⟨others, hothers, hbytes⟩ := bind_eq_ok.mp hbehind
  cases hbytes
  obtain ⟨hstored, hmore⟩ := Memory.hasBytes_append.mp h.stored
  refine ⟨first, others, rfl, fun m' hperform => ⟨fun n => ?_, fun heip hmemory => ⟨?_, ?_⟩⟩⟩
  · have hstep := Exec.step_eq_ok hexec hfirst hstored (Instr.length_encode_le hfirst) hperform
    change EStateM.bind Exec.step _ m = _
    rw [EStateM.bind, hstep]
  · rw [heip]
    exact hothers
  · rw [heip, hmemory]
    exact hmore

/-- A value is loaded into a register. -/
theorem Faces.load {r : Reg} {src : Operand UInt32} {w : UInt32}
    (h : m.Faces (⟨.mov, [.reg r, src]⟩ :: rest) bytes) (hw : m.value src = .ok w) :
    ∃ first others, bytes = first ++ others ∧
      ((m.past first.length).set r w).Faces rest others ∧
      ∀ n, Exec.steps (n + 1) m = Exec.steps n ((m.past first.length).set r w) := by
  obtain ⟨first, others, hbytes, hnext⟩ := h.advance (.load r src)
  have hvalue : (m.past first.length).value src = .ok w := by cases src <;> exact hw
  obtain ⟨hsteps, hrest⟩ := hnext _ (Exec.perform_mov_reg.mpr ⟨w, hvalue, rfl⟩)
  exact ⟨first, others, hbytes, hrest rfl rfl, hsteps⟩

/-- A number is added to a register. -/
theorem Faces.add {r : Reg} {v : Int} (h : m.Faces (⟨.add, [.reg r, .imm v]⟩ :: rest) bytes) :
    ∃ first others flags, bytes = first ++ others ∧
      (((m.past first.length).withFlags flags).set r (m.get r + Word.ofInt v)).Faces rest others ∧
      ∀ n, Exec.steps (n + 1) m =
        Exec.steps n (((m.past first.length).withFlags flags).set r (m.get r + Word.ofInt v)) := by
  obtain ⟨first, others, hbytes, hnext⟩ := h.advance (.add r (.imm v))
  obtain ⟨hsteps, hrest⟩ := hnext _ ((Exec.perform_alu_reg (.inl rfl)).mpr ⟨_, rfl, rfl⟩)
  exact ⟨first, others, _, hbytes, hrest rfl rfl, hsteps⟩

end Machine

end Ia32

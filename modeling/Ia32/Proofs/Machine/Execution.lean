import Ia32.Machine.Run
import Ia32.Proofs.Instruction.Decoding
import Ia32.Proofs.Machine.Memory

/-!
# Effects of instructions

For every instruction that compiled code uses: when it succeeds and which machine it
leaves. The ways in which one can fail are few, and a run is a chain of steps that
succeed.
-/

namespace Ia32

/-! ### Parts of a machine -/

namespace Machine

variable (m : Machine)

/-- The machine with a word stored in its memory. -/
def poke (addr value : UInt32) : Machine :=
  { m with memory := m.memory.put addr (Word.toBytes value) }

/-- The machine behind an instruction of the given length, which it has begun. -/
def past (length : Nat) : Machine :=
  { m with eip := m.eip + UInt32.ofNat length, steps := m.steps + 1 }

/-- The machine with other flags. -/
def withFlags (flags : Flags) : Machine :=
  { m with flags := flags }

/-- The machine at another address. -/
def goto (addr : UInt32) : Machine :=
  { m with eip := addr }

/-- The value of an operand. -/
def value : Operand UInt32 → Except Fault UInt32
  | .reg r => .ok (m.get r)
  | .mem place => m.memory.read32 (m.address place)
  | .imm v => .ok (Word.ofInt v)
  | .label addr => .ok addr

@[simp]
theorem get_set_self (r : Reg) (value : UInt32) : (m.set r value).get r = value :=
  m.regs.get_set_self r value

@[simp]
theorem get_set_of_ne {r s : Reg} (value : UInt32) (h : s ≠ r) :
    (m.set r value).get s = m.get s :=
  m.regs.get_set_of_ne value h

@[simp]
theorem memory_set (r : Reg) (value : UInt32) : (m.set r value).memory = m.memory := rfl

@[simp]
theorem eip_set (r : Reg) (value : UInt32) : (m.set r value).eip = m.eip := rfl

@[simp]
theorem flags_set (r : Reg) (value : UInt32) : (m.set r value).flags = m.flags := rfl

@[simp]
theorem output_set (r : Reg) (value : UInt32) : (m.set r value).output = m.output := rfl

@[simp]
theorem exit_set (r : Reg) (value : UInt32) : (m.set r value).exit = m.exit := rfl

@[simp]
theorem get_poke (addr value : UInt32) (r : Reg) : (m.poke addr value).get r = m.get r := by
  simp only [poke, get]

@[simp]
theorem memory_poke (addr value : UInt32) :
    (m.poke addr value).memory = m.memory.put addr (Word.toBytes value) := by
  simp only [poke]

@[simp]
theorem eip_poke (addr value : UInt32) : (m.poke addr value).eip = m.eip := by
  simp only [poke]

@[simp]
theorem output_poke (addr value : UInt32) : (m.poke addr value).output = m.output := by
  simp only [poke]

@[simp]
theorem exit_poke (addr value : UInt32) : (m.poke addr value).exit = m.exit := by
  simp only [poke]

@[simp]
theorem get_past (length : Nat) (r : Reg) : (m.past length).get r = m.get r := rfl

@[simp]
theorem memory_past (length : Nat) : (m.past length).memory = m.memory := rfl

@[simp]
theorem eip_past (length : Nat) : (m.past length).eip = m.eip + UInt32.ofNat length := rfl

@[simp]
theorem output_past (length : Nat) : (m.past length).output = m.output := rfl

@[simp]
theorem exit_past (length : Nat) : (m.past length).exit = m.exit := rfl

@[simp]
theorem value_past (length : Nat) (a : Operand UInt32) : (m.past length).value a = m.value a := by
  cases a <;> rfl

@[simp]
theorem get_withFlags (flags : Flags) (r : Reg) : (m.withFlags flags).get r = m.get r := rfl

@[simp]
theorem memory_withFlags (flags : Flags) : (m.withFlags flags).memory = m.memory := rfl

@[simp]
theorem eip_withFlags (flags : Flags) : (m.withFlags flags).eip = m.eip := rfl

@[simp]
theorem flags_withFlags (flags : Flags) : (m.withFlags flags).flags = flags := rfl

@[simp]
theorem output_withFlags (flags : Flags) : (m.withFlags flags).output = m.output := rfl

@[simp]
theorem exit_withFlags (flags : Flags) : (m.withFlags flags).exit = m.exit := rfl

@[simp]
theorem get_goto (addr : UInt32) (r : Reg) : (m.goto addr).get r = m.get r := rfl

@[simp]
theorem memory_goto (addr : UInt32) : (m.goto addr).memory = m.memory := rfl

@[simp]
theorem eip_goto (addr : UInt32) : (m.goto addr).eip = addr := rfl

@[simp]
theorem flags_goto (addr : UInt32) : (m.goto addr).flags = m.flags := rfl

@[simp]
theorem output_goto (addr : UInt32) : (m.goto addr).output = m.output := rfl

@[simp]
theorem exit_goto (addr : UInt32) : (m.goto addr).exit = m.exit := rfl

end Machine

namespace Exec

variable {m m' : Machine} {u : Unit}

/-! ### Parts of an instruction -/

/-- An action that gives a value and leaves a known machine, and what is done with the value. -/
theorem bind_eq_ok_of {α β : Type} {x : Exec α} {f : α → Exec β} {value : α → Prop} {t : Machine}
    (hx : ∀ {a t'}, x m = .ok a t' ↔ value a ∧ t' = t) {b : β} :
    (x >>= f) m = .ok b m' ↔ ∃ a, value a ∧ f a t = .ok b m' := by
  simp only [action_bind_eq_ok, hx]
  constructor
  · rintro ⟨a, t', ⟨ha, rfl⟩, hf⟩
    exact ⟨a, ha, hf⟩
  · rintro ⟨a, ha, hf⟩
    exact ⟨a, t, ⟨ha, rfl⟩, hf⟩

theorem load_eq (addr : UInt32) (m : Machine) :
    load addr m = match m.memory.read32 addr with
      | .ok w => .ok w m
      | .error fault => .error fault m := by
  change (match m.memory.read32 addr with
    | .ok w => (pure w : Exec UInt32)
    | .error fault => throw fault) m = _
  cases m.memory.read32 addr <;> rfl

/-- A load reads a word and changes nothing. -/
theorem load_eq_ok {addr w : UInt32} :
    load addr m = .ok w m' ↔ m.memory.read32 addr = .ok w ∧ m' = m := by
  rw [load_eq]
  cases m.memory.read32 addr with
  | error fault => simp
  | ok w => simp [eq_comm]

theorem read_eq_ok {a : Operand UInt32} {w : UInt32} :
    read a m = .ok w m' ↔ m.value a = .ok w ∧ m' = m := by
  cases a with
  | mem place => exact @load_eq_ok m m' (m.address place) w
  | reg r =>
      change EStateM.Result.ok (m.get r) m = _ ↔ _
      simp [Machine.value, eq_comm]
  | imm v =>
      change EStateM.Result.ok (Word.ofInt v) m = _ ↔ _
      simp [Machine.value, eq_comm]
  | label addr =>
      change EStateM.Result.ok addr m = _ ↔ _
      simp [Machine.value, eq_comm]

/-- A store succeeds exactly where the four bytes are mapped, and writes them. -/
theorem store_eq_ok {addr value : UInt32} :
    store addr value m = .ok u m' ↔ m.memory.MappedFrom addr 4 ∧ m' = m.poke addr value := by
  obtain ⟨regs, eip, flags, memory, output, exit, steps⟩ := m
  unfold store
  dsimp only
  split
  next mem hwrite =>
    obtain ⟨hmapped, rfl⟩ := Memory.write_eq_ok.mp hwrite
    constructor
    · intro h
      cases h
      exact ⟨hmapped, rfl⟩
    · rintro ⟨-, rfl⟩
      rfl
  next mem fault hwrite =>
    have hunmapped : ¬memory.MappedFrom addr 4 := by
      intro hmapped
      have hok : memory.write32 addr value = (_, .ok ()) := Memory.write_eq_ok.mpr ⟨hmapped, rfl⟩
      rw [hok] at hwrite
      cases hwrite
    simp [hunmapped]

/-- A write to a register always succeeds. -/
theorem write_reg_eq_ok {fault : Fault} {r : Reg} {value : UInt32} :
    write fault (.reg r) value m = .ok u m' ↔ m' = m.set r value := by
  change EStateM.Result.ok () (m.set r value) = _ ↔ _
  simp [eq_comm]

theorem jump_eq_ok {addr : UInt32} : jump addr m = .ok u m' ↔ m' = m.goto addr := by
  change EStateM.Result.ok () (m.goto addr) = _ ↔ _
  simp [eq_comm]

/-- A write to memory is a store at the address of the place. -/
theorem write_mem_eq_ok {fault : Fault} {place : Mem} {value : UInt32} :
    write fault (.mem place) value m = .ok u m' ↔
      m.memory.MappedFrom (m.address place) 4 ∧ m' = m.poke (m.address place) value :=
  store_eq_ok

/-- A push stores below the stack pointer and moves it there. -/
theorem push_eq_ok {value : UInt32} :
    push value m = .ok u m' ↔ m.memory.MappedFrom (m.get .esp - 4) 4 ∧
      m' = (m.poke (m.get .esp - 4) value).set .esp (m.get .esp - 4) := by
  have hpush : push value m =
      (store (m.get .esp - 4) value >>= fun _ => setReg .esp (m.get .esp - 4)) m := rfl
  rw [hpush, action_bind_eq_ok]
  constructor
  · rintro ⟨_, t, hstore, hset⟩
    obtain ⟨hmapped, rfl⟩ := store_eq_ok.mp hstore
    cases hset
    exact ⟨hmapped, rfl⟩
  · rintro ⟨hmapped, rfl⟩
    exact ⟨(), _, store_eq_ok.mpr ⟨hmapped, rfl⟩, rfl⟩

/-- A pop reads at the stack pointer and moves it behind the word. -/
theorem pop_eq_ok {w : UInt32} :
    pop m = .ok w m' ↔
      m.memory.read32 (m.get .esp) = .ok w ∧ m' = m.set .esp (m.get .esp + 4) := by
  have hpop : pop m = (load (m.get .esp) >>= fun w =>
      setReg .esp (m.get .esp + 4) >>= fun _ => pure w) m := rfl
  rw [hpop, bind_eq_ok_of load_eq_ok]
  constructor
  · rintro ⟨w, hread, hset⟩
    cases hset
    exact ⟨hread, rfl⟩
  · rintro ⟨hread, rfl⟩
    exact ⟨w, hread, rfl⟩

/-! ### Instructions -/

variable {addr : UInt32}

/-- A move to a register sets it to the value of the source. -/
theorem perform_mov_reg {r : Reg} {src : Operand UInt32} :
    perform addr ⟨.mov, [.reg r, src]⟩ m = .ok u m' ↔
      ∃ w, m.value src = .ok w ∧ m' = m.set r w := by
  change (read src >>= write _ (.reg r)) m = _ ↔ _
  simp only [bind_eq_ok_of read_eq_ok, write_reg_eq_ok]

/-- A move to memory stores the value of the source. -/
theorem perform_mov_mem {place : Mem} {src : Operand UInt32} :
    perform addr ⟨.mov, [.mem place, src]⟩ m = .ok u m' ↔
      ∃ w, m.value src = .ok w ∧ m.memory.MappedFrom (m.address place) 4 ∧
        m' = m.poke (m.address place) w := by
  change (read src >>= write _ (.mem place)) m = _ ↔ _
  simp only [bind_eq_ok_of read_eq_ok, write_mem_eq_ok]

/-- The result and the flags of an addition or a subtraction. -/
def alu (op : Mnemonic) (a b : UInt32) : UInt32 × Flags :=
  if op = .add then Flags.add a b else Flags.sub a b

/-- An addition or subtraction in a register sets the register and the flags. -/
theorem perform_alu_reg {op : Mnemonic} (hop : op = .add ∨ op = .sub) {r : Reg}
    {src : Operand UInt32} :
    perform addr ⟨op, [.reg r, src]⟩ m = .ok u m' ↔ ∃ w, m.value src = .ok w ∧
      m' = (m.withFlags (alu op (m.get r) w).2).set r (alu op (m.get r) w).1 := by
  have hperform : perform addr ⟨op, [.reg r, src]⟩ m = (read src >>= fun w =>
      (modify fun m' : Machine => { m' with flags := (alu op (m.get r) w).2 }) >>= fun _ =>
        setReg r (alu op (m.get r) w).1) m := by
    rcases hop with rfl | rfl <;> rfl
  rw [hperform, bind_eq_ok_of read_eq_ok]
  refine exists_congr fun w => and_congr_right fun _ => ⟨fun hset => ?_, fun hset => ?_⟩
  · cases hset
    rfl
  · rw [hset]
    rfl

/-- A comparison sets the flags of the difference and nothing else. -/
theorem perform_cmp_reg {r : Reg} {src : Operand UInt32} :
    perform addr ⟨.cmp, [.reg r, src]⟩ m = .ok u m' ↔ ∃ w, m.value src = .ok w ∧
      m' = m.withFlags (Flags.sub (m.get r) w).2 := by
  have hperform : perform addr ⟨.cmp, [.reg r, src]⟩ m = (read src >>= fun w =>
      modify fun m' : Machine => { m' with flags := (Flags.sub (m.get r) w).2 }) m := rfl
  rw [hperform, bind_eq_ok_of read_eq_ok]
  refine exists_congr fun w => and_congr_right fun _ => ⟨fun hflags => ?_, fun hflags => ?_⟩
  · cases hflags
    rfl
  · rw [hflags]
    rfl

/-- A jump is taken or not, and never fails. -/
theorem perform_jump {op : Mnemonic} (hop : op = .jmp ∨ op = .je ∨ op = .jge) (target : UInt32)
    (m : Machine) :
    perform addr ⟨op, [.label target]⟩ m =
      .ok () (if m.flags.holds op then m.goto target else m) := by
  rcases hop with rfl | rfl | rfl
  · rfl
  · change (if m.flags.holds .je then jump target else pure ()) m = _
    split <;> rfl
  · change (if m.flags.holds .jge then jump target else pure ()) m = _
    split <;> rfl

/-- A call pushes the address behind it and goes to its target. -/
theorem perform_call {target : UInt32} :
    perform addr ⟨.call, [.label target]⟩ m = .ok u m' ↔ m.memory.MappedFrom (m.get .esp - 4) 4 ∧
      m' = ((m.poke (m.get .esp - 4) m.eip).set .esp (m.get .esp - 4)).goto target := by
  change (push m.eip >>= fun _ => jump target) m = _ ↔ _
  simp only [action_bind_eq_ok, push_eq_ok]
  constructor
  · rintro ⟨_, t, ⟨hmapped, rfl⟩, hjump⟩
    cases hjump
    exact ⟨hmapped, rfl⟩
  · rintro ⟨hmapped, rfl⟩
    exact ⟨(), _, ⟨hmapped, rfl⟩, rfl⟩

theorem perform_push_reg {r : Reg} :
    perform addr ⟨.push, [.reg r]⟩ m = .ok u m' ↔ m.memory.MappedFrom (m.get .esp - 4) 4 ∧
      m' = (m.poke (m.get .esp - 4) (m.get r)).set .esp (m.get .esp - 4) := by
  change push (m.get r) m = _ ↔ _
  exact push_eq_ok

theorem perform_pop_reg {r : Reg} :
    perform addr ⟨.pop, [.reg r]⟩ m = .ok u m' ↔ ∃ w, m.memory.read32 (m.get .esp) = .ok w ∧
      m' = (m.set .esp (m.get .esp + 4)).set r w := by
  change (pop >>= write _ (.reg r)) m = _ ↔ _
  simp only [bind_eq_ok_of pop_eq_ok, write_reg_eq_ok]

/-- A return goes to the address on top of the stack. -/
theorem perform_ret :
    perform addr ⟨.ret, []⟩ m = .ok u m' ↔ ∃ w, m.memory.read32 (m.get .esp) = .ok w ∧
      m' = (m.set .esp (m.get .esp + 4)).goto w := by
  change (pop >>= jump) m = _ ↔ _
  simp only [bind_eq_ok_of pop_eq_ok, jump_eq_ok]

theorem perform_int (m : Machine) :
    perform addr ⟨.int, [.imm Abi.syscallVector]⟩ m = syscall m := rfl

/-- What a system call does, by its number. -/
theorem syscall_eq (m : Machine) : syscall m =
    if (m.get .eax).toNat = Abi.sysExit then
      .ok () { m with exit := some (Word.toSigned (m.get .ebx)) }
    else if (m.get .eax).toNat = Abi.sysWrite then
      match m.memory.read (m.get .ebx) (m.get .ecx).toNat with
      | .error fault => .error fault m
      | .ok bytes => .ok () ({ m with output := m.output ++ bytes }.set .eax (m.get .ecx))
    else if (m.get .eax).toNat = Abi.sysGetpid then .ok () (m.set .eax 1)
    else .error (.unknownSyscall (m.get .eax)) m := by
  have hsyscall : syscall m = (if (m.get .eax).toNat = Abi.sysExit then
        modify fun m' : Machine => { m' with exit := some (Word.toSigned (m.get .ebx)) }
      else if (m.get .eax).toNat = Abi.sysWrite then do
        match (← get).memory.read (m.get .ebx) (m.get .ecx).toNat with
        | .error fault => throw fault
        | .ok bytes =>
            modify fun m' : Machine => { m' with output := m'.output ++ bytes }
            setReg Abi.syscallNumber (m.get .ecx)
      else if (m.get .eax).toNat = Abi.sysGetpid then setReg Abi.syscallNumber 1
      else throw (.unknownSyscall (m.get .eax)) : Exec Unit) m := rfl
  rw [hsyscall]
  split
  · rfl
  split
  · change (match m.memory.read (m.get .ebx) (m.get .ecx).toNat with
      | .error fault => (throw fault : Exec Unit)
      | .ok bytes => do
          modify fun m' : Machine => { m' with output := m'.output ++ bytes }
          setReg Abi.syscallNumber (m.get .ecx)) m = _
    cases m.memory.read (m.get .ebx) (m.get .ecx).toNat <;> rfl
  split
  · rfl
  · rfl

/-! ### All registers at once -/

/-- The words on top of the stack of a machine that had some words pushed, the last one
first; below them everything is as before. -/
structure Pushed (m : Machine) (words : List UInt32) (m' : Machine) : Prop where
  esp : (m'.get .esp).toNat + 4 * words.length = (m.get .esp).toNat
  others : m' = { m.set .esp (m'.get .esp) with memory := m'.memory }
  memory : Memory.SameOutside (m'.get .esp).toNat (m.get .esp).toNat m.memory m'.memory
  words : m'.memory.WordsAt (m'.get .esp) words

theorem Pushed.nil (m : Machine) : Pushed m [] m :=
  ⟨rfl, by cases m with | mk regs => cases regs; rfl, .refl _ _ _, trivial⟩

theorem Pushed.get {words : List UInt32} (h : Pushed m words m') {r : Reg} (hr : r ≠ .esp) :
    m'.get r = m.get r := by
  rw [h.others]
  exact Machine.get_set_of_ne m _ hr

/-- One more word is pushed on top of those that are there. -/
theorem Pushed.push {words : List UInt32} {m'' : Machine} {w : UInt32} (h : Pushed m words m')
    (hroom : 4 * (words.length + 1) ≤ (m.get .esp).toNat)
    (hpush : Exec.push w m' = .ok u m'') : Pushed m (w :: words) m'' := by
  obtain ⟨hmapped, rfl⟩ := push_eq_ok.mp hpush
  have hesp := h.esp
  have hlt := (m.get .esp).toNat_lt
  have hnat : (m'.get .esp - 4).toNat = (m'.get .esp).toNat - 4 :=
    @Memory.toNat_sub_of_le (m'.get .esp) 4 (by omega)
  have hsame := @Memory.sameOutside_put_word m'.memory (m'.get .esp - 4) (by omega) w
  have hback : m'.get .esp - 4 + 4 = m'.get .esp := UInt32.sub_add_cancel _ _
  refine ⟨?_, ?_, ?_, ?_⟩
  · rw [Machine.get_set_self, List.length_cons]
    omega
  · rw [Machine.get_set_self]
    conv => lhs; rw [h.others]
    cases m with | mk regs => cases regs; rfl
  · rw [Machine.get_set_self]
    exact (h.memory.mono (by omega) (Nat.le_refl _)).trans (hsame.mono (by omega) (by omega))
  · rw [Machine.get_set_self]
    refine ⟨Memory.read32_eq_ok.mpr ⟨?_, ?_⟩, ?_⟩
    · exact hmapped.same hsame.isMapped
    · exact (Memory.wordAt_put hmapped w).symm
    · rw [hback]
      exact h.words.same hsame (.inr (by omega)) (by omega)

theorem pushRegs_cons (r : Reg) (rs : List Reg) (m : Machine) :
    pushRegs (r :: rs) m = (push (m.get r) >>= fun _ => pushRegs rs) m := rfl

/-- Registers are pushed one after the other, hence lie in reverse order. -/
theorem Pushed.pushRegs {words : List UInt32} {m'' : Machine} {rs : List Reg}
    (h : Pushed m words m') (hrs : .esp ∉ rs)
    (hroom : 4 * (words.length + rs.length) ≤ (m.get .esp).toNat)
    (hpush : Exec.pushRegs rs m' = .ok u m'') :
    Pushed m ((rs.map m.get).reverse ++ words) m'' := by
  induction rs generalizing words m' with
  | nil =>
      cases hpush
      exact h
  | cons r rs ih =>
      rw [pushRegs_cons] at hpush
      obtain ⟨_, t, hfirst, hrest⟩ := action_bind_eq_ok.mp hpush
      rw [h.get fun heq => hrs (heq ▸ List.mem_cons_self)] at hfirst
      have hlength : (r :: rs).length = rs.length + 1 := rfl
      have hnext := ih (h.push (by omega) hfirst) (fun hmem => hrs (List.mem_cons_of_mem _ hmem))
        (by rw [List.length_cons]; omega) hrest
      rwa [List.map_cons, List.reverse_cons, List.append_assoc]

/-- A push succeeds as long as the stack has room above its mapped end. -/
theorem Pushed.exists_push {words : List UInt32} {low : Nat} (h : Pushed m words m')
    (hmapped : ∀ a : UInt32, low ≤ a.toNat → a.toNat < (m.get .esp).toNat →
      m.memory.isMapped a = true)
    (hroom : low + 4 * (words.length + 1) ≤ (m.get .esp).toNat) (w : UInt32) :
    ∃ m'', Exec.push w m' = .ok () m'' ∧ Pushed m (w :: words) m'' := by
  have hesp := h.esp
  have hlt := (m.get .esp).toNat_lt
  have hnat : (m'.get .esp - 4).toNat = (m'.get .esp).toNat - 4 :=
    @Memory.toNat_sub_of_le (m'.get .esp) 4 (by omega)
  have hpush : Exec.push w m' = .ok () _ := push_eq_ok.mpr
    ⟨Memory.mappedFrom_of_isMapped (by omega) fun a hlow hhigh =>
      (h.memory.isMapped a).trans (hmapped a (by omega) (by omega)), rfl⟩
  exact ⟨_, hpush, h.push (by omega) hpush⟩

theorem Pushed.exists_pushRegs {words : List UInt32} {low : Nat} {rs : List Reg}
    (h : Pushed m words m')
    (hmapped : ∀ a : UInt32, low ≤ a.toNat → a.toNat < (m.get .esp).toNat →
      m.memory.isMapped a = true)
    (hroom : low + 4 * (words.length + rs.length) ≤ (m.get .esp).toNat) :
    ∃ m'', Exec.pushRegs rs m' = .ok () m'' := by
  induction rs generalizing words m' with
  | nil => exact ⟨m', rfl⟩
  | cons r rs ih =>
      have hlength : (r :: rs).length = rs.length + 1 := rfl
      obtain ⟨t, hpush, hpushed⟩ := h.exists_push hmapped (by omega) (m'.get r)
      obtain ⟨m'', hrest⟩ := ih hpushed (by rw [List.length_cons]; omega)
      rw [pushRegs_cons]
      exact ⟨m'', action_bind_eq_ok.mpr ⟨(), t, hpush, hrest⟩⟩

/-- The registers as `pusha` leaves them on the stack, from the top. -/
def savedOrder : List Reg := [.edi, .esi, .ebp, .esp, .ebx, .edx, .ecx, .eax]

theorem perform_pusha_eq (m : Machine) : perform addr ⟨.pusha, []⟩ m =
    (pushRegs [.eax, .ecx, .edx, .ebx] >>= fun _ => push (m.get .esp) >>= fun _ =>
      pushRegs [.ebp, .esi, .edi]) m := rfl

/-- The eight registers lie below the old stack pointer, in the order they were saved in. -/
theorem pushed_of_pusha (hroom : 32 ≤ (m.get .esp).toNat)
    (h : perform addr ⟨.pusha, []⟩ m = .ok u m') : Pushed m (savedOrder.map m.get) m' := by
  rw [perform_pusha_eq] at h
  obtain ⟨_, t, hfirst, h⟩ := action_bind_eq_ok.mp h
  obtain ⟨_, t', hmiddle, hlast⟩ := action_bind_eq_ok.mp h
  have hfirst := (Pushed.nil m).pushRegs (by decide) (by simp; omega) hfirst
  have hmiddle := hfirst.push (by simp; omega) hmiddle
  exact hmiddle.pushRegs (by decide) (by simp; omega) hlast

/-- Saving the registers succeeds where the stack has room for eight words. -/
theorem exists_pusha {low : Nat}
    (hmapped : ∀ a : UInt32, low ≤ a.toNat → a.toNat < (m.get .esp).toNat →
      m.memory.isMapped a = true) (hroom : low + 32 ≤ (m.get .esp).toNat) :
    ∃ m', perform addr ⟨.pusha, []⟩ m = .ok () m' := by
  obtain ⟨t, hfirst⟩ := @Pushed.exists_pushRegs m m [] low [.eax, .ecx, .edx, .ebx] (.nil m) hmapped
    (by simp; omega)
  have hpushed := (Pushed.nil m).pushRegs (by decide) (by simp; omega) hfirst
  obtain ⟨t', hmiddle, hpushed⟩ := hpushed.exists_push hmapped (by simp; omega) (m.get .esp)
  obtain ⟨m', hlast⟩ := @Pushed.exists_pushRegs m t' _ low [.ebp, .esi, .edi] hpushed hmapped
    (by simp; omega)
  rw [perform_pusha_eq]
  exact ⟨m', action_bind_eq_ok.mpr ⟨(), t, hfirst, action_bind_eq_ok.mpr ⟨(), t', hmiddle, hlast⟩⟩⟩

/-- The machine with words popped into registers. -/
def popped (m : Machine) : List Reg → List UInt32 → Machine
  | r :: rs, w :: ws => popped ((m.set .esp (m.get .esp + 4)).set r w) rs ws
  | _, _ => m

/-- Registers are popped off the words on top of the stack, and the rest of them stays. -/
theorem popRegs_eq {rs : List Reg} {ws more : List UInt32} (hlength : rs.length = ws.length)
    (hrs : .esp ∉ rs) (h : m.memory.WordsAt (m.get .esp) (ws ++ more)) :
    popRegs rs m = .ok () (popped m rs ws) ∧
      (popped m rs ws).memory.WordsAt ((popped m rs ws).get .esp) more := by
  induction rs generalizing m ws with
  | nil =>
      obtain rfl := List.eq_nil_of_length_eq_zero hlength.symm
      exact ⟨rfl, h⟩
  | cons r rs ih =>
      obtain ⟨w, ws, rfl⟩ := List.exists_cons_of_length_eq_add_one hlength.symm
      obtain ⟨hread, hmore⟩ := h
      have hr : .esp ≠ r := fun heq => hrs (heq ▸ List.mem_cons_self)
      have hesp : ((m.set .esp (m.get .esp + 4)).set r w).get .esp = m.get .esp + 4 := by
        rw [Machine.get_set_of_ne _ _ hr, Machine.get_set_self]
      obtain ⟨hpop, hwords⟩ := @ih ((m.set .esp (m.get .esp + 4)).set r w) ws
        (Nat.succ.inj hlength) (fun hmem => hrs (List.mem_cons_of_mem _ hmem))
        (by rw [hesp]; exact hmore)
      refine ⟨?_, hwords⟩
      change (pop >>= fun w => setReg r w >>= fun _ => popRegs rs) m = _
      exact action_bind_eq_ok.mpr ⟨w, _, pop_eq_ok.mpr ⟨hread, rfl⟩,
        action_bind_eq_ok.mpr ⟨(), _, rfl, hpop⟩⟩

theorem perform_popa_eq (m : Machine) : perform addr ⟨.popa, []⟩ m =
    (popRegs [.edi, .esi, .ebp] >>= fun _ => pop >>= fun _ =>
      popRegs [.ebx, .edx, .ecx, .eax]) m := rfl

/-- `popa` loads every register but the stack pointer from the stack. -/
theorem perform_popa {eax ecx edx ebx esp ebp esi edi : UInt32}
    (h : m.memory.WordsAt (m.get .esp) [edi, esi, ebp, esp, ebx, edx, ecx, eax]) :
    perform addr ⟨.popa, []⟩ m =
      .ok () { m with regs := ⟨eax, ecx, edx, ebx, m.get .esp + 32, ebp, esi, edi⟩ } := by
  have hsum : m.get .esp + 32 = m.get .esp + 4 + 4 + 4 + 4 + 4 + 4 + 4 + 4 := by
    simp only [UInt32.add_assoc]
    rfl
  obtain ⟨hfirst, hread, hmore⟩ := @popRegs_eq m [.edi, .esi, .ebp] [edi, esi, ebp]
    [esp, ebx, edx, ecx, eax] rfl (by decide) h
  obtain ⟨t, ht⟩ : ∃ t, t = popped m [.edi, .esi, .ebp] [edi, esi, ebp] := ⟨_, rfl⟩
  rw [← ht] at hfirst hread hmore
  have hpop : pop t = .ok esp (t.set .esp (t.get .esp + 4)) := pop_eq_ok.mpr ⟨hread, rfl⟩
  have hlast := (@popRegs_eq (t.set .esp (t.get .esp + 4)) [.ebx, .edx, .ecx, .eax]
    [ebx, edx, ecx, eax] [] rfl (by decide) (by rw [Machine.get_set_self]; exact hmore)).1
  rw [perform_popa_eq, action_bind_eq_ok]
  refine ⟨(), t, hfirst, action_bind_eq_ok.mpr ⟨esp, _, hpop, hlast.trans ?_⟩⟩
  simp only [Machine.get, Registers.get] at hsum
  simp only [ht, popped, Machine.set, Machine.get, Registers.set, Registers.get, hsum]

/-! ### Failures -/

end Exec

/-- The faults of programs that keep to the instructions: an address without memory, or a
system call that does not exist. -/
def Fault.IsAccess (fault : Fault) : Prop :=
  (∃ addr, fault = .unmapped addr) ∨ ∃ number, fault = .unknownSyscall number

/-- The instructions of compiled programs, whose operands suit them. -/
inductive Instr.Executable {L : Type} : Instr L → Prop
  | load (r : Reg) (src : Operand L) : Executable ⟨.mov, [.reg r, src]⟩
  | save (place : Mem) (src : Operand L) : Executable ⟨.mov, [.mem place, src]⟩
  | add (r : Reg) (src : Operand L) : Executable ⟨.add, [.reg r, src]⟩
  | sub (r : Reg) (src : Operand L) : Executable ⟨.sub, [.reg r, src]⟩
  | cmp (r : Reg) (src : Operand L) : Executable ⟨.cmp, [.reg r, src]⟩
  | jump {op : Mnemonic} (hop : op = .jmp ∨ op = .je ∨ op = .jge) (target : L) :
      Executable ⟨op, [.label target]⟩
  | call (target : L) : Executable ⟨.call, [.label target]⟩
  | ret : Executable ⟨.ret, []⟩
  | push (r : Reg) : Executable ⟨.push, [.reg r]⟩
  | pop (r : Reg) : Executable ⟨.pop, [.reg r]⟩
  | pusha : Executable ⟨.pusha, []⟩
  | popa : Executable ⟨.popa, []⟩
  | trap : Executable ⟨.int, [.imm Abi.syscallVector]⟩

/-- Which operands can be executed does not depend on the targets of labels. -/
theorem Instr.Executable.resolve {L M : Type} {i : Instr L} (h : i.Executable) (f : L → M) :
    (i.resolve f).Executable := by
  cases h with
  | load r src => exact .load r _
  | save place src => exact .save place _
  | add r src => exact .add r _
  | sub r src => exact .sub r _
  | cmp r src => exact .cmp r _
  | jump hop target => exact .jump hop _
  | call target => exact .call _
  | ret => exact .ret
  | push r => exact .push r
  | pop r => exact .pop r
  | pusha => exact .pusha
  | popa => exact .popa
  | trap => exact .trap

namespace Exec

variable {m m' : Machine} {u : Unit} {addr : UInt32} {α β : Type}

/-- Actions that fail in an access only. -/
def Accessing (x : Exec α) : Prop :=
  ∀ m fault m', x m = .error fault m' → fault.IsAccess

/-- A sequence of actions that fail in an access only does too. -/
theorem Accessing.bind {x : Exec α} {f : α → Exec β} (hx : Accessing x)
    (hf : ∀ a, Accessing (f a)) : Accessing (x >>= f) := by
  intro m fault m' h
  rcases action_bind_eq_error.mp h with herror | ⟨a, t, -, herror⟩
  · exact hx _ _ _ herror
  · exact hf a _ _ _ herror

/-- An action that never fails does not fail otherwise. -/
theorem accessing_of_ok {x : Exec α} (h : ∀ m, ∃ a m', x m = .ok a m') : Accessing x := by
  intro m fault m' herror
  obtain ⟨a, t, hok⟩ := h m
  rw [hok] at herror
  cases herror

theorem accessing_setReg (r : Reg) (value : UInt32) : Accessing (setReg r value) :=
  accessing_of_ok fun _ => ⟨_, _, rfl⟩

theorem accessing_getReg (r : Reg) : Accessing (getReg r) :=
  accessing_of_ok fun _ => ⟨_, _, rfl⟩

theorem accessing_get : Accessing (get : Exec Machine) :=
  accessing_of_ok fun _ => ⟨_, _, rfl⟩

theorem accessing_modify (f : Machine → Machine) : Accessing (modify f : Exec Unit) :=
  accessing_of_ok fun _ => ⟨_, _, rfl⟩

theorem accessing_pure (a : α) : Accessing (pure a : Exec α) :=
  accessing_of_ok fun _ => ⟨_, _, rfl⟩

theorem accessing_load (addr : UInt32) : Accessing (load addr) := by
  intro m fault m' h
  rw [load_eq] at h
  cases hread : m.memory.read32 addr with
  | ok w =>
      rw [hread] at h
      cases h
  | error f =>
      rw [hread] at h
      cases h
      exact .inl (Memory.read32_eq_error hread)

theorem accessing_store (addr value : UInt32) : Accessing (store addr value) := by
  intro m fault m' h
  obtain ⟨regs, eip, flags, memory, output, exit, steps⟩ := m
  unfold store at h
  dsimp only at h
  split at h
  · cases h
  next hwrite =>
    cases h
    exact .inl (Memory.write_eq_error hwrite)

theorem accessing_read (a : Operand UInt32) : Accessing (read a) := by
  cases a with
  | reg r => exact accessing_getReg r
  | mem place => exact accessing_get.bind fun _ => accessing_load _
  | imm v => exact accessing_pure _
  | label addr => exact accessing_pure _

theorem accessing_push (value : UInt32) : Accessing (push value) :=
  (accessing_getReg _).bind fun _ => (accessing_store _ _).bind fun _ => accessing_setReg _ _

theorem accessing_pop : Accessing pop :=
  (accessing_getReg _).bind fun _ => (accessing_load _).bind fun _ =>
    (accessing_setReg _ _).bind fun _ => accessing_pure _

theorem accessing_pushRegs (rs : List Reg) : Accessing (pushRegs rs) := by
  induction rs with
  | nil => exact accessing_pure _
  | cons r rs ih => exact (accessing_getReg _).bind fun _ => (accessing_push _).bind fun _ => ih

theorem accessing_popRegs (rs : List Reg) : Accessing (popRegs rs) := by
  induction rs with
  | nil => exact accessing_pure _
  | cons r rs ih => exact accessing_pop.bind fun _ => (accessing_setReg _ _).bind fun _ => ih

/-- A system call fails in an access only. -/
theorem accessing_syscall : Accessing syscall := by
  intro m fault m' h
  rw [syscall_eq] at h
  split at h
  · cases h
  split at h
  · split at h
    next hread =>
      cases h
      exact .inl (Memory.read_eq_error hread)
    next => cases h
  split at h
  · cases h
  · cases h
    exact .inr ⟨_, rfl⟩

/-- An instruction with suitable operands fails in an access only. -/
theorem accessing_perform {i : Instr UInt32} (h : i.Executable) (addr : UInt32) :
    Accessing (perform addr i) := by
  have halu (r : Reg) (src : Operand UInt32) (f : UInt32 → UInt32 → UInt32 × Flags) :
      Accessing (do
        let a ← read (.reg r)
        let b ← read src
        modify fun m : Machine => { m with flags := (f a b).2 }
        setReg r (f a b).1) :=
    (accessing_read _).bind fun _ => (accessing_read _).bind fun _ =>
      (accessing_modify _).bind fun _ => accessing_setReg _ _
  cases h with
  | load r src => exact (accessing_read src).bind fun _ => accessing_setReg _ _
  | save place src =>
      exact (accessing_read src).bind fun _ => accessing_get.bind fun _ => accessing_store _ _
  | add r src => exact halu r src Flags.add
  | sub r src => exact halu r src Flags.sub
  | cmp r src =>
      exact (accessing_getReg r).bind fun _ => (accessing_read src).bind fun _ => accessing_modify _
  | jump hop target => exact accessing_of_ok fun m => ⟨_, _, perform_jump hop target m⟩
  | call target =>
      exact (accessing_read (.label target)).bind fun _ => accessing_get.bind fun _ =>
        (accessing_push _).bind fun _ => accessing_modify _
  | ret => exact accessing_pop.bind fun _ => accessing_modify _
  | push r => exact (accessing_getReg r).bind fun _ => accessing_push _
  | pop r => exact accessing_pop.bind fun _ => accessing_setReg _ _
  | pusha =>
      exact (accessing_getReg _).bind fun _ => (accessing_pushRegs _).bind fun _ =>
        (accessing_push _).bind fun _ => accessing_pushRegs _
  | popa =>
      exact (accessing_popRegs _).bind fun _ => accessing_pop.bind fun _ => accessing_popRegs _
  | trap => exact accessing_syscall

/-! ### Steps -/

/-- A normalized operand reads as the same word. -/
theorem read_normalize (isTarget : Bool) (a : Operand UInt32) :
    read (a.normalize isTarget) = read a := by
  cases a with
  | reg r => rfl
  | mem place => rfl
  | imm v =>
      cases isTarget with
      | false => exact congrArg (pure · : UInt32 → Exec UInt32) (Word.ofInt_wrap v)
      | true => rfl
  | label addr =>
      cases isTarget with
      | false => exact congrArg (pure · : UInt32 → Exec UInt32) (Word.ofInt_toSigned addr)
      | true => rfl

/-- Decoding may spell an instruction in another way, with the same effect. -/
theorem perform_normalize {i : Instr UInt32} (h : i.Executable) (addr : UInt32) :
    perform addr i.normalize = perform addr i := by
  cases h with
  | load r src => 
      change (read (src.normalize false) >>= fun w => setReg r w) =
        (read src >>= fun w => setReg r w)
      rw [read_normalize]
  | save place src =>
      change (read (src.normalize false) >>= _) = _
      rw [read_normalize]
      rfl
  | add r src =>
      change (getReg r >>= fun _ => read (src.normalize false) >>= _) = _
      rw [read_normalize]
      rfl
  | sub r src =>
      change (getReg r >>= fun _ => read (src.normalize false) >>= _) = _
      rw [read_normalize]
      rfl
  | cmp r src =>
      change (getReg r >>= fun _ => read (src.normalize false) >>= _) = _
      rw [read_normalize]
      rfl
  | jump hop target => rcases hop with rfl | rfl | rfl <;> rfl
  | _ => rfl

/-- A step fetches, decodes and performs. -/
theorem step_run (m : Machine) :
    step m = (if (m.memory.fetch m.eip maxInstructionLength).isEmpty then
      .error (.unmapped m.eip) m
    else match decode (m.memory.fetch m.eip maxInstructionLength) m.eip with
      | .error fault => .error fault m
      | .ok (i, length) => (perform m.eip i >>= fun _ => pure (m.eip, i)) (m.past length)) := by
  change (if (m.memory.fetch m.eip maxInstructionLength).isEmpty then
      (throw (.unmapped m.eip) : Exec (UInt32 × Instr UInt32))
    else match decode (m.memory.fetch m.eip maxInstructionLength) m.eip with
      | .error fault => throw fault
      | .ok (i, length) => do
          modify fun m' : Machine =>
            { m' with eip := m.eip + UInt32.ofNat length, steps := m'.steps + 1 }
          perform m.eip i
          return (m.eip, i)) m = _
  split
  · rfl
  · cases decode (m.memory.fetch m.eip maxInstructionLength) m.eip <;> rfl

/-- Where memory holds the bytes of an instruction, a step performs it, if decoding does not
change its effect. -/
theorem step_eq_of_normal {i : Instr UInt32} {bytes : Bytes}
    (hnormal : perform m.eip i.normalize = perform m.eip i)
    (hencode : i.encode m.eip = .ok bytes) (hbytes : m.memory.HasBytes m.eip bytes)
    (hlength : bytes.length ≤ maxInstructionLength) :
    step m = (perform m.eip i >>= fun _ => pure (m.eip, i.normalize)) (m.past bytes.length) := by
  obtain ⟨suffix, hfetch⟩ := Memory.fetch_of_hasBytes hbytes hlength
  have hdecode := decode_of_instruction (Decoder.instruction_encode hencode suffix)
  rw [← hfetch] at hdecode
  have hfull : (m.memory.fetch m.eip maxInstructionLength).isEmpty = false := by
    cases hempty : m.memory.fetch m.eip maxInstructionLength with
    | nil =>
        rw [hempty] at hdecode
        cases hdecode
    | cons b rest => rfl
  rw [step_run, hfull, hdecode]
  change (perform m.eip i.normalize >>= fun _ => pure (m.eip, i.normalize))
    (m.past bytes.length) = _
  rw [hnormal]

/-- A step performs the instruction whose encoding stands at the instruction pointer, with the
pointer behind it. -/
theorem step_eq {i : Instr UInt32} {bytes : Bytes} (hexec : i.Executable)
    (hencode : i.encode m.eip = .ok bytes) (hbytes : m.memory.HasBytes m.eip bytes)
    (hlength : bytes.length ≤ maxInstructionLength) :
    step m = (perform m.eip i >>= fun _ => pure (m.eip, i.normalize)) (m.past bytes.length) :=
  step_eq_of_normal (perform_normalize hexec m.eip) hencode hbytes hlength

/-- A step succeeds as the instruction does. -/
theorem step_eq_ok {i : Instr UInt32} {bytes : Bytes} (hexec : i.Executable)
    (hencode : i.encode m.eip = .ok bytes) (hbytes : m.memory.HasBytes m.eip bytes)
    (hlength : bytes.length ≤ maxInstructionLength)
    (hperform : perform m.eip i (m.past bytes.length) = .ok u m') :
    step m = .ok (m.eip, i.normalize) m' := by
  rw [step_eq hexec hencode hbytes hlength]
  exact action_bind_eq_ok.mpr ⟨u, m', hperform, rfl⟩

end Exec

/-! ### Runs -/

namespace Machine

/-- One step of a process that has not ended. -/
def Steps (m m' : Machine) : Prop :=
  m.exit = none ∧ ∃ seen, Exec.step m = .ok seen m'

/-- Some steps of a process, the last of which may have ended it. -/
abbrev Reaches : Machine → Machine → Prop :=
  Relation.ReflTransGen Steps

theorem runSteps_of_exit {σ : Type} {observe : Observer σ} {limit left : Nat} {seen : σ}
    {m : Machine} {status : Int} (h : m.exit = some status) :
    runSteps observe limit left seen m = (.ok (m.outcome status), seen, m) := by
  cases left <;> simp only [runSteps, h]

/-- A process that ends when left alone ends within every number of steps that is large
enough. -/
theorem Reaches.exists_run {m m' : Machine} (h : Reaches m m') {status : Int}
    (hexit : m'.exit = some status) (hsteps : m.steps = 0) :
    ∃ bound, ∀ limit ≥ bound, (m.run limit).1 = .ok (m'.outcome status) := by
  have hrun : ∃ bound, ∀ left ≥ bound, ∀ limit, ∃ last,
      runSteps (fun seen _ _ _ => seen) limit left () m = (.ok (m'.outcome status), (), last) := by
    clear hsteps
    induction h using Relation.ReflTransGen.head_induction_on with
    | refl => exact ⟨0, fun left _ limit => ⟨m', runSteps_of_exit hexit⟩⟩
    | head hstep _ ih =>
        obtain ⟨hnone, seen, hstep⟩ := hstep
        obtain ⟨bound, hbound⟩ := ih
        refine ⟨bound + 1, fun left hleft limit => ?_⟩
        obtain ⟨left, rfl⟩ : ∃ k, left = k + 1 := ⟨left - 1, by omega⟩
        obtain ⟨last, hlast⟩ := hbound left (by omega) limit
        exact ⟨last, by simp only [runSteps, hnone, hstep]; exact hlast⟩
  obtain ⟨bound, hbound⟩ := hrun
  refine ⟨bound, fun limit hlimit => ?_⟩
  obtain ⟨last, hlast⟩ := hbound limit hlimit limit
  simp only [run, runWith, hsteps, Nat.sub_zero, hlast]

/-- A run without end fails at the step limit or where some step on the way fails. -/
theorem fault_of_runSteps {σ : Type} {observe : Observer σ} {limit left : Nat} {seen seen' : σ}
    {m last : Machine} {fault : Fault}
    (h : runSteps observe limit left seen m = (.error fault, seen', last)) :
    fault = .stepLimit limit ∨
      ∃ m', Reaches m m' ∧ m'.exit = none ∧ Exec.step m' = .error fault last := by
  induction left generalizing m seen with
  | zero =>
      rw [runSteps] at h
      split at h
      · cases h
      · cases h
        exact .inl rfl
  | succ left ih =>
      rw [runSteps] at h
      split at h
      · cases h
      next hexit =>
        split at h
        next hstep =>
          cases h
          exact .inr ⟨m, .refl, hexit, hstep⟩
        next addr i t hstep =>
          rcases ih h with hlimit | ⟨m', hreaches, hnone, hfail⟩
          · exact .inl hlimit
          · exact .inr ⟨m', .head ⟨hexit, _, hstep⟩ hreaches, hnone, hfail⟩

/-- A run fails at its limit, or in a step of a process that has not ended. -/
theorem fault_of_run {m : Machine} {limit : Nat} {fault : Fault}
    (h : (m.run limit).1 = .error fault) :
    fault = .stepLimit limit ∨
      ∃ m' last, Reaches m m' ∧ m'.exit = none ∧ Exec.step m' = .error fault last := by
  simp only [run, runWith] at h
  rcases hrun : runSteps (fun seen _ _ _ => seen) limit (limit - m.steps) () m
    with ⟨result, seen, last⟩
  rw [hrun] at h
  cases h
  rcases fault_of_runSteps hrun with hlimit | ⟨m', hreaches, hnone, hfail⟩
  · exact .inl hlimit
  · exact .inr ⟨m', last, hreaches, hnone, hfail⟩

end Machine

end Ia32

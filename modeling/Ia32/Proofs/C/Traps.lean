import Ia32.Proofs.C.Evaluation

/-!
# System calls keep the registers

A statement with a system call saves all registers, loads the arguments and the number, traps,
stores the result if it is asked for, and restores the registers. The accumulator holds values
while arguments are evaluated and the result behind the trap, and the scratch register holds the
pointer of an indirect store, but all of this happens between saving and restoring.
-/

namespace Ia32

/-- The result of a system call that does not end the process, and the bytes that it writes. -/
def Machine.answer? (m : Machine) : Option (UInt32 × Bytes) :=
  if (m.get .eax).toNat = Abi.sysWrite then
    match m.memory.read (m.get .ebx) (m.get .ecx).toNat with
    | .ok bytes => some (m.get .ecx, bytes)
    | .error _ => none
  else if (m.get .eax).toNat = Abi.sysGetpid then some (1, [])
  else none

/-- A system call that has a result leaves it in the accumulator. -/
theorem Exec.syscall_of_answer? {m : Machine} {result : UInt32} {written : Bytes}
    (h : m.answer? = some (result, written)) :
    syscall m = .ok () ({ m with output := m.output ++ written }.set .eax result) := by
  rw [syscall_eq]
  unfold Machine.answer? at h
  by_cases hwrite : (m.get .eax).toNat = Abi.sysWrite
  · rw [if_pos hwrite] at h
    rw [if_neg (by rw [hwrite]; decide), if_pos hwrite]
    split at h
    next bytes hread =>
      cases h
      rw [hread]
    next => cases h
  · rw [if_neg hwrite] at h
    split at h
    next hgetpid =>
      cases h
      rw [if_neg (by rw [hgetpid]; decide), if_neg hwrite, if_pos hgetpid, Array.appendList_nil]
    next => cases h

/-- A trap is executed. -/
theorem Machine.Ready.trap {changed : UInt32 → Prop} {m : Machine} {rest : List (Instr UInt32)}
    {result : UInt32} {written : Bytes}
    (h : m.Ready changed (⟨.int, [.imm Abi.syscallVector]⟩ :: rest))
    (hanswer : m.answer? = some (result, written)) :
    ∃ m', m.Executes changed [⟨.int, [.imm Abi.syscallVector]⟩] rest m' ∧
      (∀ r, r ≠ .eax → m'.get r = m.get r) ∧ m'.get .eax = result ∧ m'.memory = m.memory ∧
      m'.output = m.output ++ written ∧ m'.exit = m.exit := by
  obtain ⟨length, hexecute⟩ := h.execute (Exec.perform_normalize .trap m.eip)
  have hanswer' : (m.past length).answer? = some (result, written) := hanswer
  refine ⟨_, hexecute _ ((Exec.perform_int _).trans (Exec.syscall_of_answer? hanswer')) rfl
    (.refl _ _), fun r hr => Machine.get_set_of_ne _ _ hr, Machine.get_set_self _ _ _,
    rfl, rfl, rfl⟩

end Ia32

namespace Ia32.C

/-! ### The code of a system call -/

/-- The system call of a statement. -/
def Simple.trap? : Simple → Option Trap
  | .trap t | .declareWith _ _ (.trap t) | .assign _ (.trap t) | .storeThrough _ (.trap t) => some t
  | _ => none

/-- The place that a statement stores into. -/
def Simple.place? (frame : Frame) : Simple → Option Place
  | .declareWith _ name _ | .assign name _ => some (.slot (frame.slot name))
  | .storeThrough pointer _ => some (.pointee (frame.operand pointer))
  | _ => none

/-- The address of the word that a statement stores into. -/
def Simple.destination? (frame : Frame) (target : String → UInt32) (m : Machine) :
    Simple → Option UInt32
  | .declareWith _ name _ | .assign name _ => some (m.address (frame.slot name))
  | .storeThrough pointer _ => some (frame.word target m (.named pointer))
  | _ => none

/-- Code that stores the accumulator, if there is a place for it. -/
def keepCode : Option Place → Code
  | none => {}
  | some place => .store place (.reg Abi.accumulator)

/-- The code of a system call in front of the trap. -/
def Trap.requestCode (frame : Frame) (t : Trap) : Code :=
  .instr .pusha [] ++ argumentCode frame Abi.syscallArguments t.arguments ++
    .instr .mov [.reg Abi.syscallNumber, .imm t.number]

/-- The code of a statement with a system call behind the trap. -/
def Simple.replyCode (frame : Frame) (s : Simple) : Code :=
  keepCode (s.place? frame) ++ .instr .popa []

theorem Simple.code_of_trap? {s : Simple} {t : Trap} (h : s.trap? = some t)
    (functions : List String) (frame : Frame) : s.code functions frame =
      t.requestCode frame ++ .instr .int [.imm Abi.syscallVector] ++ s.replyCode frame := by
  cases s with
  | trap other =>
      cases h
      rfl
  | declareWith type name value | assign name value | storeThrough pointer value =>
      cases value with
      | expr e => cases h
      | trap other =>
          cases h
          exact Code.append_assoc _ _ _
  | _ => cases h

/-- The names in the arguments of a system call are looked up in its statement. -/
theorem Simple.names_of_trap? {s : Simple} {t : Trap} (h : s.trap? = some t) :
    ∀ e ∈ t.arguments, ∀ name ∈ e.piece.names, name ∈ s.piece.names := by
  intro e he name hname
  have hmem : name ∈ t.piece.names := by
    refine List.mem_append_left _ (List.mem_append_right _ ?_)
    rw [names_furtherArguments]
    exact List.mem_flatMap.mpr ⟨e, he, hname⟩
  cases s with
  | trap other =>
      cases h
      exact List.mem_append_left _ hmem
  | declareWith type other value | assign other value =>
      cases value with
      | expr e => cases h
      | trap t =>
          cases h
          exact List.mem_append_left _ (List.mem_append_right _ (List.mem_append_left _ hmem))
  | storeThrough pointer value =>
      cases value with
      | expr e => cases h
      | trap t =>
          cases h
          exact List.mem_append_left _ (List.mem_append_right _ hmem)
  | _ => cases h

/-! ### What a system call needs and what it leaves -/

/-- The addresses that a statement with a system call changes: the bytes below the stack pointer
for the registers, and the word that the result goes to. -/
def Simple.Changes (s : Simple) (frame : Frame) (target : String → UInt32) (m : Machine)
    (a : UInt32) : Prop :=
  m.Below 32 a ∨ ∃ place ∈ s.destination? frame target m, a ∈ Memory.wordAddresses place

/-- A machine that can execute a statement with a system call: there is memory for the registers
below the stack pointer, and the words that are read and the one that the result goes to are
mapped and apart from it. -/
structure Simple.Prepared (s : Simple) (frame : Frame) (target : String → UInt32) (m : Machine) :
    Prop where
  room : m.Room 32
  names : ∀ name ∈ s.piece.names, frame.Holds (m.Below 32) m name
  destination : ∀ place ∈ s.destination? frame target m, m.memory.MappedFrom place 4 ∧
    ∀ a ∈ Memory.wordAddresses place, ¬m.Below 32 a

/-- A machine at the trap of a system call, whose arguments have the values that they had in
front of the statement. -/
structure Trap.Asked (t : Trap) (frame : Frame) (target : String → UInt32) (m m' : Machine) :
    Prop where
  number : m'.get .eax = UInt32.ofNat t.number
  arguments : ∀ pair ∈ [Reg.ebx, .ecx].zip t.arguments, m'.get pair.1 = frame.sum target m pair.2
  memory : m.memory.SameExcept (m.Below 32) m'.memory
  output : m'.output = m.output

/-- A machine behind a statement with a system call. -/
structure Simple.Answered (s : Simple) (frame : Frame) (target : String → UInt32) (m : Machine)
    (result : UInt32) (written : Bytes) (m' : Machine) : Prop where
  get : ∀ r, m'.get r = m.get r
  memory : m.memory.SameExcept (s.Changes frame target m) m'.memory
  word : ∀ place ∈ s.destination? frame target m, m'.memory.wordAt place = result
  output : m'.output = m.output ++ written
  exit : m'.exit = m.exit

section

variable {changed kept : UInt32 → Prop} {frame : Frame} {target : String → UInt32}
variable {m m' : Machine} {rest : List (Instr UInt32)} {s : Simple} {t : Trap}

/-- Arguments are loaded into registers. -/
theorem executes_arguments {regs : List Reg} {es : List Expr}
    (h : m'.Ready kept ((argumentCode frame regs es).placed target ++ rest))
    (hsame : SameFrame changed m m')
    (hholds : ∀ e ∈ es, ∀ name ∈ e.piece.names, frame.Holds changed m name)
    (hnodup : (Reg.eax :: Reg.ebp :: regs).Nodup) :
    ∃ m'', m'.Executes kept ((argumentCode frame regs es).placed target) rest m'' ∧
      m'.Alters (.eax :: regs) m'' ∧
      ∀ pair ∈ regs.zip es, m''.get pair.1 = frame.sum target m pair.2 := by
  induction regs generalizing m' es with
  | nil => exact ⟨m', .nil h, .refl _ _, by simp⟩
  | cons r regs ih =>
      cases es with
      | nil => exact ⟨m', .nil h, .refl _ _, by simp⟩
      | cons e es =>
          obtain ⟨he, hes⟩ := List.forall_mem_cons.mp hholds
          simp only [List.nodup_cons, List.mem_cons, not_or] at hnodup
          obtain ⟨⟨-, hr, heaxs⟩, ⟨hebp, hebps⟩, hrs, hregs⟩ := hnodup
          rw [argumentCode, Code.placed_append, Code.placed_append] at h ⊢
          rw [List.append_assoc, List.append_assoc] at h
          obtain ⟨m1, hvalue, halters, hsum⟩ := executes_value h hsame he
          obtain ⟨m2, hload, halters', hget⟩ := Machine.Ready.load hvalue.ready hsum
          have hsame2 := (hsame.alters halters (by decide)).alters halters' (by simpa using hebp)
          obtain ⟨m3, hothers, halters'', hgets⟩ := ih hload.ready hsame2 hes
            (by simp [*])
          refine ⟨m3, (hvalue.trans hload).trans hothers, ?_, ?_⟩
          · exact ((halters.mono (by simp)).trans (halters'.mono (by simp))).trans
              (halters''.mono (by simp))
          · rw [List.zip_cons_cons, List.forall_mem_cons]
            refine ⟨(halters''.get r ?_).trans hget, hgets⟩
            simp [Ne.symm hr, hrs]

/-- What is left behind a store of the accumulator. -/
structure Stores (place? : Option UInt32) (m m' : Machine) : Prop where
  get : ∀ r, r ≠ .edx → m'.get r = m.get r
  memory : m.memory.SameExcept (fun a => ∃ place ∈ place?, a ∈ Memory.wordAddresses place) m'.memory
  word : ∀ place ∈ place?, m'.memory.wordAt place = m.get .eax
  output : m'.output = m.output
  exit : m'.exit = m.exit

theorem executes_save {place : Mem} {addr : UInt32}
    (h : m.Ready kept (⟨.mov, [.mem place, .reg .eax]⟩ :: rest)) (haddr : m.address place = addr)
    (hmapped : m.memory.MappedFrom addr 4) (hkept : ∀ a ∈ Memory.wordAddresses addr, kept a) :
    ∃ m', m.Executes kept [⟨.mov, [.mem place, .reg .eax]⟩] rest m' ∧ Stores (some addr) m m' := by
  subst haddr
  obtain ⟨m', hexecutes, hmemory, hword, hget, houtput, hexit⟩ := h.save rfl hmapped hkept
  refine ⟨m', hexecutes, fun r _ => hget r, hmemory.mono fun a ha => ⟨_, rfl, ha⟩, ?_,
    houtput, hexit⟩
  rintro addr ⟨⟩
  exact hword

/-- The accumulator is stored into the word that a statement stores into. -/
theorem executes_keepCode (h : m'.Ready kept ((keepCode (s.place? frame)).placed target ++ rest))
    (hsame : SameFrame changed m m') (hholds : ∀ name ∈ s.piece.names, frame.Holds changed m name)
    (hmapped : ∀ place ∈ s.destination? frame target m, m.memory.MappedFrom place 4)
    (hkept : ∀ place ∈ s.destination? frame target m, ∀ a ∈ Memory.wordAddresses place, kept a) :
    ∃ m'', m'.Executes kept ((keepCode (s.place? frame)).placed target) rest m'' ∧
      Stores (s.destination? frame target m) m' m'' := by
  cases s with
  | declareWith type name value | assign name value =>
      have hmapped' := (hmapped _ rfl).same hsame.memory.isMapped
      exact executes_save h (hsame.address name) hmapped' (hkept _ rfl)
  | storeThrough pointer value =>
      have hpointer : ∀ name ∈ (Primary.named pointer).piece.names, frame.Holds changed m name := by
        intro name hname
        obtain rfl := List.mem_singleton.mp hname
        exact hholds name (by simp [Simple.piece, Piece.spelled, Piece.looked])
      obtain ⟨m1, hload, halters, hedx⟩ :=
        Machine.Ready.load (r := .edx) h (value_operand hsame hpointer)
      have hsame1 := hsame.alters halters (by decide)
      have haddr : m1.address ⟨.edx, 0⟩ = frame.word target m (.named pointer) :=
        (UInt32.add_zero _).trans hedx
      have hmapped' := (hmapped _ rfl).same hsame1.memory.isMapped
      obtain ⟨m'', hsave, hstores⟩ := executes_save hload.ready haddr hmapped' (hkept _ rfl)
      have heax := halters.get .eax (by decide)
      refine ⟨m'', hload.trans hsave, fun r hr => ?_, ?_, fun place hplace => ?_, ?_, ?_⟩
      · exact (hstores.get r hr).trans (halters.get r (by simpa using hr))
      · rw [← halters.memory]
        exact hstores.memory
      · exact (hstores.word place hplace).trans heax
      · exact hstores.output.trans halters.output
      · exact hstores.exit.trans halters.exit
  | _ => exact ⟨m', .nil h, fun _ _ => rfl, .refl _ _, by simp [Simple.destination?], rfl, rfl⟩

/-- Everything up to the trap of a system call. -/
theorem executes_requestCode (h : m.Ready kept ((t.requestCode frame).placed target ++ rest))
    (hroom : m.Room 32) (hbelow : ∀ a, m.Below 32 a → kept a)
    (hholds : ∀ e ∈ t.arguments, ∀ name ∈ e.piece.names, frame.Holds (m.Below 32) m name) :
    ∃ m', m.Executes kept ((t.requestCode frame).placed target) rest m' ∧
      m.Stacked [.eax, .ebx, .ecx] (Exec.savedOrder.map m.get) m' ∧ m'.exit = m.exit ∧
      t.Asked frame target m m' := by
  rw [Trap.requestCode, Code.placed_append, Code.placed_append] at h ⊢
  rw [List.append_assoc, List.append_assoc] at h
  have h : m.Ready kept (⟨.pusha, []⟩ ::
      ((argumentCode frame Abi.syscallArguments t.arguments).placed target ++
        ((Code.instr .mov [.reg Abi.syscallNumber, .imm t.number]).placed target ++ rest))) := h
  obtain ⟨m1, hpusha, hstacked⟩ := Machine.Ready.pusha h hroom hbelow
  have hsame := SameFrame.of_stacked hstacked (by decide) hroom (Nat.le_refl 32)
  obtain ⟨m2, harguments, halters, hget⟩ := executes_arguments hpusha.ready hsame hholds (by decide)
  obtain ⟨m', hnumber, halters', heax⟩ := harguments.ready.load (r := .eax) rfl
  have hchanged : m1.Alters [.eax, .ebx, .ecx] m' := halters.trans (halters'.mono (by simp))
  have hstacked' : m.Stacked [.eax, .ebx, .ecx] (Exec.savedOrder.map m.get) m' :=
    (hstacked.mono (by simp)).alters hchanged (by decide)
  have hsame' := SameFrame.of_stacked hstacked' (by decide) hroom (Nat.le_refl 32)
  have hexecutes := (hpusha.trans harguments).trans hnumber
  refine ⟨m', hexecutes, hstacked', hstacked'.exit, ?_, ?_, hsame'.memory, hstacked'.output⟩
  · exact heax.trans (Word.ofInt_natCast t.number)
  · intro pair hpair
    have hne : pair.1 ≠ .eax := by
      have hmem := (List.of_mem_zip hpair).1
      intro heq
      rw [heq] at hmem
      simp at hmem
    exact (halters'.get pair.1 (by simpa using hne)).trans (hget pair hpair)

/-- Everything from the trap on. -/
theorem executes_replyCode {m1 : Machine} {result : UInt32} {written : Bytes}
    (h : m1.Ready (s.Changes frame target m)
      (⟨.int, [.imm Abi.syscallVector]⟩ :: ((s.replyCode frame).placed target ++ rest)))
    (hprepared : s.Prepared frame target m)
    (hstacked : m.Stacked [.eax, .ebx, .ecx] (Exec.savedOrder.map m.get) m1)
    (hanswer : m1.answer? = some (result, written)) :
    ∃ m', m1.Executes (s.Changes frame target m)
        (⟨.int, [.imm Abi.syscallVector]⟩ :: (s.replyCode frame).placed target) rest m' ∧
      s.Answered frame target m result written m' := by
  have hle := hprepared.room.le
  have hlt := (m.get .esp).toNat_lt
  have hesp : (m1.get .esp).toNat + 32 = (m.get .esp).toNat := hstacked.esp
  have hsame := SameFrame.of_stacked hstacked (by decide) hprepared.room (Nat.le_refl 32)
  -- The trap changes the accumulator and the output only.
  obtain ⟨m2, htrap, hget2, heax2, hmemory2, houtput2, hexit2⟩ := Machine.Ready.trap h hanswer
  have hsame2 : SameFrame (m.Below 32) m m2 :=
    ⟨(hget2 .ebp (by decide)).trans hsame.ebp, hmemory2 ▸ hsame.memory⟩
  have hready2 := htrap.ready
  rw [Simple.replyCode, Code.placed_append] at hready2 ⊢
  rw [List.append_assoc] at hready2
  obtain ⟨m3, hkeep, hstores⟩ := executes_keepCode hready2 hsame2 hprepared.names
    (fun place hplace => (hprepared.destination place hplace).1)
    (fun place hplace a ha => .inr ⟨place, hplace, ha⟩)
  -- The saved registers lie apart from the word that was stored into.
  have hesp3 : m3.get .esp = m1.get .esp :=
    (hstores.get .esp (by decide)).trans (hget2 .esp (by decide))
  have hmemory3 : m1.memory.SameExcept
      (fun a => ∃ place ∈ s.destination? frame target m, a ∈ Memory.wordAddresses place)
      m3.memory := hmemory2 ▸ hstores.memory
  have hwords : m3.memory.WordsAt (m3.get .esp) (Exec.savedOrder.map m.get) := by
    rw [hesp3]
    refine hstacked.words.congr hmemory3.isMapped (by simp [Exec.savedOrder]; omega) ?_
    intro a hlow hhigh
    have hbelow : m.Below 32 a := ⟨by omega, by simp [Exec.savedOrder] at hhigh; omega⟩
    exact hmemory3.byteAt a fun ⟨place, hplace, ha⟩ =>
      (hprepared.destination place hplace).2 a ha hbelow
  have hpopa : m3.Ready (s.Changes frame target m) (⟨.popa, []⟩ :: rest) := hkeep.ready
  obtain ⟨m', hpopa, hget', hesp', hmemory', houtput', hexit'⟩ := hpopa.popa hwords
  have hexecutes := (Machine.Executes.trans ⟨htrap.steps, hready2⟩ hkeep).trans hpopa
  refine ⟨m', hexecutes, fun r => ?_, ?_, fun place hplace => ?_, ?_, ?_⟩
  · by_cases hr : r = .esp
    · subst hr
      apply UInt32.toNat_inj.mp
      rw [hesp', hesp3]
      exact (@Memory.toNat_add_of_lt (m1.get .esp) 32 (by omega)).trans hesp
    · exact hget' r hr
  · rw [hmemory']
    exact (hsame.memory.mono fun a => .inl).trans (hmemory3.mono fun a => .inr)
  · rw [hmemory', hstores.word place hplace, heax2]
  · rw [houtput', hstores.output, houtput2, hstacked.output]
  · rw [hexit', hstores.exit, hexit2, hstacked.exit]

end

/-- A statement with a system call that compiles without errors asks for it with the values that
the arguments have in front of the statement. If it has a result, the statement comes to its end
with the result in the word that it is to go to; every register is as it was, and so is all
memory but that word and the bytes below the stack pointer that the registers were saved in. -/
theorem trap_bracket {s : Simple} {t : Trap} {c c' : Compiler} {code : Code}
    {rest : List TokenKind} (hsound : c.Sound) (h : CompileM.statement c = .ok code c')
    (hquiet : c.Quiet c') (htokens : c.tokens = s.piece.tokens ++ rest) (ht : s.trap? = some t) :
    ∃ front back, code.instrs = front ++ ⟨.int, [.imm 0x80]⟩ :: back ∧
      ∀ target m, s.Prepared c'.frame target m →
        m.Ready (s.Changes c'.frame target m) (code.placed target) →
        ∃ m1, Exec.steps front.length m = .ok () m1 ∧ t.Asked c'.frame target m m1 ∧
          m1.Ready (s.Changes c'.frame target m)
            (⟨.int, [.imm 0x80]⟩ :: back.map (Instr.resolve target)) ∧
          ∀ result written, m1.answer? = some (result, written) →
            ∃ m', Exec.steps code.instrs.length m = .ok () m' ∧
              s.Answered c'.frame target m result written m' := by
  obtain ⟨hcode, -, -⟩ := Simple.compiled hsound h hquiet htokens
  have hitems : code.instrs = (t.requestCode c'.frame).instrs ++
      ⟨.int, [.imm 0x80]⟩ :: (s.replyCode c'.frame).instrs := by
    rw [hcode, Simple.code_of_trap? ht, Code.instrs_append, Code.instrs_append, List.append_assoc]
    rfl
  refine ⟨_, _, hitems, fun target m hprepared hready => ?_⟩
  have hready : m.Ready (s.Changes c'.frame target m)
      ((t.requestCode c'.frame).placed target ++
        ⟨.int, [.imm 0x80]⟩ :: (s.replyCode c'.frame).placed target) := by
    rw [Code.placed, hitems, List.map_append] at hready
    exact hready
  obtain ⟨m1, hrequest, hstacked, -, hasked⟩ := executes_requestCode hready hprepared.room
    (fun a => .inl) fun e he name hname =>
      hprepared.names name (Simple.names_of_trap? ht e he name hname)
  refine ⟨m1, ?_, hasked, hrequest.ready, fun result written hanswer => ?_⟩
  · rw [← Code.length_placed target]
    exact hrequest.steps
  · have htrap : m1.Ready (s.Changes c'.frame target m) (⟨.int, [.imm Abi.syscallVector]⟩ ::
        ((s.replyCode c'.frame).placed target ++ [])) := by
      rw [List.append_nil]
      exact hrequest.ready
    obtain ⟨m', hreply, hanswered⟩ := executes_replyCode htrap hprepared hstacked hanswer
    refine ⟨m', ?_, hanswered⟩
    rw [← Code.length_placed target, Code.placed, hitems, List.map_append]
    exact (Machine.Executes.trans ⟨hrequest.steps, htrap⟩ hreply).steps

/-- The statement `x = syscall(20, y + 1);`. -/
def Simple.askGetpid : Simple :=
  .assign "x" (.trap ⟨20, [⟨.named "y", [1]⟩], by decide⟩)

/-- A machine in front of its code, which the stack and the words of its variables follow. -/
def getpidMachine : Machine where
  regs := { esp := 0x1100, ebp := 0x1108, ebx := 5 }
  eip := 0x1000
  flags := {}
  -- pusha; mov eax, [ebp-4]; add eax, 1; mov ebx, eax; mov eax, 20; int 0x80;
  -- mov [ebp-8], eax; popa
  memory := (({} : Memory).map 0x1000 0x200).put 0x1000
    [0x60, 0x8B, 0x45, 0xFC, 0x83, 0xC0, 0x01, 0x89, 0xC3, 0xB8, 0x14, 0x00, 0x00, 0x00, 0xCD, 0x80,
      0x89, 0x45, 0xF8, 0x61]
  output := #[]
  exit := none
  steps := 0

theorem isMapped_getpidMachine {a : UInt32} (hlow : 0x1000 ≤ a.toNat) (hhigh : a.toNat < 0x1200) :
    getpidMachine.memory.isMapped a = true :=
  (Memory.isMapped_put _ _ _ _).trans (Memory.isMapped_map hlow hhigh)

/-- The words of the variables are mapped and behind the stack pointer. -/
theorem word_getpidMachine {addr : UInt32} (h : addr = 0x1100 ∨ addr = 0x1104) :
    getpidMachine.memory.MappedFrom addr 4 ∧
      ∀ a ∈ Memory.wordAddresses addr, ¬getpidMachine.Below 32 a := by
  rw [Memory.forall_mem_wordAddresses]
  rcases h with rfl | rfl
  · refine ⟨Memory.mappedFrom_of_isMapped (by decide) fun a hlow hhigh => ?_, by decide⟩
    exact isMapped_getpidMachine (Nat.le_trans (by decide) hlow)
      (Nat.lt_of_lt_of_le hhigh (by decide))
  · refine ⟨Memory.mappedFrom_of_isMapped (by decide) fun a hlow hhigh => ?_, by decide⟩
    exact isMapped_getpidMachine (Nat.le_trans (by decide) hlow)
      (Nat.lt_of_lt_of_le hhigh (by decide))

theorem prepared_getpidMachine :
    Simple.askGetpid.Prepared ⟨[], ["y", "x"]⟩ (fun _ => 0) getpidMachine where
  room := ⟨by decide, fun a ha => isMapped_getpidMachine (Nat.le_trans (by decide) ha.1)
    (Nat.lt_trans ha.2 (by decide))⟩
  names name hname _ := by
    have hnames : Simple.askGetpid.piece.names = ["y", "x"] := by decide
    rw [hnames] at hname
    refine word_getpidMachine ?_
    rcases List.mem_pair.mp hname with rfl | rfl
    · exact .inr (by decide)
    · exact .inl (by decide)
  destination place hplace := by
    refine word_getpidMachine (.inl ?_)
    cases hplace
    decide

theorem ready_getpidMachine : getpidMachine.Ready
    (Simple.askGetpid.Changes ⟨[], ["y", "x"]⟩ (fun _ => 0) getpidMachine)
    ((Simple.askGetpid.code [] ⟨[], ["y", "x"]⟩).placed fun _ => 0) := by
  refine ⟨[0x60, 0x8B, 0x45, 0xFC, 0x83, 0xC0, 0x01, 0x89, 0xC3, 0xB8, 0x14, 0x00, 0x00, 0x00, 0xCD,
    0x80, 0x89, 0x45, 0xF8, 0x61], ⟨?_, ?_⟩, ?_⟩
  · decide
  · exact Memory.hasBytes_put (by decide) fun a hlow hhigh =>
      Memory.isMapped_map hlow (Nat.lt_of_lt_of_le hhigh (by decide))
  · rintro k hk (hbelow | ⟨place, hplace, ha⟩)
    · have hapart : ∀ k < 20, ¬getpidMachine.Below 32 (0x1000 + UInt32.ofNat k) := by
        decide
      exact hapart k hk hbelow
    · have hapart : ∀ k < 20, 0x1000 + UInt32.ofNat k ∉ Memory.wordAddresses 0x1100 := by
        decide
      have hword : getpidMachine.address ((⟨[], ["y", "x"]⟩ : Frame).slot "x") = 0x1100 := by
        decide
      cases hplace
      rw [hword] at ha
      exact hapart k hk ha

theorem statement_askGetpid : ∃ code c',
    CompileM.statement (.ofSource "x = syscall(20, y + 1);" {}) = .ok code c' ∧
      code.instrs.length = 8 ∧ c'.cursor.diagnostics = [] ∧ c'.frame = ⟨[], ["y", "x"]⟩ := by
  have hresult : (CompileM.statement >>= fun code => (get : CompileM Compiler) >>= fun c' =>
      pure (code.instrs.length, c'.cursor.diagnostics, c'.frame)).run'
        (.ofSource "x = syscall(20, y + 1);" {}) = some (8, [], ⟨[], ["y", "x"]⟩) := by
    decide +kernel
  obtain ⟨code, c', hstatement, hleaves⟩ := CompileM.exists_of_run' hresult
  simp only [Prod.mk.injEq] at hleaves
  exact ⟨code, c', hstatement, hleaves⟩

/-- The process number is stored, and the register of the argument is restored. -/
theorem trap_bracket_getpid : ∃ code c' m',
    CompileM.statement (.ofSource "x = syscall(20, y + 1);" {}) = .ok code c' ∧
      Exec.steps 8 getpidMachine = .ok () m' ∧ m'.memory.wordAt 0x1100 = 1 ∧ m'.get .ebx = 5 := by
  obtain ⟨code, c', hstatement, hlength, hdiagnostics, hframe⟩ := statement_askGetpid
  have hquiet : Compiler.Quiet (.ofSource "x = syscall(20, y + 1);" {}) c' :=
    ⟨[], hdiagnostics.trans (by decide +kernel), rfl⟩
  obtain ⟨hcode, -, -⟩ := Simple.compiled (s := .askGetpid) (Compiler.sound_ofScan _ _ _)
    hstatement hquiet (by decide +kernel : _ = _ ++ [])
  obtain ⟨front, back, -, hbracket⟩ := trap_bracket (s := .askGetpid) (Compiler.sound_ofScan _ _ _)
    hstatement hquiet (by decide +kernel : _ = _ ++ []) rfl
  rw [hframe] at hbracket hcode
  obtain ⟨m1, -, hasked, -, hanswers⟩ := hbracket (fun _ => 0) getpidMachine prepared_getpidMachine
    (by rw [hcode]; exact ready_getpidMachine)
  have hanswer : m1.answer? = some (1, []) := by
    rw [Machine.answer?, hasked.number]
    exact (if_neg (by decide)).trans (if_pos (by decide))
  obtain ⟨m', hsteps, hanswered⟩ := hanswers 1 [] hanswer
  rw [hlength] at hsteps
  exact ⟨code, c', m', hstatement, hsteps, hanswered.word _ rfl, hanswered.get .ebx⟩

end Ia32.C

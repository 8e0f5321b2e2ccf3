import Ia32.Proofs.C.Evaluation

/-!
# Calls to the library keep the calling convention

A call to a function outside the program saves the registers that the function may change, pushes
the arguments from the last to the first, and takes all of this from the stack again. Arguments
are evaluated between the pushes, in the accumulator, which is one of the saved registers.
-/

namespace Ia32

namespace Machine

/-- The addresses of some bytes at the instruction pointer. -/
def Occupied (m : Machine) (bytes : Bytes) (a : UInt32) : Prop :=
  ∃ k < bytes.length, a = m.eip + UInt32.ofNat k

/-- A machine behind a call of a function that keeps to the calling convention, compared with the
machine at the call: the stack pointer is the same, and only the registers of the caller, the
words of the arguments and memory below them may have changed, but not the code of the caller. -/
structure Returned (m : Machine) (addr : UInt32) (arguments : Nat) (code : UInt32 → Prop)
    (m' : Machine) : Prop where
  eip : m'.eip = addr
  get : ∀ r ∉ [Reg.eax, .ecx, .edx], m'.get r = m.get r
  memory : m.memory.SameExcept (fun a => a.toNat < (m.get .esp).toNat + 4 * arguments ∧ ¬code a)
    m'.memory

end Machine

namespace C

open CompileM

/-- Code that removes arguments from the stack. -/
def cleanupCode (arguments : Nat) : Code :=
  if arguments = 0 then {} else .instr .add [.reg .esp, .imm (arguments * Abi.wordSize)]

/-- The code of a call to the library in front of the call itself. -/
def argumentsCode (frame : Frame) (es : List Expr) : Code :=
  eachReg .push Abi.callerSaved ++ pushArguments (es.map (Expr.value frame))

/-- The code of a call to the library behind the call itself. -/
def restoreCode (arguments : Nat) : Code :=
  cleanupCode arguments ++ eachReg .pop Abi.callerSaved.reverse

/-- A library call pushes registers and arguments, calls, and takes them off again. -/
theorem libraryCall_eq (name : String) (frame : Frame) (es : List Expr) :
    libraryCall name (es.map (Expr.value frame)) =
      argumentsCode frame es ++ .instr .call [.label name] ++ restoreCode es.length := by
  cases es with
  | nil => rfl
  | cons e rest =>
      rw [libraryCall, List.length_map]
      exact Code.append_assoc _ _ _

theorem placed_eachReg (op : Mnemonic) (regs : List Reg) (target : String → UInt32) :
    (eachReg op regs).placed target = regs.map fun r => ⟨op, [.reg r]⟩ := by
  simp [eachReg, Code.placed, Code.instrs, Instr.resolve, Operand.resolve]

/-- The instructions that push one argument. -/
def pushOne (frame : Frame) (target : String → UInt32) (e : Expr) : List (Instr UInt32) :=
  (e.value frame).code.placed target ++ [⟨.push, [(e.value frame).operand.resolve target]⟩]

/-- The arguments are pushed from the last one to the first. -/
theorem placed_pushArguments (frame : Frame) (es : List Expr) (target : String → UInt32) :
    (pushArguments (es.map (Expr.value frame))).placed target =
      es.reverse.flatMap (pushOne frame target) := by
  have hall (es : List Expr) : (Code.mk ((es.map (Expr.value frame)).flatMap fun v =>
      (v.code ++ .instr .push [v.operand]).items)).placed target =
        es.flatMap (pushOne frame target) := by
    induction es with
    | nil => rfl
    | cons e rest ih =>
        rw [List.flatMap_cons, ← ih]
        exact (Code.placed_append target _ _).trans
          (congrArg (· ++ _) (Code.placed_append target _ _))
  rw [pushArguments, ← List.map_reverse]
  exact hall es.reverse

section

variable {kept : UInt32 → Prop} {frame : Frame} {target : String → UInt32} {m m' : Machine}
variable {rest : List (Instr UInt32)} {words : List UInt32} {es : List Expr} {size : Nat}

/-- Expressions are evaluated and pushed one after another. -/
theorem executes_pushOne (h : m'.Ready kept (es.flatMap (pushOne frame target) ++ rest))
    (hstacked : m.Stacked [.eax] words m') (hroom : m.Room size)
    (hbelow : ∀ a, m.Below size a → kept a) (hsize : 4 * (words.length + es.length) ≤ size)
    (hholds : ∀ e ∈ es, ∀ name ∈ e.piece.names, frame.Holds (m.Below size) m name) :
    ∃ m'', m'.Executes kept (es.flatMap (pushOne frame target)) rest m'' ∧
      m.Stacked [.eax] ((es.map (frame.sum target m)).reverse ++ words) m'' := by
  induction es generalizing m' words with
  | nil => exact ⟨m', .nil h, hstacked⟩
  | cons e es ih =>
      obtain ⟨he, hes⟩ := List.forall_mem_cons.mp hholds
      rw [List.length_cons] at hsize
      rw [List.flatMap_cons, pushOne, List.append_assoc, List.append_assoc] at h
      have hsame := SameFrame.of_stacked hstacked (by decide) hroom (by omega)
      obtain ⟨m1, hvalue, halters, hsum⟩ := executes_value h hsame he
      obtain ⟨m2, hpush, hstacked2⟩ := Machine.Ready.push hvalue.ready
        (hstacked.alters halters (by decide)) hsum hroom hbelow (by omega)
      obtain ⟨m'', hothers, hstacked'⟩ := ih hpush.ready hstacked2
        (by rw [List.length_cons]; omega) hes
      refine ⟨m'', (hvalue.trans hpush).trans hothers, ?_⟩
      rwa [List.map_cons, List.reverse_cons, List.append_assoc]

/-- In front of the call the arguments lie on the stack, the first one on top, above the
registers of the caller. -/
theorem executes_argumentsCode (h : m.Ready kept ((argumentsCode frame es).placed target ++ rest))
    (hroom : m.Room size) (hbelow : ∀ a, m.Below size a → kept a)
    (hsize : 4 * (es.length + 3) ≤ size)
    (hholds : ∀ e ∈ es, ∀ name ∈ e.piece.names, frame.Holds (m.Below size) m name) :
    ∃ m', m.Executes kept ((argumentsCode frame es).placed target) rest m' ∧
      m.Stacked [.eax] (es.map (frame.sum target m) ++ [m.get .edx, m.get .ecx, m.get .eax])
        m' := by
  rw [argumentsCode, Code.placed_append, placed_eachReg, placed_pushArguments] at h ⊢
  rw [List.append_assoc] at h
  obtain ⟨m1, hsaves, hstacked⟩ := Machine.Ready.pushes h (.nil [] m) (by decide) hroom hbelow
    (by simp [Abi.callerSaved]; omega)
  obtain ⟨m', hpushes, hstacked'⟩ := executes_pushOne hsaves.ready (hstacked.mono (by simp)) hroom
    hbelow (by simp [Abi.callerSaved]; omega) fun e he => hholds e (List.mem_reverse.mp he)
  refine ⟨m', hsaves.trans hpushes, ?_⟩
  rw [List.map_reverse, List.reverse_reverse] at hstacked'
  exact hstacked'

/-- The arguments are removed from the stack. -/
theorem executes_cleanupCode {n : Nat} (h : m.Ready kept ((cleanupCode n).placed target ++ rest)) :
    ∃ m', m.Executes kept ((cleanupCode n).placed target) rest m' ∧ m.Alters [.esp] m' ∧
      m'.get .esp = m.get .esp + UInt32.ofNat (4 * n) := by
  unfold cleanupCode at h ⊢
  split
  next hzero =>
    subst hzero
    exact ⟨m, .nil h, .refl _ _, (UInt32.add_zero _).symm⟩
  next hpos =>
    rw [if_neg hpos] at h
    obtain ⟨m', hadd, halters, hget⟩ := Machine.Ready.add (r := .esp) h
    refine ⟨m', hadd, halters, hget.trans ?_⟩
    rw [← Word.ofInt_natCast, Nat.mul_comm, Nat.cast_mul]
    rfl

/-- Behind the call the registers of the caller are restored. -/
theorem executes_restoreCode {n : Nat} {eax ecx edx : UInt32}
    (h : m.Ready kept ((restoreCode n).placed target ++ rest))
    (hwords : m.memory.WordsAt (m.get .esp + UInt32.ofNat (4 * n)) [edx, ecx, eax]) :
    ∃ m', m.Executes kept ((restoreCode n).placed target) rest m' ∧
      m.Alters [.esp, .edx, .ecx, .eax] m' ∧
      (m'.get .edx = edx ∧ m'.get .ecx = ecx ∧ m'.get .eax = eax) ∧
      m'.get .esp = m.get .esp + UInt32.ofNat (4 * (n + 3)) := by
  rw [restoreCode, Code.placed_append, placed_eachReg] at h ⊢
  rw [List.append_assoc] at h
  obtain ⟨m1, hcleanup, halters, hesp⟩ := executes_cleanupCode h
  rw [← hesp, ← halters.memory] at hwords
  obtain ⟨m', hpops, halters', hget, hesp'⟩ := Machine.Ready.pops rfl hcleanup.ready hwords
    (by decide) (by decide)
  refine ⟨m', hcleanup.trans hpops, (halters.mono (by simp)).trans halters', ?_, ?_⟩
  · simpa [Abi.callerSaved] using hget
  · rw [hesp', hesp, Nat.mul_add, UInt32.ofNat_add, UInt32.add_assoc]
    rfl

/-- The call pushes the address behind it and goes to the function. -/
theorem enters_call {target : UInt32} (h : m.Ready kept (⟨.call, [.label target]⟩ :: rest))
    (hmapped : m.memory.MappedFrom (m.get .esp - 4) 4) :
    ∃ addr seen entry, Exec.step m = .ok seen entry ∧ entry.eip = target ∧
      entry.get .esp = m.get .esp - 4 ∧ entry.memory.read32 (entry.get .esp) = .ok addr ∧
      ∀ m' : Machine, m'.eip = addr → m.memory.SameExcept kept m'.memory → m'.Ready kept rest := by
  obtain ⟨length, hperform⟩ := h.perform (Exec.perform_normalize (.call target) m.eip)
  obtain ⟨⟨seen, hstep⟩, hnext⟩ := hperform _ (Exec.perform_call.mpr ⟨hmapped, rfl⟩)
  refine ⟨m.eip + UInt32.ofNat length, seen, _, hstep, rfl, ?_, ?_, hnext⟩
  · rw [Machine.get_goto, Machine.get_set_self, Machine.get_past]
  · simp only [Machine.memory_goto, Machine.memory_set, Machine.memory_poke, Machine.get_goto,
      Machine.get_set_self, Machine.get_past]
    refine Memory.read32_eq_ok.mpr ⟨?_, (Memory.wordAt_put hmapped _).symm⟩
    exact hmapped.same (Memory.isMapped_put _ _ _)

/-- When the function comes back, every register and the memory from the stack pointer on are
restored to what they were in front of the statement. -/
theorem executes_return {m1 m2 : Machine} {addr : UInt32} {args : List UInt32}
    {code : UInt32 → Prop}
    (hstacked : m.Stacked [.eax] (args ++ [m.get .edx, m.get .ecx, m.get .eax]) m1)
    (hreturned : m1.Returned addr args.length code m2)
    (hready : m2.Ready kept ((restoreCode args.length).placed target ++ rest)) :
    ∃ m', m2.Executes kept ((restoreCode args.length).placed target) rest m' ∧
      (∀ r, m'.get r = m.get r) ∧
      m.memory.SameExcept (fun a => a.toNat < (m.get .esp).toNat) m'.memory := by
  have hlt := (m.get .esp).toNat_lt
  have hesp : (m1.get .esp).toNat + 4 * (args.length + 3) = (m.get .esp).toNat := by
    simpa using hstacked.esp
  have hesp2 : m2.get .esp = m1.get .esp := hreturned.get .esp (by decide)
  have hsaved : (m1.get .esp + UInt32.ofNat (4 * args.length)).toNat =
      (m1.get .esp).toNat + 4 * args.length := Memory.toNat_add_of_lt (by omega)
  have hwords : m2.memory.WordsAt (m2.get .esp + UInt32.ofNat (4 * args.length))
      [m.get .edx, m.get .ecx, m.get .eax] := by
    rw [hesp2]
    refine (Memory.wordsAt_append.mp hstacked.words).2.congr hreturned.memory.isMapped
      (by simp only [List.length_cons, List.length_nil]; omega) fun a hlow _ => ?_
    exact hreturned.memory.byteAt a fun hchanged => by omega
  obtain ⟨m', hrestore, halters, ⟨hedx, hecx, heax⟩, hesp'⟩ := executes_restoreCode hready hwords
  refine ⟨m', hrestore, fun r => ?_, ?_⟩
  · have hother (hr : r ∉ [Reg.esp, .edx, .ecx, .eax]) : m'.get r = m.get r := by
      simp only [List.mem_cons, List.not_mem_nil, or_false, not_or] at hr
      obtain ⟨hr, hredx, hrecx, hreax⟩ := hr
      rw [halters.get r (by simp [hr, hredx, hrecx, hreax]),
        hreturned.get r (by simp [hredx, hrecx, hreax]), hstacked.get r hr (by simp [hreax])]
    cases r with
    | eax => exact heax
    | ecx => exact hecx
    | edx => exact hedx
    | esp =>
        apply UInt32.toNat_inj.mp
        rw [hesp', hesp2, Memory.toNat_add_of_lt (by omega), hesp]
    | _ => exact hother (by decide)
  · rw [halters.memory]
    exact (hstacked.memory.sameExcept.mono fun a ha => ha.2).trans
      (hreturned.memory.mono fun a ha => by omega)

end

/-- A machine that can execute a call to the library with some code: there is memory for the
registers, the arguments and the return address below the stack pointer, the code lies apart from
it, and so do the words of the variables in the arguments. -/
structure Caller (frame : Frame) (es : List Expr) (bytes : Bytes) (m : Machine) : Prop where
  room : m.Room (4 * (es.length + 4))
  apart : ∀ a, m.Below (4 * (es.length + 4)) a → ¬m.Occupied bytes a
  names : ∀ e ∈ es, ∀ name ∈ e.piece.names, frame.Holds (m.Below (4 * (es.length + 4))) m name

/-- A machine in front of a call to a function, on the way through a statement: the arguments lie
on the stack, and the rest of the statement puts everything back in its place. -/
structure Called (m : Machine) (function : UInt32) (args : List UInt32) (code : UInt32 → Prop)
    (behind : Nat) (m1 : Machine) : Prop where
  /-- The first argument is on top. -/
  arguments : ∀ i (hi : i < args.length),
    m1.memory.read32 (m1.get .esp + UInt32.ofNat (4 * i)) = .ok args[i]
  /-- The call enters the function with an address to return to. If the function comes back there
  and keeps to the calling convention, the instructions behind the call leave every register as it
  was in front of the statement, and all memory from the stack pointer on. -/
  returns : ∃ addr seen entry, Exec.step m1 = .ok seen entry ∧ entry.eip = function ∧
    entry.get .esp = m1.get .esp - 4 ∧ entry.memory.read32 (entry.get .esp) = .ok addr ∧
    ∀ m2, m1.Returned addr args.length code m2 →
      ∃ m', Exec.steps behind m2 = .ok () m' ∧ (∀ r, m'.get r = m.get r) ∧
        m.memory.SameExcept (fun a => a.toNat < (m.get .esp).toNat) m'.memory

section

variable {frame : Frame} {target : String → UInt32} {m m1 : Machine} {es : List Expr}
variable {bytes : Bytes} {function : UInt32}

/-- Everything below the stack pointer may change except the code. -/
theorem ready_of_faces {is : List (Instr UInt32)} (h : m.Faces is bytes) :
    m.Ready (fun a => a.toNat < (m.get .esp).toNat ∧ ¬m.Occupied bytes a) is :=
  ⟨bytes, h, fun k hk hchanged => hchanged.2 ⟨k, hk, rfl⟩⟩

theorem Caller.called {args : List UInt32} (h : Caller frame es bytes m)
    (hlength : args.length = es.length)
    (hstacked : m.Stacked [.eax] (args ++ [m.get .edx, m.get .ecx, m.get .eax]) m1)
    (hready : m1.Ready (fun a => a.toNat < (m.get .esp).toNat ∧ ¬m.Occupied bytes a)
      (⟨.call, [.label function]⟩ :: (restoreCode es.length).placed target)) :
    Called m function args (m.Occupied bytes) (restoreCode es.length).instrs.length m1 := by
  have hle := h.room.le
  have hlt := (m.get .esp).toNat_lt
  have hesp : (m1.get .esp).toNat + 4 * (es.length + 3) = (m.get .esp).toNat := by
    simpa [hlength] using hstacked.esp
  have hpushed : (m1.get .esp - 4).toNat = (m1.get .esp).toNat - 4 :=
    @Memory.toNat_sub_of_le (m1.get .esp) 4 (by omega)
  have hmapped : m1.memory.MappedFrom (m1.get .esp - 4) 4 :=
    Memory.mappedFrom_of_isMapped (by omega) fun a hlow hhigh =>
      (hstacked.memory.isMapped a).trans (h.room.mapped a ⟨by omega, by omega⟩)
  obtain ⟨addr, seen, entry, hstep, hfunction, hentry, haddr, hreturns⟩ :=
    enters_call hready hmapped
  refine ⟨fun i hi => ?_, addr, seen, entry, hstep, hfunction, hentry, haddr,
    fun m2 hreturned => ?_⟩
  · have hread := hstacked.words.read32 (i := i) (by simp; omega)
    rwa [List.getElem_append_left hi] at hread
  · have hback := hreturns m2 hreturned.eip (hreturned.memory.mono fun a ha => ⟨by omega, ha.2⟩)
    rw [← hlength, ← List.append_nil ((restoreCode _).placed target)] at hback
    obtain ⟨m', hrestore, hget, hmemory⟩ := executes_return hstacked hreturned hback
    refine ⟨m', ?_, hget, hmemory⟩
    rw [← Code.length_placed target, ← hlength]
    exact hrestore.steps

end

/-- A call to a function outside the program that compiles without errors calls it with the values
that the arguments have in front of the statement, and if the function keeps to the calling
convention, the statement leaves every register and all memory from the stack pointer on as they
were. -/
theorem library_call {name : String} {es : List Expr} {c c' : Compiler} {code : Code}
    {rest : List TokenKind} (hsound : c.Sound) (h : CompileM.statement c = .ok code c')
    (hquiet : c.Quiet c') (htokens : c.tokens = (Simple.call name es).piece.tokens ++ rest)
    (hexternal : name ∉ c.functions) :
    ∃ front back, code.instrs = front ++ ⟨.call, [.label name]⟩ :: back ∧
      ∀ target m bytes, m.Faces (code.placed target) bytes → Caller c'.frame es bytes m →
        ∃ m1, Exec.steps front.length m = .ok () m1 ∧
          Called m (target name) (es.map (c'.frame.sum target m)) (m.Occupied bytes) back.length
            m1 := by
  obtain ⟨hcode, -, -⟩ := Simple.compiled hsound h hquiet htokens
  have hcode : code = libraryCall name (es.map (Expr.value c'.frame)) :=
    hcode.trans (if_neg (by simpa using hexternal))
  have hitems : code.instrs = (argumentsCode c'.frame es).instrs ++
      ⟨.call, [.label name]⟩ :: (restoreCode es.length).instrs := by
    rw [hcode, libraryCall_eq, Code.instrs_append, Code.instrs_append, List.append_assoc]
    rfl
  refine ⟨_, _, hitems, fun target m bytes hfaces hcaller => ?_⟩
  rw [Code.placed, hitems, List.map_append] at hfaces
  obtain ⟨m1, harguments, hstacked⟩ := executes_argumentsCode (ready_of_faces hfaces) hcaller.room
    (fun a ha => ⟨ha.2, hcaller.apart a ha⟩) (by omega) hcaller.names
  refine ⟨m1, ?_, hcaller.called (List.length_map _) hstacked harguments.ready⟩
  rw [← Code.length_placed target]
  exact harguments.steps

/-- The arguments of `f(y + 1, 7);`. -/
def callArguments : List Expr :=
  [⟨.named "y", [1]⟩, ⟨.number 7, []⟩]

/-- The bytes of that call, with the function at 0x1080. -/
def callBytes : Bytes :=
  -- push eax; push ecx; push edx; push 7; mov eax, [ebp-4]; add eax, 1; push eax; call f;
  -- add esp, 8; pop edx; pop ecx; pop eax
  [0x50, 0x51, 0x52, 0x6A, 0x07, 0x8B, 0x45, 0xFC, 0x83, 0xC0, 0x01, 0x50, 0xE8, 0x6F, 0x00, 0x00,
    0x00, 0x83, 0xC4, 0x08, 0x5A, 0x59, 0x58]

/-- A machine in front of the call, which the stack and the word of the variable follow. -/
def callMachine : Machine where
  regs := { eax := 5, esp := 0x1100, ebp := 0x1104 }
  eip := 0x1000
  flags := {}
  memory := (({} : Memory).map 0x1000 0x200).put 0x1000 callBytes
  output := #[]
  exit := none
  steps := 0

theorem isMapped_callMachine {a : UInt32} (hlow : 0x1000 ≤ a.toNat) (hhigh : a.toNat < 0x1200) :
    callMachine.memory.isMapped a = true :=
  (Memory.isMapped_put _ _ _ _).trans (Memory.isMapped_map hlow hhigh)

theorem caller_callMachine : Caller ⟨[], ["y"]⟩ callArguments callBytes callMachine where
  room := ⟨by decide, fun a ha => isMapped_callMachine (Nat.le_trans (by decide) ha.1)
    (Nat.lt_trans ha.2 (by decide))⟩
  apart a ha := by
    have hapart : ∀ k < 23, ¬callMachine.Below 24 (0x1000 + UInt32.ofNat k) := by
      decide
    rintro ⟨k, hk, rfl⟩
    exact hapart k hk ha
  names e he name hname _ := by
    have hnames : callArguments.flatMap (fun e => e.piece.names) = ["y"] := by decide
    have hmem : name ∈ callArguments.flatMap fun e => e.piece.names :=
      List.mem_flatMap.mpr ⟨e, he, hname⟩
    rw [hnames] at hmem
    obtain rfl := List.mem_singleton.mp hmem
    have hword : callMachine.address ((⟨[], ["y"]⟩ : Frame).slot "y") = 0x1100 := by
      decide
    rw [hword, Memory.forall_mem_wordAddresses]
    refine ⟨Memory.mappedFrom_of_isMapped (by decide) fun a hlow hhigh => ?_, by decide⟩
    exact isMapped_callMachine (Nat.le_trans (by decide) hlow)
      (Nat.lt_of_lt_of_le hhigh (by decide))

theorem statement_callArguments : ∃ code c',
    CompileM.statement (.ofSource "f(y + 1, 7);" {}) = .ok code c' ∧
      code = libraryCall "f" (callArguments.map (Expr.value ⟨[], ["y"]⟩)) ∧
      c'.cursor.diagnostics = [] ∧ c'.frame = ⟨[], ["y"]⟩ := by
  have hresult : (CompileM.statement >>= fun code => (get : CompileM Compiler) >>= fun c' =>
      pure (code, c'.cursor.diagnostics, c'.frame)).run' (.ofSource "f(y + 1, 7);" {}) =
        some (libraryCall "f" (callArguments.map (Expr.value ⟨[], ["y"]⟩)), [], ⟨[], ["y"]⟩) := by
    decide +kernel
  obtain ⟨code, c', hstatement, hleaves⟩ := CompileM.exists_of_run' hresult
  simp only [Prod.mk.injEq] at hleaves
  exact ⟨code, c', hstatement, hleaves⟩

/-- A function that comes back at once finds its arguments, and all registers are restored. -/
theorem library_call_returns : ∃ code c' m1 addr m' front back,
    CompileM.statement (.ofSource "f(y + 1, 7);" {}) = .ok code c' ∧
      code.instrs = front ++ ⟨.call, [.label "f"]⟩ :: back ∧
      Exec.steps front.length callMachine = .ok () m1 ∧
      m1.memory.read32 (m1.get .esp) = .ok (callMachine.memory.wordAt 0x1100 + 1) ∧
      m1.memory.read32 (m1.get .esp + 4) = .ok 7 ∧
      Exec.steps back.length (m1.goto addr) = .ok () m' ∧ ∀ r, m'.get r = callMachine.get r := by
  obtain ⟨code, c', hstatement, hcode, hdiagnostics, hframe⟩ := statement_callArguments
  have hquiet : Compiler.Quiet (.ofSource "f(y + 1, 7);" {}) c' :=
    ⟨[], hdiagnostics.trans (by decide +kernel), rfl⟩
  obtain ⟨front, back, hitems, hcall⟩ := @library_call "f" callArguments _ _ _ []
    (Compiler.sound_ofScan _ _ _) hstatement hquiet (by decide +kernel) (by decide +kernel)
  have hfaces : callMachine.Faces (code.placed fun _ => 0x1080) callBytes := by
    rw [hcode]
    refine ⟨by decide +kernel, Memory.hasBytes_put (by decide) fun a hlow hhigh => ?_⟩
    exact Memory.isMapped_map hlow (Nat.lt_of_lt_of_le hhigh (by decide))
  rw [hframe] at hcall
  obtain ⟨m1, hfront, harguments, addr, seen, entry, -, -, -, -, hreturns⟩ :=
    hcall _ callMachine _ hfaces caller_callMachine
  obtain ⟨m', hback, hget, -⟩ := hreturns (m1.goto addr) ⟨rfl, fun _ _ => rfl, .refl _ _⟩
  have hzero : m1.get .esp + UInt32.ofNat (4 * 0) = m1.get .esp := UInt32.add_zero _
  have hfirst := harguments 0 (by decide)
  rw [hzero] at hfirst
  exact ⟨code, c', m1, addr, m', front, back, hstatement, hitems, hfront, hfirst,
    harguments 1 (by decide), hback, hget⟩

end C

end Ia32

import Ia32.Proofs.C.Values

/-!
# Compiled statements follow the interpreter

While a function runs, the stack pointer tells how much room is left, the words of the
variables lie between it and the frame pointer, and the registers for the arguments of
system calls are zero. Every statement leads from such a state to the state that the
interpreter gives, or ends the process as the interpreter does, and leaves the stack above
its own frame alone.
-/

namespace Ia32.C

open Asm Assembler

/-- A machine in front of code of a function whose activation has the given words. -/
structure State (p : Program) (textBase : UInt32) (mem : Memory) (r : Routine) (room : Nat)
    (vars : Vars) (output : Bytes) (rest : List Item) (m : Machine) : Prop where
  place : At p textBase rest m
  alive : Alive mem m
  sees : Sees r vars m
  output : m.output.toList = output
  esp : (m.get .esp).toNat = stackBottom + room
  frame : 0 < r.frame.size → (m.get .ebp).toNat = (m.get .esp).toNat + r.frame.size
  top : stackBottom + room + r.frame.size ≤ stackEnd
  ebx : m.get .ebx = 0
  ecx : m.get .ecx = 0

/-- The stack above the frame of a function is as before. -/
structure Keeps (r : Routine) (m m' : Machine) : Prop where
  esp : m'.get .esp = m.get .esp
  ebp : m'.get .ebp = m.get .ebp
  memory : Memory.SameOutside imageLimit ((m.get .esp).toNat + r.frame.size) m.memory m'.memory

/-- A run that ends the process. -/
def Finishes (m : Machine) (status : Int) (output : Bytes) : Prop :=
  ∃ m', m.Reaches m' ∧ m'.exit = some status ∧ m'.output.toList = output

/-- A run to a state that suits what a computation gives, or to the end of the process. -/
def Follows {α : Type} (m : Machine) (goal : α → Bytes → Machine → Prop) :
    Except Int α × Bytes → Prop
  | (.ok a, output) => ∃ m', m.Reaches m' ∧ goal a output m'
  | (.error status, output) => Finishes m status output

/-- A run to the code behind some statements, with the words that they give. -/
abbrev Leads (p : Program) (textBase : UInt32) (mem : Memory) (r : Routine) (room : Nat)
    (rest : List Item) (m : Machine) : Except Int Vars × Bytes → Prop :=
  Follows m fun vars output m' => State p textBase mem r room vars output rest m' ∧ Keeps r m m'

section

variable {p : Program} {lines : List Line} {asm : Assembly} {target : String → UInt32}
variable {textBase dataBase : UInt32} {mem : Memory} {m m' m'' : Machine} {r : Routine}
variable {room : Nat} {vars : Vars} {output output' : Bytes} {rest rest' : List Item}
variable {functions : List String}

theorem Keeps.refl (r : Routine) (m : Machine) : Keeps r m m :=
  ⟨rfl, rfl, .refl _ _ _⟩

/-- What two stretches keep, both together keep. -/
theorem Keeps.trans (h : Keeps r m m') (h' : Keeps r m' m'') : Keeps r m m'' :=
  ⟨h'.esp.trans h.esp, h'.ebp.trans h.ebp, h.memory.trans (h.esp ▸ h'.memory)⟩

/-- What finishes from a state further on finishes from here. -/
theorem Finishes.of_reaches {status : Int} (h : m.Reaches m') (h' : Finishes m' status output) :
    Finishes m status output := by
  obtain ⟨m'', hreaches, hexit, houtput⟩ := h'
  exact ⟨m'', h.trans hreaches, hexit, houtput⟩

/-- What follows from a state further on follows from here. -/
theorem Follows.of_reaches {α : Type} {goal : α → Bytes → Machine → Prop}
    {result : Except Int α × Bytes}
    (h : m.Reaches m') (h' : Follows m' goal result) : Follows m goal result := by
  obtain ⟨result, output⟩ := result
  cases result with
  | error status => exact Finishes.of_reaches h h'
  | ok a =>
      obtain ⟨m'', hreaches, hgoal⟩ := h'
      exact ⟨m'', h.trans hreaches, hgoal⟩

/-- Going on behind a computation that goes through. -/
theorem Follows.next {α : Type} {goal goal' : α → Bytes → Machine → Prop}
    {result : Except Int α × Bytes} (h : Follows m goal result)
    (hgoal : ∀ a output m', goal a output m' → ∃ m'', m'.Reaches m'' ∧ goal' a output m'') :
    Follows m goal' result := by
  obtain ⟨result, output⟩ := result
  cases result with
  | error status => exact h
  | ok a =>
      obtain ⟨m', hreaches, h⟩ := h
      obtain ⟨m'', hreaches', h'⟩ := hgoal a output m' h
      exact ⟨m'', hreaches.trans hreaches', h'⟩

/-- The goal can be weakened. -/
theorem Follows.mono {α : Type} {goal goal' : α → Bytes → Machine → Prop}
    {result : Except Int α × Bytes} (h : Follows m goal result)
    (hgoal : ∀ a output m', goal a output m' → goal' a output m') : Follows m goal' result :=
  h.next fun a output m' hm' => ⟨m', .refl, hgoal a output m' hm'⟩

/-- A sequence follows the interpreter if its parts do. -/
theorem Follows.bind {α β : Type} {x : Effect α} {f : α → Effect β} {result : Except Int β × Bytes}
    {goal : α → Bytes → Machine → Prop} {goal' : β → Bytes → Machine → Prop}
    (hrun : (x >>= f).after output = some result)
    (hfirst : ∀ reached, x.after output = some reached → Follows m goal reached)
    (hsecond : ∀ a mid m', goal a mid m' → (f a).after mid = some result →
      Follows m' goal' result) :
    Follows m goal' result := by
  obtain ⟨result, output'⟩ := result
  rcases Effect.after_bind.mp hrun with ⟨status, hfail, rfl⟩ | ⟨a, mid, hok, hrest⟩
  · exact hfirst _ hfail
  · obtain ⟨m', hreaches, hgoal⟩ := hfirst _ hok
    exact .of_reaches hreaches (hsecond a mid m' hgoal hrest)

theorem Leads.of_reaches {result : Except Int Vars × Bytes} (h : m.Reaches m')
    (hkeeps : Keeps r m m') (h' : Leads p textBase mem r room rest m' result) :
    Leads p textBase mem r room rest m result :=
  Follows.of_reaches h (Follows.mono h' fun _ _ _ hgoal => ⟨hgoal.1, hkeeps.trans hgoal.2⟩)

/-- Statements one after another. -/
theorem Leads.bind {result : Except Int Vars × Bytes} {first : Effect Vars}
    {second : Vars → Effect Vars} (hrun : (first >>= second).after output = some result)
    (hfirst : ∀ reached, first.after output = some reached →
      Leads p textBase mem r room rest m reached)
    (hsecond : ∀ vars mid m', State p textBase mem r room vars mid rest m' →
      (second vars).after mid = some result → Leads p textBase mem r room rest' m' result) :
    Leads p textBase mem r room rest' m result :=
  Follows.bind hrun hfirst fun vars mid m' hgoal hrest =>
    (hsecond vars mid m' hgoal.1 hrest).mono fun _ _ _ hlast => ⟨hlast.1, hgoal.2.trans hlast.2⟩

/-! ### Keeping and changing the frame -/

/-- The words of the variables do not depend on the memory below the stack pointer. -/
theorem State.sees_same {low : Nat} (hs : State p textBase mem r room vars output rest m)
    (hebp : m'.get .ebp = m.get .ebp)
    (hmemory : Memory.SameOutside low (m.get .esp).toNat m.memory m'.memory) : Sees r vars m' := by
  have hend : stackEnd = 0xBFFFF000 := rfl
  refine ⟨by rw [hebp]; exact hs.sees.low, by rw [hebp]; exact hs.sees.high, ?_⟩
  intro name w hname hw
  obtain ⟨-, hlow, hhigh, hbp, hroom⟩ := hs.sees.slot hname
  have hindex := List.idxOf_lt_length_of_mem hname
  have hsize : r.frame.size = 4 * r.frame.locals.length := Nat.mul_comm _ _
  have hframe := hs.frame (by omega)
  rw [address_slot_congr hebp, hmemory.wordAt (by omega) (.inr (by omega))]
  exact hs.sees.vars name w hname hw

/-- Memory changed below the stack pointer, and scratch registers. -/
theorem State.same (hs : State p textBase mem r room vars output rest m)
    (hat : At p textBase rest' m') (hexit : m'.exit = none) (houtput : m'.output.toList = output')
    (hget : ∀ d ∈ [.esp, .ebp, .ebx, .ecx], m'.get d = m.get d)
    (hmemory : Memory.SameOutside imageLimit (m.get .esp).toNat m.memory m'.memory) :
    State p textBase mem r room vars output' rest' m' ∧ Keeps r m m' := by
  have hesp := hget .esp (by decide)
  have hebp := hget .ebp (by decide)
  have hkept := hs.alive.kept.trans (hmemory.mono (Nat.le_refl _)
    (Nat.le_of_lt (m.get .esp).toNat_lt))
  have hsees := hs.sees_same hebp hmemory
  refine ⟨⟨hat, ⟨hkept, hexit⟩, hsees, houtput, hesp ▸ hs.esp, ?_, hs.top, ?_, ?_⟩, hesp, hebp, ?_⟩
  · rw [hesp, hebp]
    exact hs.frame
  · exact (hget .ebx (by decide)).trans hs.ebx
  · exact (hget .ecx (by decide)).trans hs.ecx
  · exact hmemory.mono (Nat.le_refl _) (Nat.le_add_right _ _)

/-- Code that uses the two scratch registers keeps the state of a routine. -/
theorem State.goes (hs : State p textBase mem r room vars output rest m)
    (hgoes : Goes p textBase [.eax, .edx] m rest' m') :
    State p textBase mem r room vars output rest' m' ∧ Keeps r m m' := by
  refine hs.same hgoes.place (hgoes.exit.trans hs.alive.exit)
    (by rw [hgoes.output]; exact hs.output) (fun d hd => hgoes.get d ?_) ?_
  · revert d
    decide
  · rw [hgoes.memory]
    exact .refl _ _ _

/-- Variables have words of their own. -/
theorem Sees.disjoint (h : Sees r vars m) {name other : String} (hname : name ∈ r.frame.locals)
    (hother : other ∈ r.frame.locals) (hne : other ≠ name) :
    (m.address (r.frame.slot other)).toNat + 4 ≤ (m.address (r.frame.slot name)).toNat ∨
      (m.address (r.frame.slot name)).toNat + 4 ≤ (m.address (r.frame.slot other)).toNat := by
  have hindex : r.frame.locals.idxOf other ≠ r.frame.locals.idxOf name :=
    fun heq => hne ((List.idxOf_inj hother).mp heq)
  obtain ⟨hplace, -⟩ := h.slot hname
  obtain ⟨hplace', -⟩ := h.slot hother
  omega

/-- A word stored into a variable, with memory changed below the stack pointer before. -/
theorem State.assign (hs : State p textBase mem r room vars output rest m) {name : String}
    (hname : name ∈ r.frame.locals) {w : UInt32} {mem' : Memory}
    (hmemory : Memory.SameOutside imageLimit (m.get .esp).toNat m.memory mem')
    (hmapped : mem'.MappedFrom (m.address (r.frame.slot name)) 4)
    (hput : m'.memory = mem'.put (m.address (r.frame.slot name)) (Word.toBytes w))
    (hat : At p textBase rest' m') (hexit : m'.exit = none) (houtput : m'.output.toList = output')
    (hget : ∀ d ∈ [.esp, .ebp, .ebx, .ecx], m'.get d = m.get d) :
    State p textBase mem r room (vars.set name w) output' rest' m' ∧ Keeps r m m' := by
  obtain ⟨hlimit, hbottom, hend⟩ := places
  have hesp := hget .esp (by decide)
  have hebp := hget .ebp (by decide)
  have hespNat := hs.esp
  obtain ⟨-, hlow, hhigh, hbp, hroom⟩ := hs.sees.slot hname
  have hindex := List.idxOf_lt_length_of_mem hname
  have hsize : r.frame.size = 4 * r.frame.locals.length := Nat.mul_comm _ _
  have hframe := hs.frame (by omega)
  have hword := @Memory.sameOutside_put_word mem' (m.address (r.frame.slot name)) (by omega) w
  rw [← hput] at hword
  have hkeeps :
      Memory.SameOutside imageLimit ((m.get .esp).toNat + r.frame.size) m.memory m'.memory :=
    (hmemory.mono (Nat.le_refl _) (by omega)).trans (hword.mono (by omega) (by omega))
  -- the other variables lie beside the word, and all of them above the stack pointer
  have hsees : Sees r (vars.set name w) m' := by
    refine ⟨by rw [hebp]; exact hs.sees.low, by rw [hebp]; exact hs.sees.high, ?_⟩
    intro other v hother hv
    rw [address_slot_congr hebp]
    by_cases hne : other = name
    · subst hne
      rw [Vars.set, if_pos rfl] at hv
      cases hv
      rw [hput, Memory.wordAt_put hmapped]
    · rw [Vars.set, if_neg hne] at hv
      obtain ⟨-, hlow', hhigh', -, hroom'⟩ := hs.sees.slot hother
      rw [hword.wordAt (by omega) (hs.sees.disjoint hname hother hne),
        hmemory.wordAt (by omega) (.inr (by omega))]
      exact hs.sees.vars other v hother hv
  refine ⟨⟨hat, ⟨?_, hexit⟩, hsees, houtput, hesp ▸ hs.esp, ?_, hs.top, ?_, ?_⟩, hesp, hebp, hkeeps⟩
  · exact hs.alive.kept.trans (hkeeps.mono (Nat.le_refl _) (by omega))
  · rw [hesp, hebp]
    exact hs.frame
  · exact (hget .ebx (by decide)).trans hs.ebx
  · exact (hget .ecx (by decide)).trans hs.ecx

/-! ### System calls -/

/-- A machine between a system call and the restoring of the registers that another machine
had before it. -/
structure Trapped (m : Machine) (w : UInt32) (output : Bytes) (m' : Machine) : Prop where
  eax : m'.get .eax = w
  ebp : m'.get .ebp = m.get .ebp
  esp : (m'.get .esp).toNat + 32 = (m.get .esp).toNat
  memory : Memory.SameOutside (m'.get .esp).toNat (m.get .esp).toNat m.memory m'.memory
  words : m'.memory.WordsAt (m'.get .esp) (Exec.savedOrder.map m.get)
  exit : m'.exit = none
  output : m'.output.toList = output

/-- A run to the code behind a system call, with its result. -/
abbrev Traps (p : Program) (textBase : UInt32) (mem : Memory) (rest : List Item) (m : Machine) :
    Except Int UInt32 × Bytes → Prop :=
  Follows m fun w output m' => At p textBase rest m' ∧ Alive mem m' ∧ Trapped m w output m'

/-- A trap may be followed by code that touches the accumulator only. -/
theorem Trapped.same {w w' : UInt32} (h : Trapped m w output m') (heax : m''.get .eax = w')
    (hesp : m''.get .esp = m'.get .esp) (hebp : m''.get .ebp = m'.get .ebp)
    (hmemory : m''.memory = m'.memory) (hexit : m''.exit = m'.exit)
    (houtput : m''.output.toList = output') : Trapped m w' output' m'' := by
  refine ⟨heax, hebp.trans h.ebp, ?_, ?_, ?_, hexit.trans h.exit, houtput⟩
  · rw [hesp]
    exact h.esp
  · rw [hesp, hmemory]
    exact h.memory
  · rw [hesp, hmemory]
    exact h.words

/-- Saving all registers in front of a trap has room on the stack. -/
theorem Loaded.pusha (h : Loaded p lines asm target textBase dataBase mem) (hm : Alive mem m)
    (hlow : stackBottom + 32 ≤ (m.get .esp).toNat) (hhigh : (m.get .esp).toNat ≤ stackEnd)
    (hat : At p textBase (.instr ⟨.pusha, []⟩ :: rest) m) :
    ∃ m', m.Reaches m' ∧ At p textBase rest m' ∧ Trapped m (m.get .eax) m.output.toList m' ∧
      m'.get .ebx = m.get .ebx ∧ m'.get .ecx = m.get .ecx := by
  have hmapped : ∀ a : UInt32, stackBottom ≤ a.toNat → a.toNat < (m.get .esp).toNat →
      m.memory.isMapped a = true := by
    intro a ha ha'
    rw [hm.kept.isMapped]
    exact h.stack a ha (by omega)
  obtain ⟨m', hperform⟩ :=
    @Exec.exists_pusha (m.past (Item.instr ⟨.pusha, []⟩).size) m.eip stackBottom
    hmapped hlow
  have hpushed := Exec.pushed_of_pusha (by simp only [Machine.get_past]; omega) hperform
  have heip : m'.eip = (m.past (Item.instr ⟨.pusha, []⟩).size).eip := by
    rw [hpushed.others]
    rfl
  have hexit : m'.exit = m.exit := by
    rw [hpushed.others]
    rfl
  have houtput : m'.output = m.output := by
    rw [hpushed.others]
    rfl
  refine ⟨m', .single (h.steps hm.kept hat .pusha hm.exit hperform),
    ⟨hat.past.suffix, heip.trans hat.past.eip⟩, ?_, hpushed.get (by decide),
    hpushed.get (by decide)⟩
  exact ⟨hpushed.get (by decide), hpushed.get (by decide), hpushed.esp, hpushed.memory,
    hpushed.words, hexit.trans hm.exit, by rw [houtput]⟩

/-- Restoring the registers gives all of them back, if memory has changed above them only. -/
theorem Trapped.restore (h : Loaded p lines asm target textBase dataBase mem) {w : UInt32}
    {high : Nat}
    (htrapped : Trapped m w output m') (hm : Alive mem m'') (hget : m''.get .esp = m'.get .esp)
    (hsame : Memory.SameOutside (m.get .esp).toNat high m'.memory m''.memory)
    (hat : At p textBase (.instr ⟨.popa, []⟩ :: rest) m'') :
    ∃ last, m''.Reaches last ∧ At p textBase rest last ∧ last.memory = m''.memory ∧
      last.exit = none ∧ last.output = m''.output ∧ ∀ d, last.get d = m.get d := by
  have hesp := htrapped.esp
  have hlt := (m.get .esp).toNat_lt
  have hlength : (Exec.savedOrder.map m.get).length = 8 := rfl
  have hwords : m''.memory.WordsAt (m''.get .esp) (Exec.savedOrder.map m.get) := by
    rw [hget]
    exact htrapped.words.same hsame (.inl (by omega)) (by omega)
  have hperform := @Exec.perform_popa (m''.past (Item.instr ⟨.popa, []⟩).size) m''.eip (m.get .eax)
    (m.get .ecx) (m.get .edx) (m.get .ebx) (m.get .esp) (m.get .ebp) (m.get .esi) (m.get .edi)
    hwords
  have hback : m''.get .esp + 32 = m.get .esp := by
    apply UInt32.toNat_inj.mp
    rw [hget, ← hesp]
    exact @Memory.toNat_add_of_lt (m'.get .esp) 32 (by omega)
  refine ⟨_, .single (h.steps hm.kept hat .popa hm.exit hperform),
    ⟨hat.past.suffix, hat.past.eip⟩, rfl, hm.exit, rfl, fun d => ?_⟩
  cases d with
  | esp => exact hback
  | _ => rfl

/-- Bytes of the data segment are found in memory. -/
theorem Loaded.read_data (h : Loaded p lines asm target textBase dataBase mem)
    (hkept : Kept mem m.memory) {addr : UInt32} {length : Nat} {bytes : Bytes}
    (hread : (World.mk p dataBase).read addr length = some bytes) :
    m.memory.read addr length = .ok bytes := by
  have hdata : (World.mk p dataBase).data = asm.data := h.built.data.symm
  have hlimit : imageLimit = 0x80000000 := rfl
  have hend := h.dataEnd
  unfold World.read at hread
  split at hread
  next hinside =>
    cases hread
    rw [hdata] at hinside ⊢
    -- the bytes behind the last one of the data are the zeros that fill its page
    have hlength : ((List.range length).map fun i =>
        asm.data.getD (addr.toNat - dataBase.toNat + i) 0).length = length := by simp
    have hbytes := @Memory.hasBytes_of_get? m.memory addr ((List.range length).map fun i =>
      asm.data.getD (addr.toNat - dataBase.toNat + i) 0) (by
        intro i hi
        rw [hlength] at hi
        have hinside := hinside.resolve_left (by omega)
        obtain ⟨hlow, hhigh⟩ := hinside
        have hlow : dataBase.toNat ≤ addr.toNat := hlow
        have hhigh : addr.toNat + length ≤ dataBase.toNat + Abi.wholePages asm.data.length := hhigh
        have hnat := @Memory.toNat_add_of_lt addr i (by omega)
        have hplace : addr + UInt32.ofNat i =
            dataBase + UInt32.ofNat (addr.toNat - dataBase.toNat + i) := by
          apply UInt32.toNat_inj.mp
          rw [hnat, Memory.toNat_add_of_lt (by omega)]
          omega
        rw [hkept.get? (.inl (by omega)), hplace, h.data _ (by omega)]
        simp [hi])
    have := Memory.read_of_hasBytes hbytes
    rwa [hlength] at this
  next => cases hread

/-- What a system call can lead to. -/
theorem Trap.after_run {world : World} {constants : List String} {t : Trap}
    {result : Except Int UInt32}
    (hrun : (t.run world constants vars room).after output = some (result, output')) :
    ∃ ws, t.arguments.mapM (Expr.eval world constants vars) = some ws ∧ trapCost ≤ room ∧
      ((t.number = Abi.sysExit ∧ result = .error (Word.toSigned (ws.getD 0 0)) ∧ output' = output) ∨
        (t.number = Abi.sysWrite ∧ result = .ok (ws.getD 1 0) ∧
          ∃ bytes, world.read (ws.getD 0 0) (ws.getD 1 0).toNat = some bytes ∧
            output' = output ++ bytes) ∨
        (t.number = Abi.sysGetpid ∧ result = .ok 1 ∧ output' = output)) := by
  unfold Trap.run at hrun
  obtain ⟨ws, harguments, hrun⟩ := Effect.after_ofOption_bind.mp hrun
  obtain ⟨_, hroom, hrun⟩ := Effect.after_ofOption_bind.mp hrun
  obtain ⟨hroom, -⟩ := Option.ite_none_right_eq_some.mp hroom
  refine ⟨ws, harguments, hroom, ?_⟩
  dsimp only at hrun
  split at hrun
  next hexit =>
    cases hrun
    exact .inl ⟨hexit, rfl, rfl⟩
  next =>
  split at hrun
  next hwrite =>
    obtain ⟨bytes, hread, hrun⟩ := Effect.after_ofOption_bind.mp hrun
    cases hrun
    exact .inr (.inl ⟨hwrite, rfl, _, hread, rfl⟩)
  next =>
  split at hrun
  next hpid =>
    cases hrun
    exact .inr (.inr ⟨hpid, rfl, rfl⟩)
  next => simp at hrun

/-- A system call of the machine, behind the instruction that makes it. -/
theorem Loaded.trap (h : Loaded p lines asm target textBase dataBase mem) (hm : Alive mem m)
    (hat : At p textBase (.instr ⟨.int, [.imm Abi.syscallVector]⟩ :: rest) m)
    (hcall : Exec.syscall (m.past (Item.instr ⟨.int, [.imm Abi.syscallVector]⟩).size) = .ok () m') :
    m.Reaches m' :=
  .single (h.steps hm.kept hat .trap hm.exit ((Exec.perform_int _).trans hcall))

/-- The process ends with the status in its register. -/
theorem Loaded.finishes (h : Loaded p lines asm target textBase dataBase mem) (hm : Alive mem m)
    (hat : At p textBase (.instr ⟨.int, [.imm Abi.syscallVector]⟩ :: rest) m)
    (heax : (m.get .eax).toNat = Abi.sysExit) (houtput : m.output.toList = output) :
    Finishes m (Word.toSigned (m.get .ebx)) output := by
  have hcall := Exec.syscall_eq (m.past (Item.instr ⟨.int, [.imm Abi.syscallVector]⟩).size)
  rw [Machine.get_past, Machine.get_past, if_pos heax] at hcall
  exact ⟨_, h.trap hm hat hcall, rfl, houtput⟩

/-- Code that ends the process with a status. -/
theorem Loaded.exits (h : Loaded p lines asm target textBase dataBase mem) (hm : Alive mem m)
    {status : Operand String} {w : UInt32} (hw : m.value (status.resolve target) = .ok w)
    (houtput : m.output.toList = output)
    (hat : At p textBase ((Code.exit status).items ++ rest) m) :
    Finishes m (Word.toSigned w) output := by
  obtain ⟨m₁, hgoes₁, hebx⟩ := h.load hm hat hw
  obtain ⟨m₂, hgoes₂, heax⟩ := h.load (hm.goes hgoes₁) hgoes₁.place
    (congrArg Except.ok (Word.ofInt_natCast Abi.sysExit))
  have heax : m₂.get .eax = UInt32.ofNat Abi.sysExit := heax
  have hgoes : Goes p textBase [.eax, .ebx] m _ m₂ :=
    (hgoes₁.mono (by decide)).trans (hgoes₂.mono (by decide))
  have hebx : m₂.get .ebx = w := by rw [hgoes₂.get .ebx (by decide), hebx]
  rw [← hebx]
  exact .of_reaches hgoes.reaches (h.finishes (hm.goes hgoes) hgoes.place (by rw [heax]; rfl)
    (by rw [hgoes.output, houtput]))

/-- A trap changes no memory but that below the stack pointer. -/
theorem Trapped.same_image {w : UInt32} (hs : State p textBase mem r room vars output rest m)
    (h : Trapped m w output' m') :
    Memory.SameOutside imageLimit (m.get .esp).toNat m.memory m'.memory := by
  have hlimit : imageLimit = 0x80000000 := rfl
  have hbottom : stackBottom = 0xBFEFF000 := rfl
  have hesp := hs.esp
  have hesp' := h.esp
  exact h.memory.mono (by omega) (Nat.le_refl _)

/-- A process that is not ended by its trap stays alive. -/
theorem Trapped.alive {w : UInt32} (hs : State p textBase mem r room vars output rest m)
    (h : Trapped m w output' m') : Alive mem m' :=
  ⟨hs.alive.kept.trans
    ((h.same_image hs).mono (Nat.le_refl _) (Nat.le_of_lt (m.get .esp).toNat_lt)), h.exit⟩

/-- Each of some arguments suits the frame if all of them do. -/
theorem suits_furtherArguments {frame : Frame} {es : List Expr}
    (h : (furtherArguments es).Suits functions frame) :
    ∀ e ∈ es, e.piece.Suits functions frame := by
  induction es with
  | nil => simp
  | cons e es ih =>
      obtain ⟨hfirst, hrest⟩ := Piece.Suits.of_append h
      exact List.forall_mem_cons.mpr ⟨hfirst.of_append.2, ih hrest⟩

/-- In front of the trap all registers are saved, and those of the system call have its number
and its arguments. -/
theorem Trap.prepares (h : Loaded p lines asm target textBase dataBase mem) (hr : r ∈ p.routines)
    {t : Trap} (hsuits : t.piece.Suits functions r.frame)
    (hs : State p textBase mem r room vars output ((t.code r.frame).items ++ rest) m)
    (hroom : trapCost ≤ room) {ws : List UInt32}
    (hws : t.arguments.mapM (Expr.eval ⟨p, dataBase⟩ r.constants vars) = some ws) :
    ∃ m', m.Reaches m' ∧ At p textBase (.instr ⟨.int, [.imm Abi.syscallVector]⟩ :: rest) m' ∧
      Alive mem m' ∧ Trapped m (UInt32.ofNat t.number) output m' ∧ m'.get .ebx = ws.getD 0 0 ∧
      m'.get .ecx = ws.getD 1 0 := by
  have hcost : trapCost = 32 := rfl
  have hesp := hs.esp
  have htop := hs.top
  have hat := hs.place
  simp only [Trap.code, Code.items_append, Code.items_instr, List.append_assoc,
    List.singleton_append] at hat
  obtain ⟨m₁, hreaches₁, hat₁, htrapped₁, hebx₁, hecx₁⟩ :=
    h.pusha hs.alive (by omega) (by omega) hat
  have halive₁ := htrapped₁.alive hs
  have hsees₁ := hs.sees_same htrapped₁.ebp htrapped₁.memory
  obtain ⟨m₂, hgoes₂, hget₂⟩ := goes_argumentCode h hr (by decide) halive₁ hsees₁
    (suits_furtherArguments hsuits.of_append.1.of_append.2) hws hat₁
  obtain ⟨m₃, hgoes₃, heax₃⟩ := h.load (halive₁.goes hgoes₂) hgoes₂.place
    (congrArg Except.ok (Word.ofInt_natCast t.number))
  have hgoes : Goes p textBase [.eax, .ebx, .ecx] m₁ _ m₃ :=
    hgoes₂.trans (hgoes₃.mono (by decide))
  have houtput : m₃.output.toList = output := by
    rw [hgoes.output, htrapped₁.output, hs.output]
  refine ⟨m₃, hreaches₁.trans hgoes.reaches, hgoes.place, halive₁.goes hgoes, ?_, ?_, ?_⟩
  · exact htrapped₁.same heax₃ (hgoes.get .esp (by decide)) (hgoes.get .ebp (by decide))
      hgoes.memory
      hgoes.exit houtput
  -- a register without an argument is still zero
  · rw [hgoes₃.get .ebx (by decide), hget₂ 0 .ebx rfl, hebx₁, hs.ebx]
  · rw [hgoes₃.get .ecx (by decide), hget₂ 1 .ecx rfl, hecx₁, hs.ecx]

/-- The code of a system call, up to its result. -/
theorem Trap.leads (h : Loaded p lines asm target textBase dataBase mem) (hr : r ∈ p.routines)
    {t : Trap} (hsuits : t.piece.Suits functions r.frame)
    (hs : State p textBase mem r room vars output ((t.code r.frame).items ++ rest) m)
    {result : Except Int UInt32 × Bytes}
    (hrun : (t.run ⟨p, dataBase⟩ r.constants vars room).after output = some result) :
    Traps p textBase mem rest m result := by
  obtain ⟨result, output'⟩ := result
  obtain ⟨ws, hws, hroom, hcases⟩ := Trap.after_run hrun
  obtain ⟨m₁, hreaches, hat, halive, htrapped, hebx, hecx⟩ := Trap.prepares h hr hsuits hs hroom hws
  have heax := htrapped.eax
  have houtput := htrapped.output
  have hcall := Exec.syscall_eq (m₁.past (Item.instr ⟨.int, [.imm Abi.syscallVector]⟩).size)
  simp only [Machine.get_past, Machine.memory_past, Machine.output_past, heax, hebx, hecx] at hcall
  refine .of_reaches hreaches ?_
  rcases hcases with ⟨hnumber, rfl, rfl⟩ | ⟨hnumber, rfl, bytes, hread, rfl⟩ | ⟨hnumber, rfl, rfl⟩
  · rw [← hebx]
    exact h.finishes halive hat (by rw [heax, hnumber]; rfl) houtput
  · rw [hnumber, if_neg (by decide), if_pos (by decide), h.read_data halive.kept hread] at hcall
    refine ⟨_, h.trap halive hat hcall, ⟨hat.past.suffix, hat.past.eip⟩,
      ⟨halive.kept, halive.exit⟩, ?_⟩
    exact htrapped.same rfl rfl rfl rfl rfl (by simp [houtput])
  · rw [hnumber, if_neg (by decide), if_neg (by decide), if_pos (by decide)] at hcall
    refine ⟨_, h.trap halive hat hcall, ⟨hat.past.suffix, hat.past.eip⟩,
      ⟨halive.kept, halive.exit⟩, ?_⟩
    exact htrapped.same rfl rfl rfl rfl rfl houtput

/-! ### Simple statements -/

/-- A store has its value in the accumulator if the instruction cannot take it directly. -/
theorem store_eq (place : Mem) (value : Operand String) :
    ∃ before src, (Code.store (.slot place) value).items =
        before ++ [.instr ⟨.mov, [.mem place, src]⟩] ∧
      (before = [] ∧ src = value ∨
        before = [.instr ⟨.mov, [.reg .eax, value]⟩] ∧ src = .reg .eax) := by
  cases value with
  | mem other => exact ⟨_, _, rfl, .inr ⟨rfl, rfl⟩⟩
  | _ => exact ⟨[], _, rfl, .inl ⟨rfl, rfl⟩⟩

/-- The slot of a variable is mapped. -/
theorem Loaded.mappedSlot (h : Loaded p lines asm target textBase dataBase mem) (hm : Alive mem m)
    (hsees : Sees r vars m) {name : String} (hname : name ∈ r.frame.locals) :
    m.memory.MappedFrom (m.address (r.frame.slot name)) 4 := by
  obtain ⟨-, hlow, hhigh, hend, -⟩ := hsees.slot hname
  exact h.mappedFrom hm.kept hlow (Nat.le_trans hhigh hend)

/-- A value is stored into the word of a variable. -/
theorem Loaded.store (h : Loaded p lines asm target textBase dataBase mem) (hm : Alive mem m)
    (hsees : Sees r vars m) {name : String} (hname : name ∈ r.frame.locals) {value : Operand String}
    {w : UInt32} (hw : m.value (value.resolve target) = .ok w)
    (hat : At p textBase ((Code.store (.slot (r.frame.slot name)) value).items ++ rest) m) :
    ∃ m', Moves p textBase [.eax] m rest m' ∧
      m'.memory = m.memory.put (m.address (r.frame.slot name)) (Word.toBytes w) := by
  have hmapped := h.mappedSlot hm hsees hname
  obtain ⟨before, src, hitems, hcases⟩ := store_eq (r.frame.slot name) value
  rw [hitems, List.append_assoc] at hat
  rcases hcases with ⟨rfl, rfl⟩ | ⟨rfl, rfl⟩
  · obtain ⟨m₁, hmoves, hmemory⟩ := h.save hm hat hw hmapped
    exact ⟨m₁, hmoves.mono (by simp), hmemory⟩
  · obtain ⟨m₁, hgoes, heax⟩ := h.load hm hat hw
    have haddress := address_slot_congr (hgoes.get .ebp (by decide)) r.frame name
    obtain ⟨m₂, hmoves, hmemory⟩ := h.save (hm.goes hgoes) hgoes.place (congrArg Except.ok heax)
      (by rw [haddress, hgoes.memory]; exact hmapped)
    rw [haddress, hgoes.memory] at hmemory
    exact ⟨m₂, hgoes.toMoves.trans (hmoves.mono (by simp)), hmemory⟩

/-- Storing a right-hand side into a variable. -/
theorem Rhs.leads (h : Loaded p lines asm target textBase dataBase mem) (hr : r ∈ p.routines)
    {value : Rhs} (hsuits : value.piece.Suits functions r.frame) {name : String}
    (hname : name ∈ r.frame.locals)
    (hs : State p textBase mem r room vars output
      ((value.code r.frame (.slot (r.frame.slot name))).items ++ rest) m)
    {result : Except Int Vars × Bytes}
    (hrun : ((value.run ⟨p, dataBase⟩ r.constants vars room) >>= fun w =>
      (pure (vars.set name w) : Effect Vars)).after output = some result) :
    Leads p textBase mem r room rest m result := by
  have hat := hs.place
  cases value with
  | expr e =>
      obtain ⟨w, hw, hrun⟩ := Effect.after_ofOption_bind.mp hrun
      cases hrun
      simp only [Rhs.code, Code.items_append, List.append_assoc] at hat
      obtain ⟨m₁, hgoes, hvalue⟩ := Expr.goes h hr hs.alive hs.sees hsuits hw hat
      obtain ⟨m₂, hmoves, hmemory⟩ := h.store (hs.alive.goes hgoes) (hs.sees.goes hgoes (by decide))
        hname hvalue hgoes.place
      rw [address_slot_congr (hgoes.get .ebp (by decide)), hgoes.memory] at hmemory
      have hmoves := hgoes.toMoves.trans hmoves
      have houtput : m₂.output.toList = output := by rw [hmoves.output, hs.output]
      obtain ⟨hstate, hkeeps⟩ := hs.assign hname (.refl _ _ _)
        (h.mappedSlot hs.alive hs.sees hname) hmemory hmoves.place
        (hmoves.exit.trans hs.alive.exit) houtput (fun d hd => hmoves.get d (by revert d; decide))
      exact ⟨m₂, hmoves.reaches, hstate, hkeeps⟩
  | trap t =>
      simp only [Rhs.code, Code.items_append, List.append_assoc] at hat
      have hs : State p textBase mem r room vars output ((t.code r.frame).items ++ _) m :=
        { hs with place := hat }
      refine Follows.bind hrun (fun _ => Trap.leads h hr hsuits hs) ?_
      rintro w output' m₁ ⟨hat₁, halive₁, htrapped⟩ hrun
      cases hrun
      have hsees₁ := hs.sees_same htrapped.ebp htrapped.memory
      have hvalue : m₁.value (Operand.resolve target (.reg Abi.accumulator)) = .ok w :=
        congrArg Except.ok htrapped.eax
      obtain ⟨m₂, hmoves, hmemory⟩ := h.store halive₁ hsees₁ hname hvalue hat₁
      rw [address_slot_congr htrapped.ebp] at hmemory
      -- the word of the variable lies above the saved registers
      obtain ⟨hlimit, hbottom, hend⟩ := places
      obtain ⟨-, hlow, hhigh, hbp, hsize⟩ := hs.sees.slot hname
      have hframe := hs.frame (by omega)
      have hword :=
        @Memory.sameOutside_put_word m₁.memory (m.address (r.frame.slot name)) (by omega) w
      rw [← hmemory] at hword
      have halive₂ : Alive mem m₂ :=
        ⟨halive₁.kept.trans (hword.mono (by omega) (by omega)), hmoves.exit.trans halive₁.exit⟩
      obtain ⟨m₃, hreaches₃, hat₃, hmemory₃, hexit₃, houtput₃, hget₃⟩ := htrapped.restore h halive₂
        (hmoves.get .esp (by decide)) (hword.mono (by omega) (Nat.le_refl _)) hmoves.place
      rw [hmemory] at hmemory₃
      have houtput : m₃.output.toList = output' := by
        rw [houtput₃, hmoves.output, htrapped.output]
      have hmapped := h.mappedSlot halive₁ hsees₁ hname
      rw [address_slot_congr htrapped.ebp] at hmapped
      obtain ⟨hstate, hkeeps⟩ := hs.assign hname (htrapped.same_image hs) hmapped hmemory₃ hat₃
        hexit₃ houtput (fun d _ => hget₃ d)
      exact ⟨m₃, hmoves.reaches.trans hreaches₃, hstate, hkeeps⟩

/-- The statements that are no calls. -/
theorem Simple.leads (h : Loaded p lines asm target textBase dataBase mem) (hr : r ∈ p.routines)
    {s : Simple} (hsuits : s.piece.Suits functions r.frame)
    (hs : State p textBase mem r room vars output ((s.code functions r.frame).items ++ rest) m)
    {result : Except Int Vars × Bytes}
    (hrun : (s.run ⟨p, dataBase⟩ r.constants vars room).after output = some result) :
    Leads p textBase mem r room rest m result := by
  cases s with
  | declare type name | constant type name content =>
      cases hrun
      exact ⟨m, .refl, hs, .refl _ _⟩
  | declareWith type name value | assign name value =>
      obtain ⟨hvalue, hname⟩ := hsuits.of_append.1.of_append.2.of_append
      exact Rhs.leads h hr hvalue hname.assigned hs hrun
  | storeThrough pointer value => simp [Simple.run] at hrun
  | exit status =>
      cases status with
      | none =>
          cases hrun
          exact h.exits hs.alive rfl hs.output hs.place
      | some e =>
          obtain ⟨w, hw, hrun⟩ := Effect.after_ofOption_bind.mp hrun
          cases hrun
          have hat := hs.place
          simp only [Simple.code, Code.items_append, List.append_assoc] at hat
          have hsuits := hsuits.of_append.1.of_append.2
          obtain ⟨m₁, hgoes, hvalue⟩ := Expr.goes h hr hs.alive hs.sees hsuits hw hat
          exact Finishes.of_reaches hgoes.reaches (h.exits (hs.alive.goes hgoes) hvalue
            (by rw [hgoes.output, hs.output]) hgoes.place)
  | trap t =>
      have hat := hs.place
      simp only [Simple.code, Code.items_append, List.append_assoc] at hat
      have hs : State p textBase mem r room vars output ((t.code r.frame).items ++ _) m :=
        { hs with place := hat }
      have hsuits := hsuits.of_append.1
      refine Follows.bind hrun (fun _ => Trap.leads h hr hsuits hs) ?_
      rintro w output' m₁ ⟨hat₁, halive₁, htrapped⟩ hrun
      cases hrun
      obtain ⟨m₂, hreaches₂, hat₂, hmemory₂, hexit₂, houtput₂, hget₂⟩ := htrapped.restore h halive₁
        rfl (.refl _ (m.get .esp).toNat _) hat₁
      obtain ⟨hstate, hkeeps⟩ := hs.same hat₂ hexit₂ (by rw [houtput₂, htrapped.output])
        (fun d _ => hget₂ d) (by rw [hmemory₂]; exact htrapped.same_image hs)
      exact ⟨m₂, hreaches₂, hstate, hkeeps⟩
  | call name arguments => simp [Simple.run] at hrun

end

end Ia32.C

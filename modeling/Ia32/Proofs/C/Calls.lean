import Ia32.Proofs.C.Flow
import Ia32.Proofs.C.Simulation

/-!
# Compiled functions

A function saves the frame pointer of its caller and makes room for its variables. When its
statements have gone through, it gives both back, and the stack above the place where it was
entered is as before. A call pushes the place behind it, which the return takes from there.
-/

namespace Ia32.C

open Asm Assembler

/-- The code at the end of a function. -/
def Routine.finish (r : Routine) : List Item :=
  (if r.function.name = "main" then Code.exit (.imm 0) else .instr .ret []).items

/-- The code of the statements of a function. -/
def Routine.statements (functions : List String) (r : Routine) : List Item :=
  (r.function.body.code functions r.frame r.branches r.loops).items

theorem Routine.tail_of_pos {functions : List String} {r : Routine} (h : 0 < r.frame.size) :
    r.tail functions = (CompileM.prologue r.frame.size).items ++ (r.statements functions ++
      (CompileM.epilogue.items ++ r.finish)) := by
  rw [Routine.tail, if_pos h]
  simp [Routine.statements, Routine.finish]

theorem Routine.tail_of_eq_zero {functions : List String} {r : Routine} (h : r.frame.size = 0) :
    r.tail functions = r.statements functions ++ r.finish := by
  rw [Routine.tail, if_neg (by omega)]
  rfl

theorem items_prologue (size : Nat) : (CompileM.prologue size).items =
    [.instr ⟨.push, [.reg .ebp]⟩, .instr ⟨.mov, [.reg .ebp, .reg .esp]⟩,
      .instr ⟨.sub, [.reg .esp, .imm size]⟩] := rfl

theorem items_epilogue : CompileM.epilogue.items =
    [.instr ⟨.mov, [.reg .esp, .reg .ebp]⟩, .instr ⟨.pop, [.reg .ebp]⟩] := rfl

/-- A machine that can enter a function, with some room left of the stack. -/
structure Ready (mem : Memory) (room : Nat) (output : Bytes) (m : Machine) : Prop where
  alive : Alive mem m
  output : m.output.toList = output
  esp : (m.get .esp).toNat = stackBottom + room
  top : stackBottom + room ≤ stackEnd
  ebx : m.get .ebx = 0
  ecx : m.get .ecx = 0

/-- A machine that has the stack and the registers of another one but for what is below the
stack pointer. -/
structure Returned (m : Machine) (output : Bytes) (m' : Machine) : Prop where
  get : ∀ d ∈ [.esp, .ebp, .ebx, .ecx], m'.get d = m.get d
  memory : Memory.SameOutside imageLimit (m.get .esp).toNat m.memory m'.memory
  exit : m'.exit = none
  output : m'.output.toList = output

section

variable {p : Program} {lines : List Line} {asm : Assembly} {target : String → UInt32}
variable {textBase dataBase : UInt32} {mem : Memory} {m m' m'' : Machine} {r : Routine}
variable {room inner : Nat} {vars : Vars} {output output' : Bytes} {rest rest' after : List Item}
variable {functions : List String} {item : Item}

/-! ### Instructions that move the stack pointer -/

/-- Where a push goes. -/
theorem toNat_push (hlow : stackBottom + 4 ≤ (m.get .esp).toNat) :
    (m.get .esp - 4).toNat + 4 = (m.get .esp).toNat := by
  have hnat := @Memory.toNat_sub_of_le (m.get .esp) 4 (by omega)
  have hnat : (m.get .esp - 4).toNat = (m.get .esp).toNat - 4 := hnat
  omega

/-- A push has room on the stack. -/
theorem Loaded.push_reg (h : Loaded p lines asm target textBase dataBase mem) (hm : Alive mem m)
    (hlow : stackBottom + 4 ≤ (m.get .esp).toNat) (hhigh : (m.get .esp).toNat ≤ stackEnd) {d : Reg}
    (hat : At p textBase (.instr ⟨.push, [.reg d]⟩ :: rest) m) :
    ∃ m', Moves p textBase [.esp] m rest m' ∧ m'.get .esp = m.get .esp - 4 ∧
      m'.memory = m.memory.put (m.get .esp - 4) (Word.toBytes (m.get d)) := by
  have hnat := toNat_push hlow
  have hmapped :=
    @Loaded.mappedFrom _ _ _ _ _ _ _ m h hm.kept (m.get .esp - 4) 4 (by omega) (by omega)
  have hperform : Exec.perform m.eip ⟨.push, [.reg d]⟩
      (m.past (Item.instr ⟨.push, [.reg d]⟩).size) = .ok () _ :=
    Exec.perform_push_reg.mpr ⟨hmapped, rfl⟩
  refine ⟨_, ⟨.single (h.steps hm.kept hat (.push d) hm.exit hperform), ?_, ?_, ?_, ?_⟩, ?_, ?_⟩
  · refine ⟨hat.past.suffix, ?_⟩
    rw [Machine.eip_set, Machine.eip_poke]
    exact hat.past.eip
  · rw [Machine.output_set, Machine.output_poke, Machine.output_past]
  · rw [Machine.exit_set, Machine.exit_poke, Machine.exit_past]
  · intro s hs
    rw [Machine.get_set_of_ne _ _ (by simpa using hs), Machine.get_poke, Machine.get_past]
  · rw [Machine.get_set_self, Machine.get_past]
  · rw [Machine.memory_set, Machine.memory_poke, Machine.get_past, Machine.get_past,
      Machine.memory_past]

/-- A call pushes the address of the code behind it. -/
theorem Loaded.call (h : Loaded p lines asm target textBase dataBase mem) (hm : Alive mem m)
    (hlow : stackBottom + 4 ≤ (m.get .esp).toNat) (hhigh : (m.get .esp).toNat ≤ stackEnd)
    {name : String} (hat : At p textBase (.instr ⟨.call, [.label name]⟩ :: rest) m)
    (htarget : .label name :: rest' <:+ p.code.items) :
    ∃ m', Moves p textBase [.esp] m rest' m' ∧ m'.get .esp = m.get .esp - 4 ∧
      m'.memory = m.memory.put (m.get .esp - 4) (Word.toBytes (addressOf p textBase rest)) := by
  have hnat := toNat_push hlow
  have hmapped :=
    @Loaded.mappedFrom _ _ _ _ _ _ _ m h hm.kept (m.get .esp - 4) 4 (by omega) (by omega)
  have hperform : Exec.perform m.eip ⟨.call, [.label (target name)]⟩
      (m.past (Item.instr ⟨.call, [.label name]⟩).size) = .ok () _ :=
    Exec.perform_call.mpr ⟨hmapped, rfl⟩
  refine ⟨_, ⟨.single (h.steps hm.kept hat (.call name) hm.exit hperform), ?_, ?_, ?_, ?_⟩, ?_, ?_⟩
  · exact ⟨suffix_of_cons htarget, h.target_eq htarget⟩
  · rw [Machine.output_goto, Machine.output_set, Machine.output_poke, Machine.output_past]
  · rw [Machine.exit_goto, Machine.exit_set, Machine.exit_poke, Machine.exit_past]
  · intro s hs
    rw [Machine.get_goto, Machine.get_set_of_ne _ _ (by simpa using hs), Machine.get_poke,
      Machine.get_past]
  · rw [Machine.get_goto, Machine.get_set_self, Machine.get_past]
  · rw [Machine.memory_goto, Machine.memory_set, Machine.memory_poke, hat.past.eip,
      Machine.get_past, Machine.memory_past]

/-- A pop takes the word on top of the stack. -/
theorem Loaded.pop_reg (h : Loaded p lines asm target textBase dataBase mem) (hm : Alive mem m)
    {d : Reg} (hd : d ≠ .esp) (hat : At p textBase (.instr ⟨.pop, [.reg d]⟩ :: rest) m) {w : UInt32}
    (hw : m.memory.read32 (m.get .esp) = .ok w) :
    ∃ m', Goes p textBase [.esp, d] m rest m' ∧ m'.get d = w ∧ m'.get .esp = m.get .esp + 4 := by
  have hperform : Exec.perform m.eip ⟨.pop, [.reg d]⟩
      (m.past (Item.instr ⟨.pop, [.reg d]⟩).size) = .ok () _ :=
    Exec.perform_pop_reg.mpr ⟨w, hw, rfl⟩
  refine ⟨_, ⟨⟨.single (h.steps hm.kept hat (.pop d) hm.exit hperform),
    ⟨hat.past.suffix, hat.past.eip⟩, rfl, rfl, ?_⟩, rfl⟩, Machine.get_set_self _ _ _, ?_⟩
  · intro s hs
    simp only [List.mem_cons, List.not_mem_nil, or_false, not_or] at hs
    rw [Machine.get_set_of_ne _ _ hs.2, Machine.get_set_of_ne _ _ hs.1, Machine.get_past]
  · rw [Machine.get_set_of_ne _ _ hd.symm, Machine.get_set_self, Machine.get_past]

/-- A return goes to the code whose address is on top of the stack. -/
theorem Loaded.ret (h : Loaded p lines asm target textBase dataBase mem) (hm : Alive mem m)
    (hat : At p textBase (.instr ⟨.ret, []⟩ :: rest) m) (hsuffix : rest' <:+ p.code.items)
    (hw : m.memory.read32 (m.get .esp) = .ok (addressOf p textBase rest')) :
    ∃ m', Goes p textBase [.esp] m rest' m' ∧ m'.get .esp = m.get .esp + 4 := by
  have hperform : Exec.perform m.eip ⟨.ret, []⟩ (m.past (Item.instr ⟨.ret, []⟩).size) = .ok () _ :=
    Exec.perform_ret.mpr ⟨_, hw, rfl⟩
  refine ⟨_, ⟨⟨.single (h.steps hm.kept hat .ret hm.exit hperform), ⟨hsuffix, rfl⟩, rfl, rfl, ?_⟩,
    rfl⟩, ?_⟩
  · intro s hs
    rw [Machine.get_goto, Machine.get_set_of_ne _ _ (by simpa using hs), Machine.get_past]
  · rw [Machine.get_goto, Machine.get_set_self, Machine.get_past]

/-! ### Entering and leaving a function -/

/-- A function without variables needs nothing. -/
theorem Ready.state_of_eq_zero (h : Ready mem room output m) (hsize : r.frame.size = 0)
    (hat : At p textBase rest m) : State p textBase mem r room vars output rest m := by
  refine ⟨hat, h.alive, ⟨by omega, by omega, ?_⟩, h.output, h.esp, by omega, ?_, h.ebx, h.ecx⟩
  · intro name w hname
    have hindex := List.idxOf_lt_length_of_mem hname
    have hlength : r.frame.size = 4 * r.frame.locals.length := Nat.mul_comm _ _
    omega
  · rw [hsize]
    exact h.top

/-- Setting up a frame. -/
theorem Ready.prologue (h : Loaded p lines asm target textBase dataBase mem)
    (hm : Ready mem room output m) (hsize : 0 < r.frame.size) (hroom : 4 + r.frame.size ≤ room)
    (hvars : ∀ name w, vars name = some w → ∀ addr : UInt32, imageLimit ≤ addr.toNat →
      addr.toNat + 8 ≤ (m.get .esp).toNat → m.memory.wordAt addr = w)
    (hat : At p textBase ((CompileM.prologue r.frame.size).items ++ rest) m) :
    ∃ m', m.Reaches m' ∧
      State p textBase mem r (room - (4 + r.frame.size)) vars output rest m' ∧
      m'.get .ebp = m.get .esp - 4 ∧
      m'.memory = m.memory.put (m.get .esp - 4) (Word.toBytes (m.get .ebp)) := by
  obtain ⟨hlimit, hbottom, hend⟩ := places
  have hesp := hm.esp
  have htop := hm.top
  have hpush := @toNat_push m (by omega)
  rw [items_prologue] at hat
  -- the caller's frame pointer is pushed, the frame pointer set, and the frame taken off the stack
  obtain ⟨m₁, hmoves₁, hesp₁, hmemory₁⟩ := h.push_reg hm.alive (by omega) (by omega) hat
  have hword := @Memory.sameOutside_put_word m.memory (m.get .esp - 4) (by omega) (m.get .ebp)
  rw [← hmemory₁] at hword
  have halive₁ : Alive mem m₁ := ⟨hm.alive.kept.trans (hword.mono (by omega) (by omega)),
    hmoves₁.exit.trans hm.alive.exit⟩
  obtain ⟨m₂, hgoes₂, hebp₂⟩ := h.load halive₁ hmoves₁.place rfl
  obtain ⟨m₃, hgoes₃, hesp₃⟩ := h.alu (halive₁.goes hgoes₂) (.inr rfl) hgoes₂.place
    (congrArg Except.ok (Word.ofInt_natCast r.frame.size))
  have hesp₃ : m₃.get .esp = m₂.get .esp - UInt32.ofNat r.frame.size := hesp₃
  have hgoes : Goes p textBase [.esp, .ebp] m₁ rest m₃ :=
    (hgoes₂.mono (by decide)).trans (hgoes₃.mono (by decide))
  have hmoves := (hmoves₁.mono (by decide)).trans hgoes.toMoves
  have hebp : m₃.get .ebp = m.get .esp - 4 := by rw [hgoes₃.get .ebp (by decide), hebp₂, hesp₁]
  rw [hgoes₂.get .esp (by decide), hesp₁] at hesp₃
  have hespNat : (m₃.get .esp).toNat + r.frame.size = (m.get .esp - 4).toNat := by
    rw [hesp₃]
    have := @Memory.toNat_sub_of_le (m.get .esp - 4) r.frame.size (by omega)
    omega
  have hempty : Sees r (fun _ => none) m₃ :=
    ⟨by rw [hebp]; omega, by rw [hebp]; omega, fun _ _ _ hw => by cases hw⟩
  have hsees : Sees r vars m₃ := by
    refine ⟨hempty.low, hempty.high, fun name w hname hw => ?_⟩
    obtain ⟨-, hlow, hhigh, -⟩ := hempty.slot hname
    rw [hebp] at hhigh
    rw [hgoes.memory, hword.wordAt (by omega) (.inl (by omega))]
    exact hvars name w hw _ (by omega) (by omega)
  refine ⟨m₃, hmoves.reaches,
    ⟨hgoes.place, halive₁.goes hgoes, hsees, ?_, by omega, ?_, by omega, ?_, ?_⟩,
    hebp, hgoes.memory.trans hmemory₁⟩
  · rw [hmoves.output]
    exact hm.output
  · intro _
    rw [hebp]
    omega
  · exact (hmoves.get .ebx (by decide)).trans hm.ebx
  · exact (hmoves.get .ecx (by decide)).trans hm.ecx

/-- Giving the frame back. -/
theorem State.epilogue (h : Loaded p lines asm target textBase dataBase mem)
    (hm : Ready mem room output m) (hroom : 4 + r.frame.size ≤ room)
    (hebp : m'.get .ebp = m.get .esp - 4)
    (hmemory : m'.memory = m.memory.put (m.get .esp - 4) (Word.toBytes (m.get .ebp)))
    (hs : State p textBase mem r (room - (4 + r.frame.size)) vars output'
      (CompileM.epilogue.items ++ rest) m'')
    (hkeeps : Keeps r m' m'') :
    ∃ last, m''.Reaches last ∧ At p textBase rest last ∧ Returned m output' last := by
  obtain ⟨hlimit, hbottom, hend⟩ := places
  have hesp := hm.esp
  have htop := hm.top
  have hpush := @toNat_push m (by omega)
  have hesp' := hs.esp
  rw [hkeeps.esp] at hesp'
  have hbase : m''.get .ebp = m.get .esp - 4 := hkeeps.ebp.trans hebp
  -- the saved frame pointer lies right above the frame
  have hword := @Memory.sameOutside_put_word m.memory (m.get .esp - 4) (by omega) (m.get .ebp)
  rw [← hmemory] at hword
  have hsaved : m''.memory.read32 (m.get .esp - 4) = .ok (m.get .ebp) := by
    refine Memory.read32_eq_ok.mpr ⟨h.mappedFrom hs.alive.kept (by omega) (by omega), ?_⟩
    rw [hkeeps.memory.wordAt (by omega) (.inr (by omega)), hmemory,
      Memory.wordAt_put (h.mappedFrom hm.alive.kept (by omega) (by omega))]
  have hat := hs.place
  rw [items_epilogue] at hat
  obtain ⟨m₁, hgoes₁, hesp₁⟩ := h.load hs.alive hat rfl
  rw [hbase] at hesp₁
  obtain ⟨m₂, hgoes₂, hebp₂, hesp₂⟩ := h.pop_reg (hs.alive.goes hgoes₁) (by decide) hgoes₁.place
    (by rw [hesp₁, hgoes₁.memory]; exact hsaved)
  have hgoes : Goes p textBase [.esp, .ebp] m'' rest m₂ := (hgoes₁.mono (by decide)).trans hgoes₂
  refine ⟨m₂, hgoes.reaches, hgoes.place, ⟨?_, ?_, hgoes.exit.trans hs.alive.exit, ?_⟩⟩
  · intro d hd
    simp only [List.mem_cons, List.not_mem_nil, or_false] at hd
    rcases hd with rfl | rfl | rfl | rfl
    · rw [hesp₂, hesp₁, UInt32.sub_add_cancel]
    · exact hebp₂
    · rw [hgoes.get .ebx (by decide), hs.ebx, hm.ebx]
    · rw [hgoes.get .ecx (by decide), hs.ecx, hm.ecx]
  · rw [hgoes.memory]
    exact (hword.mono (by omega) (by omega)).trans (hkeeps.memory.mono (Nat.le_refl _) (by omega))
  · rw [hgoes.output]
    exact hs.output

/-- A function whose statements follow the interpreter comes to its end with the stack as
it was. -/
theorem Routine.follows (h : Loaded p lines asm target textBase dataBase mem)
    (hm : Ready mem room output m) (henter : r.enter room = some inner)
    (hvars : ∀ name w, vars name = some w → ∀ addr : UInt32, imageLimit ≤ addr.toNat →
      addr.toNat + 8 ≤ (m.get .esp).toNat → m.memory.wordAt addr = w)
    (hat : At p textBase (r.tail functions ++ after) m) {result : Except Int Vars × Bytes}
    (hbody : ∀ rest m',
      State p textBase mem r inner vars output (r.statements functions ++ rest) m' →
      Leads p textBase mem r inner rest m' result) :
    Follows m (fun _ output' m' => At p textBase (r.finish ++ after) m' ∧ Returned m output' m')
      result := by
  unfold Routine.enter at henter
  split at henter
  next hsize =>
    -- no frame is set up, and the body keeps the stack by itself
    cases henter
    rw [Routine.tail_of_eq_zero hsize, List.append_assoc] at hat
    refine (hbody _ m (hm.state_of_eq_zero hsize hat)).mono fun _ output' m' ⟨hs, hkeeps⟩ => ?_
    have hmemory := hkeeps.memory
    rw [hsize, Nat.add_zero] at hmemory
    refine ⟨hs.place, ⟨?_, hmemory, hs.alive.exit, hs.output⟩⟩
    intro d hd
    simp only [List.mem_cons, List.not_mem_nil, or_false] at hd
    rcases hd with rfl | rfl | rfl | rfl
    · exact hkeeps.esp
    · exact hkeeps.ebp
    · rw [hs.ebx, hm.ebx]
    · rw [hs.ecx, hm.ecx]
  next hsize =>
  obtain ⟨hroom, hinner⟩ := Option.ite_none_right_eq_some.mp henter
  cases hinner
  rw [Routine.tail_of_pos (Nat.pos_of_ne_zero hsize)] at hat
  simp only [List.append_assoc] at hat
  obtain ⟨m₁, hreaches₁, hs₁, hebp₁, hmemory₁⟩ :=
    hm.prologue h (Nat.pos_of_ne_zero hsize) hroom hvars hat
  exact .of_reaches hreaches₁ ((hbody _ m₁ hs₁).next fun _ _ _ ⟨hs₂, hkeeps⟩ =>
    hs₂.epilogue h hm hroom hebp₁ hmemory₁ hkeeps)

theorem Returned.alive (hm : Alive mem m) (h : Returned m output m') : Alive mem m' :=
  ⟨hm.kept.trans (h.memory.mono (Nat.le_refl _) (Nat.le_of_lt (m.get .esp).toNat_lt)), h.exit⟩

/-- The entry function ends the process. -/
theorem Returned.finishes (h : Loaded p lines asm target textBase dataBase mem) (hm : Alive mem m)
    (hreturned : Returned m output m') (hname : r.function.name = "main")
    (hat : At p textBase (r.finish ++ after) m') : Finishes m' 0 output := by
  rw [Routine.finish, if_pos hname] at hat
  exact h.exits (hreturned.alive hm) rfl hreturned.output hat

/-! ### Calls -/

/-- The code of a routine stands in the program, behind the label of its function. -/
theorem Program.suffix_tail {callee : Routine} (hcallee : callee ∈ p.routines) :
    ∃ after, .label (functionLabel callee.function.name) :: (callee.tail p.functions ++ after) <:+
      p.code.items := by
  obtain ⟨before, after, hitems⟩ := Program.exists_code_split hcallee
  exact ⟨after, before, hitems.symm⟩

/-- A return leads behind the call, with the frame as it was in front of it. -/
theorem State.returns (h : Loaded p lines asm target textBase dataBase mem)
    (hs : State p textBase mem r room vars output (item :: rest) m) (hroom : callCost ≤ room)
    (hmoves : Moves p textBase [.esp] m rest' m') (hesp' : m'.get .esp = m.get .esp - 4)
    (hmemory' : m'.memory =
      m.memory.put (m.get .esp - 4) (Word.toBytes (addressOf p textBase rest)))
    (hm' : Alive mem m') (hreturned : Returned m' output' m'')
    (hat : At p textBase (.instr ⟨.ret, []⟩ :: after) m'') :
    ∃ last, m''.Reaches last ∧ State p textBase mem r room vars output' rest last ∧
      Keeps r m last := by
  have hcost : callCost = 4 := rfl
  obtain ⟨hlimit, hbottom, hend⟩ := places
  have hesp := hs.esp
  have htop := hs.top
  have hpush := @toNat_push m (by omega)
  have hword := @Memory.sameOutside_put_word m.memory (m.get .esp - 4) (by omega)
    (addressOf p textBase rest)
  rw [← hmemory'] at hword
  have hesp'' : m''.get .esp = m.get .esp - 4 := (hreturned.get .esp (by decide)).trans hesp'
  have hmemory := hreturned.memory
  rw [hesp'] at hmemory
  have hm'' := hreturned.alive hm'
  have hread : m''.memory.read32 (m''.get .esp) = .ok (addressOf p textBase rest) := by
    rw [hesp'']
    refine Memory.read32_eq_ok.mpr ⟨h.mappedFrom hm''.kept (by omega) (by omega), ?_⟩
    rw [hmemory.wordAt (by omega) (.inr (Nat.le_refl _)), hmemory',
      Memory.wordAt_put (h.mappedFrom hs.alive.kept (by omega) (by omega))]
  obtain ⟨last, hgoes, hlast⟩ := h.ret hm'' hat (suffix_of_cons hs.place.suffix) hread
  refine ⟨last, hgoes.reaches, hs.same hgoes.place (hgoes.exit.trans hreturned.exit) ?_ ?_ ?_⟩
  · rw [hgoes.output, hreturned.output]
  · intro d hd
    by_cases hd' : d = .esp
    · subst hd'
      rw [hlast, hesp'', UInt32.sub_add_cancel]
    · rw [hgoes.get d (by simpa using hd'), hreturned.get d hd, hmoves.get d (by simpa using hd')]
  · rw [hgoes.memory]
    exact (hword.mono (by omega) (by omega)).trans (hmemory.mono (Nat.le_refl _) (by omega))

/-- A call whose callee follows the interpreter comes back with the frame as it was, unless
the callee is the entry function. -/
theorem State.call (h : Loaded p lines asm target textBase dataBase mem) {callee : Routine}
    (hcallee : callee ∈ p.routines)
    (hs : State p textBase mem r room vars output
      (.instr ⟨.call, [.label (functionLabel callee.function.name)]⟩ :: rest) m)
    (hroom : callCost ≤ room) (henter : callee.enter (room - callCost) = some inner)
    {result : Except Int Vars × Bytes}
    (hbody : ∀ rest m', State p textBase mem callee inner (fun _ => none) output
        (callee.statements p.functions ++ rest) m' →
      Leads p textBase mem callee inner rest m' result) :
    Follows m (fun _ output' m' => if callee.function.name = "main" then Finishes m' 0 output'
      else State p textBase mem r room vars output' rest m' ∧ Keeps r m m') result := by
  have hcost : callCost = 4 := rfl
  obtain ⟨hlimit, hbottom, hend⟩ := places
  have hesp := hs.esp
  have htop := hs.top
  have hpush := @toNat_push m (by omega)
  obtain ⟨after, htail⟩ := Program.suffix_tail hcallee
  obtain ⟨m₁, hmoves, hesp₁, hmemory₁⟩ := h.call hs.alive (by omega) (by omega) hs.place htail
  have hword := @Memory.sameOutside_put_word m.memory (m.get .esp - 4) (by omega)
    (addressOf p textBase rest)
  rw [← hmemory₁] at hword
  have halive₁ : Alive mem m₁ := ⟨hs.alive.kept.trans (hword.mono (by omega) (by omega)),
    hmoves.exit.trans hs.alive.exit⟩
  have hready : Ready mem (room - callCost) output m₁ := by
    refine ⟨halive₁, by rw [hmoves.output, hs.output], ?_, by omega, ?_, ?_⟩
    · rw [hesp₁]
      omega
    · exact (hmoves.get .ebx (by decide)).trans hs.ebx
    · exact (hmoves.get .ecx (by decide)).trans hs.ecx
  refine .of_reaches hmoves.reaches ((Routine.follows h hready henter (fun _ _ hw => by cases hw)
    hmoves.place hbody).next fun _ output' m₂ ⟨hat₂, hreturned⟩ => ?_)
  split
  next hname => exact ⟨m₂, .refl, hreturned.finishes h halive₁ hname hat₂⟩
  next hname =>
    rw [Routine.finish, if_neg hname] at hat₂
    exact hs.returns h hroom hmoves hesp₁ hmemory₁ halive₁ hreturned hat₂

end

end Ia32.C

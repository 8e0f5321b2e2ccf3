import Ia32.Proofs.C.Semantics
import Ia32.Proofs.Machine.Flags

/-!
# Code of values

Compiled code computes the values of the interpreter. As long as the words of the variables
are where the frame has them, the code of an expression leaves its value in the operand
that stands for it, and the code of a condition leaves the flags of a comparison.
-/

namespace Ia32.C

open Asm Assembler

/-! ### Comparing -/

/-- Equal words, and only these, set the flag of a zero difference. -/
theorem holds_je (a b : UInt32) : (Flags.sub a b).2.holds .je = decide (a = b) := by
  rw [Bool.eq_iff_iff, decide_eq_true_iff]
  exact Flags.holds_sub_iff .je a b

/-- The flags of a difference tell which of two words is smaller in two's complement. -/
theorem holds_jge (a b : UInt32) :
    (Flags.sub a b).2.holds .jge = decide (¬Word.toSigned a < Word.toSigned b) := by
  rw [Bool.eq_iff_iff, decide_eq_true_iff, not_lt]
  exact Flags.holds_sub_iff .jge a b

/-! ### Moving along the code -/

/-- A run to a place in the code that changes some registers, the flags and perhaps the
memory. -/
structure Moves (p : Program) (textBase : UInt32) (rs : List Reg) (m : Machine) (rest : List Item)
    (m' : Machine) : Prop where
  reaches : m.Reaches m'
  place : At p textBase rest m'
  output : m'.output = m.output
  exit : m'.exit = m.exit
  get : ∀ r ∉ rs, m'.get r = m.get r

/-- Such a run that leaves the memory alone. -/
structure Goes (p : Program) (textBase : UInt32) (rs : List Reg) (m : Machine) (rest : List Item)
    (m' : Machine) : Prop extends Moves p textBase rs m rest m' where
  memory : m'.memory = m.memory

section

variable {p : Program} {lines : List Line} {asm : Assembly} {target : String → UInt32}
variable {textBase dataBase : UInt32} {mem : Memory} {m m' m'' : Machine} {r : Routine}
variable {rest rest' : List Item} {rs rs' : List Reg} {vars : Vars}

/-- Moves one behind the other. -/
theorem Moves.trans (h : Moves p textBase rs m rest m') (h' : Moves p textBase rs m' rest' m'') :
    Moves p textBase rs m rest' m'' :=
  ⟨h.reaches.trans h'.reaches, h'.place, h'.output.trans h.output, h'.exit.trans h.exit,
    fun r hr => (h'.get r hr).trans (h.get r hr)⟩

theorem Moves.mono (h : Moves p textBase rs m rest m') (hrs : rs ⊆ rs') :
    Moves p textBase rs' m rest m' :=
  ⟨h.reaches, h.place, h.output, h.exit, fun r hr => h.get r fun hmem => hr (hrs hmem)⟩

theorem Goes.refl (hat : At p textBase rest m) : Goes p textBase rs m rest m :=
  ⟨⟨.refl, hat, rfl, rfl, fun _ _ => rfl⟩, rfl⟩

/-- Stretches of code one behind the other. -/
theorem Goes.trans (h : Goes p textBase rs m rest m') (h' : Goes p textBase rs m' rest' m'') :
    Goes p textBase rs m rest' m'' :=
  ⟨h.toMoves.trans h'.toMoves, h'.memory.trans h.memory⟩

theorem Goes.mono (h : Goes p textBase rs m rest m') (hrs : rs ⊆ rs') :
    Goes p textBase rs' m rest m' :=
  ⟨h.toMoves.mono hrs, h.memory⟩

/-- A machine that can go on: the image is as it was loaded and the process has not ended. -/
structure Alive (mem : Memory) (m : Machine) : Prop where
  kept : Kept mem m.memory
  exit : m.exit = none

/-- A process stays alive through code that neither calls nor traps. -/
theorem Alive.goes (h : Alive mem m) (hgoes : Goes p textBase rs m rest m') : Alive mem m' :=
  ⟨by rw [hgoes.memory]; exact h.kept, hgoes.exit.trans h.exit⟩

/-- An instruction that sets a register and the flags goes on behind itself. -/
theorem Loaded.sets (h : Loaded p lines asm target textBase dataBase mem) (hm : Alive mem m)
    {i : Instr String} (hat : At p textBase (.instr i :: rest) m) (hexec : i.Executable) {d : Reg}
    {w : UInt32} {flags : Flags}
    (hperform : Exec.perform m.eip (i.resolve target) (m.past (Item.instr i).size) =
      .ok () (((m.past (Item.instr i).size).withFlags flags).set d w)) :
    ∃ m', Goes p textBase [d] m rest m' ∧ m'.get d = w := by
  refine ⟨_, ⟨⟨.single (h.steps hm.kept hat hexec hm.exit hperform), ?_, rfl, rfl, ?_⟩, rfl⟩,
    Machine.get_set_self _ _ _⟩
  · exact ⟨hat.past.suffix, hat.past.eip⟩
  · intro r hr
    exact Machine.get_set_of_ne _ _ (by simpa using hr)

/-- A move to a register is executed wherever the code is loaded. -/
theorem Loaded.load (h : Loaded p lines asm target textBase dataBase mem) (hm : Alive mem m)
    {d : Reg} {src : Operand String} (hat : At p textBase (.instr ⟨.mov, [.reg d, src]⟩ :: rest) m)
    {w : UInt32} (hw : m.value (src.resolve target) = .ok w) :
    ∃ m', Goes p textBase [d] m rest m' ∧ m'.get d = w :=
  h.sets hm hat (.load d src)
    (Exec.perform_mov_reg.mpr ⟨w, (m.value_past _ _).trans hw, (rfl : _ = (m.past _).set d w)⟩)

theorem Loaded.alu (h : Loaded p lines asm target textBase dataBase mem) (hm : Alive mem m)
    {op : Mnemonic} (hop : op = .add ∨ op = .sub) {d : Reg} {src : Operand String}
    (hat : At p textBase (.instr ⟨op, [.reg d, src]⟩ :: rest) m) {w : UInt32}
    (hw : m.value (src.resolve target) = .ok w) :
    ∃ m', Goes p textBase [d] m rest m' ∧ m'.get d = (Exec.alu op (m.get d) w).1 := by
  have hexec : Instr.Executable (⟨op, [.reg d, src]⟩ : Instr String) := by
    rcases hop with rfl | rfl
    · exact .add d src
    · exact .sub d src
  exact h.sets hm hat hexec ((Exec.perform_alu_reg hop).mpr ⟨w, (m.value_past _ _).trans hw, rfl⟩)

theorem Loaded.cmp (h : Loaded p lines asm target textBase dataBase mem) (hm : Alive mem m)
    {d : Reg} {src : Operand String} (hat : At p textBase (.instr ⟨.cmp, [.reg d, src]⟩ :: rest) m)
    {w : UInt32} (hw : m.value (src.resolve target) = .ok w) :
    ∃ m', Goes p textBase [] m rest m' ∧ m'.flags = (Flags.sub (m.get d) w).2 := by
  have hperform : Exec.perform m.eip ⟨.cmp, [.reg d, src.resolve target]⟩
      (m.past (Item.instr ⟨.cmp, [.reg d, src]⟩).size) = .ok () _ :=
    Exec.perform_cmp_reg.mpr ⟨w, (m.value_past _ _).trans hw, rfl⟩
  exact ⟨_, ⟨⟨.single (h.steps hm.kept hat (.cmp d src) hm.exit hperform),
    ⟨hat.past.suffix, hat.past.eip⟩, rfl, rfl, fun _ _ => rfl⟩, rfl⟩, rfl⟩

/-- A jump leads to its label or to the code behind it. -/
theorem Loaded.branch (h : Loaded p lines asm target textBase dataBase mem) (hm : Alive mem m)
    {op : Mnemonic} (hop : op = .jmp ∨ op = .je ∨ op = .jge) {name : String}
    (hat : At p textBase (.instr ⟨op, [.label name]⟩ :: rest) m)
    (htarget : .label name :: rest' <:+ p.code.items) :
    ∃ m', Goes p textBase [] m (if m.flags.holds op then rest' else rest) m' := by
  have hperform := @Exec.perform_jump m.eip op hop (target name)
    (m.past (Item.instr ⟨op, [.label name]⟩).size)
  have hsteps := h.steps hm.kept hat (.jump hop name) hm.exit hperform
  have hflags : (m.past (Item.instr ⟨op, [.label name]⟩).size).flags = m.flags := rfl
  rw [hflags] at hsteps
  cases hholds : m.flags.holds op with
  | true =>
      rw [hholds] at hsteps
      exact ⟨_, ⟨⟨.single hsteps, ⟨suffix_of_cons htarget, h.target_eq htarget⟩, rfl, rfl,
        fun _ _ => rfl⟩, rfl⟩⟩
  | false =>
      rw [hholds] at hsteps
      exact ⟨_, ⟨⟨.single hsteps, ⟨hat.past.suffix, hat.past.eip⟩, rfl, rfl, fun _ _ => rfl⟩, rfl⟩⟩

/-- A store into memory. -/
theorem Loaded.save (h : Loaded p lines asm target textBase dataBase mem) (hm : Alive mem m)
    {place : Mem} {src : Operand String}
    (hat : At p textBase (.instr ⟨.mov, [.mem place, src]⟩ :: rest) m)
    {w : UInt32} (hw : m.value (src.resolve target) = .ok w)
    (hmapped : m.memory.MappedFrom (m.address place) 4) :
    ∃ m', Moves p textBase [] m rest m' ∧
      m'.memory = m.memory.put (m.address place) (Word.toBytes w) := by
  have hperform : Exec.perform m.eip ⟨.mov, [.mem place, src.resolve target]⟩
      (m.past (Item.instr ⟨.mov, [.mem place, src]⟩).size) = .ok () _ :=
    Exec.perform_mov_mem.mpr ⟨w, (m.value_past _ _).trans hw, hmapped, rfl⟩
  refine ⟨_, ⟨.single (h.steps hm.kept hat (.save place src) hm.exit hperform), ?_, ?_, ?_, ?_⟩, ?_⟩
  · refine ⟨hat.past.suffix, ?_⟩
    rw [Machine.eip_poke]
    exact hat.past.eip
  · rw [Machine.output_poke, Machine.output_past]
  · rw [Machine.exit_poke, Machine.exit_past]
  · intro r _
    rw [Machine.get_poke, Machine.get_past]
  · rw [Machine.memory_poke]
    rfl

/-! ### Frames -/

/-- The words of the variables are where the frame has them. -/
structure Sees (r : Routine) (vars : Vars) (m : Machine) : Prop where
  low : 0 < r.frame.size → stackBottom + r.frame.size ≤ (m.get .ebp).toNat
  high : 0 < r.frame.size → (m.get .ebp).toNat ≤ stackEnd
  vars : ∀ name w, name ∈ r.frame.locals → vars name = some w →
    m.memory.wordAt (m.address (r.frame.slot name)) = w

theorem address_slot_congr (hebp : m'.get .ebp = m.get .ebp) (frame : Frame) (name : String) :
    m'.address (frame.slot name) = m.address (frame.slot name) := by
  change m'.get .ebp + _ = m.get .ebp + _
  rw [hebp]

/-- The values of variables are in memory, at places the frame pointer tells. -/
theorem Sees.congr (h : Sees r vars m) (hmemory : m'.memory = m.memory)
    (hebp : m'.get .ebp = m.get .ebp) : Sees r vars m' := by
  refine ⟨by rw [hebp]; exact h.low, by rw [hebp]; exact h.high, fun name w hname hw => ?_⟩
  rw [address_slot_congr hebp, hmemory]
  exact h.vars name w hname hw

/-- Code that leaves the frame pointer alone leaves the variables alone. -/
theorem Sees.goes (h : Sees r vars m) (hgoes : Goes p textBase rs m rest m') (hrs : .ebp ∉ rs) :
    Sees r vars m' :=
  h.congr hgoes.memory (hgoes.get _ hrs)

/-- Where a variable lies. -/
theorem Sees.slot (h : Sees r vars m) {name : String} (hname : name ∈ r.frame.locals) :
    (m.address (r.frame.slot name)).toNat + 4 * (r.frame.locals.idxOf name + 1) =
        (m.get .ebp).toNat ∧
      stackBottom ≤ (m.address (r.frame.slot name)).toNat ∧
      (m.address (r.frame.slot name)).toNat + 4 ≤ (m.get .ebp).toNat ∧
      (m.get .ebp).toNat ≤ stackEnd ∧
      (m.get .ebp).toNat ≤ (m.address (r.frame.slot name)).toNat + r.frame.size := by
  have hindex := List.idxOf_lt_length_of_mem hname
  have hsize : r.frame.size = 4 * r.frame.locals.length := Nat.mul_comm _ _
  have hlow := h.low (by omega)
  have hhigh := h.high (by omega)
  have hbottom : stackBottom = 0xBFEFF000 := rfl
  have hend : stackEnd = 0xBFFFF000 := rfl
  have haddress := @toNat_address_slotAt m (r.frame.locals.idxOf name) (by omega) (by omega)
  have haddress : (m.address (r.frame.slot name)).toNat =
    (m.get .ebp).toNat - 4 * (r.frame.locals.idxOf name + 1) := haddress
  omega

/-- The whole stack is mapped. -/
theorem Loaded.mappedFrom (h : Loaded p lines asm target textBase dataBase mem)
    (hkept : Kept mem m.memory) {addr : UInt32} {length : Nat} (hlow : stackBottom ≤ addr.toNat)
    (hhigh : addr.toNat + length ≤ stackEnd) : m.memory.MappedFrom addr length := by
  have hend : stackEnd = 0xBFFFF000 := rfl
  refine Memory.mappedFrom_of_isMapped (by omega) fun a ha ha' => ?_
  rw [hkept.isMapped]
  exact h.stack a (by omega) (by omega)

/-! ### Values -/

/-- A constant stands behind the constants with other names. -/
theorem constants_eq_of_mem {constants : List (String × String)} {name : String}
    (h : name ∈ constants.map Prod.fst) :
    ∃ content back, constants =
      constants.takeWhile (fun constant => constant.1 ≠ name) ++ (name, content) :: back := by
  induction constants with
  | nil => cases h
  | cons constant constants ih =>
      by_cases heq : constant.1 = name
      · subst heq
        exact ⟨constant.2, constants, by simp⟩
      · have hmem : name ∈ constants.map Prod.fst := by
          simpa [Ne.symm heq] using h
        obtain ⟨content, back, hback⟩ := ih hmem
        refine ⟨content, back, ?_⟩
        rw [List.takeWhile_cons, if_pos (by simpa using heq), List.cons_append, ← hback]

/-- The label of a constant stands for its address. -/
theorem Loaded.target_constant (h : Loaded p lines asm target textBase dataBase mem)
    (hr : r ∈ p.routines) {name : String} (hname : name ∈ r.constants) :
    target name = (World.mk p dataBase).address name := by
  have hmem : name ∈ p.constants.map Prod.fst := by
    simpa using Program.mem_constants_routinesFrom hr hname
  obtain ⟨content, back, hconstants⟩ := constants_eq_of_mem hmem
  exact h.built.constant hconstants

variable {functions : List String}

/-- The operand of a primary has its value. -/
theorem Primary.value_operand (h : Loaded p lines asm target textBase dataBase mem)
    (hr : r ∈ p.routines) (hkept : Kept mem m.memory) (hsees : Sees r vars m) {a : Primary}
    (hsuits : a.piece.Suits functions r.frame) {w : UInt32}
    (hw : a.eval ⟨p, dataBase⟩ r.constants vars = some w) :
    m.value ((a.operand r.frame).resolve target) = .ok w := by
  cases a with
  | number value =>
      cases hw
      exact congrArg Except.ok (Word.ofInt_natCast value)
  | named name =>
      have hconstants : r.frame.constants = r.constants := rfl
      simp only [Primary.eval] at hw
      simp only [Primary.operand, Frame.operand, hconstants]
      split at hw
      next hname =>
        cases hw
        rw [if_pos hname]
        exact congrArg Except.ok (h.target_constant hr hname)
      next hname =>
        have hlocal : name ∈ r.frame.locals :=
          (hsuits.of_append.2.names name List.mem_cons_self).resolve_left hname
        obtain ⟨-, hlow, hhigh, hend, -⟩ := hsees.slot hlocal
        rw [if_neg hname]
        exact Memory.read32_eq_ok.mpr
          ⟨h.mappedFrom hkept hlow (Nat.le_trans hhigh hend), (hsees.vars name w hlocal hw).symm⟩

/-- Additions add up in the accumulator. -/
theorem goes_additionCode (h : Loaded p lines asm target textBase dataBase mem) {addends : List Nat}
    (hm : Alive mem m) (hat : At p textBase ((additionCode addends).items ++ rest) m) :
    ∃ m', Goes p textBase [.eax] m rest m' ∧ m'.get .eax =
      addends.foldl (fun sum value => sum + UInt32.ofNat value) (m.get .eax) := by
  induction addends generalizing m with
  | nil => exact ⟨m, .refl hat, rfl⟩
  | cons value addends ih =>
      obtain ⟨m₁, hgoes₁, heax₁⟩ :=
        h.alu hm (.inl rfl) hat (congrArg Except.ok (Word.ofInt_natCast value))
      obtain ⟨m₂, hgoes₂, heax₂⟩ := ih (hm.goes hgoes₁) hgoes₁.place
      have heax₁ : m₁.get .eax = m.get .eax + UInt32.ofNat value := heax₁
      exact ⟨m₂, hgoes₁.trans hgoes₂, by rw [heax₂, heax₁, List.foldl_cons]⟩

/-- The code of an expression leaves its value in its operand. -/
theorem Expr.goes (h : Loaded p lines asm target textBase dataBase mem) (hr : r ∈ p.routines)
    (hm : Alive mem m) (hsees : Sees r vars m) {e : Expr} (hsuits : e.piece.Suits functions r.frame)
    {w : UInt32} (hw : e.eval ⟨p, dataBase⟩ r.constants vars = some w)
    (hat : At p textBase ((e.value r.frame).code.items ++ rest) m) :
    ∃ m', Goes p textBase [.eax] m rest m' ∧
      m'.value ((e.value r.frame).operand.resolve target) = .ok w := by
  obtain ⟨first, hfirst, rfl⟩ := Option.map_eq_some_iff.mp hw
  have hvalue := Primary.value_operand h hr hm.kept hsees hsuits.of_append.1 hfirst
  by_cases hempty : e.addends.isEmpty = true
  · rw [Expr.value, if_pos hempty] at hat ⊢
    rw [List.isEmpty_iff.mp hempty]
    exact ⟨m, .refl hat, hvalue⟩
  · rw [Expr.value, if_neg hempty] at hat ⊢
    rw [Code.items_append, Code.items_instr, List.append_assoc, List.singleton_append] at hat
    obtain ⟨m₁, hgoes₁, heax₁⟩ := h.load hm hat hvalue
    obtain ⟨m₂, hgoes₂, heax₂⟩ := goes_additionCode h (hm.goes hgoes₁) hgoes₁.place
    have heax₁ : m₁.get .eax = first := heax₁
    rw [heax₁] at heax₂
    exact ⟨m₂, hgoes₁.trans hgoes₂, congrArg Except.ok heax₂⟩

/-- The arguments of a system call get into their registers. -/
theorem goes_argumentCode (h : Loaded p lines asm target textBase dataBase mem)
    (hr : r ∈ p.routines)
    {regs : List Reg} (hregs : (.eax :: .ebp :: regs).Nodup) {es : List Expr} (hm : Alive mem m)
    (hsees : Sees r vars m) (hsuits : ∀ e ∈ es, e.piece.Suits functions r.frame) {ws : List UInt32}
    (hws : es.mapM (Expr.eval ⟨p, dataBase⟩ r.constants vars) = some ws)
    (hat : At p textBase ((argumentCode r.frame regs es).items ++ rest) m) :
    ∃ m', Goes p textBase (.eax :: regs) m rest m' ∧
      ∀ k d, regs[k]? = some d → m'.get d = ws.getD k (m.get d) := by
  induction regs generalizing m es ws with
  | nil => exact ⟨m, .refl hat, fun k d hd => by cases hd⟩
  | cons d regs ih =>
      simp only [List.nodup_cons, List.mem_cons, not_or] at hregs
      obtain ⟨⟨-, had, haregs⟩, ⟨hbd, hbregs⟩, hd, hnodup⟩ := hregs
      cases es with
      | nil =>
          cases hws
          exact ⟨m, .refl hat, fun k d' _ => rfl⟩
      | cons e es =>
          obtain ⟨hsuit, hsuits⟩ := List.forall_mem_cons.mp hsuits
          simp only [List.mapM_cons, Option.bind_eq_bind, Option.bind_eq_some_iff] at hws
          obtain ⟨w, hw, ws, hws, hcons⟩ := hws
          cases hcons
          simp only [argumentCode, Code.items_append, Code.items_instr, List.append_assoc,
            List.singleton_append] at hat
          obtain ⟨m₁, hgoes₁, hvalue⟩ := Expr.goes h hr hm hsees hsuit hw hat
          obtain ⟨m₂, hgoes₂, hload⟩ := h.load (hm.goes hgoes₁) hgoes₁.place hvalue
          have hgoes : Goes p textBase [.eax, d] m _ m₂ :=
            (hgoes₁.mono (by simp)).trans (hgoes₂.mono (by simp))
          have hsees₂ := hsees.goes hgoes (by simp [hbd])
          obtain ⟨m₃, hgoes₃, hget⟩ := ih (by simp [haregs, hbregs, hnodup]) (hm.goes hgoes) hsees₂
            hsuits hws hgoes.place
          refine ⟨m₃, (hgoes.mono ?_).trans (hgoes₃.mono ?_), fun k d' hd' => ?_⟩
          · simp
          · simp
          cases k with
          | zero =>
              -- the code of the other arguments leaves this register alone
              cases hd'
              rw [hgoes₃.get d (by simp [Ne.symm had, hd]), hload]
              rfl
          | succ k =>
              have hmem : d' ∈ regs := List.mem_of_getElem? hd'
              have hne : d' ∉ [.eax, d] := by
                simp only [List.mem_cons, List.not_mem_nil, or_false]
                rintro (rfl | rfl)
                · exact haregs hmem
                · exact hd hmem
              rw [hget k d' hd', hgoes.get d' hne]
              rfl

/-- A comparison has its first operand in the accumulator, and the second one as it is or in another
register. -/
theorem compare_eq (lhs rhs : Operand String) :
    ∃ before src, (Code.compare lhs rhs).items = .instr ⟨.mov, [.reg .eax, lhs]⟩ ::
        (before ++ [.instr ⟨.cmp, [.reg .eax, src]⟩]) ∧
      (before = [] ∧ src = rhs ∨
        before = [.instr ⟨.mov, [.reg .edx, rhs]⟩] ∧ src = .reg .edx) := by
  cases rhs with
  | label name => exact ⟨_, _, rfl, .inr ⟨rfl, rfl⟩⟩
  | _ => exact ⟨[], _, rfl, .inl ⟨rfl, rfl⟩⟩

/-- The code of a condition leaves the flags of a comparison. -/
theorem Test.goes (h : Loaded p lines asm target textBase dataBase mem) (hr : r ∈ p.routines)
    (hm : Alive mem m) (hsees : Sees r vars m) {test : Test}
    (hleft : test.left.piece.Suits functions r.frame)
    (hright : test.right.piece.Suits functions r.frame) {a b : UInt32}
    (ha : test.left.eval ⟨p, dataBase⟩ r.constants vars = some a)
    (hb : test.right.eval ⟨p, dataBase⟩ r.constants vars = some b)
    (hat : At p textBase ((test.code r.frame).items ++ rest) m) :
    ∃ m', Goes p textBase [.eax, .edx] m rest m' ∧ m'.flags = (Flags.sub a b).2 := by
  have hvalue := Primary.value_operand h hr hm.kept hsees hleft ha
  obtain ⟨before, src, hitems, hcases⟩ := compare_eq (test.left.operand r.frame)
    (test.right.operand r.frame)
  rw [Test.code, hitems, List.cons_append] at hat
  obtain ⟨m₁, hgoes₁, heax⟩ := h.load hm hat hvalue
  have hsees₁ := hsees.goes hgoes₁ (by decide)
  have hm₁ := hm.goes hgoes₁
  have hvalue' := Primary.value_operand h hr hm₁.kept hsees₁ hright hb
  rcases hcases with ⟨rfl, rfl⟩ | ⟨rfl, rfl⟩
  · obtain ⟨m₂, hgoes₂, hflags⟩ := h.cmp hm₁ hgoes₁.place hvalue'
    rw [heax] at hflags
    exact ⟨m₂, (hgoes₁.mono (by simp)).trans (hgoes₂.mono (by simp)), hflags⟩
  · obtain ⟨m₂, hgoes₂, hedx⟩ := h.load hm₁ hgoes₁.place hvalue'
    have hm₂ := hm₁.goes hgoes₂
    obtain ⟨m₃, hgoes₃, hflags⟩ := h.cmp hm₂ hgoes₂.place (congrArg Except.ok hedx)
    rw [hgoes₂.get .eax (by decide), heax] at hflags
    exact ⟨m₃,
      ((hgoes₁.mono (by simp)).trans (hgoes₂.mono (by simp))).trans (hgoes₃.mono (by simp)), hflags⟩

end

end Ia32.C

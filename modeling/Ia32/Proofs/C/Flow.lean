import Ia32.Proofs.C.Process

/-!
# Phases of compiled functions

The code of a function goes through phases that differ in what the stack holds: before the
frame is set up, inside the statements, between saving and restoring the registers around
a system call, at the end of the process. Every jump leads to a label among the statements,
every store goes to a variable, and behind every instruction there is another one unless
the function returns or the process ends.
-/

namespace Ia32.C

/-- What the registers and the top of the stack hold while a function runs. -/
inductive Phase where
  /-- There is no frame. -/
  | entered
  /-- The frame pointer of the caller is on top of the stack. -/
  | saved
  /-- So it is, and the frame pointer points to it. -/
  | framed
  /-- The frame is complete, if the function has one. -/
  | inside
  /-- All registers are on the stack as well. -/
  | trapped
  /-- The next instruction ends the process. -/
  | ending
  deriving DecidableEq, Repr

/-- The phase in which a function starts and from which it returns. -/
def Routine.outer (r : Routine) : Phase :=
  if r.frame.size = 0 then .inside else .entered

/-- Instructions that change a register other than those for the stack, or the flags. -/
inductive IsScratch : Instr String → Prop
  | load {r : Reg} (hesp : r ≠ .esp) (hebp : r ≠ .ebp) (src : Operand String) :
      IsScratch ⟨.mov, [.reg r, src]⟩
  | add {r : Reg} (hesp : r ≠ .esp) (hebp : r ≠ .ebp) (src : Operand String) :
      IsScratch ⟨.add, [.reg r, src]⟩
  | cmp (r : Reg) (src : Operand String) : IsScratch ⟨.cmp, [.reg r, src]⟩

/-- The instructions of a function, with the phases in front of them and behind them. Jumps
go to the given labels. -/
inductive Move (functions : List String) (r : Routine) (labels : List String) :
    Phase → Instr String → Phase → Prop
  | scratch {phase : Phase} (hphase : phase ≠ .ending) {i : Instr String} (hi : IsScratch i) :
      Move functions r labels phase i phase
  | save {phase : Phase} (hphase : phase = .inside ∨ phase = .trapped) {index : Nat}
      (hindex : index < r.frame.locals.length) (src : Operand String) :
      Move functions r labels phase ⟨.mov, [.mem (Locals.slotAt index), src]⟩ phase
  | jump {op : Mnemonic} (hop : op = .jmp ∨ op = .je ∨ op = .jge) {name : String}
      (hname : name ∈ labels) : Move functions r labels .inside ⟨op, [.label name]⟩ .inside
  | call {name : String} (hname : name ∈ functions) :
      Move functions r labels .inside ⟨.call, [.label (functionLabel name)]⟩ .inside
  | saveAll : Move functions r labels .inside ⟨.pusha, []⟩ .trapped
  | trap : Move functions r labels .trapped ⟨.int, [.imm Abi.syscallVector]⟩ .trapped
  | restoreAll : Move functions r labels .trapped ⟨.popa, []⟩ .inside
  | prepare (phase : Phase) :
      Move functions r labels phase ⟨.mov, [.reg Abi.syscallNumber, .imm Abi.sysExit]⟩ .ending
  | finish : Move functions r labels .ending ⟨.int, [.imm Abi.syscallVector]⟩ .inside
  | enter : Move functions r labels .entered ⟨.push, [.reg Abi.frame]⟩ .saved
  | base : Move functions r labels .saved ⟨.mov, [.reg Abi.frame, .reg .esp]⟩ .framed
  | extend (hsize : 0 < r.frame.size) :
      Move functions r labels .framed ⟨.sub, [.reg .esp, .imm r.frame.size]⟩ .inside
  | leave (hsize : 0 < r.frame.size) :
      Move functions r labels .inside ⟨.mov, [.reg .esp, .reg Abi.frame]⟩ .framed
  | restore : Move functions r labels .framed ⟨.pop, [.reg Abi.frame]⟩ .entered

/-- The instructions that a function ends with: it returns, or the process ends. -/
inductive Ends (r : Routine) : Phase → Instr String → Prop
  | ret (hname : r.function.name ≠ "main") : Ends r r.outer ⟨.ret, []⟩
  | finish : Ends r .ending ⟨.int, [.imm Abi.syscallVector]⟩

/-- Code that is left of a function in a phase. -/
inductive Flow (functions : List String) (r : Routine) (labels : List String) :
    Phase → List Item → Prop
  | label (name : String) {rest : List Item} (h : Flow functions r labels .inside rest) :
      Flow functions r labels .inside (.label name :: rest)
  | instr {phase next : Phase} {i : Instr String} {rest : List Item}
      (hmove : Move functions r labels phase i next) (h : Flow functions r labels next rest) :
      Flow functions r labels phase (.instr i :: rest)
  | last {phase : Phase} {i : Instr String} (h : Ends r phase i) :
      Flow functions r labels phase [.instr i]

theorem IsScratch.executable {i : Instr String} (h : IsScratch i) : i.Executable := by
  cases h with
  | load _ _ src => exact .load _ src
  | add _ _ src => exact .add _ src
  | cmp r src => exact .cmp r src

section

variable {functions : List String} {r : Routine} {labels : List String} {phase next : Phase}
variable {rest : List Item}

/-- Every instruction that is executed within a routine can be executed. -/
theorem Move.executable {i : Instr String} (h : Move functions r labels phase i next) :
    i.Executable := by
  cases h with
  | scratch _ hi => exact hi.executable
  | save _ _ src => exact .save _ src
  | jump hop _ => exact .jump hop _
  | call _ => exact .call _
  | saveAll => exact .pusha
  | trap => exact .trap
  | restoreAll => exact .popa
  | prepare => exact .load _ _
  | finish => exact .trap
  | enter => exact .push _
  | base => exact .load _ _
  | extend _ => exact .sub _ _
  | leave _ => exact .load _ _
  | restore => exact .pop _

theorem Ends.executable {i : Instr String} (h : Ends r phase i) : i.Executable := by
  cases h with
  | ret _ => exact .ret
  | finish => exact .trap

/-- Behind a label there are statements. -/
theorem Flow.behind_label {front : List Item} {name : String}
    (h : Flow functions r labels phase (front ++ .label name :: rest)) :
    Flow functions r labels .inside rest := by
  induction front generalizing phase with
  | nil =>
      cases h with
      | label _ h => exact h
  | cons item front ih =>
      cases item with
      | label _ =>
          cases h with
          | label _ h => exact ih h
      | instr i =>
          rw [List.cons_append] at h
          generalize hitems : front ++ .label name :: rest = items at h ih
          cases h with
          | instr _ h => exact ih h
          | last _ => simp at hitems

/-! ### Code of expressions and system calls -/

variable {frame : Frame}

/-- Code that changes scratch registers only. -/
def Code.IsScratch (code : Code) : Prop :=
  ∀ item ∈ code.items, ∃ i, item = .instr i ∧ C.IsScratch i

/-- Such code may stand anywhere but at the very end. -/
theorem Code.IsScratch.flow {code : Code} (hcode : code.IsScratch) (hphase : phase ≠ .ending)
    (h : Flow functions r labels phase rest) :
    Flow functions r labels phase (code.items ++ rest) := by
  obtain ⟨items⟩ := code
  induction items with
  | nil => exact h
  | cons item items ih =>
      obtain ⟨⟨i, rfl, hi⟩, hrest⟩ := List.forall_mem_cons.mp hcode
      exact .instr (.scratch hphase hi) (ih hrest)

theorem Code.IsScratch.append {a b : Code} (ha : a.IsScratch) (hb : b.IsScratch) :
    (a ++ b).IsScratch :=
  List.forall_mem_append.mpr ⟨ha, hb⟩

theorem isScratch_load {r : Reg} (hesp : r ≠ .esp) (hebp : r ≠ .ebp) (src : Operand String) :
    (Code.instr .mov [.reg r, src]).IsScratch := by
  intro item hitem
  rw [List.mem_singleton.mp hitem]
  exact ⟨_, rfl, .load hesp hebp src⟩

/-- The code of a value uses the scratch registers only. -/
theorem isScratch_value (e : Expr) : (e.value frame).code.IsScratch := by
  unfold Expr.value
  split
  · intro item hitem
    cases hitem
  · refine (isScratch_load (by decide) (by decide) _).append fun item hitem => ?_
    obtain ⟨value, -, rfl⟩ := List.mem_map.mp hitem
    exact ⟨_, rfl, .add (by decide) (by decide) _⟩

theorem isScratch_argumentCode {regs : List Reg} (hesp : .esp ∉ regs) (hebp : .ebp ∉ regs)
    (es : List Expr) : (argumentCode frame regs es).IsScratch := by
  induction regs generalizing es with
  | nil =>
      intro item hitem
      cases hitem
  | cons r regs ih =>
      cases es with
      | nil =>
          intro item hitem
          cases hitem
      | cons e es =>
          have hload := @isScratch_load r (fun heq => hesp (heq ▸ List.mem_cons_self))
            (fun heq => hebp (heq ▸ List.mem_cons_self)) (e.value frame).operand
          exact ((isScratch_value e).append hload).append
            (ih (fun hmem => hesp (List.mem_cons_of_mem _ hmem))
              (fun hmem => hebp (List.mem_cons_of_mem _ hmem)) es)

theorem isScratch_test (test : Test) : (test.code frame).IsScratch := by
  have hcmp (r : Reg) (src : Operand String) : (Code.instr .cmp [.reg r, src]).IsScratch := by
    intro item hitem
    rw [List.mem_singleton.mp hitem]
    exact ⟨_, rfl, .cmp r src⟩
  unfold Test.code Code.compare
  dsimp only
  split
  · exact ((isScratch_load (by decide) (by decide) _).append
      (isScratch_load (by decide) (by decide) _)).append (hcmp _ _)
  · exact (isScratch_load (by decide) (by decide) _).append (hcmp _ _)

/-- A trap leads from the inside of a routine to a point where all registers are saved. -/
theorem Trap.flow (t : Trap) (h : Flow functions r labels .trapped rest) :
    Flow functions r labels .inside ((t.code frame).items ++ rest) := by
  simp only [Trap.code, Code.items_append, Code.items_instr, List.append_assoc, List.cons_append,
    List.nil_append]
  refine .instr .saveAll ((isScratch_argumentCode (by decide) (by decide) _).flow (by decide) ?_)
  exact .instr (.scratch (by decide) (.load (by decide) (by decide) _)) (.instr .trap h)

/-- A store to a variable goes on in the same phase. -/
theorem flow_store (hphase : phase = .inside ∨ phase = .trapped) {index : Nat}
    (hindex : index < r.frame.locals.length) (value : Operand String)
    (h : Flow functions r labels phase rest) :
    Flow functions r labels phase
      ((Code.store (.slot (Locals.slotAt index)) value).items ++ rest) := by
  have hending : phase ≠ .ending := by
    rcases hphase with rfl | rfl <;> decide
  cases value with
  | mem place =>
      exact .instr (.scratch hending (.load (by decide) (by decide) _))
        (.instr (.save hphase hindex _) h)
  | _ => exact .instr (.save hphase hindex _) h

theorem Rhs.flow (value : Rhs) {index : Nat} (hindex : index < r.frame.locals.length)
    (h : Flow functions r labels .inside rest) :
    Flow functions r labels .inside
      ((value.code frame (.slot (Locals.slotAt index))).items ++ rest) := by
  cases value with
  | expr e =>
      simp only [Rhs.code, Code.items_append, List.append_assoc]
      exact (isScratch_value e).flow (by decide) (flow_store (.inl rfl) hindex _ h)
  | trap t =>
      simp only [Rhs.code, Code.items_append, List.append_assoc]
      exact t.flow (flow_store (.inr rfl) hindex _ (.instr .restoreAll h))

/-- The code that ends the process may be the last of a function. -/
theorem flow_exit (hphase : phase ≠ .ending) (status : Operand String)
    (h : rest = [] ∨ Flow functions r labels .inside rest) :
    Flow functions r labels phase ((Code.exit status).items ++ rest) := by
  refine .instr (.scratch hphase (.load (by decide) (by decide) _)) (.instr (.prepare phase) ?_)
  rcases h with rfl | h
  · exact .last .finish
  · exact .instr .finish h

/-! ### Code of statements -/

/-- A simple statement goes on inside of the routine. -/
theorem Simple.flow {s : Simple} (hdirect : s.isDirect = true)
    (hsuits : s.piece.Suits functions r.frame) (h : Flow functions r labels .inside rest) :
    Flow functions r labels .inside ((s.code functions r.frame).items ++ rest) := by
  cases s with
  | declare type name => exact h
  | constant type name content => exact h
  | declareWith type name value =>
      have hname := hsuits.of_append.1.of_append.2.of_append.2.assigned
      exact value.flow (List.idxOf_lt_length_of_mem hname) h
  | assign name value =>
      have hname := hsuits.of_append.1.of_append.2.of_append.2.assigned
      exact value.flow (List.idxOf_lt_length_of_mem hname) h
  | storeThrough pointer value => cases hdirect
  | exit status =>
      cases status with
      | none => exact flow_exit (by decide) _ (.inr h)
      | some e =>
          simp only [Simple.code, Code.items_append, List.append_assoc]
          exact (isScratch_value e).flow (by decide) (flow_exit (by decide) _ (.inr h))
  | trap t =>
      simp only [Simple.code, Code.items_append, List.append_assoc]
      exact t.flow (.instr .restoreAll h)
  | call name arguments =>
      have hname : name ∈ functions :=
        hsuits.of_append.2.calls (name, arguments.length) List.mem_cons_self
      simp only [Simple.code, List.contains_iff_mem.mpr hname, if_true]
      exact .instr (.call hname) h

/-- Statements go from inside to inside. -/
theorem Body.flow {b : Body} (n m : Nat) (hdirect : b.isDirect = true)
    (hsuits : b.piece.Suits functions r.frame)
    (hlabels : ∀ l ∈ b.controls n m, l.name ∈ labels) (h : Flow functions r labels .inside rest) :
    Flow functions r labels .inside ((b.code functions r.frame n m).items ++ rest) := by
  induction b generalizing n m rest with
  | done => exact h
  | simple s tail ih =>
      obtain ⟨hs, ht⟩ := hsuits.of_append
      obtain ⟨hdirect, hdirect'⟩ := Bool.and_eq_true_iff.mp hdirect
      simp only [code, Code.items_append, List.append_assoc]
      exact Simple.flow hdirect hs (ih n m hdirect' ht hlabels h)
  | block inner tail hinner htail =>
      obtain ⟨hi, ht⟩ := hsuits.of_append
      obtain ⟨hdirect, hdirect'⟩ := Bool.and_eq_true_iff.mp hdirect
      simp only [controls, List.forall_mem_append] at hlabels
      simp only [code, Code.items_append, List.append_assoc]
      exact hinner n m hdirect hi.of_braced hlabels.1 (htail _ _ hdirect' ht hlabels.2 h)
  | ifThen test inner tail hinner htail =>
      obtain ⟨hsuits, ht⟩ := hsuits.of_append
      have hi := hsuits.of_append.2.of_braced
      obtain ⟨hdirect, hdirect'⟩ := Bool.and_eq_true_iff.mp hdirect
      simp only [controls, List.forall_mem_append, List.forall_mem_cons] at hlabels
      obtain ⟨hilabels, helse, -, htlabels⟩ := hlabels
      simp only [code, Code.items_append, Code.items_instr, Code.items_label, List.append_assoc,
        List.cons_append, List.nil_append]
      refine (isScratch_test test).flow (by decide) (.instr (.jump (by simp) helse) ?_)
      refine hinner _ _ hdirect hi hilabels (.label _ (.label _ ?_))
      exact htail _ _ hdirect' ht htlabels h
  | ifElse test first second tail hfirst hsecond htail =>
      obtain ⟨hsuits, ht⟩ := hsuits.of_append
      obtain ⟨hsuits, hs⟩ := hsuits.of_append
      have hf := hsuits.of_append.1.of_append.2.of_braced
      obtain ⟨hdirect, hdirect'⟩ := Bool.and_eq_true_iff.mp hdirect
      obtain ⟨hfdirect, hsdirect⟩ := Bool.and_eq_true_iff.mp hdirect
      simp only [controls, List.forall_mem_append, List.forall_mem_cons] at hlabels
      obtain ⟨hflabels, helse, hslabels, hend, htlabels⟩ := hlabels
      simp only [code, Code.items_append, Code.items_instr, Code.items_label, List.append_assoc,
        List.cons_append, List.nil_append]
      refine (isScratch_test test).flow (by decide) (.instr (.jump (by simp) helse) ?_)
      refine hfirst _ _ hfdirect hf hflabels (.instr (.jump (by simp) hend) (.label _ ?_))
      refine hsecond _ _ hsdirect hs.of_braced hslabels (.label _ ?_)
      exact htail _ _ hdirect' ht htlabels h
  | loop test inner tail hinner htail =>
      obtain ⟨hsuits, ht⟩ := hsuits.of_append
      have hi := hsuits.of_append.2.of_braced
      obtain ⟨hdirect, hdirect'⟩ := Bool.and_eq_true_iff.mp hdirect
      simp only [controls, List.forall_mem_append, List.forall_mem_cons] at hlabels
      obtain ⟨hloop, hilabels, hend, htlabels⟩ := hlabels
      simp only [code, Code.items_append, Code.items_instr, Code.items_label, List.append_assoc,
        List.cons_append, List.nil_append]
      refine .label _ ((isScratch_test test).flow (by decide) (.instr (.jump (by simp) hend) ?_))
      refine hinner _ _ hdirect hi hilabels (.instr (.jump (by simp) hloop) (.label _ ?_))
      exact htail _ _ hdirect' ht htlabels h

end

/-- The labels among the statements of a function. -/
def Routine.controls (r : Routine) : List String :=
  (r.function.body.controls r.branches r.loops).map Control.name

/-- The code of a function behind its own label. -/
def Routine.tail (functions : List String) (r : Routine) : List Item :=
  (if 0 < r.frame.size then CompileM.prologue r.frame.size ++
      r.function.body.code functions r.frame r.branches r.loops ++ CompileM.epilogue
    else r.function.body.code functions r.frame r.branches r.loops).items ++
    (if r.function.name = "main" then Code.exit (.imm 0) else .instr .ret []).items

theorem Routine.items_code_eq (functions : List String) (r : Routine) :
    (r.code functions).items = .label (functionLabel r.function.name) :: r.tail functions := rfl

/-- A function runs from its outer phase on. -/
theorem Routine.flow {functions : List String} {r : Routine}
    (hdirect : r.function.body.isDirect = true)
    (hsuits : r.function.body.piece.Suits functions r.frame) :
    Flow functions r r.controls r.outer (r.tail functions) := by
  have hbody {rest : List Item} (h : Flow functions r r.controls .inside rest) :=
    Body.flow r.branches r.loops hdirect hsuits (fun l hl => List.mem_map_of_mem hl) h
  have hfinish : Flow functions r r.controls r.outer
      (if r.function.name = "main" then Code.exit (.imm 0) else .instr .ret []).items := by
    split
    next =>
      have houter : r.outer ≠ .ending := by
        unfold Routine.outer
        split <;> decide
      exact flow_exit houter _ (.inl rfl)
    next hname => exact .last (.ret hname)
  unfold Routine.tail
  by_cases hsize : r.frame.size = 0
  · rw [Routine.outer, if_pos hsize] at hfinish ⊢
    rw [if_neg (by omega)]
    exact hbody hfinish
  · rw [Routine.outer, if_neg hsize] at hfinish ⊢
    have hpos : 0 < r.frame.size := Nat.pos_of_ne_zero hsize
    rw [if_pos hpos]
    simp only [Code.items_append, List.append_assoc]
    refine .instr .enter (.instr .base (.instr (.extend hpos) (hbody ?_)))
    exact .instr (.leave hpos) (.instr .restore hfinish)

/-- A label among the statements of a function stands in its code. -/
theorem Routine.exists_label {functions : List String} {r : Routine} {name : String}
    (h : name ∈ r.controls) : ∃ front rest, r.tail functions = front ++ .label name :: rest := by
  rw [Routine.controls, ← Body.labels_code functions r.frame] at h
  obtain ⟨item, hitem, hlabel⟩ := List.mem_filterMap.mp h
  cases item with
  | instr i => cases hlabel
  | label other =>
      cases hlabel
      refine List.append_of_mem (List.mem_append_left _ ?_)
      split
      · exact List.mem_append_left _ (List.mem_append_right _ hitem)
      · exact hitem

end Ia32.C

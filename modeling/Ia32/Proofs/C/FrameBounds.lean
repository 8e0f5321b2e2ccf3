import Ia32.Proofs.C.Growth
import Ia32.Proofs.C.Sums

/-!
# Variables lie in the frame

The frame of a function is set up for the variables that are in the table behind its body.
Every action that returns code returns code whose variables are in the table by then, and the
table only grows, so the code of the body, which is put together from such pieces, reaches no
word of the frame that is not reserved. This does not depend on whether the source is correct.
-/

namespace Ia32.C

/-! ### Operands inside a frame -/

/-- An operand of code with `n` variables: it is not the frame register, and memory is reached
through a variable or through the scratch register. -/
def Lodged (n : Nat) : Operand String → Prop
  | .reg r => r ≠ Abi.frame
  | .mem m => m = ⟨Abi.scratch, 0⟩ ∨ ∃ k < n, m = Locals.slotAt k
  | .imm _ | .label _ => True

/-- All operands of an item are lodged. -/
def Item.Lodged (n : Nat) : Item → Prop
  | .label _ => True
  | .instr i => ∀ a ∈ i.args, C.Lodged n a

/-- All operands of code are lodged. -/
def Code.Lodged (n : Nat) (code : Code) : Prop :=
  ∀ item ∈ code.items, item.Lodged n

/-- The operand of a value and its code are lodged. -/
def Value.Lodged (n : Nat) (v : Value) : Prop :=
  C.Lodged n v.operand ∧ v.code.Lodged n

/-- What an assignment stores into is lodged. -/
def Place.Lodged (n : Nat) : Place → Prop
  | .slot m => C.Lodged n (.mem m)
  | .pointee pointer => C.Lodged n pointer

section

variable {n k : Nat}

/-- A slot of a frame is a slot of every larger one. -/
theorem Lodged.mono {a : Operand String} (h : Lodged n a) (hle : n ≤ k) : Lodged k a := by
  cases a with
  | mem m =>
      rcases h with rfl | ⟨index, hlt, rfl⟩
      · exact .inl rfl
      · exact .inr ⟨index, Nat.lt_of_lt_of_le hlt hle, rfl⟩
  | _ => exact h

theorem Code.Lodged.mono {code : Code} (h : code.Lodged n) (hle : n ≤ k) : code.Lodged k := by
  intro item hitem
  cases item with
  | label name => trivial
  | instr i => exact fun a ha => (h _ hitem a ha).mono hle

theorem Value.Lodged.mono {v : Value} (h : v.Lodged n) (hle : n ≤ k) : v.Lodged k :=
  ⟨C.Lodged.mono h.1 hle, h.2.mono hle⟩

theorem Place.Lodged.mono {place : Place} (h : place.Lodged n) (hle : n ≤ k) :
    place.Lodged k := by
  cases place with
  | slot m => exact C.Lodged.mono (a := .mem m) h hle
  | pointee pointer => exact C.Lodged.mono (a := pointer) h hle

@[simp]
theorem Code.lodged_empty : ({} : Code).Lodged n := by
  simp [Code.Lodged]

@[simp]
theorem Code.lodged_append {a b : Code} : (a ++ b).Lodged n ↔ a.Lodged n ∧ b.Lodged n :=
  List.forall_mem_append

@[simp]
theorem Code.lodged_label (name : String) : (Code.label name).Lodged n := by
  simp [Code.Lodged, Code.label, Item.Lodged]

@[simp]
theorem Code.lodged_instr {op : Mnemonic} {args : List (Operand String)} :
    (Code.instr op args).Lodged n ↔ ∀ a ∈ args, C.Lodged n a := by
  simp [Code.Lodged, Code.instr, Item.Lodged]

@[simp]
theorem lodged_reg {r : Reg} : Lodged n (.reg r) ↔ r ≠ Abi.frame := Iff.rfl

@[simp]
theorem lodged_imm (v : Int) : Lodged n (.imm v) := trivial

@[simp]
theorem lodged_label (name : String) : Lodged n (.label name) := trivial

/-! ### Sequences that statements are made of -/

theorem lodged_store {place : Place} {value : Operand String} (hplace : place.Lodged n)
    (hvalue : Lodged n value) : (Code.store place value).Lodged n := by
  have hpointee : Lodged n (.mem ⟨Abi.scratch, 0⟩) := .inl rfl
  cases place <;> cases value <;>
    simp_all [Code.store, Place.Lodged, Abi.accumulator, Abi.scratch, Abi.frame]

theorem lodged_exit {status : Operand String} (h : Lodged n status) :
    (Code.exit status).Lodged n := by
  simp [Code.exit, h, Abi.syscallNumber, Abi.frame]

theorem lodged_compare {lhs rhs : Operand String} (hlhs : Lodged n lhs) (hrhs : Lodged n rhs) :
    (Code.compare lhs rhs).Lodged n := by
  cases rhs <;> simp_all [Code.compare, Abi.accumulator, Abi.scratch, Abi.frame]

/-- Sums are computed in a register. -/
theorem lodged_additionCode (addends : List Nat) : (additionCode addends).Lodged n := by
  intro item hitem
  obtain ⟨value, -, rfl⟩ := List.mem_map.mp hitem
  simp [Item.Lodged, Abi.accumulator, Abi.frame]

theorem lodged_eachReg {op : Mnemonic} {regs : List Reg} (h : Abi.frame ∉ regs) :
    (CompileM.eachReg op regs).Lodged n := by
  intro item hitem
  obtain ⟨r, hr, rfl⟩ := List.mem_map.mp hitem
  simp only [Item.Lodged, List.mem_singleton, forall_eq, lodged_reg]
  exact fun heq => h (heq ▸ hr)

theorem lodged_pushArguments {values : List Value} (h : ∀ v ∈ values, v.Lodged n) :
    (CompileM.pushArguments values).Lodged n := by
  intro item hitem
  obtain ⟨v, hv, hitem⟩ := List.mem_flatMap.mp hitem
  obtain ⟨hoperand, hcode⟩ := h v (List.mem_reverse.mp hv)
  exact (Code.lodged_append.mpr ⟨hcode, by simpa using hoperand⟩) item hitem

/-- A call to the library saves registers, none of which is the frame pointer. -/
theorem lodged_libraryCall {name : String} {values : List Value} (h : ∀ v ∈ values, v.Lodged n) :
    (CompileM.libraryCall name values).Lodged n := by
  have hcleanup : (if values.isEmpty then ({} : Code)
      else .instr .add [.reg .esp, .imm (values.length * Abi.wordSize)]).Lodged n := by
    split <;> simp [Abi.frame]
  simp only [CompileM.libraryCall, Code.lodged_append, Code.lodged_instr]
  exact ⟨⟨⟨⟨lodged_eachReg (by decide), lodged_pushArguments h⟩, by simp⟩, hcleanup⟩,
    lodged_eachReg (by decide)⟩

end

/-! ### Actions -/

/-- The word of a variable is one of those that a dense table has given away. -/
theorem lodged_slot {locals : Locals} (hdense : locals.Dense) {name : String} {l : Local}
    (hl : locals.get? name = some l) : Lodged locals.size (.mem l.slot) := by
  refine .inr ⟨locals.names.idxOf name, ?_, hdense.slot_eq hl⟩
  rw [← locals.length_names]
  exact List.idxOf_lt_length_of_mem (Locals.mem_names_of_get? hl)

/-- The operand of a variable in a dense table is one of its slots. -/
theorem lodged_operandOf {c : Compiler} (hdense : c.locals.Dense) (p : Primary) :
    Lodged c.locals.size (c.operandOf p) := by
  cases p with
  | number value => trivial
  | named name =>
      simp only [Compiler.operandOf]
      split
      · trivial
      · split
        next l hl => exact lodged_slot hdense hl
        next => trivial

theorem lodged_valueOf {c : Compiler} (hdense : c.locals.Dense) (e : Expr) :
    (c.valueOf e).Lodged c.locals.size := by
  have hfirst := lodged_operandOf hdense e.first
  unfold Compiler.valueOf
  split
  · exact ⟨hfirst, Code.lodged_empty⟩
  · have hload : (Code.instr .mov [.reg .eax, c.operandOf e.first]).Lodged c.locals.size := by
      simp [hfirst, Abi.frame]
    exact ⟨by simp [Abi.frame], Code.lodged_append.mpr ⟨hload, lodged_additionCode _⟩⟩

variable {α β : Type} {n : Nat}

/-- A name that cannot be declared again has a variable. -/
theorem Locals.get?_of_declare_eq_error {locals : Locals} {name : String} {type : CType}
    {cause : LocalError} {l : Local} (h : (locals.declare name type).2 = .error (cause, some l)) :
    (locals.declare name type).1.get? name = some l := by
  rcases declare_cases locals name type with ⟨previous, hname, hdeclare⟩ | ⟨-, -, hdeclare⟩ |
    ⟨l', -, hdeclare⟩
  · rw [hdeclare] at h ⊢
    cases h
    exact hname
  · rw [hdeclare] at h
    cases h
  · rw [hdeclare] at h
    cases h

/-- In front of at least `n` variables an action succeeds only with as many or more, in a dense
table, and with a result that has a property for the number of variables behind it. -/
structure Leaves (n : Nat) (act : CompileM α) (post : Nat → α → Prop) : Prop where
  result : ∀ {c a c'}, c.locals.Dense → n ≤ c.locals.size → act c = .ok a c' →
    c'.locals.Dense ∧ n ≤ c'.locals.size ∧ post c'.locals.size a

namespace Leaves

open CompileM

variable {post : Nat → α → Prop} {post' : Nat → β → Prop}

/-- An action is judged by the table that it leaves, which is dense again. -/
theorem of_evolving {act : CompileM α} [hact : Acts .inside act]
    (h : ∀ {c a c'}, c'.locals.Dense → act c = .ok a c' → post c'.locals.size a) :
    Leaves n act post where
  result hdense hn hrun := by
    have hevolves := (hact.here _).ok hrun
    have hdense' := hevolves.dense hdense
    exact ⟨hdense', Nat.le_trans hn (hevolves.size_le rfl), h hdense' hrun⟩

theorem pure {a : α} (h : ∀ m, n ≤ m → post m a) : Leaves n (Pure.pure a) post where
  result hdense hn hrun := by
    cases hrun
    exact ⟨hdense, hn, h _ hn⟩

/-- The second action may rely on what the first one leaves, since slots stay. -/
theorem bind {x : CompileM α} {f : α → CompileM β} (hfirst : Leaves n x post)
    (hf : ∀ a m, n ≤ m → post m a → Leaves m (f a) post') : Leaves n (x >>= f) post' where
  result hdense hn hrun := by
    obtain ⟨a, c1, hrun, hmore⟩ := action_bind_eq_ok.mp hrun
    obtain ⟨hdense1, hn1, hpost⟩ := hfirst.result hdense hn hrun
    obtain ⟨hdense', hn', hpost'⟩ := (hf a _ hn1 hpost).result hdense1 (Nat.le_refl _) hmore
    exact ⟨hdense', Nat.le_trans hn1 hn', hpost'⟩

/-- The result of an action that returns no code does not matter. -/
theorem skip {x : CompileM α} {f : α → CompileM β} [hx : Acts .inside x]
    (hf : ∀ a, Leaves n (f a) post') : Leaves n (x >>= f) post' where
  result hdense hn hrun := by
    obtain ⟨a, c1, hrun, hmore⟩ := action_bind_eq_ok.mp hrun
    have hevolves := (hx.here _).ok hrun
    exact (hf a).result (hevolves.dense hdense) (Nat.le_trans hn (hevolves.size_le rfl)) hmore

theorem of_get {f : Compiler → CompileM α} (hf : ∀ c, Leaves n (f c) post) :
    Leaves n (get >>= f) post where
  result hdense hn hrun := (hf _).result hdense hn hrun

theorem ite {p : Prop} [Decidable p] {x y : CompileM α} (hx : Leaves n x post)
    (hy : Leaves n y post) : Leaves n (if p then x else y) post := by
  split
  · exact hx
  · exact hy

theorem unexpected {what : String} : Leaves n (CompileM.unexpected what) post where
  result _ _ hrun := by cases hrun

/-! ### Expressions -/

/-- A primary is an immediate, a label, or a slot. -/
theorem primary : Leaves n primary Lodged :=
  of_evolving fun hdense hrun => by
    obtain ⟨p, rfl, -⟩ := primary_eq_ok hrun
    exact lodged_operandOf hdense p

theorem expression : Leaves n expression Value.Lodged :=
  of_evolving fun hdense hrun => by
    obtain ⟨e, -, -, rfl, -⟩ := expression_eq_ok hrun
    exact lodged_valueOf hdense e

theorem syscallArguments {regs : List Reg} (hregs : Abi.frame ∉ regs) :
    Leaves n (syscallArguments regs) Code.Lodged := by
  induction regs generalizing n with
  | nil => exact pure fun _ _ => Code.lodged_empty
  | cons r rest ih =>
      obtain ⟨hr, hrest⟩ := not_or.mp (mt List.mem_cons.mpr hregs)
      refine skip fun accepted => ite ?_ (pure fun _ _ => Code.lodged_empty)
      refine expression.bind fun value m _ hvalue => (ih hrest).bind fun others k hk hothers => ?_
      refine pure fun size hsize => ?_
      obtain ⟨hoperand, hcode⟩ := hvalue.mono (Nat.le_trans hk hsize)
      simp only [Code.lodged_append, Code.lodged_instr]
      exact ⟨⟨hcode, by simp [Ne.symm hr, hoperand]⟩, hothers.mono hsize⟩

/-- A trap takes its arguments from slots. -/
theorem openSyscall : Leaves n openSyscall Code.Lodged := by
  refine skip fun _ => skip fun _ => skip fun number => ?_
  refine (syscallArguments (by decide)).bind fun arguments m _ harguments => skip fun _ => ?_
  refine pure fun size hsize => ?_
  simp [harguments.mono hsize, Abi.syscallNumber, Abi.frame]

/-! ### Simple statements -/

/-- An assignment stores where its target says, which may be a new slot. -/
theorem assignment {target : CompileM (Option Place)}
    (htarget : ∀ m, n ≤ m → Leaves m target fun k place? => ∀ place ∈ place?, place.Lodged k) :
    Leaves n (assignment target) Code.Lodged := by
  have hresult (m : Nat) : Lodged m (.reg Abi.accumulator) := by simp [Abi.accumulator, Abi.frame]
  refine skip fun kind => ite ?_ ?_
  · refine openSyscall.bind fun code m hm hcode => (htarget m hm).bind fun place? k hk hplace => ?_
    have hcode := hcode.mono hk
    cases place? with
    | none => exact pure fun size hsize => by simp [hcode.mono hsize]
    | some place =>
        refine pure fun size hsize => ?_
        simp [hcode.mono hsize, lodged_store ((hplace place rfl).mono hsize) (hresult size)]
  · refine expression.bind fun value m hm hvalue => (htarget m hm).bind fun place? k hk hplace => ?_
    have hvalue := hvalue.mono hk
    cases place? with
    | none => exact pure fun size hsize => (hvalue.mono hsize).2
    | some place =>
        refine pure fun size hsize => ?_
        obtain ⟨hoperand, hcode⟩ := hvalue.mono hsize
        exact Code.lodged_append.mpr ⟨hcode, lodged_store ((hplace place rfl).mono hsize) hoperand⟩

/-- A variable that is found or declared is in the table. -/
theorem findVariable {line : Nat} {name : String} :
    Leaves n (findVariable line name) fun k l? => ∀ l ∈ l?, Lodged k (.mem l.slot) where
  result {c l? c'} hdense hn hrun := by
    have hfollows := Locals.follows_getOrDeclare c.locals name
    have hdense' := hfollows.dense hdense
    have hn' := Nat.le_trans hn hfollows.size_le
    rw [CompileM.findVariable, withLocals_bind] at hrun
    cases hfound : (c.locals.getOrDeclare name).2 with
    | ok l =>
        rw [hfound] at hrun
        cases hrun
        refine ⟨hdense', hn', fun l hmem => ?_⟩
        cases hmem
        exact lodged_slot hdense' (Locals.getOrDeclare_eq_ok hfound).2
    | error cause =>
        rw [hfound] at hrun
        cases hrun
        exact ⟨hdense', hn', by simp⟩

theorem declareVariable {line : Nat} {name : String} {type : CType} :
    Leaves n (declareVariable line name type) fun k place? => ∀ place ∈ place?, place.Lodged k :=
  of_evolving fun {c place? c'} hdense hrun place hplace => by
    have hlodged {l : Local} (hl : c'.locals.get? name = some l) :
        Place.Lodged c'.locals.size (.slot l.slot) := lodged_slot hdense hl
    unfold CompileM.declareVariable at hrun
    rw [get_bind] at hrun
    split at hrun
    · cases hrun
      cases hplace
    · rw [withLocals_bind] at hrun
      cases hdeclare : (c.locals.declare name type).2 with
      | ok l =>
          rw [hdeclare] at hrun
          cases hrun
          cases hplace
          exact hlodged (Locals.declare_eq_ok hdeclare).2
      | error refused =>
          rw [hdeclare] at hrun
          cases hrun
          obtain ⟨l, hl, rfl⟩ := Option.map_eq_some_iff.mp hplace
          exact hlodged (Locals.get?_of_declare_eq_error (hdeclare.trans (by rw [← hl])))

/-- The place of a new variable is a slot of the table that its declaration leaves. -/
theorem initializedVariable {line : Nat} {name : String} {type : CType} {isFresh : Bool} :
    Leaves n (initializedVariable line name type isFresh) fun k place? =>
      ∀ place ∈ place?, place.Lodged k := by
  unfold CompileM.initializedVariable
  refine ite ⟨fun {c place? c'} hdense hn hrun => ?_⟩ declareVariable
  have hfollows := Locals.follows_retype c.locals name type
  have hdense' := hfollows.dense hdense
  have hn' := Nat.le_trans hn hfollows.size_le
  rw [withLocals_bind] at hrun
  cases hl : (c.locals.retype name type).2 with
  | some l =>
      rw [hl] at hrun
      cases hrun
      refine ⟨hdense', hn', fun place hplace => ?_⟩
      cases hplace
      exact @lodged_slot _ hdense' name _ hl
  | none =>
      rw [hl] at hrun
      exact declareVariable.result hdense' hn' hrun

theorem initializer {line : Nat} {name : String} {type : CType} :
    Leaves n (initializer line name type) Code.Lodged := by
  refine skip fun kind => ?_
  split
  · exact skip fun _ => skip fun _ => skip fun _ => pure fun _ _ => Code.lodged_empty
  · refine of_get fun c => (assignment fun _ _ => initializedVariable).bind fun code _ _ hcode => ?_
    exact skip fun _ => pure fun _ hsize => hcode.mono hsize

theorem declaration : Leaves n declaration Code.Lodged := by
  unfold CompileM.declaration
  refine skip fun line => skip fun kind => skip fun _ => skip fun isPointer => skip fun name => ?_
  refine skip fun isAssigned => ite initializer (skip fun _ => skip fun _ => ?_)
  exact pure fun _ _ => Code.lodged_empty

/-- A pointer is a slot or the label of a constant. -/
theorem pointerOperand {line : Nat} {name : String} :
    Leaves n (pointerOperand line name) fun k pointer? =>
      ∀ pointer ∈ pointer?, Lodged k pointer := by
  unfold CompileM.pointerOperand
  refine of_get fun c => ite (pure fun _ _ => by simp) (findVariable.bind fun l? m _ hl => ?_)
  cases l? with
  | none => exact pure fun _ _ => by simp
  | some l =>
      refine ite (pure fun size hsize => ?_) (skip fun _ => pure fun _ _ => by simp)
      simpa using (hl l rfl).mono hsize

theorem pointerAssignment : Leaves n pointerAssignment Code.Lodged := by
  unfold CompileM.pointerAssignment
  refine skip fun line => skip fun _ => skip fun name =>
    pointerOperand.bind fun pointer? m _ hpointer => ?_
  refine skip fun _ => (assignment fun k hk => pure fun size hsize place hplace => ?_).bind
    fun code _ _ hcode => skip fun _ => pure fun _ hsize => hcode.mono hsize
  obtain ⟨pointer, hmem, rfl⟩ := Option.map_eq_some_iff.mp hplace
  exact (hpointer pointer hmem).mono (Nat.le_trans hk hsize)

theorem returnStatement : Leaves n returnStatement Code.Lodged := by
  unfold CompileM.returnStatement
  refine skip fun _ => skip fun isBare => ite (pure fun _ _ => lodged_exit (lodged_imm _)) ?_
  refine expression.bind fun value m _ hvalue => skip fun _ => pure fun size hsize => ?_
  obtain ⟨hoperand, hcode⟩ := hvalue.mono hsize
  exact Code.lodged_append.mpr ⟨hcode, lodged_exit hoperand⟩

theorem syscallStatement : Leaves n syscallStatement Code.Lodged := by
  unfold CompileM.syscallStatement
  refine openSyscall.bind fun code m _ hcode => skip fun _ => pure fun size hsize => ?_
  simp [hcode.mono hsize]

theorem assignedVariable {line : Nat} {name : String} {isConstant : Bool} :
    Leaves n (assignedVariable line name isConstant) fun k place? =>
      ∀ place ∈ place?, place.Lodged k := by
  unfold CompileM.assignedVariable
  refine ite (pure fun _ _ => by simp) (findVariable.bind fun l? m _ hl => ?_)
  cases l? with
  | none => exact pure fun _ _ => by simp
  | some l =>
      refine pure fun size hsize place hplace => ?_
      cases hplace
      exact (hl l rfl).mono hsize

theorem variableAssignment {line : Nat} {name : String} :
    Leaves n (variableAssignment line name) Code.Lodged := by
  have hassigned {isConstant : Bool} : Leaves n (do
      let code ← CompileM.assignment (CompileM.assignedVariable line name isConstant)
      CompileM.expect .semicolon "`;`"
      return code) Code.Lodged :=
    (assignment fun _ _ => assignedVariable).bind fun code _ _ hcode =>
      skip fun _ => pure fun _ hsize => hcode.mono hsize
  unfold CompileM.variableAssignment
  exact skip fun _ => of_get fun c => ite (skip fun _ => hassigned) hassigned

theorem moreArguments {fuel : Nat} :
    Leaves n (moreArguments fuel) fun k values => ∀ v ∈ values, v.Lodged k := by
  induction fuel generalizing n with
  | zero => exact pure fun _ _ => by simp
  | succ fuel ih =>
      refine skip fun accepted => ite ?_ (pure fun _ _ => by simp)
      refine expression.bind fun value m _ hvalue => ih.bind fun others k hk hothers => ?_
      refine pure fun size hsize => List.forall_mem_cons.mpr ⟨?_, fun v hv => ?_⟩
      · exact hvalue.mono (Nat.le_trans hk hsize)
      · exact (hothers v hv).mono hsize

theorem arguments : Leaves n arguments fun k values => ∀ v ∈ values, v.Lodged k := by
  refine skip fun kind => ite (pure fun _ _ => by simp) ?_
  refine expression.bind fun first m _ hfirst => skip fun left => ?_
  refine moreArguments.bind fun others k hk hothers => pure fun size hsize => ?_
  refine List.forall_mem_cons.mpr ⟨hfirst.mono (Nat.le_trans hk hsize), fun v hv => ?_⟩
  exact (hothers v hv).mono hsize

/-- A call of an own function has no operands, and one to the library has those of its arguments. -/
theorem callCode {line : Nat} {name : String} {values : List Value}
    (h : ∀ v ∈ values, v.Lodged n) : Leaves n (callCode line name values) Code.Lodged := by
  have hcall {m : Nat} : (Code.instr .call [.label (functionLabel name)]).Lodged m := by simp
  have hrefused {complaint : Complaint} : Leaves n (do
      CompileM.complain line complaint
      return ({} : Code)) Code.Lodged :=
    skip fun _ => pure fun _ _ => Code.lodged_empty
  unfold CompileM.callCode
  refine of_get fun c => ite (ite ?_ ?_) (ite hrefused (ite hrefused (ite hrefused ?_)))
  · exact skip fun _ => pure fun _ _ => hcall
  · exact pure fun _ _ => hcall
  · exact pure fun size hsize => lodged_libraryCall fun v hv => (h v hv).mono hsize

theorem callStatement {line : Nat} {name : String} :
    Leaves n (callStatement line name) Code.Lodged :=
  arguments.bind fun _ _ _ hvalues => skip fun _ => skip fun _ => callCode hvalues

theorem nameStatement {line : Nat} {name : String} :
    Leaves n (nameStatement line name) Code.Lodged :=
  skip fun _ => skip fun _ => ite callStatement variableAssignment

/-! ### Blocks -/

/-- Both sides of a condition are looked up before they are compared. -/
theorem condition {comparison : TokenKind} {what : String} :
    Leaves n (condition comparison what) Code.Lodged := by
  refine skip fun _ => primary.bind fun lhs m _ hlhs => skip fun _ => ?_
  refine primary.bind fun rhs k hk hrhs => skip fun _ => pure fun size hsize => ?_
  exact lodged_compare (hlhs.mono (Nat.le_trans hk hsize)) (hrhs.mono hsize)

section

variable {block : CompileM Code} (hblock : ∀ m, Leaves m block Code.Lodged)
include hblock

theorem ifStatement : Leaves n (ifStatement block) Code.Lodged := by
  unfold CompileM.ifStatement
  refine skip fun _ => skip fun count => condition.bind fun test m _ htest => ?_
  refine (hblock m).bind fun first k hk hfirst => skip fun hasElse => ite ?_ ?_
  · refine (hblock k).bind fun second l hl hsecond => pure fun size hsize => ?_
    have hfirst := hfirst.mono (Nat.le_trans hl hsize)
    simp [htest.mono (Nat.le_trans hk (Nat.le_trans hl hsize)), hfirst, hsecond.mono hsize]
  · refine pure fun size hsize => ?_
    simp [htest.mono (Nat.le_trans hk hsize), hfirst.mono hsize]

theorem whileStatement : Leaves n (whileStatement block) Code.Lodged := by
  unfold CompileM.whileStatement
  refine skip fun _ => skip fun count => condition.bind fun test m _ htest => ?_
  refine (hblock m).bind fun body k hk hbody => pure fun size hsize => ?_
  simp [htest.mono (Nat.le_trans hk hsize), hbody.mono hsize]

/-- Every statement uses slots of the table behind it, if nested blocks do. -/
theorem statementWith : Leaves n (statementWith block) Code.Lodged := by
  refine skip fun line => skip fun kind => ?_
  split
  · exact declaration
  · exact declaration
  · exact pointerAssignment
  · exact returnStatement
  · exact ifStatement hblock
  · exact whileStatement hblock
  · exact syscallStatement
  · exact hblock n
  · exact nameStatement
  · exact nameStatement
  · exact unexpected

end

/-- What is left of a broken statement has no code. -/
theorem statementTurn {one : CompileM Code} [Acts .inside one]
    (hone : Leaves n one Code.Lodged) : Leaves n (statementTurn one) Code.Lodged where
  result {c code c'} hdense hn hrun := by
    unfold CompileM.statementTurn at hrun
    cases hfirst : one c with
    | ok first c1 =>
        rw [tryCatch_of_ok hfirst] at hrun
        cases hrun
        exact hone.result hdense hn hfirst
    | error d c1 =>
        have hturn : Acts .inside (CompileM.statementTurn one) := inferInstance
        have hevolves := (hturn.here c).ok hrun
        rw [tryCatch_of_error hfirst] at hrun
        cases hrun
        exact ⟨hevolves.dense hdense, Nat.le_trans hn (hevolves.size_le rfl), Code.lodged_empty⟩

/-- Broken statements leave no code, and the others use slots of the table behind the last of them.
-/
theorem statements {one : CompileM Code} [Acts .inside one]
    (hone : ∀ m, Leaves m one Code.Lodged) {fuel : Nat} :
    Leaves n (statements one fuel) Code.Lodged := by
  induction fuel generalizing n with
  | zero => exact pure fun _ _ => Code.lodged_empty
  | succ fuel ih =>
      rw [statements_succ]
      refine skip fun kind => ?_
      split
      · exact skip fun _ => pure fun _ _ => Code.lodged_empty
      · exact of_get fun c => skip fun _ => pure fun _ _ => Code.lodged_empty
      · refine (statementTurn (hone n)).bind fun first m _ hfirst =>
          ih.bind fun rest k hk hrest => ?_
        exact pure fun size hsize => Code.lodged_append.mpr
          ⟨hfirst.mono (Nat.le_trans hk hsize), hrest.mono hsize⟩

/-- Nested blocks have no frames of their own: all of them use the table of the function. -/
theorem blockAt {depth : Nat} : Leaves n (blockAt depth) Code.Lodged := by
  induction depth generalizing n with
  | zero => exact pure fun _ _ => Code.lodged_empty
  | succ depth ih => exact skip fun _ => skip fun _ => statements fun m => statementWith fun k => ih

theorem block : Leaves n block Code.Lodged :=
  skip fun _ => blockAt

end Leaves

/-! ### Functions -/

/-- Code that ends a function: the entry function ends the process, any other returns. -/
def endingCode (name : String) : Code :=
  if name = "main" then .exit (.imm 0) else .instr .ret []

/-- Code of a function without a frame: it does not name the frame register. -/
structure Frameless (name : String) (code : Code) : Prop where
  items : ∃ body : Code, code.items =
    .label (functionLabel name) :: body.items ++ (endingCode name).items
  register : ∀ i ∈ code.instrs, .reg .ebp ∉ i.args
  memory : ∀ i ∈ code.instrs, ∀ m, .mem m ∈ i.args → m.base ≠ .ebp

/-- Code of a function with a frame of `n` words: memory is reached through these words or through
the scratch register, and the frame is removed at the end and nowhere else. -/
structure Framed (name : String) (n : Nat) (code : Code) : Prop where
  items : ∃ body : Code, code.items =
    .label (functionLabel name) ::
      [.instr ⟨.push, [.reg .ebp]⟩, .instr ⟨.mov, [.reg .ebp, .reg .esp]⟩,
        .instr ⟨.sub, [.reg .esp, .imm (4 * n : Nat)]⟩] ++ body.items ++
      CompileM.epilogue.items ++ (endingCode name).items
  memory : ∀ i ∈ code.instrs, ∀ m, .mem m ∈ i.args →
    m.base = .ebp ∧ (∃ k, 1 ≤ k ∧ k ≤ n ∧ m.disp.toInt = -(4 * k : Int)) ∨ m = ⟨.edx, 0⟩
  epilogue : ∀ front back, code.items = front ++ CompileM.epilogue.items ++ back →
    back = (endingCode name).items

theorem lodged_endingCode (n : Nat) (name : String) : (endingCode name).Lodged n := by
  unfold endingCode
  split
  · exact lodged_exit (lodged_imm 0)
  · simp

/-- Lodged code without variables does not name the frame register. -/
theorem frameless_functionCode {body : Code} (h : body.Lodged 0) (name : String) :
    Frameless name (CompileM.functionCode name 0 body) := by
  have hlodged : (CompileM.functionCode name 0 body).Lodged 0 := by
    change (Code.label _ ++ body ++ endingCode name).Lodged 0
    simp [h, lodged_endingCode]
  refine ⟨⟨body, rfl⟩, fun i hi hreg => ?_, fun i hi m hmem => ?_⟩
  · exact hlodged _ (Code.mem_instrs.mp hi) _ hreg rfl
  · rcases hlodged _ (Code.mem_instrs.mp hi) _ hmem with rfl | ⟨k, hk, -⟩
    · decide
    · exact absurd hk (Nat.not_lt_zero k)

/-- The items of a function with a frame, in order. -/
theorem items_framed {name : String} {n : Nat} {body : Code} (hpos : 0 < n) :
    (CompileM.functionCode name (n * Abi.wordSize) body).items =
      .label (functionLabel name) ::
        [.instr ⟨.push, [.reg .ebp]⟩, .instr ⟨.mov, [.reg .ebp, .reg .esp]⟩,
          .instr ⟨.sub, [.reg .esp, .imm (4 * n : Nat)]⟩] ++ body.items ++
        CompileM.epilogue.items ++ (endingCode name).items := by
  have hsize : 0 < n * Abi.wordSize := Nat.mul_pos hpos (by decide)
  have hcode : CompileM.functionCode name (n * Abi.wordSize) body =
      .label (functionLabel name) ++ (CompileM.prologue (n * Abi.wordSize) ++ body ++
        CompileM.epilogue) ++ endingCode name := by
    rw [CompileM.functionCode, if_pos hsize]
    rfl
  rw [hcode, Nat.mul_comm]
  exact congrArg (_ :: · ++ (endingCode name).items) (List.append_assoc _ _ _).symm

/-- The frame is removed once: nothing else moves the frame register into the stack pointer. -/
theorem epilogue_once {front back behind : List Item} {ending : Code} {n : Nat}
    (hfront : .instr ⟨.mov, [.reg .esp, .reg .ebp]⟩ ∉ front) (hending : ending.Lodged n)
    (h : front ++ CompileM.epilogue.items ++ ending.items =
      back ++ CompileM.epilogue.items ++ behind) : behind = ending.items := by
  have hbehind : Item.instr ⟨.mov, [.reg .esp, .reg .ebp]⟩ ∉
      .instr ⟨.pop, [.reg .ebp]⟩ :: ending.items := by
    rintro (_ | ⟨_, hmem⟩)
    exact hending _ hmem (.reg .ebp) (by simp) rfl
  rw [List.append_assoc, List.append_assoc] at h
  obtain ⟨-, -, hsame⟩ := (List.append_cons_inj_of_notMem hfront hbehind).mp h
  exact (List.cons.inj hsame).2.symm

/-- A function whose body uses some slots has a frame with exactly these. -/
theorem framed_functionCode {body : Code} {n : Nat} (h : body.Lodged n) (hpos : 0 < n)
    (hlimit : n < 2 ^ 29) (name : String) :
    Framed name n (CompileM.functionCode name (n * Abi.wordSize) body) := by
  have hitems := @items_framed name n body hpos
  refine ⟨⟨body, hitems⟩, fun i hi m hmem => ?_, fun front back heq => ?_⟩
  · have hlodged : Lodged n (.mem m) := by
      have hi := Code.mem_instrs.mp hi
      rw [hitems] at hi
      rcases List.mem_append.mp hi with hi | hi
      · rcases List.mem_append.mp hi with hi | hi
        · rcases List.mem_append.mp hi with hi | hi
          · simp only [List.mem_cons, Item.instr.injEq, List.not_mem_nil, or_false] at hi
            rcases hi with hi | rfl | rfl | rfl
            · cases hi
            all_goals simp at hmem
          · exact h _ hi _ hmem
        · simp only [CompileM.epilogue] at hi
          rcases List.mem_pair.mp hi with hi | hi
          all_goals
            cases hi
            simp at hmem
      · exact lodged_endingCode n name _ hi _ hmem
    rcases hlodged with rfl | ⟨k, hk, rfl⟩
    · exact .inr rfl
    · refine .inl ⟨rfl, k + 1, by omega, hk, ?_⟩
      simpa using Locals.toInt_disp_slotAt (Nat.lt_trans hk hlimit)
  · rw [hitems] at heq
    refine epilogue_once ?_ (lodged_endingCode n name) heq
    intro hmem
    rcases List.mem_append.mp hmem with hmem | hmem
    · revert hmem
      simp
    · exact h _ hmem (.reg .ebp) (by simp) rfl

/-- For every source, with errors or without, a function either has no variables and does not
name the frame register, or it has a frame of exactly as many words as it has variables and
reaches no other. -/
theorem function_frame {source : String} {options : Options}
    (hlimit : options.limits.symbols < 2 ^ 29) {c c' : Compiler} {code : Code}
    (hc : c.AtFunction source options) (h : CompileM.function c = .ok code c') :
    ∃ name c1, CompileM.functionHead c = .ok name c1 ∧
      (c'.locals.size = 0 ∧ Frameless name code ∨
        0 < c'.locals.size ∧ Framed name c'.locals.size code) := by
  obtain ⟨name, c1, body, hhead, hbody, rfl⟩ := CompileM.function_eq_ok h
  obtain ⟨hsound, hoptions⟩ := hc.sound
  have hevolves : c.Evolves .inside c1 := (Acts.functionHead.here c).ok hhead
  have hcleared : c1.cleared.Sound := (hevolves.sound rfl hsound).cleared
  have hblock : c1.cleared.Evolves .inside c' := (Acts.block.here c1.cleared).ok hbody
  obtain ⟨hdense, -, hlodged⟩ := Leaves.block.result hcleared.dense (Nat.zero_le _) hbody
  have hsmall : c'.locals.size < 2 ^ 29 := by
    refine Nat.lt_of_le_of_lt hdense.size_le ?_
    rw [(hblock.sound rfl hcleared).capacity, hblock.options]
    exact (hevolves.options.trans hoptions) ▸ hlimit
  refine ⟨name, c1, hhead, ?_⟩
  rcases Nat.eq_zero_or_pos c'.locals.size with hzero | hpos
  · refine .inl ⟨hzero, ?_⟩
    rw [hzero] at hlodged
    rw [Locals.frameSize, hzero, Nat.zero_mul]
    exact frameless_functionCode hlodged name
  · exact .inr ⟨hpos, framed_functionCode hlodged hpos hsmall name⟩

/-- A function with a variable that is only read and with a broken statement that leaves one. -/
theorem function_frame_broken :
    ∃ code c', CompileM.function
        (.ofSource "void f() \x7b x = y + 1; *q = ; \x7d" {}) = .ok code c' ∧
      Diagnostic.anyError c'.cursor.diagnostics = true ∧ c'.locals.size = 3 ∧
      Framed "f" 3 code := by
  have hresult : (CompileM.function >>= fun _ => (get : CompileM Compiler) >>= fun c' =>
      pure (Diagnostic.anyError c'.cursor.diagnostics, c'.locals.size)).run'
        (.ofSource "void f() \x7b x = y + 1; *q = ; \x7d" {}) = some (true, 3) := by
    decide +kernel
  have hname : CompileM.functionHead.run'
      (.ofSource "void f() \x7b x = y + 1; *q = ; \x7d" {}) = some "f" := by
    decide +kernel
  obtain ⟨code, c', hfunction, hleaves⟩ := CompileM.exists_of_run' hresult
  obtain ⟨herror, hsize⟩ := Prod.mk.inj hleaves
  obtain ⟨name, c2, hhead, hcases⟩ := @function_frame _ {} (by decide) _ _ _ .first hfunction
  rw [EStateM.run', EStateM.run, hhead] at hname
  cases hname
  rcases hcases with ⟨hzero, -⟩ | ⟨-, hframed⟩
  · omega
  · exact ⟨code, c', hfunction, herror, hsize, hsize ▸ hframed⟩

end Ia32.C

import Ia32.Proofs.C.Encodable
import Ia32.Proofs.C.Unambiguous
import Ia32.Proofs.Machine.Straight

/-!
# Expressions compute sums

In every state of the compiler, what it takes for an expression is a primary with numbers added
to it, and the code that it returns leaves the sum in the operand that it returns. The code
changes the accumulator and the flags, and nothing else that a program can see.
-/

namespace Ia32.C

open Piece

/-! ### Tokens ahead -/

/-- Text that is no token. -/
def TokenKind.isInvalid : TokenKind → Bool
  | .invalid _ => true
  | _ => false

namespace Cursor

/-- The tokens ahead without the invalid ones, which are passed over. -/
def validTokens (c : Cursor) : List TokenKind :=
  c.tokens.filter (!·.isInvalid)

/-- Settling drops the invalid tokens in front and keeps the others. -/
theorem validTokens_settle (lastLine : Nat) (diagnostics : List Diagnostic) (tokens : List Token) :
    (settle lastLine diagnostics tokens).validTokens =
      ((tokens.map Token.kind).takeWhile (· ≠ .eof)).filter (!·.isInvalid) := by
  induction tokens generalizing diagnostics with
  | nil => rfl
  | cons token rest ih =>
      unfold settle
      split
      next cause hcause =>
        rw [ih, List.map_cons, hcause]
        simp [TokenKind.isInvalid]
      next => rfl

/-- A move takes the current token. -/
theorem validTokens_next {c : Cursor} (heof : c.kind ≠ .eof) (hvalid : c.kind.isInvalid = false) :
    c.validTokens = c.kind :: c.next.validTokens := by
  rw [next_of_ne_eof heof, validTokens_settle, validTokens, tokens, List.map_cons,
    List.takeWhile_cons_of_pos (by simpa [kind] using heof)]
  exact List.filter_cons_of_pos (by simpa [kind] using hvalid)

end Cursor

/-! ### What is read -/

/-- Only a full table has no place for a name. -/
theorem Locals.getOrDeclare_eq_error {locals : Locals} {name : String} {cause : LocalError}
    (h : (locals.getOrDeclare name).2 = .error cause) :
    locals.get? name = none ∧ cause = .full locals.capacity ∧
      (locals.getOrDeclare name).1 = locals := by
  rcases getOrDeclare_cases locals name with ⟨l, -, huse⟩ | ⟨hname, -, huse⟩ | ⟨l, -, -, huse⟩
  · rw [huse] at h
    cases h
  · rw [huse] at h ⊢
    cases h
    exact ⟨hname, rfl, rfl⟩
  · rw [huse] at h
    cases h

/-- The operand of a primary. A name for which there is no room stands for zero. -/
def Compiler.operandOf (c : Compiler) : Primary → Operand String
  | .number n => .imm n
  | .named name =>
      if c.isString name then .label name
      else match c.locals.get? name with
        | some l => .mem l.slot
        | none => .imm 0

/-- An expression as it is compiled, with its first operand looked up in a state. -/
def Compiler.valueOf (c : Compiler) (e : Expr) : Value :=
  if e.addends = [] then ⟨c.operandOf e.first, {}⟩
  else ⟨.reg .eax, .instr .mov [.reg .eax, c.operandOf e.first] ++ additionCode e.addends⟩

/-- Whether a primary is a number or a name that stands for something. -/
def Compiler.knows (c : Compiler) : Primary → Bool
  | .number _ => true
  | .named name => c.isString name || (c.locals.get? name).isSome

/-- A complaint about the current line that is made between two states. -/
def Compiler.Complains (c c' : Compiler) (complaint : Complaint) : Prop :=
  ∃ remarks, c'.cursor.diagnostics = c.cursor.diagnostics ++ remarks ∧
    ⟨.semantic, c.cursor.line, complaint.message⟩ ∈ remarks

namespace CompileM

variable {α : Type} {c c' : Compiler}

theorem withLocals_bind {β : Type} (use : Locals → Locals × β) (f : β → CompileM α)
    (c : Compiler) : (withLocals use >>= f) c =
      f (use c.locals).2 { c with locals := (use c.locals).1 } := rfl

theorem line_bind (f : Nat → CompileM α) (c : Compiler) : (line >>= f) c = f c.cursor.line c := rfl

theorem peek_bind (f : TokenKind → CompileM α) (c : Compiler) :
    (peek >>= f) c = f c.cursor.kind c := rfl

theorem remaining_bind (f : Nat → CompileM α) (c : Compiler) :
    (remaining >>= f) c = f c.cursor.remaining c := rfl

/-- What an action that can be evaluated leaves. -/
theorem exists_of_run' {β : Type} {act : CompileM α} {f : α → Compiler → β} {b : β}
    (h : (act >>= fun a => (get : CompileM Compiler) >>= fun c' => pure (f a c')).run' c = some b) :
    ∃ a c', act c = .ok a c' ∧ f a c' = b := by
  rw [EStateM.run', EStateM.run] at h
  split at h
  next result c1 hrun =>
    obtain ⟨a, c', hact, hget⟩ := action_bind_eq_ok.mp hrun
    cases hget
    exact ⟨a, _, hact, Option.some.inj h⟩
  next => cases h

/-- An optional token is taken exactly where it stands. -/
theorem accept_eq_ok {kind : TokenKind} {accepted : Bool} (h : accept kind c = .ok accepted c') :
    (accepted = true ∧ c.cursor.kind = kind ∧ c' = { c with cursor := c.cursor.next }) ∨
      (accepted = false ∧ c.cursor.kind ≠ kind ∧ c' = c) := by
  rw [accept, peek_bind] at h
  split at h
  next hkind =>
    cases h
    exact .inl ⟨rfl, hkind, rfl⟩
  next hkind =>
    cases h
    exact .inr ⟨rfl, hkind, rfl⟩

theorem expectNumber_eq_ok {what : String} {value : Nat} (h : expectNumber what c = .ok value c') :
    c.cursor.kind = .number value ∧ c' = { c with cursor := c.cursor.next } := by
  rw [expectNumber, peek_bind] at h
  cases hkind : c.cursor.kind with
  | number n =>
      rw [hkind] at h
      cases h
      exact ⟨rfl, rfl⟩
  | _ =>
      rw [hkind] at h
      cases h

/-- Additions are read up to the first token that is no plus. -/
theorem additions_eq_ok {fuel : Nat} {code : Code} (hfuel : c.cursor.remaining ≤ fuel)
    (h : additions fuel c = .ok code c') :
    ∃ addends, code = additionCode addends ∧
      c.cursor.validTokens =
        addends.flatMap (fun value => [.plus, .number value]) ++ c'.cursor.validTokens ∧
      (c.cursor.kind = .plus → addends ≠ []) ∧ c'.cursor.kind ≠ .plus ∧
      c' = { c with cursor := c'.cursor } := by
  induction fuel generalizing c code with
  | zero =>
      have hplus : c.cursor.kind ≠ .plus := by
        intro hplus
        simp [Cursor.remaining, hplus] at hfuel
      cases h
      exact ⟨[], rfl, rfl, fun h => absurd h hplus, hplus, rfl⟩
  | succ fuel ih =>
      obtain ⟨accepted, c1, haccept, hthen⟩ := action_bind_eq_ok.mp h
      rcases accept_eq_ok haccept with ⟨rfl, hplus, rfl⟩ | ⟨rfl, hplus, rfl⟩
      · obtain ⟨value, c2, hvalue, hthen⟩ := action_bind_eq_ok.mp hthen
        obtain ⟨hnumber, rfl⟩ := expectNumber_eq_ok hvalue
        obtain ⟨others, c3, hothers, hdone⟩ := action_bind_eq_ok.mp hthen
        cases hdone
        have hlt := Cursor.remaining_next_lt (c := c.cursor) (by simp [hplus])
        have hlt' := Cursor.remaining_next_lt (c := c.cursor.next) (by simp [hnumber])
        obtain ⟨addends, rfl, htokens, -, hend, hstate⟩ := ih (by dsimp only; omega) hothers
        refine ⟨value :: addends, rfl, ?_, fun _ => List.cons_ne_nil _ _, hend, hstate⟩
        rw [Cursor.validTokens_next (by simp [hplus]) (by simp [hplus, TokenKind.isInvalid]),
          Cursor.validTokens_next (by simp [hnumber]) (by simp [hnumber, TokenKind.isInvalid]),
          htokens, hplus, hnumber]
        rfl
      · cases hthen
        exact ⟨[], rfl, rfl, fun h => absurd h hplus, hplus, rfl⟩

/-- A variable that is looked up is in the table afterwards, or there is a remark. -/
theorem findVariable_eq_ok {line : Nat} {name : String} {l? : Option Local}
    (h : findVariable line name c = .ok l? c') :
    c'.locals.get? name = l? ∧ c'.strings = c.strings ∧
      (l?.isSome ∧ c'.cursor = c.cursor ∨ l? = none ∧ c'.cursor = c.cursor.report
        ⟨.semantic, line, (Complaint.noVariable (.full c.locals.capacity)).message⟩) := by
  rw [findVariable, withLocals_bind] at h
  cases hfound : (c.locals.getOrDeclare name).2 with
  | ok l =>
      rw [hfound] at h
      cases h
      exact ⟨(Locals.getOrDeclare_eq_ok hfound).2, rfl, .inl ⟨rfl, rfl⟩⟩
  | error cause =>
      obtain ⟨hnone, rfl, hsame⟩ := Locals.getOrDeclare_eq_error hfound
      rw [hfound] at h
      cases h
      exact ⟨(congrArg (·.get? name) hsame).trans hnone, rfl, .inr ⟨rfl, rfl⟩⟩

/-- The operand of a name is that of the state behind it, and there is a remark where the name stays
unknown. -/
theorem variableOperand_eq_ok {line : Nat} {name : String} {operand : Operand String}
    (h : variableOperand line name c = .ok operand c') :
    operand = c'.operandOf (.named name) ∧
      (c'.knows (.named name) = true ∧ c'.cursor = c.cursor ∨
        c'.knows (.named name) = false ∧ c'.cursor = c.cursor.report
          ⟨.semantic, line, (Complaint.noVariable (.full c.locals.capacity)).message⟩) := by
  rw [variableOperand, get_bind] at h
  split at h
  next hstring =>
    cases h
    simp [Compiler.operandOf, Compiler.knows, hstring]
  next hstring =>
    obtain ⟨l?, c1, hfind, h⟩ := action_bind_eq_ok.mp h
    obtain ⟨hget, hstrings, hcases⟩ := findVariable_eq_ok hfind
    have hstring' : c1.isString name = false := by
      rw [Compiler.isString, hstrings]
      exact Bool.eq_false_iff.mpr hstring
    rcases hcases with ⟨hsome, hcursor⟩ | ⟨rfl, hcursor⟩
    · obtain ⟨l, rfl⟩ := Option.isSome_iff_exists.mp hsome
      cases h
      simp [Compiler.operandOf, Compiler.knows, hstring', hget, hcursor]
    · cases h
      simp [Compiler.operandOf, Compiler.knows, hstring', hget, hcursor]

/-- A primary is read; a name without a place is complained about. -/
theorem primary_eq_ok {operand : Operand String} (h : primary c = .ok operand c') :
    ∃ p : Primary, operand = c'.operandOf p ∧
      c.cursor.validTokens = p.piece.tokens ++ c'.cursor.validTokens ∧
      (c'.knows p = true ∨
        c'.knows p = false ∧ c.Complains c' (.noVariable (.full c.locals.capacity))) := by
  rw [primary, line_bind, peek_bind] at h
  cases hkind : c.cursor.kind with
  | number n =>
      rw [hkind] at h
      cases h
      refine ⟨.number n, rfl, ?_, .inl rfl⟩
      rw [Cursor.validTokens_next (by simp [hkind]) (by simp [hkind, TokenKind.isInvalid]), hkind]
      rfl
  | ident name =>
      rw [hkind] at h
      obtain ⟨_, c1, hadvance, h⟩ := action_bind_eq_ok.mp h
      cases hadvance
      obtain ⟨hoperand, hcases⟩ := variableOperand_eq_ok h
      have htokens : c.cursor.validTokens = .ident name :: c.cursor.next.validTokens := by
        rw [Cursor.validTokens_next (by simp [hkind]) (by simp [hkind, TokenKind.isInvalid]), hkind]
      refine ⟨.named name, hoperand, ?_, ?_⟩
      · rcases hcases with ⟨-, hcursor⟩ | ⟨-, hcursor⟩
        · rw [htokens, hcursor]
          rfl
        · rw [htokens, hcursor]
          rfl
      · rcases hcases with ⟨hknows, -⟩ | ⟨hknows, hcursor⟩
        · exact .inl hknows
        · obtain ⟨remarks, hremarks⟩ := Cursor.diagnostics_next c.cursor
          refine .inr ⟨hknows, remarks ++ [_], ?_, List.mem_append_right _ List.mem_cons_self⟩
          rw [hcursor, ← List.append_assoc, hremarks]
          rfl
  | _ =>
      rw [hkind] at h
      cases h

/-- An expression is read up to the first token that is no plus. -/
theorem expression_eq_ok {value : Value} (h : expression c = .ok value c') :
    ∃ e : Expr, c.cursor.validTokens = e.piece.tokens ++ c'.cursor.validTokens ∧
      c'.cursor.kind ≠ .plus ∧
      value = c'.valueOf e ∧
      (c'.knows e.first = true ∨
        c'.knows e.first = false ∧ c.Complains c' (.noVariable (.full c.locals.capacity))) := by
  obtain ⟨first, c1, hfirst, h⟩ := action_bind_eq_ok.mp h
  obtain ⟨p, rfl, htokens, hcases⟩ := primary_eq_ok hfirst
  rw [peek_bind] at h
  by_cases hplus : c1.cursor.kind = .plus
  · rw [if_pos hplus, remaining_bind] at h
    obtain ⟨code, c2, hcode, hdone⟩ := action_bind_eq_ok.mp h
    cases hdone
    obtain ⟨remarks, hremarks⟩ := (Steady.ok hcode).diagnostics
    obtain ⟨addends, rfl, hmore, hnonempty, hend, hstate⟩ := additions_eq_ok (Nat.le_refl _) hcode
    have hoperand : c'.operandOf p = c1.operandOf p := by rw [hstate]; cases p <;> rfl
    have hknows : c'.knows p = c1.knows p := by rw [hstate]; cases p <;> rfl
    refine ⟨⟨p, addends⟩, ?_, hend, ?_, ?_⟩
    · rw [htokens, hmore]
      simp [Expr.piece, spelled]
    · rw [Compiler.valueOf, if_neg (hnonempty hplus), hoperand]
      rfl
    · rw [hknows]
      rcases hcases with hknown | ⟨hunknown, before, hbefore, hmem⟩
      · exact .inl hknown
      · refine .inr ⟨hunknown, before ++ remarks, ?_, List.mem_append_left _ hmem⟩
        rw [← hremarks, hbefore, List.append_assoc]
  · rw [if_neg hplus] at h
    cases h
    exact ⟨⟨p, []⟩, by simp [Expr.piece, spelled, htokens], hplus, rfl, hcases⟩

end CompileM

/-! ### What is computed -/

/-- The word of a variable. -/
def Compiler.place? (c : Compiler) : Primary → Option Mem
  | .number _ => none
  | .named name => if c.isString name then none else (c.locals.get? name).map Local.slot

/-- The word that a primary stands for: a number in 32 bits, the address of a string constant,
or the contents of a variable. -/
def Compiler.wordOf (c : Compiler) (target : String → UInt32) (m : Machine) : Primary → UInt32
  | .number n => UInt32.ofNat n
  | .named name =>
      if c.isString name then target name
      else match c.locals.get? name with
        | some l => m.memory.wordAt (m.address l.slot)
        | none => 0

theorem wordOf_of_place? {c : Compiler} {p : Primary} {place : Mem} (h : c.place? p = some place)
    (target : String → UInt32) (m : Machine) :
    c.wordOf target m p = m.memory.wordAt (m.address place) := by
  cases p with
  | number n => cases h
  | named name =>
      simp only [Compiler.place?] at h
      simp only [Compiler.wordOf]
      by_cases hstring : c.isString name = true
      · rw [if_pos hstring] at h
        cases h
      · rw [if_neg hstring] at h ⊢
        obtain ⟨l, hl, rfl⟩ := Option.map_eq_some_iff.mp h
        rw [hl]

/-- The operand of a primary has its value, if the word of a variable is mapped. -/
theorem value_operandOf {c : Compiler} {p : Primary} {target : String → UInt32} {m : Machine}
    (hmapped : ∀ place, c.place? p = some place → m.memory.MappedFrom (m.address place) 4) :
    m.value ((c.operandOf p).resolve target) = .ok (c.wordOf target m p) := by
  cases p with
  | number n => exact congrArg Except.ok (Word.ofInt_natCast n)
  | named name =>
      simp only [Compiler.operandOf, Compiler.wordOf, Compiler.place?] at hmapped ⊢
      by_cases hstring : c.isString name = true
      · rw [if_pos hstring, if_pos hstring]
        rfl
      · rw [if_neg hstring, if_neg hstring]
        rw [if_neg hstring] at hmapped
        cases hget : c.locals.get? name with
        | none => rfl
        | some l =>
            rw [hget] at hmapped
            exact Memory.read32_eq_ok.mpr ⟨hmapped l.slot rfl, rfl⟩

/-- Additions in a row add the sum of the numbers. -/
theorem steps_additions {addends : List Nat} {m : Machine} {bytes : Bytes}
    (h : m.Faces (addends.map fun (n : Nat) => ⟨.add, [.reg .eax, .imm n]⟩) bytes) :
    ∃ flags, Exec.steps addends.length m = .ok ()
      (((m.behind addends.length bytes.length).withFlags flags).set .eax
        (m.get .eax + UInt32.ofNat addends.sum)) := by
  induction addends generalizing m bytes with
  | nil =>
      have hsum : m.get .eax + UInt32.ofNat 0 = m.get .eax := UInt32.add_zero _
      refine ⟨m.flags, ?_⟩
      rw [h.eq_nil, List.length_nil, List.length_nil, List.sum_nil, hsum, Machine.behind_zero]
      exact congrArg (EStateM.Result.ok ()) (m.set_get_self .eax).symm
  | cons n rest ih =>
      obtain ⟨first, others, flags, rfl, hrest, hsteps⟩ := Machine.Faces.add h
      obtain ⟨flags', hmore⟩ := ih hrest
      refine ⟨flags', ?_⟩
      rw [List.length_cons, hsteps, hmore, Machine.set_behind_set, Machine.get_set_self,
        Word.ofInt_natCast, List.length_append, List.sum_cons, UInt32.ofNat_add, UInt32.add_assoc]

theorem Code.mem_instrs {code : Code} {i : Instr String} :
    i ∈ code.instrs ↔ .instr i ∈ code.items := by
  rw [instrs, List.mem_filterMap]
  constructor
  · rintro ⟨item, hitem, heq⟩
    cases item with
    | label name => cases heq
    | instr j =>
        cases heq
        exact hitem
  · exact fun h => ⟨_, h, rfl⟩

theorem Code.instrs_append (a b : Code) : (a ++ b).instrs = a.instrs ++ b.instrs :=
  List.filterMap_append

/-- Each addend is one addition to the accumulator. -/
theorem instrs_additionCode (target : String → UInt32) (addends : List Nat) :
    (additionCode addends).instrs.map (Instr.resolve target) =
      addends.map fun (n : Nat) => ⟨.add, [.reg .eax, .imm n]⟩ := by
  simp [additionCode, Code.instrs, Instr.resolve, Operand.resolve, Abi.accumulator]

/-- What the code of an expression does in a state of the compiler. -/
structure Sums (c : Compiler) (e : Expr) (value : Value) : Prop where
  /-- Wherever the code lies in memory, it can be executed if the word of the variable is mapped.
  Then the operand has the value of the primary plus the sum of the numbers, and the machine is
  as before up to the accumulator, the flags, the instruction pointer and the step counter. -/
  computes : ∀ (target : String → UInt32) (m : Machine) (bytes : Bytes),
    m.Faces (value.code.instrs.map (Instr.resolve target)) bytes →
    (∀ place, c.place? e.first = some place → m.memory.MappedFrom (m.address place) 4) →
    ∃ m' flags accumulator, Exec.steps value.code.instrs.length m = .ok () m' ∧
      m' = ((m.behind value.code.instrs.length bytes.length).withFlags flags).set .eax accumulator ∧
      m'.value (value.operand.resolve target) =
        .ok (c.wordOf target m e.first + UInt32.ofNat e.addends.sum)
  /-- The code can be placed everywhere. -/
  encodes : (∀ n, .number n ∈ e.piece.tokens → n ≤ Scan.maxNumber) →
    (∀ place, c.place? e.first = some place → place.base ≠ .esp) →
    ∀ target addr, ∃ bytes,
      Instr.encodeAll addr (value.code.instrs.map (Instr.resolve target)) = .ok bytes
  /-- There is code exactly if something is added. -/
  code : value.code.items = [] ↔ e.addends = []
  /-- An immediate is a number by itself, or a name by itself that stands for nothing. -/
  immediate : value.isImmediate = true ↔
    (∃ n, e = ⟨.number n, []⟩) ∨ (e.addends = [] ∧ c.knows e.first = false)

section

variable {c : Compiler} {e : Expr}

theorem valueOf_of_nil (h : e.addends = []) : c.valueOf e = ⟨c.operandOf e.first, {}⟩ :=
  if_pos h

theorem valueOf_of_ne_nil (h : e.addends ≠ []) : c.valueOf e =
    ⟨.reg .eax, .instr .mov [.reg .eax, c.operandOf e.first] ++ additionCode e.addends⟩ :=
  if_neg h

theorem instrs_valueOf (h : e.addends ≠ []) (target : String → UInt32) :
    (c.valueOf e).code.instrs.map (Instr.resolve target) =
      ⟨.mov, [.reg .eax, (c.operandOf e.first).resolve target]⟩ ::
        e.addends.map fun (n : Nat) => ⟨.add, [.reg .eax, .imm n]⟩ := by
  rw [valueOf_of_ne_nil h, Code.instrs_append, List.map_append, instrs_additionCode]
  rfl

/-- The code of a sum loads its first value and adds the others to it, with the flags of the last
addition. -/
theorem computes_valueOf {target : String → UInt32} {m : Machine} {bytes : Bytes}
    (h : m.Faces ((c.valueOf e).code.instrs.map (Instr.resolve target)) bytes)
    (hmapped : ∀ place, c.place? e.first = some place → m.memory.MappedFrom (m.address place) 4) :
    ∃ m' flags accumulator, Exec.steps (c.valueOf e).code.instrs.length m = .ok () m' ∧
      m' = ((m.behind (c.valueOf e).code.instrs.length bytes.length).withFlags flags).set .eax
        accumulator ∧
      m'.value ((c.valueOf e).operand.resolve target) =
        .ok (c.wordOf target m e.first + UInt32.ofNat e.addends.sum) := by
  have hvalue := @value_operandOf c e.first target m hmapped
  rw [← List.length_map (f := Instr.resolve target)]
  by_cases hnil : e.addends = []
  · have hcode : (c.valueOf e).code.instrs = [] := by rw [valueOf_of_nil hnil]; rfl
    have hsum : c.wordOf target m e.first + UInt32.ofNat 0 = c.wordOf target m e.first :=
      UInt32.add_zero _
    rw [hcode] at h ⊢
    refine ⟨m, m.flags, m.get .eax, rfl, ?_, ?_⟩
    · rw [h.eq_nil]
      exact (congrArg (Machine.set · .eax (m.get .eax)) m.behind_zero).trans (m.set_get_self .eax)
        |>.symm
    · rw [valueOf_of_nil hnil, hnil, List.sum_nil, hsum]
      exact hvalue
  · rw [instrs_valueOf hnil] at h ⊢
    obtain ⟨first, others, rfl, hrest, hsteps⟩ := h.load hvalue
    obtain ⟨flags, hmore⟩ := steps_additions hrest
    rw [Machine.get_set_self] at hmore
    refine ⟨_, flags, c.wordOf target m e.first + UInt32.ofNat e.addends.sum, ?_, rfl, ?_⟩
    · rw [List.length_cons, hsteps, List.length_map, hmore, List.length_append]
      exact congrArg (EStateM.Result.ok ())
        (m.set_behind_set .eax first.length e.addends.length others.length m.flags flags _ _)
    · rw [valueOf_of_ne_nil hnil]
      exact congrArg Except.ok (Machine.get_set_self _ _ _)

theorem exists_size_load {p : Primary} (hnumber : ∀ n, p = .number n → n ≤ Scan.maxNumber)
    (hplace : ∀ place, c.place? p = some place → place.base ≠ .esp) :
    ∃ n, (⟨.mov, [.reg .eax, c.operandOf p]⟩ : Instr String).size = .ok n := by
  have hload {a : Operand String} (h : Usable (fun _ => True) a) :
      ∃ n, (⟨.mov, [.reg .eax, a]⟩ : Instr String).size = .ok n :=
    (sound_load .eax h _ List.mem_cons_self).2.2
  cases p with
  | number n => exact hload (usable_number (hnumber n rfl))
  | named name =>
      simp only [Compiler.operandOf, Compiler.place?] at hplace ⊢
      by_cases hstring : c.isString name = true
      · rw [if_pos hstring]
        exact ⟨_, rfl⟩
      · rw [if_neg hstring] at hplace ⊢
        cases hget : c.locals.get? name with
        | none => exact hload ⟨Int.le_refl 0, Int.natCast_nonneg _⟩
        | some l =>
            rw [hget] at hplace
            exact hload (hplace l.slot rfl)

/-- The code of a sum encodes wherever its numbers are ones the scanner reads. -/
theorem encodes_valueOf (hnumbers : ∀ n, .number n ∈ e.piece.tokens → n ≤ Scan.maxNumber)
    (hplace : ∀ place, c.place? e.first = some place → place.base ≠ .esp)
    (target : String → UInt32) (addr : UInt32) : ∃ bytes,
      Instr.encodeAll addr ((c.valueOf e).code.instrs.map (Instr.resolve target)) = .ok bytes := by
  have hfirst : ∀ n, e.first = .number n → n ≤ Scan.maxNumber := fun n hn =>
    hnumbers n (by simp [Expr.piece, Primary.piece, hn, spelled])
  have haddends : ∀ n ∈ e.addends, (TokenKind.number n).Lexical := fun n hn =>
    hnumbers n (by simp [Expr.piece, spelled, hn])
  refine Instr.exists_encodeAll (fun i hi => ?_) target addr
  by_cases hnil : e.addends = []
  · rw [valueOf_of_nil hnil] at hi
    cases hi
  · rw [valueOf_of_ne_nil hnil, Code.instrs_append] at hi
    rcases List.mem_append.mp hi with hload | hadd
    · rw [List.mem_singleton.mp hload]
      exact exists_size_load hfirst hplace
    · have hsound : (additionCode e.addends).Sound fun _ => True := sound_additionCode haddends
      exact (hsound _ (Code.mem_instrs.mp hadd)).2.2

/-- A value on its own has no code. -/
theorem code_valueOf : (c.valueOf e).code.items = [] ↔ e.addends = [] := by
  by_cases hnil : e.addends = []
  · rw [valueOf_of_nil hnil]
    exact iff_of_true rfl hnil
  · rw [valueOf_of_ne_nil hnil]
    exact iff_of_false (List.cons_ne_nil _ _) hnil

/-- The operand of a name is an immediate only if the name stands for nothing. -/
theorem shape_operandOf_named (c : Compiler) (name : String) :
    (c.operandOf (.named name)).shape = .imm ↔ c.knows (.named name) = false := by
  simp only [Compiler.operandOf, Compiler.knows, Bool.or_eq_false_iff]
  by_cases hstring : c.isString name = true
  · rw [if_pos hstring, hstring]
    exact iff_of_false (by simp [Operand.shape]) (by simp)
  · rw [if_neg hstring, Bool.eq_false_iff.mpr hstring]
    cases c.locals.get? name with
    | none => exact iff_of_true rfl ⟨rfl, rfl⟩
    | some l => exact iff_of_false (by simp [Operand.shape]) (by simp)

/-- The operand is an immediate for a number on its own, and for a name that has no place. -/
theorem isImmediate_valueOf : (c.valueOf e).isImmediate = true ↔
    (∃ n, e = ⟨.number n, []⟩) ∨ (e.addends = [] ∧ c.knows e.first = false) := by
  rw [Value.isImmediate, beq_iff_eq]
  obtain ⟨first, addends⟩ := e
  by_cases hnil : addends = []
  · subst hnil
    cases first with
    | number n => exact iff_of_true rfl (.inl ⟨n, rfl⟩)
    | named name =>
        rw [valueOf_of_nil rfl]
        exact (shape_operandOf_named c name).trans (by simp)
  · rw [valueOf_of_ne_nil hnil]
    exact iff_of_false (by simp [Operand.shape]) (by simp [hnil])

/-- What the compiler makes of an expression has all that is said of a sum. -/
theorem sums_valueOf (c : Compiler) (e : Expr) : Sums c e (c.valueOf e) where
  computes _ _ _ h hmapped := computes_valueOf h hmapped
  encodes hnumbers hplace target addr := encodes_valueOf hnumbers hplace target addr
  code := code_valueOf
  immediate := isImmediate_valueOf

end

/-- What the compiler takes for an expression is a primary with numbers added to it, up to the
first token that is no plus. Its code computes the sum and changes nothing else, and a name in it
that stands for nothing is complained about, since there is no room for it. Such a name counts
as zero, and by itself it is an immediate. -/
theorem expression_sums {c c' : Compiler} {value : Value}
    (h : CompileM.expression c = .ok value c') :
    ∃ e : Expr, c.cursor.validTokens = e.piece.tokens ++ c'.cursor.validTokens ∧
      c'.cursor.kind ≠ .plus ∧ Sums c' e value ∧
      (c'.knows e.first = true ∨
        c'.knows e.first = false ∧ c.Complains c' (.noVariable (.full c.locals.capacity))) := by
  obtain ⟨e, htokens, hend, rfl, hcases⟩ := CompileM.expression_eq_ok h
  exact ⟨e, htokens, hend, sums_valueOf c' e, hcases⟩

/-- The compiler in front of `x`, with no room for a variable. -/
def Compiler.atHomeless : Compiler :=
  .ofScan ⟨[⟨.ident "x", 1⟩], 1⟩ { limits := { symbols := 0 } } []

/-- A name is no number, and yet an immediate where the table of variables is full. -/
theorem expression_atHomeless :
    ∃ value c', CompileM.expression .atHomeless = .ok value c' ∧ value.isImmediate = true ∧
      ∀ e : Expr, Compiler.atHomeless.cursor.validTokens =
        e.piece.tokens ++ c'.cursor.validTokens → ¬ ∃ n, e = ⟨.number n, []⟩ := by
  have hresult : (CompileM.expression >>= fun value => (get : CompileM Compiler) >>= fun _ =>
      pure value).run' .atHomeless = some ⟨.imm 0, {}⟩ := by
    decide +kernel
  obtain ⟨value, c', hexpression, rfl⟩ := CompileM.exists_of_run' hresult
  refine ⟨_, c', hexpression, rfl, ?_⟩
  rintro e htokens ⟨n, rfl⟩
  have hahead : Compiler.atHomeless.cursor.validTokens = [.ident "x"] := by decide
  rw [hahead] at htokens
  cases htokens

/-- The compiler in front of `x + 1 + 4294967295`. -/
def Compiler.atSum : Compiler :=
  .ofScan ⟨[⟨.ident "x", 1⟩, ⟨.plus, 1⟩, ⟨.number 1, 1⟩, ⟨.plus, 1⟩, ⟨.number 4294967295, 1⟩], 1⟩
    {} []

/-- A machine in front of the code of that expression, which the word of `x` follows. -/
def sumMachine : Machine where
  regs := { ebp := 0x1010 }
  eip := 0x1000
  flags := {}
  -- mov eax, [ebp-4]; add eax, 1; add eax, 4294967295
  memory := (({} : Memory).map 0x1000 16).put 0x1000
    [0x8B, 0x45, 0xFC, 0x83, 0xC0, 0x01, 0x81, 0xC0, 0xFF, 0xFF, 0xFF, 0xFF]
  output := #[]
  exit := none
  steps := 0

theorem expression_atSum : ∃ c', CompileM.expression .atSum = .ok
      ⟨.reg .eax, .instr .mov [.reg .eax, .mem ⟨.ebp, -4⟩] ++ additionCode [1, 4294967295]⟩ c' ∧
    c'.cursor = ⟨⟨.eof, 1⟩, [], 1, []⟩ ∧ c'.place? (.named "x") = some ⟨.ebp, -4⟩ := by
  have hresult : (CompileM.expression >>= fun value => (get : CompileM Compiler) >>= fun c' =>
      pure (value, c'.cursor, c'.place? (.named "x"))).run' .atSum =
        some (⟨.reg .eax, .instr .mov [.reg .eax, .mem ⟨.ebp, -4⟩] ++ additionCode [1, 4294967295]⟩,
          ⟨⟨.eof, 1⟩, [], 1, []⟩, some ⟨.ebp, -4⟩) := by
    decide +kernel
  obtain ⟨value, c', hexpression, hleaves⟩ := CompileM.exists_of_run' hresult
  simp only [Prod.mk.injEq] at hleaves
  obtain ⟨rfl, hcursor, hplace⟩ := hleaves
  exact ⟨c', hexpression, hcursor, hplace⟩

/-- A sum that comes around to its first operand. -/
theorem expression_sums_around :
    ∃ value c' m', CompileM.expression .atSum = .ok value c' ∧ value.isImmediate = false ∧
      Exec.steps value.code.instrs.length sumMachine = .ok () m' ∧
      m'.value (value.operand.resolve fun _ => 0) =
        .ok (sumMachine.memory.wordAt 0x100C) := by
  obtain ⟨c', hrun, hcursor, hplace⟩ := expression_atSum
  obtain ⟨e, htokens, -, hsums, -⟩ := expression_sums hrun
  have he : e = ⟨.named "x", [1, 4294967295]⟩ := by
    have hahead : c'.cursor.validTokens = [] := by rw [hcursor]; rfl
    rw [hahead] at htokens
    exact (Expr.tokens_cancel (by simp) (by simp) htokens.symm).1
  subst he
  have hroom (a : UInt32) (hlow : 0x1000 ≤ a.toNat) (hhigh : a.toNat < 0x1010) :
      (({} : Memory).map 0x1000 16).isMapped a = true :=
    Memory.isMapped_map hlow hhigh
  have hfaces : sumMachine.Faces
      [⟨.mov, [.reg .eax, .mem ⟨.ebp, -4⟩]⟩, ⟨.add, [.reg .eax, .imm 1]⟩,
        ⟨.add, [.reg .eax, .imm 4294967295]⟩]
      [0x8B, 0x45, 0xFC, 0x83, 0xC0, 0x01, 0x81, 0xC0, 0xFF, 0xFF, 0xFF, 0xFF] := by
    refine ⟨by decide +kernel, Memory.hasBytes_put (by decide) fun a hlow hhigh => ?_⟩
    exact hroom a hlow (Nat.lt_of_lt_of_le hhigh (by decide))
  have hmapped : sumMachine.memory.MappedFrom (sumMachine.address ⟨.ebp, -4⟩) 4 := by
    refine Memory.mappedFrom_of_isMapped (by decide) fun a hlow hhigh => ?_
    refine (Memory.isMapped_put _ _ _ _).trans (hroom a ?_ ?_)
    · exact Nat.le_trans (by decide) hlow
    · exact Nat.lt_of_lt_of_le hhigh (by decide)
  obtain ⟨m', flags, accumulator, hsteps, -, hvalue⟩ := hsums.computes (fun _ => 0) sumMachine _
    hfaces (by
      intro place h
      cases hplace.symm.trans h
      exact hmapped)
  refine ⟨_, c', m', hrun, rfl, hsteps, hvalue.trans ?_⟩
  rw [wordOf_of_place? hplace]
  exact congrArg Except.ok (UInt32.add_zero _)

end Ia32.C

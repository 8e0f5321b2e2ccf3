import Ia32.Proofs.Asm.Settling
import Ia32.Proofs.C.Library

/-!
# Calls of the functions of a program

The functions of a program are collected from its tokens before it is compiled, so that a call
may stand in front of the definition. What is collected are the functions that are compiled,
and the text of the program has one label for each of them. A call of such a function is a
single instruction that goes to its label.

The calls of the library are told apart by the registers that are saved in front of them.
Frames may be so large that the assembler refuses to make room for them. That costs the line
of the instruction, and changes neither labels nor calls.
-/

namespace Ia32.Asm

/-! ### The parts of lines in calls -/

/-- Whether a statement pushes a word. -/
def Statement.pushes : Statement → Bool
  | .instr i => i.op == .push
  | _ => false

/-- The part of a line in calls. -/
structure Role where
  /-- The label that the line defines. -/
  label : Option String := none
  /-- The name that the line calls. -/
  callee : Option String := none
  /-- Whether the line pushes a word. -/
  pushes : Bool := false
  deriving DecidableEq, Repr

/-- The part of a line with a label and a statement. -/
def Role.of (contents : Option String × Option Statement) : Role where
  label := contents.1
  callee := contents.2.bind Statement.callee?
  pushes := contents.2.any Statement.pushes

/-- Instructions that neither call nor push have no part. -/
theorem Role.of_instr {op : Mnemonic} (hcall : op ≠ .call) (hpush : op ≠ .push)
    (args : List (Operand String)) : Role.of (none, some (.instr ⟨op, args⟩)) = {} := by
  have hpushes : Statement.pushes (.instr ⟨op, args⟩) = false := by
    simpa [Statement.pushes] using hpush
  simp [of, Statement.callee?_instr hcall, hpushes]

/-- The part of a line. -/
def Line.role (line : Line) : Role :=
  .of line.contents

namespace Role

/-- The names that are called behind a line that does not push a word; `pushed` is for the line
in front. -/
def direct (pushed : Bool) : List Role → List String
  | [] => []
  | role :: rest => (if pushed then [] else role.callee.toList) ++ direct role.pushes rest

/-- Whether the last of some lines pushes a word; `pushed` is for the line in front. -/
def pushesLast (pushed : Bool) (roles : List Role) : Bool :=
  roles.foldl (fun _ role => role.pushes) pushed

@[simp]
theorem direct_append (pushed : Bool) (first second : List Role) :
    direct pushed (first ++ second) =
      direct pushed first ++ direct (pushesLast pushed first) second := by
  induction first generalizing pushed with
  | nil => rfl
  | cons role rest ih =>
      rw [List.cons_append, direct, direct, ih, List.append_assoc]
      rfl

@[simp]
theorem pushesLast_append (pushed : Bool) (first second : List Role) :
    pushesLast pushed (first ++ second) = pushesLast (pushesLast pushed first) second :=
  List.foldl_append

/-- Lines without a call make no direct call. -/
theorem direct_eq_nil {roles : List Role} (h : ∀ role ∈ roles, role.callee = none) (pushed : Bool) :
    direct pushed roles = [] := by
  induction roles generalizing pushed with
  | nil => rfl
  | cons role rest ih =>
      rw [direct, h role List.mem_cons_self, ih fun other hother =>
        h other (List.mem_cons_of_mem _ hother)]
      simp

/-- Lines without a push do not end with one. -/
theorem pushesLast_eq_false {roles : List Role} (h : ∀ role ∈ roles, role.pushes = false) :
    pushesLast false roles = false := by
  induction roles with
  | nil => rfl
  | cons role rest ih =>
      rw [pushesLast, List.foldl_cons, h role List.mem_cons_self]
      exact ih fun other hother => h other (List.mem_cons_of_mem _ hother)

end Role

/-- The names that lines call without a push in front of the call. -/
def directCallees (lines : List Line) : List String :=
  Role.direct false (lines.map Line.role)

/-- The labels of lines can be read off their roles. -/
theorem filterMap_label_role (lines : List Line) :
    lines.filterMap Line.label = (lines.map Line.role).filterMap Role.label := by
  rw [List.filterMap_map]
  rfl

/-- The callees of lines can be read off their roles. -/
theorem filterMap_callee_role (lines : List Line) :
    lines.filterMap Line.callee? = (lines.map Line.role).filterMap Role.callee := by
  rw [List.filterMap_map]
  rfl

/-! ### Texts whose lines have known parts -/

/-- The lines of a text have these parts, whatever follows the text. -/
def Tells (text : List Char) (roles : List Role) : Prop :=
  ∀ number rest lines complaints,
    Line.readFrom (number + roles.length) (Text.lines rest) = .ok (lines, complaints) →
      ∃ front remarks,
        Line.readFrom number (Text.lines (text ++ rest)) =
          .ok (front ++ lines, remarks ++ complaints) ∧
          front.map Line.role = roles

namespace Tells

theorem nil : Tells [] [] :=
  fun _ _ _ _ h => ⟨[], [], h, rfl⟩

theorem append {first second : List Char} {roles roles' : List Role} (h : Tells first roles)
    (h' : Tells second roles') : Tells (first ++ second) (roles ++ roles') := by
  intro number rest lines complaints hrest
  -- the second text follows the first one, and behind it is what follows both
  rw [List.length_append, ← Nat.add_assoc] at hrest
  obtain ⟨back, remarks', hback, hroles'⟩ := h' _ rest lines complaints hrest
  obtain ⟨front, remarks, hfront, hroles⟩ := h number _ _ _ hback
  refine ⟨front ++ back, remarks ++ remarks', ?_, by rw [List.map_append, hroles, hroles']⟩
  rw [List.append_assoc, hfront, List.append_assoc, List.append_assoc]

/-- A text that is one line for each element. -/
theorem flatMap {α : Type} {text : α → List Char} {role : α → Role} {xs : List α}
    (h : ∀ x ∈ xs, Tells (text x) [role x]) : Tells (xs.flatMap text) (xs.map role) := by
  induction xs with
  | nil => exact nil
  | cons x rest ih =>
      exact (h x List.mem_cons_self).append (ih fun y hy => h y (List.mem_cons_of_mem x hy))

/-- A line that can be read has the part that its reading has. -/
theorem line {text : List Char} (hend : ∀ c ∈ text, c ≠ '\n' ∧ c ≠ '\r') {role : Role}
    (hread : ∀ number, ∃ line complaints,
      Line.read number text = .ok (line, complaints) ∧ line.role = role) :
    Tells (text ++ ['\n']) [role] := by
  intro number rest lines complaints hrest
  obtain ⟨line, remarks, hline, hrole⟩ := hread number
  refine ⟨[line], remarks, ?_, by rw [List.map_singleton, hrole]⟩
  rw [List.append_assoc, List.singleton_append, Text.lines_append rest hend, Line.readFrom, hline,
    ok_bind, show Line.readFrom (number + 1) (Text.lines rest) = _ from hrest]
  rfl

/-- A line that the renderer writes is read as that line. -/
theorem written (w : Written) : Tells (w.text ++ ['\n']) [.of (w.label, w.statement)] :=
  line w.noEnd fun number => ⟨_, [], w.readsAs number, rfl⟩

/-- The line of an instruction has no part unless it calls or pushes, even if it is refused. -/
theorem instr {i : Instr String} (h : WritableInstr i) (hcall : i.op ≠ .call)
    (hpush : i.op ≠ .push) :
    Tells ("  ".toList ++ i.text.toList ++ ['\n']) [{}] := by
  have hspaces : Unquoted "  ".toList := by decide
  refine line (hspaces.append (unquoted_text h)).noEnd fun number => ?_
  obtain ⟨line, complaints, hread, hlabel, hop⟩ := exists_read_instr h number
  refine ⟨line, complaints, hread, ?_⟩
  rw [Line.role, Line.contents, hlabel]
  cases hstatement : line.statement with
  | none => rfl
  | some statement =>
      obtain ⟨args, rfl⟩ := hop statement hstatement
      exact Role.of_instr hcall hpush args

/-- Reading such a text succeeds. -/
theorem readAll {source : String} {roles : List Role} (h : Tells source.toList roles) :
    ∃ lines complaints, Line.readAll source = .ok (lines, complaints) ∧
      lines.map Line.role = roles := by
  obtain ⟨lines, complaints, hlines, hroles⟩ := h 1 [] [] [] rfl
  rw [List.append_nil, List.append_nil, List.append_nil] at hlines
  exact ⟨lines, complaints, hlines, hroles⟩

end Tells

end Ia32.Asm

namespace Ia32.C

open Asm Assembler Piece

/-! ### The text of a compilation -/

/-- The part of the line of an item. -/
def Item.role (item : Item) : Role :=
  .of item.contents

/-- A readable item is read as its own role. -/
theorem Item.Readable.tells {item : Item} (h : item.Readable) :
    Tells (Code.renderItem item).toList [item.role] := by
  obtain ⟨w, htext, hcontents⟩ := exists_written_item h
  rw [htext, role, ← hcontents]
  exact .written w

/-- A constant is read as a label and data, hence as no call. -/
theorem tells_constant {constant : String × String} (h : isName constant.1.toList = true) :
    Tells (dataLine constant.1 constant.2 ++ "\n").toList [.of (constantContents constant)] := by
  obtain ⟨w, htext, hcontents⟩ := exists_written_constant h constant.2
  rw [htext, ← hcontents]
  exact .written w

theorem tells_section (sect : Section) :
    Tells ("section ." ++ sect.name ++ "\n").toList [.of (none, some (.select sect))] := by
  obtain ⟨w, htext, hcontents⟩ := exists_written_section sect
  rw [htext, ← hcontents]
  exact .written w

/-- The lines of a compilation have the parts of its constants and its code. -/
theorem tells_assembly {constants : List (String × String)} {code : Code}
    (hconstants : ∀ constant ∈ constants, isName constant.1.toList = true)
    (hcode : ∀ item ∈ code.items, Tells (Code.renderItem item).toList [item.role]) :
    Tells (dataSection constants ++ "section .text\n" ++ code.render).toList
      ((assemblyContents constants code).map Role.of) := by
  have hdata : Tells (dataSection constants).toList
      ((if constants.isEmpty then []
        else (none, some (.select .data)) :: constants.map constantContents).map Role.of) := by
    unfold dataSection
    split
    · exact .nil
    · rw [String.toList_append, String.toList_join, List.flatMap_map, List.map_cons, List.map_map]
      exact (tells_section .data).append
        (.flatMap fun constant hconstant => tells_constant (hconstants constant hconstant))
  have hitems : Tells code.render.toList ((code.items.map Item.contents).map Role.of) := by
    rw [Code.render, String.toList_join, List.flatMap_map, List.map_map]
    exact .flatMap hcode
  rw [assemblyContents, List.map_append, List.map_cons, String.append_assoc, String.toList_append,
    String.toList_append]
  exact hdata.append ((tells_section .text).append hitems)

/-- Making room for a frame is told, however large the frame is. -/
theorem tells_makeRoom (size : Nat) :
    Tells (Code.renderItem (.instr ⟨.sub, [.reg .esp, .imm size]⟩)).toList [{}] := by
  have hwritable : WritableInstr ⟨.sub, [.reg .esp, .imm size]⟩ := by
    intro a ha
    simp only [List.mem_cons, List.not_mem_nil, or_false] at ha
    rcases ha with rfl | rfl <;> trivial
  simpa [Code.renderItem] using Tells.instr hwritable (by simp) (by simp)

/-- But for the room that is made, the code of a function does not depend on the size of its
frame if it has one. -/
theorem mem_functionCode {name : String} {size : Nat} {body : Code} {item : Item}
    (h : item ∈ (CompileM.functionCode name size body).items) :
    item = .instr ⟨.sub, [.reg .esp, .imm size]⟩ ∨
      item ∈ (CompileM.functionCode name 1 body).items := by
  have happend (a b : Code) : (a ++ b).items = a.items ++ b.items := rfl
  simp only [CompileM.functionCode, CompileM.prologue, if_pos Nat.one_pos, happend,
    List.mem_append] at h ⊢
  split at h
  next =>
    simp only [happend, List.mem_append] at h
    rcases h with (hlabel | (((hsave | hroom) | hbody) | hepilogue)) | hfinish
    · exact .inr (by simp only [hlabel, true_or])
    · exact .inr (by simp only [hsave, true_or, or_true])
    · exact .inl (List.mem_singleton.mp hroom)
    · exact .inr (by simp only [hbody, true_or, or_true])
    · exact .inr (by simp only [hepilogue, true_or, or_true])
    · exact .inr (by simp only [hfinish, or_true])
  next =>
    rcases h with (hlabel | hbody) | hfinish
    · exact .inr (by simp only [hlabel, true_or])
    · exact .inr (by simp only [hbody, true_or, or_true])
    · exact .inr (by simp only [hfinish, or_true])

/-- The lines of a program that keeps the rules are read, whatever its frames. -/
theorem Program.Legal.tells {options : Options} {p : Program} (h : p.Legal options)
    (hlexical : ∀ kind ∈ p.tokens, kind.Lexical) :
    Tells (dataSection p.constants ++ "section .text\n" ++ p.code.render).toList
      ((assemblyContents p.constants p.code).map Role.of) := by
  refine tells_assembly (fun constant hconstant =>
    (isWord_constant hlexical constant hconstant).isName)
    fun item hitem => ?_
  obtain ⟨r, hr, hitem⟩ := List.mem_flatMap.mp hitem
  have hname := h.usable_function hlexical (List.mem_map_of_mem (mem_of_mem_routines hr))
  rcases mem_functionCode hitem with rfl | hitem
  · exact tells_makeRoom _
  · -- the other lines are those of a function with a small frame, which can be encoded
    have hsound :=
      sound_functionCode hname (by decide : 1 ≤ Scan.maxNumber) (h.sound_body hlexical hr)
    exact (hsound item hitem).readable.tells

/-! ### Calls in generated code -/

/-- The parts of the lines of code. -/
def Code.roles (code : Code) : List Role :=
  code.items.map Item.role

@[simp]
theorem Code.roles_append (a b : Code) : (a ++ b).roles = a.roles ++ b.roles :=
  List.map_append

/-- Code that calls these names directly, and does not end with a push. -/
structure Code.Directs (code : Code) (names : List String) : Prop where
  direct : Role.direct false code.roles = names
  settled : Role.pushesLast false code.roles = false

namespace Code.Directs

theorem append {a b : Code} {names names' : List String} (ha : a.Directs names)
    (hb : b.Directs names') : (a ++ b).Directs (names ++ names') := by
  constructor
  · rw [roles_append, Role.direct_append, ha.settled, ha.direct, hb.direct]
  · rw [roles_append, Role.pushesLast_append, ha.settled, hb.settled]

theorem empty : ({} : Code).Directs [] := ⟨rfl, rfl⟩

theorem label (name : String) : (Code.label name).Directs [] := ⟨rfl, rfl⟩

theorem call (name : String) : (Code.instr .call [.label name]).Directs [name] := ⟨rfl, rfl⟩

end Code.Directs

/-- The lines of straight code have no part. -/
theorem Code.Straight.eq_of_mem_roles {code : Code} (h : code.Straight) :
    ∀ role ∈ code.roles, role = {} := by
  intro role hrole
  obtain ⟨item, hitem, rfl⟩ := List.mem_map.mp hrole
  obtain ⟨op, args, rfl, hcall, hpush⟩ := h item hitem
  exact Role.of_instr hcall hpush args

/-- Code without a label, a call or a push makes no direct call. -/
theorem Code.Straight.directs {code : Code} (h : code.Straight) : code.Directs [] :=
  ⟨Role.direct_eq_nil (fun role hrole => by rw [h.eq_of_mem_roles role hrole]) false,
    Role.pushesLast_eq_false fun role hrole => by rw [h.eq_of_mem_roles role hrole]⟩

namespace Code.Directs

variable {a b : Code} {names : List String}

theorem before_label (ha : a.Directs names) (name : String) : (a ++ .label name).Directs names := by
  simpa using ha.append (.label name)

theorem before_straight (ha : a.Directs names) (hb : b.Straight) : (a ++ b).Directs names := by
  simpa using ha.append hb.directs

theorem behind_label (hb : b.Directs names) (name : String) : (.label name ++ b).Directs names := by
  simpa using (label name).append hb

theorem behind_straight (hb : b.Directs names) (ha : a.Straight) : (a ++ b).Directs names := by
  simpa using ha.directs.append hb

end Code.Directs

/-! ### Calls of statements -/

/-- The labels of the functions of a program that are called. -/
def ownLabels (functions : List String) (calls : List (String × Nat)) : List String :=
  (calls.filter fun call => functions.contains call.1).map fun call => functionLabel call.1

theorem ownLabels_append (functions : List String) (calls calls' : List (String × Nat)) :
    ownLabels functions (calls ++ calls') =
      ownLabels functions calls ++ ownLabels functions calls' := by
  rw [ownLabels, List.filter_append, List.map_append]
  rfl

theorem Code.callees_eq (code : Code) : code.callees = code.roles.filterMap Role.callee := by
  rw [roles, List.filterMap_map]
  rfl

/-- The last thing in front of a call of the library is a push: of its first argument, or else of
a register. -/
theorem pushesLast_arguments (pushed : Bool) (frame : Frame) (es : List Expr) :
    Role.pushesLast pushed (CompileM.eachReg .push Abi.callerSaved ++
      CompileM.pushArguments (es.map (Expr.value frame))).roles = true := by
  cases es with
  | nil => rfl
  | cons e rest =>
      have hlast : CompileM.pushArguments ((e :: rest).map (Expr.value frame)) =
          CompileM.pushArguments (rest.map (Expr.value frame)) ++
            ((e.value frame).code ++ .instr .push [(e.value frame).operand]) := by
        simp only [CompileM.pushArguments, List.map_cons, List.reverse_cons, List.flatMap_append,
          List.flatMap_singleton]
        rfl
      rw [hlast]
      simp only [Code.roles_append, Role.pushesLast_append]
      rfl

/-- A call of the library is not direct. -/
theorem directs_libraryCall (name : String) (frame : Frame) (es : List Expr) :
    (CompileM.libraryCall name (es.map (Expr.value frame))).Directs [] := by
  have hfront : (CompileM.eachReg .push Abi.callerSaved ++
      CompileM.pushArguments (es.map (Expr.value frame)) ++ .instr .call [.label name]).Directs
        [] := by
    have hcallees : (CompileM.eachReg .push Abi.callerSaved ++
        CompileM.pushArguments (es.map (Expr.value frame))).callees = [] := by simp
    rw [Code.callees_eq, List.filterMap_eq_nil_iff] at hcallees
    -- the call stands behind a push, so it does not count, and is no push itself
    constructor
    · rw [Code.roles_append, Role.direct_append, Role.direct_eq_nil hcallees, pushesLast_arguments]
      rfl
    · rw [Code.roles_append, Role.pushesLast_append]
      rfl
  have hcleanup : Code.Straight (if (es.map (Expr.value frame)).isEmpty then {}
      else .instr .add [.reg .esp, .imm ((es.map (Expr.value frame)).length * Abi.wordSize)]) := by
    split <;> simp
  exact (hfront.before_straight hcleanup).before_straight (straight_restore _)

/-- Statements without statements inside call directly what they name of the functions. -/
theorem Simple.directs (functions : List String) (frame : Frame) (s : Simple) :
    (s.code functions frame).Directs (ownLabels functions s.piece.calls) := by
  have hother (hcalls : s.piece.calls = []) (hstraight : (s.code functions frame).Straight) :
      (s.code functions frame).Directs (ownLabels functions s.piece.calls) :=
    hcalls ▸ hstraight.directs
  cases s with
  | exit status =>
      cases status with
      | none => exact hother rfl (by simp [code])
      | some e => exact hother (by simp [piece, spelled, e.plain.calls]) (by simp [code])
  | call name es =>
      have hcalls : (Simple.call name es).piece.calls = [(name, es.length)] := by
        simp [piece, spelled, (plain_argumentList es).calls]
      rw [hcalls, code, ownLabels, List.filter_cons]
      cases functions.contains name with
      | true => exact .call _
      | false => exact directs_libraryCall name frame es
  | _ =>
      exact hother (by simp [piece, spelled, looked, assigned, (Rhs.plain _).calls,
        (Trap.plain _).calls]) (by simp [code])

/-- Statements call directly what they name of the functions, in their order. -/
theorem Body.directs (functions : List String) (frame : Frame) (n m : Nat) (b : Body) :
    (b.code functions frame n m).Directs (ownLabels functions b.piece.calls) := by
  have htest (comparison : TokenKind) (test : Test) := (test.plain comparison).calls
  -- a condition calls nothing, and labels and jumps around the blocks are no calls
  induction b generalizing n m with
  | done => exact .empty
  | simple s rest ih =>
      have hcalls : (Body.simple s rest).piece.calls = s.piece.calls ++ rest.piece.calls := by
        simp [piece]
      rw [hcalls, ownLabels_append]
      exact (s.directs functions frame).append (ih n m)
  | block inner rest hinner hrest =>
      have hcalls : (Body.block inner rest).piece.calls =
          inner.piece.calls ++ rest.piece.calls := by
        simp [piece, braced, spelled]
      rw [hcalls, ownLabels_append]
      exact (hinner n m).append (hrest _ _)
  | ifThen test inner rest hinner hrest =>
      have hcalls : (Body.ifThen test inner rest).piece.calls =
          inner.piece.calls ++ rest.piece.calls := by
        simp [piece, braced, spelled, htest]
      rw [hcalls, ownLabels_append]
      exact ((((hinner _ _).behind_straight (by simp)).before_label _).before_label _).append
        (hrest _ _)
  | ifElse test first second rest hfirst hsecond hrest =>
      have hcalls : (Body.ifElse test first second rest).piece.calls =
          first.piece.calls ++ second.piece.calls ++ rest.piece.calls := by
        simp [piece, braced, spelled, htest]
      rw [hcalls, ownLabels_append, ownLabels_append]
      have hthen := (hfirst (n + 1) m).behind_straight (by simp :
        (test.code frame ++ .instr .je [.label ("else_" ++ toString n)]).Straight)
      exact ((((hthen.before_straight (by simp)).before_label _).append
        (hsecond _ _)).before_label _).append (hrest _ _)
  | loop test inner rest hinner hrest =>
      have hcalls : (Body.loop test inner rest).piece.calls =
          inner.piece.calls ++ rest.piece.calls := by
        simp [piece, braced, spelled, htest]
      rw [hcalls, ownLabels_append]
      have hfront := ((Code.Directs.label ("loop_" ++ toString m)).before_straight
        (straight_test frame test)).before_straight
        (by simp : (Code.instr .jge [.label ("end_" ++ toString m)]).Straight)
      exact (((hfront.append (hinner _ _)).before_straight (by simp)).before_label _).append
        (hrest _ _)

/-- A routine calls what the calls of its body say. -/
theorem Routine.directs (functions : List String) (r : Routine) :
    (r.code functions).Directs (ownLabels functions r.function.body.piece.calls) := by
  have hbody := r.function.body.directs functions r.frame r.branches r.loops
  have hprologue : (CompileM.prologue r.frame.size).Directs [] := ⟨rfl, rfl⟩
  have hepilogue : CompileM.epilogue.Straight := by simp [CompileM.epilogue]
  have hframed : Code.Directs (if 0 < r.frame.size then CompileM.prologue r.frame.size ++
      r.function.body.code functions r.frame r.branches r.loops ++ CompileM.epilogue else
      r.function.body.code functions r.frame r.branches r.loops)
      (ownLabels functions r.function.body.piece.calls) := by
    split
    · exact (hprologue.append hbody).before_straight hepilogue
    · exact hbody
  have hfinish :
      Code.Straight (if r.function.name = "main" then .exit (.imm 0) else .instr .ret []) := by
    split <;> simp
  exact (hframed.behind_label _).before_straight hfinish

/-- A program makes exactly the direct calls of its routines, in order. -/
theorem Program.directs (functions constants : List String) (n m : Nat) (p : Program) :
    (codeOf functions (p.routinesFrom constants n m)).Directs (ownLabels functions p.calls) := by
  induction p generalizing constants n m with
  | nil => exact .empty
  | cons f rest ih =>
      have hfirst := Routine.directs functions
        ⟨f, constants ++ f.body.piece.constants.map Prod.fst, n, m⟩
      rw [calls_cons, ownLabels_append]
      exact hfirst.append (ih _ _ _)

/-- The lines in front of the code neither call nor push. -/
theorem direct_assemblyContents (constants : List (String × String)) (code : Code) :
    Role.direct false ((assemblyContents constants code).map Role.of) =
      Role.direct false code.roles := by
  have hfront : ∀ role ∈ ((if constants.isEmpty then []
      else (none, some (.select .data)) :: constants.map constantContents).map Role.of),
      role.callee = none ∧ role.pushes = false := by
    intro role hrole
    obtain ⟨contents, hcontents, rfl⟩ := List.mem_map.mp hrole
    split at hcontents
    · cases hcontents
    · rcases List.mem_cons.mp hcontents with rfl | hcontents
      · exact ⟨rfl, rfl⟩
      · obtain ⟨constant, -, rfl⟩ := List.mem_map.mp hcontents
        exact ⟨rfl, rfl⟩
  rw [assemblyContents, List.map_append, Role.direct_append,
    Role.direct_eq_nil fun role hrole => (hfront role hrole).1,
    Role.pushesLast_eq_false fun role hrole => (hfront role hrole).2, List.map_cons, List.map_map]
  rfl

/-! ### Programs with calls of their own functions -/

/-- What is collected ahead from the tokens are the functions. -/
theorem Program.Legal.collectFunctions_eq {options : Options} {p : Program} (h : p.Legal options)
    {scan : Scan} (hp : p.tokens = scan.tokens.map Token.kind) :
    collectFunctions scan = p.functions := by
  have hint : ∀ f ∈ p, f.returnsInt → f.name = "main" := by
    intro f hf
    obtain ⟨r, hr, rfl⟩ := exists_routine_of_mem hf
    exact (h.routines r hr).returnsInt
  rw [collectFunctions, ← hp]
  exact collectFrom_tokens [] p hint (by simpa using h.functions)

/-- Different functions have different labels. -/
theorem Program.Legal.nodup_functionLabels {options : Options} {p : Program} (h : p.Legal options) :
    (p.functions.map functionLabel).Nodup :=
  h.functions.map_on fun a ha b hb heq =>
    functionLabel_inj (h.isReserved_functions a ha) (h.isReserved_functions b hb) heq

/-- Calls of the functions of a program reach them. A source text that compiles without errors
has the functions that are collected ahead, each once, and they have different labels with
exactly one line each. The calls in the text are those of the source, in their order. Those of
functions of the program are direct and no others are, and each goes to a label that is
defined once, wherever the function stands. -/
theorem own_calls_reach {source : String} {options : Options}
    (h : (compile source options).hasError = false) :
    collectFunctions (Scan.ofSource source) = (compile source options).functions ∧
      (compile source options).functions.Nodup ∧
      ((compile source options).functions.map functionLabel).Nodup ∧
      (∃ p : Program, p.tokens = (Scan.ofSource source).tokens.map Token.kind) ∧
      ∃ lines complaints,
        Line.readAll (compile source options).asm = .ok (lines, complaints) ∧
          (∀ name ∈ (compile source options).functions,
            (lineLabels lines).count (functionLabel name) = 1) ∧
          (∀ label ∈ directCallees lines, (lineLabels lines).count label = 1) ∧
          ∀ p : Program, p.tokens = (Scan.ofSource source).tokens.map Token.kind →
            p.functions = (compile source options).functions ∧
              lines.filterMap Line.callee? = calleeLabels p.functions p.calls ∧
              directCallees lines = ownLabels p.functions p.calls := by
  obtain ⟨p, hp, hlegal, hasm, hfunctions⟩ := exists_program_of_compile h
  have hlexical : ∀ kind ∈ p.tokens, kind.Lexical := hp ▸ Scan.lexical_ofSource source
  obtain ⟨lines, complaints, hread, hroles⟩ := (hlegal.tells hlexical).readAll
  have hlabels : lineLabels lines = p.labels := by
    rw [lineLabels, filterMap_label_role, hroles, List.filterMap_map, ← p.labels_code,
      ← labels_assemblyContents]
    rfl
  have hcallees : lines.filterMap Line.callee? = calleeLabels p.functions p.calls := by
    rw [filterMap_callee_role, hroles, List.filterMap_map]
    exact (callees_assemblyContents _ _).trans (Program.callees_codeOf _ _ _ _ _)
  have hdirect : directCallees lines = ownLabels p.functions p.calls := by
    rw [directCallees, hroles, direct_assemblyContents]
    exact (Program.directs _ _ _ _ _).direct
  have hcount (name : String) (hname : name ∈ p.functions) :
      (lineLabels lines).count (functionLabel name) = 1 := by
    rw [hlabels]
    exact List.count_eq_one_of_mem hlegal.nodup_labels (Program.functionLabel_mem_labels hname)
  rw [hlegal.collectFunctions_eq hp, hfunctions]
  refine ⟨rfl, hlegal.functions, hlegal.nodup_functionLabels, ⟨p, hp⟩, lines, complaints,
    hasm ▸ hread, hcount, ?_, ?_⟩
  · intro label hlabel
    rw [hdirect] at hlabel
    obtain ⟨call, hcall, rfl⟩ := List.mem_map.mp hlabel
    exact hcount call.1 (by simpa using (List.mem_filter.mp hcall).2)
  · intro q hq
    obtain rfl : q = p := Program.tokens_inj (hq.trans hp.symm)
    exact ⟨rfl, hcallees, hdirect⟩

/-- A text whose functions call each other across their definitions, and the library. -/
def crossingText : String :=
  "void f() \x7b g(); puts(1); \x7d int main() \x7b f(); \x7d void g() \x7b f(); \x7d"

theorem own_calls_reach_crossing :
    (compile crossingText {}).hasError = false ∧
      collectFunctions (Scan.ofSource crossingText) = ["f", "main", "g"] ∧
      ∃ lines complaints, Line.readAll (compile crossingText {}).asm = .ok (lines, complaints) ∧
        (lineLabels lines).count "_start" = 1 ∧
        lines.filterMap Line.callee? = ["g", "puts", "f", "f"] ∧
        directCallees lines = ["g", "f", "f"] := by
  have hcompile : (compile crossingText {}).hasError = false := by decide +kernel
  let p : Program :=
    [⟨false, "f", .simple (.call "g" []) (.simple (.call "puts" [⟨.number 1, []⟩]) .done)⟩,
      ⟨true, "main", .simple (.call "f" []) .done⟩, ⟨false, "g", .simple (.call "f" []) .done⟩]
  obtain ⟨hcollected, -, -, -, lines, complaints, hread, hcount, -, hcalls⟩ :=
    own_calls_reach hcompile
  obtain ⟨hfunctions, hcallees, hdirect⟩ := hcalls p (by decide +kernel)
  rw [← hfunctions] at hcollected hcount
  exact ⟨hcompile, hcollected, lines, complaints, hread, hcount "main" (by decide), hcallees,
    hdirect⟩

end Ia32.C

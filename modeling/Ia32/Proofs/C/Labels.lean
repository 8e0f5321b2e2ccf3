import Ia32.Proofs.C.Compilation

/-!
# Labels of generated code

The labels of branches and loops are numbered through the whole program, so no two of
them are the same. Functions and string constants keep clear of them because their
names must not be reserved.
-/

namespace Ia32.C

open Piece

/-! ### Labels of branches and loops -/

/-- The labels that the compiler makes up. -/
inductive Control where
  | otherwise (n : Nat)
  | endIf (n : Nat)
  | loop (m : Nat)
  | endLoop (m : Nat)
  deriving DecidableEq, Repr

namespace Control

/-- What the label of a branch or loop starts with. -/
def stem : Control → String
  | .otherwise _ => "else_"
  | .endIf _ => "endif_"
  | .loop _ => "loop_"
  | .endLoop _ => "end_"

/-- The number of a label. -/
def number : Control → Nat
  | .otherwise n | .endIf n => n
  | .loop m | .endLoop m => m

/-- The written label. -/
def name (l : Control) : String :=
  l.stem ++ toString l.number

theorem toList_name (l : Control) : l.name.toList = l.stem.toList ++ Nat.toDigits 10 l.number := by
  rw [name, String.toList_append]
  exact congrArg (l.stem.toList ++ ·) Nat.toList_repr

theorem isReserved_name (l : Control) : isReserved l.name = true := by
  have hdigits : (Nat.toDigits 10 l.number).all Char.isDigit = true :=
    List.all_eq_true.mpr fun c hc => Nat.isDigit_of_mem_toDigits (by decide) (by decide) hc
  have hnumbered : isNumbered l.stem.toList l.name.toList = true := by
    simp [isNumbered, toList_name, Nat.toDigits_ne_nil, hdigits]
  have hstem : l.stem ∈ controlStems := by cases l <;> simp [stem, controlStems]
  simp only [isReserved, Bool.or_eq_true, List.any_eq_true]
  exact .inr ⟨l.stem, hstem, hnumbered⟩

theorem name_ne_entryLabel (l : Control) : l.name ≠ Abi.entryLabel := by
  intro h
  have hlist := congrArg String.toList h
  rw [toList_name] at hlist
  cases l <;> simp [stem, Abi.entryLabel] at hlist

theorem name_injective {a b : Control} (h : a.name = b.name) : a = b := by
  have hlist := congrArg String.toList h
  rw [toList_name, toList_name] at hlist
  have hnumbers {n m : Nat} (h : Nat.toDigits 10 n = Nat.toDigits 10 m) : n = m := by
    have hvalue := congrArg (fun digits => Nat.ofDigitChars 10 digits 0) h
    simpa using hvalue
  cases a <;> cases b <;> simp [stem, number] at hlist ⊢ <;> exact hnumbers hlist

end Control

/-- The labels of code. -/
def Code.labels (code : Code) : List String :=
  code.items.filterMap fun item =>
    match item with
    | .label name => some name
    | .instr _ => none

@[simp]
theorem Code.labels_append (a b : Code) : (a ++ b).labels = a.labels ++ b.labels :=
  List.filterMap_append

@[simp]
theorem Code.labels_label (name : String) : (Code.label name).labels = [name] := rfl

@[simp]
theorem Code.labels_instr (op : Mnemonic) (args : List (Operand String)) :
    (Code.instr op args).labels = [] := rfl

@[simp]
theorem Code.labels_empty : ({} : Code).labels = [] := rfl

/-! ### Code without labels, calls and pushes -/

/-- Instructions that neither call nor push. -/
def Code.Straight (code : Code) : Prop :=
  ∀ item ∈ code.items, ∃ op args, item = .instr ⟨op, args⟩ ∧ op ≠ .call ∧ op ≠ .push

@[simp]
theorem Code.Straight.labels {code : Code} (h : code.Straight) : code.labels = [] := by
  refine List.filterMap_eq_nil_iff.mpr fun item hitem => ?_
  obtain ⟨op, args, rfl, -⟩ := h item hitem
  rfl

@[simp]
theorem straight_append {a b : Code} : (a ++ b).Straight ↔ a.Straight ∧ b.Straight :=
  List.forall_mem_append

@[simp]
theorem straight_empty : ({} : Code).Straight := by simp [Code.Straight]

@[simp]
theorem straight_instr {op : Mnemonic} (hcall : op ≠ .call) (hpush : op ≠ .push)
    (args : List (Operand String)) : (Code.instr op args).Straight := by
  intro item hitem
  exact ⟨op, args, List.mem_singleton.mp hitem, hcall, hpush⟩

@[simp]
theorem straight_additionCode (addends : List Nat) : (additionCode addends).Straight := by
  intro item hitem
  obtain ⟨value, -, rfl⟩ := List.mem_map.mp hitem
  exact ⟨_, _, rfl, by simp, by simp⟩

@[simp]
theorem straight_value (frame : Frame) (e : Expr) : (e.value frame).code.Straight := by
  unfold Expr.value
  split <;> simp

@[simp]
theorem straight_argumentCode (frame : Frame) (regs : List Reg) (es : List Expr) :
    (argumentCode frame regs es).Straight := by
  induction regs generalizing es with
  | nil => simp [argumentCode]
  | cons r regs ih =>
      cases es with
      | nil => simp [argumentCode]
      | cons e rest => simp [argumentCode, ih]

@[simp]
theorem straight_trap (frame : Frame) (t : Trap) : (t.code frame).Straight := by
  simp [Trap.code]

@[simp]
theorem straight_store (place : Place) (value : Operand String) :
    (Code.store place value).Straight := by
  cases place <;> cases value <;> simp [Code.store]

@[simp]
theorem straight_rhs (frame : Frame) (place : Place) (r : Rhs) : (r.code frame place).Straight := by
  cases r <;> simp [Rhs.code]

@[simp]
theorem straight_exit (status : Operand String) : (Code.exit status).Straight := by
  simp [Code.exit]

@[simp]
theorem straight_test (frame : Frame) (test : Test) : (test.code frame).Straight := by
  simp only [Test.code, Code.compare]
  split <;> simp

@[simp]
theorem straight_restore (regs : List Reg) : (CompileM.eachReg .pop regs).Straight := by
  intro item hitem
  obtain ⟨r, -, rfl⟩ := List.mem_map.mp hitem
  exact ⟨_, _, rfl, by simp, by simp⟩

/-! ### Labels of statements -/

@[simp]
theorem labels_eachReg (op : Mnemonic) (regs : List Reg) :
    (CompileM.eachReg op regs).labels = [] := by
  simp [CompileM.eachReg, Code.labels]

/-- The code of arguments has nothing in it that the code of a single one has not. -/
theorem filterMap_pushArguments {α : Type} {read : Item → Option α} {frame : Frame}
    (h : ∀ e : Expr, ((e.value frame).code ++
      .instr .push [(e.value frame).operand]).items.filterMap read = []) (es : List Expr) :
    (CompileM.pushArguments (es.map (Expr.value frame))).items.filterMap read = [] := by
  simp only [CompileM.pushArguments, List.filterMap_flatMap, List.flatMap_eq_nil_iff]
  intro value hvalue
  obtain ⟨e, -, rfl⟩ := List.mem_map.mp (List.mem_reverse.mp hvalue)
  exact h e

@[simp]
theorem labels_pushArguments (frame : Frame) (es : List Expr) :
    (CompileM.pushArguments (es.map (Expr.value frame))).labels = [] :=
  filterMap_pushArguments (fun e => by rw [← Code.labels]; simp) es

@[simp]
theorem labels_simple (functions : List String) (frame : Frame) (s : Simple) :
    (s.code functions frame).labels = [] := by
  cases s with
  | exit status => cases status <;> simp [Simple.code]
  | call name es =>
      simp only [Simple.code]
      split
      · simp
      · simp only [CompileM.libraryCall, Code.labels_append, labels_eachReg, labels_pushArguments,
          Code.labels_instr, List.append_nil, List.nil_append]
        split <;> simp
  | _ => simp [Simple.code]

/-- The labels of statements, behind `n` branches and `m` loops. -/
def Body.controls (n m : Nat) : Body → List Control
  | .done => []
  | .simple _ rest => rest.controls n m
  | .block inner rest =>
      inner.controls n m ++ rest.controls (n + inner.piece.branches) (m + inner.piece.loops)
  | .ifThen _ inner rest =>
      inner.controls (n + 1) m ++ .otherwise n :: .endIf n ::
        rest.controls (n + 1 + inner.piece.branches) (m + inner.piece.loops)
  | .ifElse _ first second rest =>
      first.controls (n + 1) m ++ .otherwise n ::
        (second.controls (n + 1 + first.piece.branches) (m + first.piece.loops) ++ .endIf n ::
          rest.controls (n + 1 + first.piece.branches + second.piece.branches)
            (m + first.piece.loops + second.piece.loops))
  | .loop _ inner rest =>
      .loop m :: (inner.controls n (m + 1) ++ .endLoop m ::
        rest.controls (n + inner.piece.branches) (m + 1 + inner.piece.loops))

theorem Body.labels_code (functions : List String) (frame : Frame) (n m : Nat) (b : Body) :
    (b.code functions frame n m).labels = (b.controls n m).map Control.name := by
  induction b generalizing n m with
  | done => rfl
  | simple s rest ih => simp [code, controls, ih]
  | block inner rest hinner hrest => simp [code, controls, hinner, hrest]
  | ifThen test inner rest hinner hrest =>
      simp only [code, controls, Code.labels_append, (straight_test _ _).labels, Code.labels_instr,
        Code.labels_label, hinner, hrest, List.map_append, List.map_cons, List.nil_append,
        List.append_assoc, List.cons_append]
      rfl
  | ifElse test first second rest hfirst hsecond hrest =>
      simp only [code, controls, Code.labels_append, (straight_test _ _).labels, Code.labels_instr,
        Code.labels_label, hfirst, hsecond, hrest, List.map_append, List.map_cons,
        List.nil_append, List.append_assoc, List.cons_append]
      rfl
  | loop test inner rest hinner hrest =>
      simp only [code, controls, Code.labels_append, (straight_test _ _).labels, Code.labels_instr,
        Code.labels_label, hinner, hrest, List.map_append, List.map_cons, List.nil_append,
        List.append_assoc, List.cons_append]
      rfl

/-- A label has a number from a range of branches or of loops. -/
def Control.Within (n n' m m' : Nat) : Control → Prop
  | .otherwise k | .endIf k => n ≤ k ∧ k < n'
  | .loop k | .endLoop k => m ≤ k ∧ k < m'

theorem Control.Within.mono {n n' m m' k k' j j' : Nat} {l : Control} (h : l.Within n n' m m')
    (hn : k ≤ n) (hn' : n' ≤ k') (hm : j ≤ m) (hm' : m' ≤ j') : l.Within k k' j j' := by
  cases l <;> simp only [Within] at h ⊢ <;> omega

theorem Control.Within.ne {n n' m m' k k' j j' : Nat} {l l' : Control} (h : l.Within n n' m m')
    (h' : l'.Within k k' j j') (hn : n' ≤ k) (hm : m' ≤ j) : l ≠ l' := by
  rintro rfl
  cases l <;> simp only [Within] at h h' <;> omega

/-! The branches and loops of statements, counted. -/

theorem Body.counts_simple (s : Simple) (rest : Body) :
    (Body.simple s rest).piece.branches = rest.piece.branches ∧
      (Body.simple s rest).piece.loops = rest.piece.loops := by
  simp [piece, s.unbranched]

theorem Body.counts_block (inner rest : Body) :
    (Body.block inner rest).piece.branches = inner.piece.branches + rest.piece.branches ∧
      (Body.block inner rest).piece.loops = inner.piece.loops + rest.piece.loops := by
  simp [piece, braced, spelled]

theorem Body.counts_ifThen (test : Test) (inner rest : Body) :
    (Body.ifThen test inner rest).piece.branches =
        1 + inner.piece.branches + rest.piece.branches ∧
      (Body.ifThen test inner rest).piece.loops = inner.piece.loops + rest.piece.loops := by
  have htest := test.plain .notEqual
  simp [piece, braced, spelled, htest.branches, htest.loops]

theorem Body.counts_ifElse (test : Test) (first second rest : Body) :
    (Body.ifElse test first second rest).piece.branches =
        1 + first.piece.branches + second.piece.branches + rest.piece.branches ∧
      (Body.ifElse test first second rest).piece.loops =
        first.piece.loops + second.piece.loops + rest.piece.loops := by
  have htest := test.plain .notEqual
  simp [piece, braced, spelled, htest.branches, htest.loops]

theorem Body.counts_loop (test : Test) (inner rest : Body) :
    (Body.loop test inner rest).piece.branches = inner.piece.branches + rest.piece.branches ∧
      (Body.loop test inner rest).piece.loops = 1 + inner.piece.loops + rest.piece.loops := by
  have htest := test.plain .less
  simp [piece, braced, spelled, htest.branches, htest.loops]

theorem Body.controls_within (n m : Nat) (b : Body) :
    ∀ l ∈ b.controls n m, l.Within n (n + b.piece.branches) m (m + b.piece.loops) := by
  induction b generalizing n m with
  | done => simp [controls]
  | simple s rest ih =>
      rw [(counts_simple s rest).1, (counts_simple s rest).2]
      exact ih n m
  | block inner rest hinner hrest =>
      obtain ⟨hbranches, hloops⟩ := counts_block inner rest
      intro l hl
      simp only [controls, List.mem_append] at hl
      rcases hl with hl | hl
      · exact (hinner _ _ l hl).mono (by omega) (by omega) (by omega) (by omega)
      · exact (hrest _ _ l hl).mono (by omega) (by omega) (by omega) (by omega)
  | ifThen test inner rest hinner hrest =>
      obtain ⟨hbranches, hloops⟩ := counts_ifThen test inner rest
      intro l hl
      simp only [controls, List.mem_append, List.mem_cons] at hl
      rcases hl with hl | rfl | rfl | hl
      · exact (hinner _ _ l hl).mono (by omega) (by omega) (by omega) (by omega)
      · exact ⟨by omega, by omega⟩
      · exact ⟨by omega, by omega⟩
      · exact (hrest _ _ l hl).mono (by omega) (by omega) (by omega) (by omega)
  | ifElse test first second rest hfirst hsecond hrest =>
      obtain ⟨hbranches, hloops⟩ := counts_ifElse test first second rest
      intro l hl
      simp only [controls, List.mem_append, List.mem_cons] at hl
      rcases hl with hl | rfl | hl | rfl | hl
      · exact (hfirst _ _ l hl).mono (by omega) (by omega) (by omega) (by omega)
      · exact ⟨by omega, by omega⟩
      · exact (hsecond _ _ l hl).mono (by omega) (by omega) (by omega) (by omega)
      · exact ⟨by omega, by omega⟩
      · exact (hrest _ _ l hl).mono (by omega) (by omega) (by omega) (by omega)
  | loop test inner rest hinner hrest =>
      obtain ⟨hbranches, hloops⟩ := counts_loop test inner rest
      intro l hl
      simp only [controls, List.mem_append, List.mem_cons] at hl
      rcases hl with rfl | hl | rfl | hl
      · exact ⟨by omega, by omega⟩
      · exact (hinner _ _ l hl).mono (by omega) (by omega) (by omega) (by omega)
      · exact ⟨by omega, by omega⟩
      · exact (hrest _ _ l hl).mono (by omega) (by omega) (by omega) (by omega)

/-- No label is made up twice. -/
theorem Body.nodup_controls (n m : Nat) (b : Body) : (b.controls n m).Nodup := by
  induction b generalizing n m with
  | done => exact List.nodup_nil
  | simple s rest ih => exact ih n m
  | block inner rest hinner hrest =>
      have hfirst := inner.controls_within n m
      have hlast := rest.controls_within (n + inner.piece.branches) (m + inner.piece.loops)
      simp only [controls, List.nodup_append]
      exact ⟨hinner _ _, hrest _ _, fun l hl l' hl' =>
        (hfirst l hl).ne (hlast l' hl') (Nat.le_refl _) (Nat.le_refl _)⟩
  | ifThen test inner rest hinner hrest =>
      have hfirst := inner.controls_within (n + 1) m
      have hlast := rest.controls_within (n + 1 + inner.piece.branches) (m + inner.piece.loops)
      simp only [controls, List.nodup_append, List.nodup_cons, List.mem_cons]
      grind [Control.Within, Control.Within.ne]
  | ifElse test first second rest hfirst hsecond hrest =>
      have h1 := first.controls_within (n + 1) m
      have h2 := second.controls_within (n + 1 + first.piece.branches) (m + first.piece.loops)
      have h3 := rest.controls_within (n + 1 + first.piece.branches + second.piece.branches)
            (m + first.piece.loops + second.piece.loops)
      simp only [controls, List.nodup_append, List.nodup_cons, List.mem_cons]
      grind [Control.Within, Control.Within.ne]
  | loop test inner rest hinner hrest =>
      have hfirst := inner.controls_within n (m + 1)
      have hlast := rest.controls_within (n + inner.piece.branches) (m + 1 + inner.piece.loops)
      simp only [controls, List.nodup_append, List.nodup_cons, List.mem_cons]
      grind [Control.Within, Control.Within.ne]

/-! ### Labels of programs -/

/-- A function and a control label never share a name, since the prefixes of the latter are
reserved. -/
theorem functionLabel_ne_name {name : String} (h : isReserved name = false) (l : Control) :
    functionLabel name ≠ l.name := by
  unfold functionLabel
  split
  · exact (l.name_ne_entryLabel).symm
  · rintro rfl
    simp [l.isReserved_name] at h

/-- No name that is not reserved is the entry label. -/
theorem ne_entryLabel {name : String} (h : isReserved name = false) : name ≠ Abi.entryLabel := by
  rintro rfl
  simp [isReserved] at h

/-- Functions have different labels, and no function has the label of a constant. -/
theorem functionLabel_inj {a b : String} (ha : isReserved a = false) (hb : isReserved b = false)
    (h : functionLabel a = functionLabel b) : a = b := by
  have hne := ne_entryLabel ha
  have hne' := ne_entryLabel hb
  unfold functionLabel at h
  split at h <;> split at h
  · simp_all
  · exact absurd h.symm hne'
  · exact absurd h hne
  · exact h

theorem functionLabel_ne {name constant : String} (hconstant : isReserved constant = false)
    (hne : name ≠ constant) : functionLabel name ≠ constant := by
  unfold functionLabel
  split
  · exact (ne_entryLabel hconstant).symm
  · exact hne

/-- The labels of a function. -/
def Routine.labels (r : Routine) : List String :=
  functionLabel r.function.name :: (r.function.body.controls r.branches r.loops).map Control.name

/-- The labels of a routine's code are the ones listed for it. -/
theorem Routine.labels_code (functions : List String) (r : Routine) :
    (r.code functions).labels = r.labels := by
  simp only [code, CompileM.functionCode, labels, Code.labels_append, Code.labels_label]
  have hframed : (if 0 < r.frame.size then CompileM.prologue r.frame.size ++
      r.function.body.code functions r.frame r.branches r.loops ++ CompileM.epilogue else
      r.function.body.code functions r.frame r.branches r.loops).labels =
      (r.function.body.controls r.branches r.loops).map Control.name := by
    split <;> simp [Body.labels_code, CompileM.prologue, CompileM.epilogue]
  rw [hframed]
  split <;> simp

/-- The labels of a program's code are those of its routines, in order. -/
theorem Program.labels_codeOf (functions : List String) (routines : List Routine) :
    (codeOf functions routines).labels = routines.flatMap Routine.labels := by
  simp only [codeOf, Code.labels, List.filterMap_flatMap]
  exact congrArg (List.flatMap · routines) (funext (Routine.labels_code functions))

/-- Every label of a program is that of a function or one made up behind those in front. -/
theorem Program.mem_labels_routinesFrom {constants : List String} {n m : Nat} {p : Program}
    {label : String} (h : label ∈ (p.routinesFrom constants n m).flatMap Routine.labels) :
    (∃ name ∈ p.functions, label = functionLabel name) ∨
      ∃ l n' m', label = Control.name l ∧ l.Within n n' m m' := by
  induction p generalizing constants n m with
  | nil => simp [routinesFrom] at h
  | cons f rest ih =>
      simp only [routinesFrom, List.flatMap_cons, List.mem_append, Routine.labels, List.mem_cons,
        List.mem_map] at h
      rcases h with (rfl | ⟨l, hl, rfl⟩) | h
      · exact .inl ⟨f.name, by simp [functions], rfl⟩
      · exact .inr ⟨l, _, _, rfl, f.body.controls_within _ _ l hl⟩
      · rcases ih h with ⟨name, hname, rfl⟩ | ⟨l, n', m', rfl, hl⟩
        · exact .inl ⟨name, List.mem_cons_of_mem _ hname, rfl⟩
        · exact .inr ⟨l, n', m', rfl, hl.mono (by omega) (Nat.le_refl _) (by omega) (Nat.le_refl _)⟩

/-- No label stands twice in the routines of a program whose functions are distinct. -/
theorem Program.nodup_labels_routinesFrom (constants : List String) (n m : Nat) {p : Program}
    (hnodup : p.functions.Nodup) (hreserved : ∀ name ∈ p.functions, isReserved name = false) :
    ((p.routinesFrom constants n m).flatMap Routine.labels).Nodup := by
  induction p generalizing constants n m with
  | nil => exact List.nodup_nil
  | cons f rest ih =>
      obtain ⟨hfresh, hnodup⟩ := List.nodup_cons.mp hnodup
      have hf := hreserved f.name List.mem_cons_self
      have hrest : ∀ name ∈ functions rest, isReserved name = false :=
        fun name hname => hreserved name (List.mem_cons_of_mem _ hname)
      simp only [routinesFrom, List.flatMap_cons]
      refine List.nodup_append.mpr ⟨?_, ih _ _ _ hnodup hrest, ?_⟩
      · refine List.nodup_cons.mpr ⟨?_, ?_⟩
        · intro hmem
          obtain ⟨l, -, hl⟩ := List.mem_map.mp hmem
          exact functionLabel_ne_name hf l hl.symm
        · exact List.Pairwise.map _ (fun a b hab heq => hab (Control.name_injective heq))
            (f.body.nodup_controls n m)
      · intro label hlabel label' hlabel' heq
        subst heq
        -- the label stands in the first function and again behind it
        rcases List.mem_cons.mp hlabel with rfl | hmem
        · rcases mem_labels_routinesFrom hlabel' with ⟨name, hname, heq⟩ | ⟨l, -, -, heq, -⟩
          · exact hfresh (functionLabel_inj hf (hrest name hname) heq ▸ hname)
          · exact functionLabel_ne_name hf l heq
        · obtain ⟨l, hl, rfl⟩ := List.mem_map.mp hmem
          rcases mem_labels_routinesFrom hlabel' with ⟨name, hname, heq⟩ | ⟨l', n', m', heq, hl'⟩
          · exact functionLabel_ne_name (hrest name hname) l heq.symm
          · exact (f.body.controls_within _ _ l hl).ne hl' (Nat.le_refl _) (Nat.le_refl _)
              (Control.name_injective heq)

/-- All labels in the text of a program: those of string constants, functions, branches
and loops. -/
def Program.labels (p : Program) : List String :=
  p.constants.map Prod.fst ++ p.routines.flatMap Routine.labels

/-- Constants and code together have exactly the labels of the program. -/
theorem Program.labels_code (p : Program) :
    p.constants.map Prod.fst ++ p.code.labels = p.labels :=
  congrArg _ (labels_codeOf p.functions p.routines)

theorem Program.functionLabel_mem_labels {p : Program} {name : String} (h : name ∈ p.functions) :
    functionLabel name ∈ p.labels := by
  obtain ⟨r, hr, rfl⟩ := exists_routine h
  exact List.mem_append_right _ (List.mem_flatMap.mpr ⟨r, hr, List.mem_cons_self⟩)

theorem Program.Legal.isReserved_functions {options : Options} {p : Program}
    (h : p.Legal options) : ∀ name ∈ p.functions, isReserved name = false := by
  intro name hname
  obtain ⟨r, hr, rfl⟩ := exists_routine hname
  exact (h.routines r hr).name

/-- The labels of a program that keeps the rules are pairwise distinct. -/
theorem Program.Legal.nodup_labels {options : Options} {p : Program} (h : p.Legal options) :
    p.labels.Nodup := by
  refine List.nodup_append.mpr ⟨h.constants,
    p.nodup_labels_routinesFrom [] 0 0 h.functions h.isReserved_functions, ?_⟩
  intro constant hconstant label hlabel heq
  subst heq
  obtain ⟨hreserved, hfunctions⟩ := h.labels constant hconstant
  rcases mem_labels_routinesFrom hlabel with ⟨name, hname, heq⟩ | ⟨l, -, -, rfl, -⟩
  · refine functionLabel_ne hreserved ?_ heq.symm
    rintro rfl
    exact hfunctions hname
  · simp [l.isReserved_name] at hreserved

end Ia32.C

import Ia32.Proofs.C.Placement

/-!
# Calls of the library

Every call statement of a program becomes one call instruction, in the order of the source. A
name that is no function of the program is left to the library, and the assembler looks it up
there unless the program has a label of that name. The labels of functions, branches and loops
cannot be in the way; a string constant of that name is.
-/

namespace Ia32.Asm

/-- The name that a statement calls. -/
def Statement.callee? : Statement → Option String
  | .instr ⟨.call, [.label name]⟩ => some name
  | _ => none

theorem Statement.eq_of_callee? {statement : Statement} {name : String}
    (h : statement.callee? = some name) : statement = .instr ⟨.call, [.label name]⟩ := by
  unfold callee? at h
  split at h
  · cases h
    rfl
  · cases h

theorem Statement.callee?_instr {op : Mnemonic} (h : op ≠ .call) (args : List (Operand String)) :
    Statement.callee? (.instr ⟨op, args⟩) = none := by
  refine Option.eq_none_iff_forall_ne_some.mpr fun name hname => h ?_
  exact congrArg Instr.op (Statement.instr.inj (Statement.eq_of_callee? hname))

/-- The name that a line calls. -/
def Line.callee? (line : Line) : Option String :=
  line.statement.bind Statement.callee?

/-- The entries of the listing for lines that call, each with the name. -/
def listedCalls (lines : List Line) (listing : List Listed) : List (String × Listed) :=
  (lines.zip listing).filterMap fun entry => entry.1.callee?.map (·, entry.2)

/-- The listed calls are the calls of the lines, in order. -/
theorem map_listedCalls {lines : List Line} {listing : List Listed}
    (h : listing.length = lines.length) :
    (listedCalls lines listing).map Prod.fst = lines.filterMap Line.callee? := by
  induction lines generalizing listing with
  | nil => rfl
  | cons line rest ih =>
      obtain ⟨l, listing, rfl⟩ := List.exists_cons_of_length_eq_add_one h
      have hrest := ih (Nat.succ.inj h)
      unfold listedCalls at hrest ⊢
      cases hcallee : line.callee? with
      | none => simpa [hcallee] using hrest
      | some name => simpa [hcallee] using hrest

/-- A listed call stands in its line. -/
theorem mem_listedCalls {lines : List Line} {listing : List Listed} {name : String} {l : Listed}
    (h : (name, l) ∈ listedCalls lines listing) :
    ∃ before line after, lines = before ++ line :: after ∧ listing[before.length]? = some l ∧
      line.statement = some (.instr ⟨.call, [.label name]⟩) := by
  obtain ⟨⟨line, l'⟩, hentry, hcallee⟩ := List.mem_filterMap.mp h
  obtain ⟨name', hname, heq⟩ := Option.map_eq_some_iff.mp hcallee
  cases heq
  obtain ⟨statement, hstatement, hcalled⟩ := Option.bind_eq_some_iff.mp hname
  obtain ⟨k, hk⟩ := List.mem_iff_getElem?.mp hentry
  obtain ⟨hline, hl⟩ := List.getElem?_zip_eq_some.mp hk
  obtain ⟨hlt, rfl⟩ := List.getElem?_eq_some_iff.mp hline
  refine ⟨lines.take k, lines[k], lines.drop (k + 1), ?_, ?_, ?_⟩
  · rw [List.getElem_cons_drop, List.take_append_drop]
  · rwa [List.length_take_of_le (Nat.le_of_lt hlt)]
  · exact hstatement.trans (congrArg some (Statement.eq_of_callee? hcalled))

/-- The code behind an entry of the listing is read as a call of a target. -/
def CallsAt (asm : Assembly) (l : Listed) (target : UInt32) : Prop :=
  ∃ base addr, asm.textBase = .ok base ∧ l.address = some addr ∧
    decode (asm.code.drop (addr.toNat - base.toNat)) addr =
      .ok (⟨.call, [.label target]⟩, l.bytes.length)

namespace Assembler

/-! ### Calls that are emitted -/

/-- Instructions of orderly lines stand in the code and have a size. -/
theorem Orderly.instr {sect : Section} {before after : List Line} {line : Line}
    (h : Orderly sect (before ++ line :: after)) {i : Instr String}
    (hline : line.statement = some (.instr i)) :
    sectionAfter sect before = .text ∧ ∃ n, i.size = .ok n := by
  induction before generalizing sect with
  | nil =>
      have hfirst := h.1
      rwa [hline] at hfirst
  | cons first rest ih => exact ih h.2

/-- A call of a name that no line defines goes to the external symbol. -/
theorem Described.callsAt {scope : Scope} {before after : List Line} {line : Line} {asm : Assembly}
    (h : Described scope (before ++ line :: after) asm)
    (horderly : Orderly .text (before ++ line :: after))
    (hbase : asm.textBase = .ok scope.textBase) {name : String}
    (hline : line.statement = some (.instr ⟨.call, [.label name]⟩)) {l : Listed}
    (hl : asm.listing[before.length]? = some l) : CallsAt asm l (scope.target name) := by
  obtain ⟨hsect, n, hsize⟩ := horderly.instr hline
  obtain ⟨-, -, l', hl', haddr, -⟩ := h.instr hsect hline hsize
  obtain rfl : l = l' := Option.some.inj (hl.symm.trans hl')
  have hget : (before ++ line :: after)[before.length]? = some line := by simp
  have htake : (before ++ line :: after).take before.length = before := by simp
  have hshows := h.entries.2 _ line l hget hl
  have hdecode := h.instructions _ line l _ _ hget hl hline haddr
  rw [h.entries.length_shownIn, htake] at hshows hdecode
  have hnat := Word.toNat_offset (hshows.address _ haddr)
  rw [hsect, Nat.zero_add, Scope.base] at hnat
  refine ⟨scope.textBase, _, hbase, haddr, ?_⟩
  rw [hnat, Nat.add_sub_cancel_left]
  exact hdecode

end Assembler

end Ia32.Asm

namespace Ia32.C

open Asm Assembler Piece

/-! ### Calls in generated code -/

/-- The names that code calls, in order. -/
def Code.callees (code : Code) : List String :=
  code.items.filterMap fun item => item.contents.2.bind Statement.callee?

/-- The label that a call refers to. -/
def calleeLabel (functions : List String) (name : String) : String :=
  if functions.contains name then functionLabel name else name

/-- The labels that calls refer to. -/
def calleeLabels (functions : List String) (calls : List (String × Nat)) : List String :=
  calls.map fun call => calleeLabel functions call.1

@[simp]
theorem Code.callees_append (a b : Code) : (a ++ b).callees = a.callees ++ b.callees :=
  List.filterMap_append

@[simp]
theorem Code.callees_label (name : String) : (Code.label name).callees = [] := rfl

@[simp]
theorem Code.callees_empty : ({} : Code).callees = [] := rfl

@[simp]
theorem Code.callees_call (name : String) : (Code.instr .call [.label name]).callees = [name] := rfl

@[simp]
theorem Code.callees_instr {op : Mnemonic} (h : op ≠ .call) (args : List (Operand String)) :
    (Code.instr op args).callees = [] :=
  congrArg Option.toList (Statement.callee?_instr h args)

@[simp]
theorem Code.Straight.callees {code : Code} (h : code.Straight) : code.callees = [] := by
  refine List.filterMap_eq_nil_iff.mpr fun item hitem => ?_
  obtain ⟨op, args, rfl, hcall, -⟩ := h item hitem
  exact Statement.callee?_instr hcall args

@[simp]
theorem callees_eachReg (op : Mnemonic) (regs : List Reg) :
    (CompileM.eachReg op regs).callees = [] := by
  refine List.filterMap_eq_nil_iff.mpr fun item hitem => ?_
  obtain ⟨r, -, rfl⟩ := List.mem_map.mp hitem
  cases op <;> rfl

@[simp]
theorem callees_pushArguments (frame : Frame) (es : List Expr) :
    (CompileM.pushArguments (es.map (Expr.value frame))).callees = [] :=
  filterMap_pushArguments (fun e => by rw [← Code.callees]; simp) es

/-- Statements without statements inside call what they say. -/
theorem Simple.callees_code (functions : List String) (frame : Frame) (s : Simple) :
    (s.code functions frame).callees = calleeLabels functions s.piece.calls := by
  cases s with
  | exit status =>
      cases status with
      | none => simp [code, piece, calleeLabels, spelled]
      | some e => simp [code, piece, calleeLabels, spelled, e.plain.calls]
  | call name es =>
      have hcalls : (Simple.call name es).piece.calls = [(name, es.length)] := by
        simp [piece, spelled, (plain_argumentList es).calls]
      rw [hcalls, code, calleeLabels, List.map_singleton, calleeLabel]
      split
      · rfl
      · simp only [CompileM.libraryCall, Code.callees_append, callees_eachReg,
          callees_pushArguments, Code.callees_call, List.nil_append, List.append_nil]
        split <;> simp
  | _ => simp [code, piece, calleeLabels, spelled, looked, assigned, (Rhs.plain _).calls,
      (Trap.plain _).calls]

theorem calleeLabels_append (functions : List String) (calls calls' : List (String × Nat)) :
    calleeLabels functions (calls ++ calls') =
      calleeLabels functions calls ++ calleeLabels functions calls' :=
  List.map_append

/-- The code of a body calls what its calls say, in order. -/
theorem Body.callees_code (functions : List String) (frame : Frame) (n m : Nat) (b : Body) :
    (b.code functions frame n m).callees = calleeLabels functions b.piece.calls := by
  have htest (comparison : TokenKind) (test : Test) := (test.plain comparison).calls
  induction b generalizing n m with
  | done => rfl
  | simple s rest ih => simp [code, piece, s.callees_code, ih, calleeLabels_append]
  | block inner rest hinner hrest =>
      simp [code, piece, braced, spelled, hinner, hrest, calleeLabels_append]
  | ifThen test inner rest hinner hrest =>
      simp [code, piece, braced, spelled, htest, hinner, hrest, calleeLabels_append]
  | ifElse test first second rest hfirst hsecond hrest =>
      simp [code, piece, braced, spelled, htest, hfirst, hsecond, hrest, calleeLabels_append]
  | loop test inner rest hinner hrest =>
      simp [code, piece, braced, spelled, htest, hinner, hrest, calleeLabels_append]

theorem Routine.callees_code (functions : List String) (r : Routine) :
    (r.code functions).callees = calleeLabels functions r.function.body.piece.calls := by
  simp only [code, CompileM.functionCode, Code.callees_append, Code.callees_label]
  have hframed : (if 0 < r.frame.size then CompileM.prologue r.frame.size ++
      r.function.body.code functions r.frame r.branches r.loops ++ CompileM.epilogue else
      r.function.body.code functions r.frame r.branches r.loops).callees =
      calleeLabels functions r.function.body.piece.calls := by
    split <;> simp [Body.callees_code, CompileM.prologue, CompileM.epilogue]
  rw [hframed]
  split <;> simp

/-- The calls of a program with the numbers of their arguments. -/
def Program.calls (p : Program) : List (String × Nat) :=
  (joined (p.map Function.piece)).calls

theorem Program.calls_cons (f : Function) (p : Program) :
    Program.calls (f :: p) = f.body.piece.calls ++ Program.calls p := by
  simp [calls, joined, Function.piece, braced, spelled]

theorem Program.callees_codeOf (functions constants : List String) (n m : Nat) (p : Program) :
    (codeOf functions (p.routinesFrom constants n m)).callees =
      calleeLabels functions p.calls := by
  induction p generalizing constants n m with
  | nil => rfl
  | cons f rest ih =>
      rw [calls_cons, calleeLabels_append, ← ih (constants ++ f.body.piece.constants.map Prod.fst)
        (n + f.body.piece.branches) (m + f.body.piece.loops)]
      have hfirst := Routine.callees_code functions
        ⟨f, constants ++ f.body.piece.constants.map Prod.fst, n, m⟩
      rw [← hfirst]
      exact List.filterMap_append

/-- Constants call nothing. -/
theorem callees_assemblyContents (constants : List (String × String)) (code : Code) :
    (assemblyContents constants code).filterMap
        (fun contents => contents.2.bind Statement.callee?) =
      code.callees := by
  have hconstants : (constants.map constantContents).filterMap
      (fun contents => contents.2.bind Statement.callee?) = [] := by
    refine List.filterMap_eq_nil_iff.mpr fun contents hcontents => ?_
    obtain ⟨constant, -, rfl⟩ := List.mem_map.mp hcontents
    rfl
  have hfront : List.filterMap (fun contents => contents.2.bind Statement.callee?)
      (if constants.isEmpty then []
        else (none, some (.select .data)) :: constants.map constantContents) = [] := by
    split
    · rfl
    · exact hconstants
  rw [assemblyContents, List.filterMap_append, List.filterMap_cons, Code.callees,
    List.filterMap_map, hfront]
  rfl

/-- The lines of a compilation call what its code calls. -/
theorem callees_assembly {lines : List Line} {constants : List (String × String)} {code : Code}
    (h : lines.map Line.contents = assemblyContents constants code) :
    lines.filterMap Line.callee? = code.callees := by
  have hlines : lines.filterMap Line.callee? =
      (lines.map Line.contents).filterMap fun contents => contents.2.bind Statement.callee? := by
    rw [List.filterMap_map]
    rfl
  rw [hlines, h, callees_assemblyContents]

/-! ### Programs with calls of the library -/

/-- A name that stands for neither a function nor a constant of the program is no label. -/
theorem Program.not_mem_labels {p : Program} {name : String} (hreserved : isReserved name = false)
    (hfunction : name ∉ p.functions) (hconstant : name ∉ p.constants.map Prod.fst) :
    name ∉ p.labels := by
  intro hmem
  rcases List.mem_append.mp hmem with hmem | hmem
  · exact hconstant hmem
  · rcases mem_labels_routinesFrom hmem with ⟨other, hother, heq⟩ | ⟨l, -, -, rfl, -⟩
    · refine functionLabel_ne hreserved ?_ heq.symm
      rintro rfl
      exact hfunction hother
    · simp [l.isReserved_name] at hreserved

/-- Each call of a program is one of some routine. -/
theorem Program.mem_calls {p : Program} {call : String × Nat} (h : call ∈ p.calls) :
    ∃ r ∈ p.routines, call ∈ r.function.body.piece.calls := by
  have hfunction : ∃ f ∈ p, call ∈ f.body.piece.calls := by
    induction p with
    | nil => cases h
    | cons f rest ih =>
        rw [calls_cons] at h
        rcases List.mem_append.mp h with h | h
        · exact ⟨f, List.mem_cons_self, h⟩
        · obtain ⟨f', hf', hcall⟩ := ih h
          exact ⟨f', List.mem_cons_of_mem _ hf', hcall⟩
  obtain ⟨f, hf, hcall⟩ := hfunction
  obtain ⟨r, hr, rfl⟩ := exists_routine_of_mem hf
  exact ⟨r, hr, hcall⟩

/-- A call that is left to the library has a name that is not reserved, and the library has it. -/
theorem Program.Legal.library {options : Options} {p : Program} (h : p.Legal options)
    {table : SymbolTable} (hexterns : options.externs = some table) {call : String × Nat}
    (hcall : call ∈ p.calls) (hfunction : call.1 ∉ p.functions) :
    isReserved call.1 = false ∧ ∃ target, table.lookup? call.1 = some target := by
  obtain ⟨r, hr, hcall⟩ := Program.mem_calls hcall
  have hadmits := (h.routines r hr).calls call hcall
  rw [Options.Admits, if_neg (by simpa using hfunction)] at hadmits
  exact ⟨hadmits.1, Option.isSome_iff_exists.mp (hadmits.2.1 table hexterns)⟩

/-- Calls of the library reach it. The calls in the text of a compilation are those of the
source, in their order. One whose name is neither a function nor a string constant of the
program goes to the address that the table of symbols has for the name, and the program needs
the library. -/
theorem library_calls_reach {source : String} {options : Options}
    (hsymbols : options.limits.symbols < 2 ^ 29)
    (hcompile : (compile source options).hasError = false) {table : SymbolTable}
    (hexterns : options.externs = some table) {config : Config} {asm : Assembly}
    (hasm : assemble (compile source options).asm config table = .ok asm) :
    (∃ p : Program, p.tokens = (Scan.ofSource source).tokens.map Token.kind) ∧
      ∀ p : Program, p.tokens = (Scan.ofSource source).tokens.map Token.kind →
        ∃ lines, Line.readAll (compile source options).asm = .ok (lines, []) ∧
          (listedCalls lines asm.listing).map Prod.fst = calleeLabels p.functions p.calls ∧
          ∀ call entry, (call, entry) ∈ p.calls.zip (listedCalls lines asm.listing) →
            call.1 ∉ p.functions → call.1 ∉ p.constants.map Prod.fst →
            asm.needsLibrary = true ∧
              ∃ target, table.lookup? call.1 = some target ∧ CallsAt asm entry.2 target := by
  obtain ⟨p, lines, hp, hlegal, -, hread, hcontents, hlabels⟩ :=
    exists_contents_of_compile hsymbols hcompile
  refine ⟨⟨p, hp⟩, fun q hq => ?_⟩
  obtain rfl : q = p := Program.tokens_inj (hq.trans hp.symm)
  have hsound := hlegal.sound hsymbols (hp ▸ Scan.lexical_ofSource source)
  obtain ⟨a, scope, e, hlayout, hfinished⟩ := assemble_lines_eq_ok hread hasm
  have hdescribed := hfinished.described hlayout
  have hcalls : (listedCalls lines asm.listing).map Prod.fst =
      calleeLabels q.functions q.calls := by
    rw [map_listedCalls hdescribed.entries.1, callees_assembly hcontents]
    exact Program.callees_codeOf _ _ _ _ _
  refine ⟨lines, hread, hcalls, fun call entry hmem hfunction hconstant => ?_⟩
  obtain ⟨hreserved, target, htarget⟩ :=
    hlegal.library hexterns (List.of_mem_zip hmem).1 hfunction
  -- the entry is for the name in the source, because no function has the name
  have hname : entry.1 = call.1 := by
    obtain ⟨k, hk⟩ := List.mem_iff_getElem?.mp hmem
    obtain ⟨hcall, hentry⟩ := List.getElem?_zip_eq_some.mp hk
    have hkth := congrArg (·[k]?) hcalls
    simp only [calleeLabels, List.getElem?_map, hcall, hentry, Option.map_some] at hkth
    rw [Option.some.inj hkth, calleeLabel, if_neg (by simpa using hfunction)]
  obtain ⟨name, l⟩ := entry
  obtain rfl : name = call.1 := hname
  obtain ⟨before, line, after, rfl, hl, hstatement⟩ := mem_listedCalls (List.of_mem_zip hmem).2
  have hnone : scope.labels.get? call.1 = none := by
    rw [hfinished.scope_labels]
    refine hdescribed.get?_eq_none fun other hother hlabel => ?_
    refine Program.not_mem_labels hreserved hfunction hconstant ?_
    rw [← hlabels]
    exact List.mem_filterMap.mpr ⟨other, hother, hlabel⟩
  -- without a label, the name is looked up in the table
  obtain ⟨hgoes, hexternal⟩ := Scope.target_of_not_get? hnone (hfinished.externs ▸ htarget)
  have horderly := orderly_assembly hsound hcontents
  have hat := hdescribed.callsAt horderly hfinished.textBase_eq hstatement hl
  refine ⟨?_, target, htarget, hgoes ▸ hat⟩
  have hemitted := hfinished.emitted
  rw [show a.sizes.toList = extents .text (before ++ line :: after) by
    simpa using (layout_eq_ok hlayout).sizes] at hemitted
  obtain ⟨hsect, n, hsize⟩ := horderly.instr hstatement
  have hextent : extent? (sectionAfter .text before) line = some n := by
    simp [hsect, extent?, Assembler.measure, hstatement, hsize]
  have hrefers : refersOutside scope (line, extent? (sectionAfter .text before) line) = true := by
    simp only [refersOutside, hstatement, hextent]
    exact List.any_eq_true.mpr ⟨call.1, List.mem_cons_self, hexternal⟩
  have hentry : (line, extent? (sectionAfter .text before) line) ∈
      (before ++ line :: after).zip (extents .text (before ++ line :: after)) :=
    mem_zip_extents.mpr ⟨before.length, by simp, by simp⟩
  rw [hfinished.result]
  refine (emitLines_needsLibrary hemitted).trans ?_
  rw [List.any_eq_true.mpr ⟨_, hentry, hrefers⟩, Bool.or_true]

/-- A library with one function. -/
def putsTable : SymbolTable := ⟨[⟨"puts", 0x90000000⟩]⟩

/-- The text of a program that calls this function. -/
def putsText : String :=
  "int main() \x7b puts(1); \x7d"

theorem library_calls_reach_puts :
    ∃ asm, assemble (compile putsText { externs := some putsTable }).asm {}
        putsTable = .ok asm ∧ asm.needsLibrary = true ∧ ∃ l, CallsAt asm l 0x90000000 := by
  have hcompile : (compile putsText { externs := some putsTable }).hasError = false := by
    decide +kernel
  have hok : (assemble (compile putsText { externs := some putsTable }).asm {}
      putsTable).isOk = true := by
    decide +kernel
  cases hasm : assemble (compile putsText { externs := some putsTable }).asm {} putsTable with
  | error e =>
      rw [hasm] at hok
      cases hok
  | ok asm =>
      let p : Program := [⟨true, "main", .simple (.call "puts" [⟨.number 1, []⟩]) .done⟩]
      obtain ⟨lines, -, hcalls, hreach⟩ :=
        (library_calls_reach (by decide) hcompile rfl hasm).2 p (by decide +kernel)
      have hnames : (listedCalls lines asm.listing).map Prod.fst = ["puts"] := hcalls
      obtain ⟨⟨name, l⟩, hlisted, -⟩ := List.map_eq_singleton_iff.mp hnames
      obtain ⟨hlibrary, target, htarget, hat⟩ := hreach ("puts", 1) (name, l)
        (by rw [hlisted]; exact List.mem_cons_self) (by decide) (by decide)
      cases htarget
      exact ⟨asm, rfl, hlibrary, l, hat⟩

/-- The text of a program that has a string constant of that name as well. -/
def shadowedText : String :=
  "int main() \x7b char puts = \"hi\"; puts(1); \x7d"

/-- A string constant with the name of a library function takes its place: the program calls
the text, and does not even need the library. -/
theorem library_call_shadowed :
    (compile shadowedText { externs := some putsTable }).diagnostics = [] ∧
      ∃ asm, assemble (compile shadowedText { externs := some putsTable }).asm {} putsTable =
          .ok asm ∧
        asm.needsLibrary = false ∧ putsTable.lookup? "puts" = some 0x90000000 ∧
        decode (asm.code.drop 5) 0x401005 = .ok (⟨.call, [.label 0x402000]⟩, 5) := by
  refine ⟨by decide +kernel, ?_⟩
  have hshadowed : (assemble (compile shadowedText { externs := some putsTable }).asm {}
      putsTable).toOption.map
        (fun asm => (asm.needsLibrary, (decode (asm.code.drop 5) 0x401005).toOption)) =
      some (false, some (⟨.call, [.label 0x402000]⟩, 5)) := by
    decide +kernel
  cases hasm : assemble (compile shadowedText { externs := some putsTable }).asm {} putsTable with
  | error e =>
      rw [hasm] at hshadowed
      cases hshadowed
  | ok asm =>
      rw [hasm] at hshadowed
      obtain ⟨hlibrary, hdecoded⟩ := Prod.mk.inj (Option.some.inj hshadowed)
      refine ⟨asm, rfl, hlibrary, by decide, ?_⟩
      cases hdecode : decode (asm.code.drop 5) 0x401005 with
      | error e =>
          rw [hdecode] at hdecoded
          cases hdecoded
      | ok result =>
          rw [hdecode] at hdecoded
          exact congrArg Except.ok (Option.some.inj hdecoded)

end Ia32.C

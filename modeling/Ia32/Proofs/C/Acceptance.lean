import Ia32.Proofs.Asm.Acceptance
import Ia32.Proofs.C.Encodable

/-!
# Compiled programs are assembled

What the compiler accepts, the assembler accepts: the text of a compilation without errors
has distinct labels, every instruction in it can be encoded, and every name in it is a
label or left to the library.
-/

namespace Ia32.C

open Asm Assembler

/-! ### Lines of a compilation -/

/-- The labels that lines define. -/
def lineLabels (lines : List Line) : List String :=
  lines.filterMap Line.label

theorem lineLabels_eq (lines : List Line) :
    lineLabels lines = (lines.map Line.contents).filterMap Prod.fst := by
  rw [lineLabels, List.filterMap_map]
  rfl

theorem labels_assemblyContents (constants : List (String × String)) (code : Code) :
    (assemblyContents constants code).filterMap Prod.fst =
      constants.map Prod.fst ++ code.labels := by
  have hitems : (code.items.map Item.contents).filterMap Prod.fst = code.labels := by
    rw [List.filterMap_map, Code.labels]
    refine congrArg (List.filterMap · code.items) (funext fun item => ?_)
    cases item <;> rfl
  have hconstants : (constants.map constantContents).filterMap Prod.fst =
      constants.map Prod.fst := by
    rw [List.filterMap_map]
    exact congrFun List.filterMap_eq_map constants
  rw [assemblyContents, List.filterMap_append, List.filterMap_cons, hitems]
  congr 1
  split
  next hempty => simp [List.isEmpty_iff.mp hempty]
  next => simpa using hconstants

/-- The labels of the lines are the constants and the labels of the code. -/
theorem lineLabels_assembly {lines : List Line} {constants : List (String × String)} {code : Code}
    (h : lines.map Line.contents = assemblyContents constants code) :
    lineLabels lines = constants.map Prod.fst ++ code.labels := by
  rw [lineLabels_eq, h, labels_assemblyContents]

theorem orderly_constants {lines : List Line} {constants : List (String × String)}
    (h : lines.map Line.contents = constants.map constantContents) :
    Orderly .data lines ∧ sectionAfter .data lines = .data := by
  induction lines generalizing constants with
  | nil => exact ⟨trivial, rfl⟩
  | cons line rest ih =>
      cases constants with
      | nil => cases h
      | cons constant others =>
          simp only [List.map_cons, List.cons.injEq] at h
          have hstatement : line.statement = some (.bytes (utf8Bytes constant.2 ++ [0])) :=
            congrArg Prod.snd h.1
          have hnext : nextSection .data line = .data := nextSection_of_bytes hstatement
          obtain ⟨horderly, hafter⟩ := ih h.2
          refine ⟨⟨by rw [hstatement], by rwa [hnext]⟩, ?_⟩
          rw [sectionAfter, List.foldl_cons, hnext]
          exact hafter

theorem orderly_items {known : String → Prop} {lines : List Line} {items : List Item}
    (h : lines.map Line.contents = items.map Item.contents)
    (hsound : ∀ item ∈ items, item.Sound known) : Orderly .text lines := by
  induction lines generalizing items with
  | nil => trivial
  | cons line rest ih =>
      cases items with
      | nil => cases h
      | cons item others =>
          simp only [List.map_cons, List.cons.injEq] at h
          have hrest := ih h.2 fun item' hitem' => hsound item' (List.mem_cons_of_mem _ hitem')
          have hstatement : line.statement = item.contents.2 := congrArg Prod.snd h.1
          cases item with
          | label name =>
              have hnone : line.statement = none := hstatement
              refine ⟨by rw [hnone]; trivial, ?_⟩
              simp only [nextSection, hnone]
              exact hrest
          | instr i =>
              have hinstr : line.statement = some (.instr i) := hstatement
              refine ⟨by rw [hinstr]; exact ⟨rfl, (hsound _ List.mem_cons_self).2.2⟩, ?_⟩
              rw [nextSection_of_instr hinstr]
              exact hrest

theorem orderly_select {sect target : Section} {line : Line} {rest : List Line}
    (h : line.statement = some (.select target)) (hrest : Orderly target rest) :
    Orderly sect (line :: rest) := by
  refine ⟨by rw [h]; trivial, ?_⟩
  simp only [nextSection, h]
  exact hrest

/-- Code that encodes is written as orderly lines. -/
theorem orderly_assembly {known : String → Prop} {lines : List Line}
    {constants : List (String × String)} {code : Code} (hcode : code.Sound known)
    (h : lines.map Line.contents = assemblyContents constants code) : Orderly .text lines := by
  obtain ⟨data, text, rfl, hdata, htext⟩ := List.map_eq_append_iff.mp h
  have horderly : Orderly (sectionAfter .text data) text := by
    obtain ⟨line, rest, rfl, hline, hrest⟩ := List.map_eq_cons_iff.mp htext
    exact orderly_select (congrArg Prod.snd hline) (orderly_items hrest hcode)
  refine Orderly.append ?_ horderly
  split at hdata
  · rw [List.map_eq_nil_iff.mp hdata]
    trivial
  · obtain ⟨line, rest, rfl, hline, hrest⟩ := List.map_eq_cons_iff.mp hdata
    exact orderly_select (congrArg Prod.snd hline) (orderly_constants hrest).1

/-- Instructions in the text of a compilation refer to what its code refers to. -/
theorem known_of_mem_labels {known : String → Prop} {lines : List Line}
    {constants : List (String × String)} {code : Code} (hcode : code.Sound known)
    (h : lines.map Line.contents = assemblyContents constants code) {line : Line}
    (hline : line ∈ lines) {i : Instr String} (hinstr : line.statement = some (.instr i)) :
    ∀ name ∈ i.labels, known name := by
  have hmem : line.contents ∈ assemblyContents constants code := h ▸ List.mem_map_of_mem hline
  have hsnd : line.contents.2 = some (.instr i) := hinstr
  have hitem : line.contents ∈ code.items.map Item.contents := by
    rcases List.mem_append.mp hmem with hmem | hmem
    · split at hmem
      · cases hmem
      · rcases List.mem_cons.mp hmem with heq | hmem
        · rw [heq] at hsnd
          cases hsnd
        · obtain ⟨constant, -, heq⟩ := List.mem_map.mp hmem
          rw [← heq] at hsnd
          cases hsnd
    · rcases List.mem_cons.mp hmem with heq | hmem
      · rw [heq] at hsnd
        cases hsnd
      · exact hmem
  obtain ⟨item, hitem, heq⟩ := List.mem_map.mp hitem
  rw [← heq] at hsnd
  cases item with
  | label name => cases hsnd
  | instr j =>
      cases hsnd
      exact (hcode _ hitem).known

/-! ### The text as a whole -/

/-- A compilation without errors can be read back: its lines are those of a program. -/
theorem exists_contents_of_compile {source : String} {options : Options}
    (hsymbols : options.limits.symbols < 2 ^ 29)
    (h : (compile source options).hasError = false) :
    ∃ (p : Program) (lines : List Line),
      p.tokens = (Scan.ofSource source).tokens.map Token.kind ∧ p.Legal options ∧
      (compile source options).functions = p.functions ∧
      Line.readAll (compile source options).asm = .ok (lines, []) ∧
      lines.map Line.contents = assemblyContents p.constants p.code ∧
      lineLabels lines = p.labels := by
  obtain ⟨p, htokens, hlegal, hasm, hfunctions⟩ := exists_program_of_compile h
  have hlexical : ∀ kind ∈ p.tokens, kind.Lexical := htokens ▸ Scan.lexical_ofSource source
  have hsound := hlegal.sound hsymbols hlexical
  obtain ⟨lines, hread, hcontents⟩ := readAll_assembly
    (fun constant hconstant => (Program.isWord_constant hlexical constant hconstant).isName)
    (fun item hitem => (hsound item hitem).readable)
  refine ⟨p, lines, htokens, hlegal, hfunctions, hasm ▸ hread, hcontents, ?_⟩
  rw [lineLabels_assembly hcontents, Program.labels_code]

/-- These lines are orderly, have distinct labels, and refer to these labels or to what the
settings do not rule out. -/
theorem exists_lines_of_compile {source : String} {options : Options}
    (hsymbols : options.limits.symbols < 2 ^ 29)
    (h : (compile source options).hasError = false) :
    ∃ lines, Line.readAll (compile source options).asm = .ok (lines, []) ∧
      Orderly .text lines ∧ (lineLabels lines).Nodup ∧
      ∀ line ∈ lines, ∀ i, line.statement = some (.instr i) → ∀ name ∈ i.labels,
        name ∈ lineLabels lines ∨ ∀ table, options.externs = some table → table.contains name := by
  obtain ⟨p, lines, htokens, hlegal, -, hread, hcontents, hlabels⟩ :=
    exists_contents_of_compile hsymbols h
  have hsound := hlegal.sound hsymbols (htokens ▸ Scan.lexical_ofSource source)
  refine ⟨lines, hread, orderly_assembly hsound hcontents, hlabels ▸ hlegal.nodup_labels, ?_⟩
  rw [hlabels]
  exact fun line hline i hinstr => known_of_mem_labels hsound hcontents hline hinstr

/-! ### Acceptance by the assembler -/

/-- A program without errors and with an image, in which no label is defined twice. With
the table of symbols that the compiler had, no name is undefined. -/
structure Faultless (options : Options) (externs : SymbolTable) (asm : Assembly) : Prop where
  errors : asm.hasError = false
  labels : ∀ name line previous, redefined name line previous ∉ asm.diagnostics
  names : options.externs = some externs → ∀ line name, undefinedName line name ∉ asm.diagnostics
  image : ∃ image, Image.ofAssembly asm = .ok image

/-- What becomes of a text that the compiler accepted: a faultless program, unless a
capacity is exhausted. -/
structure Accepted (options : Options) (externs : SymbolTable) (result : Except Error Assembly) :
    Prop where
  error : ∀ e, result = .error e → e.isCapacity = true
  ok : ∀ asm, result = .ok asm → Faultless options externs asm

/-- Assembly text whose references are defined or from outside is assembled without a fault. -/
theorem faultless_of_harmless {options : Options} {externs : SymbolTable} {lines : List Line}
    (hknown : ∀ line ∈ lines, ∀ i, line.statement = some (.instr i) → ∀ name ∈ i.labels,
      name ∈ lineLabels lines ∨ ∀ table, options.externs = some table → table.contains name)
    {asm : Assembly} (hharmless : ∀ d ∈ asm.diagnostics, Harmless {} externs lines asm.labels d)
    (himage : ∃ image, Image.ofAssembly asm = .ok image) : Faultless options externs asm := by
  refine ⟨?_, ?_, ?_, himage⟩
  · refine List.any_eq_false.mpr fun d hd => ?_
    cases hharmless d hd with
    | undefined => simp [Diagnostic.isError, undefinedName]
    | entry hentry => simp [Diagnostic.isError, (entry_remark hentry).1]
  · intro name line previous hmem
    have hhead := message_redefined name line previous
    generalize redefined name line previous = d at hmem hhead
    cases hharmless d hmem with
    | undefined => simp [message_undefinedName] at hhead
    | entry hentry => simp [(entry_remark hentry).2] at hhead
  · intro hexterns line name hmem
    have hhead := message_undefinedName line name
    generalize undefinedName line name = d at hmem hhead
    cases hharmless d hmem with
    | undefined hline hinstr hname hlabel houtside =>
        rcases hknown _ hline _ hinstr _ hname with hmem | htable
        · exact hlabel hmem
        · simp [htable externs hexterns] at houtside
    | entry hentry => simp [(entry_remark hentry).2] at hhead

/-- Everything the compiler accepts, the assembler accepts. All labels in the text of the
compilation are distinct, and every name in it is one of them or external. -/
theorem assemble_compile {source : String} {options : Options}
    (hsymbols : options.limits.symbols < 2 ^ 29)
    (hcompile : (compile source options).hasError = false) (externs : SymbolTable) :
    Accepted options externs (assemble (compile source options).asm {} externs) ∧
      ∃ lines, Line.readAll (compile source options).asm = .ok (lines, []) ∧
        (lineLabels lines).Nodup ∧
        ∀ line ∈ lines, ∀ i, line.statement = some (.instr i) → ∀ name ∈ i.labels,
          name ∈ lineLabels lines ∨
            ∀ table, options.externs = some table → table.contains name := by
  obtain ⟨lines, hread, horderly, hnodup, hknown⟩ := exists_lines_of_compile hsymbols hcompile
  refine ⟨?_, lines, hread, hnodup, hknown⟩
  have hroom : Config.Roomy {} := by unfold Config.Roomy; decide
  refine ⟨fun e h => isCapacity_of_assemble hroom hread h, fun asm h => ?_⟩
  obtain ⟨hharmless, himage⟩ := assemble_orderly hroom hread horderly hnodup h
  exact faultless_of_harmless hknown hharmless himage

theorem Accepted.exists_ok {options : Options} {externs : SymbolTable}
    {result : Except Error Assembly} (h : Accepted options externs result)
    (hok : result.isOk = true) : ∃ asm, result = .ok asm ∧ Faultless options externs asm := by
  cases result with
  | error e => cases hok
  | ok asm => exact ⟨asm, rfl, h.ok asm rfl⟩

/-- A function may be called like a directive of the assembler. -/
theorem assemble_compile_db :
    (compile "void db() { f(); } int main() { db(); }" { externs := some ⟨[⟨"f", 1⟩]⟩ }).hasError =
        false ∧
      ∃ asm, assemble (compile "void db() { f(); } int main() { db(); }"
          { externs := some ⟨[⟨"f", 1⟩]⟩ }).asm {} ⟨[⟨"f", 1⟩]⟩ = .ok asm ∧
        Faultless { externs := some ⟨[⟨"f", 1⟩]⟩ } ⟨[⟨"f", 1⟩]⟩ asm := by
  have hcompile : (compile "void db() { f(); } int main() { db(); }"
      { externs := some ⟨[⟨"f", 1⟩]⟩ }).hasError = false := by decide +kernel
  exact ⟨hcompile, (assemble_compile (by decide) hcompile _).1.exists_ok (by decide +kernel)⟩

end Ia32.C

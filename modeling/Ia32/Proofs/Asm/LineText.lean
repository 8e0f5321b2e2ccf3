import Ia32.Proofs.Asm.OperandText

/-!
# Written lines are read back

The assembler reads the written form of an instruction as that instruction, and the
lines that define labels and select sections likewise. Labels may be called `mov`, `db`
or `section`: what is in front of a colon is no statement.
-/

namespace Ia32.Asm

/-! ### Lists of operands -/

/-- Nested brackets are closed again. -/
def Balanced (s : List Char) : Prop :=
  ∀ depth, s.foldl nextDepth depth = depth

/-- Text without brackets is balanced. -/
theorem Plain.balanced {s : List Char} (h : Plain s) : Balanced s := by
  intro depth
  induction s with
  | nil => rfl
  | cons c rest ih =>
      have hne : c ≠ '[' ∧ c ≠ ']' := by
        rcases toNat_of_plain h List.mem_cons_self with hname | hsign
        · have hrange := toNat_isNameChar hname
          exact ⟨ne_of_toNat_ne (by simp only [Char.reduceToNat]; omega),
            ne_of_toNat_ne (by simp only [Char.reduceToNat]; omega)⟩
        · exact ⟨ne_of_toNat_ne (by simp only [Char.reduceToNat]; omega),
            ne_of_toNat_ne (by simp only [Char.reduceToNat]; omega)⟩
      rw [List.foldl_cons, nextDepth, if_neg hne.1, if_neg hne.2]
      exact ih fun d hd => h d (List.mem_cons_of_mem c hd)

theorem Balanced.brackets {s : List Char} (h : Balanced s) : Balanced ('[' :: (s ++ [']'])) := by
  intro depth
  rw [List.foldl_cons, List.foldl_append, h]
  simp [nextDepth]

/-- Solid text in front of other text belongs to its first piece. -/
theorem splitCommas_append {s : List Char} (hs : Solid s) (depth : Int) {rest piece : List Char}
    {pieces : List (List Char)} {unclosed : Bool}
    (hrest : splitCommas none (s.foldl nextDepth depth) rest = (piece :: pieces, unclosed)) :
    splitCommas none depth (s ++ rest) = ((s ++ piece) :: pieces, unclosed) := by
  induction s generalizing depth with
  | nil => exact hrest
  | cons c s ih =>
      obtain ⟨-, hsingle, hdouble, -, hcomma⟩ := hs c List.mem_cons_self
      have hquote : nextQuote none c = none := by simp [nextQuote, hsingle, hdouble]
      rw [List.cons_append, splitCommas, if_neg (by simp [hcomma]), hquote]
      have hmore := ih (fun d hd => hs d (List.mem_cons_of_mem c hd)) (nextDepth depth c) hrest
      simp only [Option.isSome_none, Bool.false_eq_true, if_false, hmore]
      rfl

/-- Pieces with commas and spaces between them are split again. -/
theorem splitCommas_joinWith {texts : List String} (hnonempty : texts ≠ [])
    (h : ∀ t ∈ texts, Solid t.toList ∧ Balanced t.toList) :
    ∃ pieces, splitCommas none 0 (Text.joinWith ", " texts).toList = (pieces, false) ∧
      pieces.map Text.trim = texts.map String.toList := by
  induction texts with
  | nil => exact absurd rfl hnonempty
  | cons t rest ih =>
      obtain ⟨hsolid, hbalanced⟩ := h t List.mem_cons_self
      cases rest with
      | nil =>
          refine ⟨[t.toList], ?_, by simp [hsolid.trimmed.trim]⟩
          have hsplit := splitCommas_append hsolid 0 (hbalanced 0 ▸ rfl :
            splitCommas none (t.toList.foldl nextDepth 0) [] = ([] :: [], false))
          simpa [Text.joinWith] using hsplit
      | cons u rest =>
          obtain ⟨pieces, hpieces, htrim⟩ := ih (by simp) fun v hv =>
            h v (List.mem_cons_of_mem t hv)
          cases pieces with
          | nil => simp at htrim
          | cons piece pieces =>
              -- the blank behind the comma is at the front of the next piece
              refine ⟨t.toList :: (' ' :: piece) :: pieces, ?_, ?_⟩
              · have hspace : splitCommas none 0 (' ' :: (Text.joinWith ", " (u :: rest)).toList) =
                    ((' ' :: piece) :: pieces, false) := by
                  rw [splitCommas, if_neg (by simp)]
                  simp only [Option.isSome_none, nextQuote, nextDepth]
                  simp [hpieces]
                have hcomma : splitCommas none (t.toList.foldl nextDepth 0)
                    (',' :: ' ' :: (Text.joinWith ", " (u :: rest)).toList) =
                    ([] :: (' ' :: piece) :: pieces, false) := by
                  rw [hbalanced 0, splitCommas, if_pos (by simp), hspace]
                have hsplit := splitCommas_append hsolid 0 hcomma
                simpa [Text.joinWith] using hsplit
              · rw [List.map_cons, List.map_cons, Text.trim_cons_blank _ rfl,
                  hsolid.trimmed.trim, ← List.map_cons, htrim]
                rfl

/-- The brackets of an operand match. -/
theorem balanced_render {a : Operand String} (h : Writable a) :
    Balanced (a.render id).toList := by
  cases a with
  | reg r => exact (plain_of_isName (isName_reg r)).balanced
  | mem m =>
      rw [Operand.render, toList_render_mem]
      exact (plain_mem m).balanced.brackets
  | imm v => exact (plain_toString v).balanced
  | label name => exact (plain_of_isName h.1).balanced

theorem render_ne_nil {a : Operand String} (h : Writable a) : (a.render id).toList ≠ [] := by
  cases a with
  | reg r => cases r <;> decide
  | mem m => rw [Operand.render, toList_render_mem]; simp
  | imm v =>
      obtain ⟨c, rest, htext, -⟩ := toString_eq_cons v
      rw [Operand.render, htext]
      simp
  | label name =>
      intro hempty
      have hname := h.1
      rw [Operand.render, id] at hempty
      rw [hempty] at hname
      cases hname

/-- Printed operands are read as themselves. -/
theorem readOperands_render {args : List (Operand String)} (h : ∀ a ∈ args, Readable a) :
    readOperands (args.map fun a => (a.render id).toList) = pure args := by
  induction args with
  | nil => rfl
  | cons a rest ih =>
      rw [List.map_cons, readOperands, readOperand_render (h a List.mem_cons_self),
        ih fun b hb => h b (List.mem_cons_of_mem a hb)]
      rfl

/-- A list of solid texts has no blanks around it. -/
theorem trimmed_joinWith (texts : List String)
    (h : ∀ t ∈ texts, Solid t.toList ∧ t.toList ≠ []) :
    Text.Trimmed (Text.joinWith ", " texts).toList ∧
      (texts ≠ [] → (Text.joinWith ", " texts).toList ≠ []) := by
  induction texts with
  | nil => exact ⟨⟨by simp [Text.joinWith], by simp [Text.joinWith]⟩, by simp⟩
  | cons t rest ih =>
      obtain ⟨hsolid, hnonempty⟩ := h t List.mem_cons_self
      cases rest with
      | nil => exact ⟨hsolid.trimmed, fun _ => hnonempty⟩
      | cons u rest =>
          obtain ⟨htrimmed, hfull⟩ := ih fun v hv => h v (List.mem_cons_of_mem t hv)
          have htext : (Text.joinWith ", " (t :: u :: rest)).toList =
              t.toList ++ (", ".toList ++ (Text.joinWith ", " (u :: rest)).toList) := by
            simp [Text.joinWith]
          rw [htext]
          exact ⟨hsolid.trimmed.around hnonempty _ htrimmed (hfull (by simp)), by simp⟩

/-- A list of solid texts is split at the commas between them. -/
theorem splitOperands_joinWith (texts : List String)
    (h : ∀ t ∈ texts, Solid t.toList ∧ Balanced t.toList ∧ t.toList ≠ []) :
    splitOperands (Text.joinWith ", " texts).toList = pure (texts.map String.toList) := by
  by_cases hempty : texts = []
  · subst hempty
    rfl
  · obtain ⟨pieces, hpieces, htrim⟩ := splitCommas_joinWith hempty fun t ht =>
      ⟨(h t ht).1, (h t ht).2.1⟩
    obtain ⟨htrimmed, hfull⟩ := trimmed_joinWith texts fun t ht => ⟨(h t ht).1, (h t ht).2.2⟩
    have hblank : (Text.trim (Text.joinWith ", " texts).toList).isEmpty = false := by
      rw [htrimmed.trim]
      simpa using hfull hempty
    have hitems : (texts.map String.toList).any List.isEmpty = false := by
      simpa using fun t ht => (h t ht).2.2
    unfold splitOperands
    simp only [hblank, hpieces, htrim, hitems, Bool.false_eq_true, if_false]

/-! ### Instructions -/

/-- Instructions that can be written and read back. -/
structure ReadableInstr (i : Instr String) : Prop where
  arity : i.args.length = i.op.arity
  args : ∀ a ∈ i.args, Readable a

/-- Instructions with a written form, whether or not it can be read back. -/
def WritableInstr (i : Instr String) : Prop :=
  ∀ a ∈ i.args, Writable a

theorem ReadableInstr.writable {i : Instr String} (h : ReadableInstr i) : WritableInstr i :=
  fun a ha => (h.args a ha).writable

/-- The written operands of an instruction. -/
def operandText (i : Instr String) : List Char :=
  (Text.joinWith ", " (i.args.map (Operand.render id))).toList

theorem trimmed_operandText {i : Instr String} (h : WritableInstr i) :
    Text.Trimmed (operandText i) ∧ (i.args ≠ [] → operandText i ≠ []) := by
  have htexts : ∀ t ∈ i.args.map (Operand.render id), Solid t.toList ∧ t.toList ≠ [] := by
    intro t ht
    obtain ⟨a, ha, rfl⟩ := List.mem_map.mp ht
    exact ⟨solid_render (h a ha), render_ne_nil (h a ha)⟩
  obtain ⟨htrimmed, hfull⟩ := trimmed_joinWith _ htexts
  exact ⟨htrimmed, fun hargs => hfull (by simpa using hargs)⟩

/-- The operands of an instruction are split as they were joined. -/
theorem splitOperands_operandText {i : Instr String} (h : WritableInstr i) :
    splitOperands (operandText i) = pure (i.args.map fun a => (a.render id).toList) := by
  have hsplit := splitOperands_joinWith (i.args.map (Operand.render id)) fun t ht => by
    obtain ⟨a, ha, rfl⟩ := List.mem_map.mp ht
    exact ⟨solid_render (h a ha), balanced_render (h a ha), render_ne_nil (h a ha)⟩
  rwa [List.map_map] at hsplit

/-- A printed instruction is read as itself. -/
theorem readInstr_text {i : Instr String} (h : ReadableInstr i) :
    readInstr i.op.name.toList (operandText i) = pure i := by
  unfold readInstr
  rw [ofName?_mnemonic]
  dsimp only
  rw [splitOperands_operandText h.writable, pure_bind, readOperands_render h.args, pure_bind,
    if_pos h.arity]

theorem toList_text (i : Instr String) : i.text.toList =
    i.op.name.toList ++ if i.args.isEmpty then [] else ' ' :: operandText i := by
  unfold Instr.text Instr.render operandText
  split
  · simp
  · simp

/-- The word in front of the first blank is the name of the instruction. -/
theorem takeWhile_text (i : Instr String) :
    i.text.toList.takeWhile (!Text.isBlank ·) = i.op.name.toList := by
  have hblank : ∀ c ∈ i.op.name.toList, (!Text.isBlank c) = true := fun c hc => by
    simp [isBlank_of_isNameChar (isNameChar_of_isName (isName_mnemonic i.op) c hc)]
  rw [toList_text, List.takeWhile_append_of_pos hblank]
  split
  · rw [List.takeWhile_nil, List.append_nil]
  · rw [List.takeWhile_cons_of_neg (by decide), List.append_nil]

/-- What is behind it are the operands. -/
theorem trim_dropWhile_text {i : Instr String} (h : WritableInstr i) :
    Text.trim (i.text.toList.dropWhile (!Text.isBlank ·)) = operandText i := by
  have hblank : ∀ c ∈ i.op.name.toList, (!Text.isBlank c) = true := fun c hc => by
    simp [isBlank_of_isNameChar (isNameChar_of_isName (isName_mnemonic i.op) c hc)]
  rw [toList_text, List.dropWhile_append_of_pos hblank]
  split
  next hargs =>
    simp only [List.isEmpty_iff] at hargs
    simp only [operandText, hargs]
    rfl
  next =>
    rw [List.dropWhile_cons_of_neg (by decide), Text.trim_cons_blank _ rfl,
      (trimmed_operandText h).1.trim]

/-- The code of a line with an instruction is an operation with its operands. -/
theorem read_text {i : Instr String} (h : WritableInstr i) :
    Statement.read i.text.toList =
      (do return some (.instr (← readInstr i.op.name.toList (operandText i)))) := by
  have hnotEmpty : i.op.name.toList.isEmpty = false := by cases i.op <;> decide
  have hsection : Text.lower i.op.name.toList ≠ "section".toList := by cases i.op <;> decide
  have hbytes : Text.lower i.op.name.toList ≠ "db".toList := by cases i.op <;> decide
  unfold Statement.read
  simp only [takeWhile_text, trim_dropWhile_text h, hnotEmpty, Bool.false_eq_true, if_false,
    if_neg hsection, if_neg hbytes]

/-- The code of a line that holds an instruction. -/
theorem read_statement {i : Instr String} (h : ReadableInstr i) :
    Statement.read i.text.toList = pure (some (.instr i)) := by
  rw [read_text h.writable, readInstr_text h]
  rfl

/-! ### Lines -/

/-- A line is read as a label and a statement, without remarks. -/
def ReadsAs (source : List Char) (label : Option String) (statement : Option Statement) : Prop :=
  ∀ number, Line.read number source = .ok (⟨number, String.ofList source, label, statement⟩, [])

/-- Text without quotes, comments and line ends. -/
def Unquoted (s : List Char) : Prop :=
  ∀ c ∈ s, c ≠ '\'' ∧ c ≠ '"' ∧ c ≠ ';' ∧ c ≠ '\n' ∧ c ≠ '\r'

instance (s : List Char) : Decidable (Unquoted s) :=
  List.decidableBAll _ s

theorem Unquoted.append {s t : List Char} (hs : Unquoted s) (ht : Unquoted t) :
    Unquoted (s ++ t) := by
  intro c hc
  rcases List.mem_append.mp hc with hc | hc
  · exact hs c hc
  · exact ht c hc

theorem Solid.unquoted {s : List Char} (h : Solid s) : Unquoted s := by
  intro c hc
  obtain ⟨hblank, hsingle, hdouble, hcomment, -⟩ := h c hc
  refine ⟨hsingle, hdouble, hcomment, ?_, ?_⟩ <;>
  · rintro rfl
    exact absurd hblank (by decide)

theorem unquoted_joinWith {texts : List String} (h : ∀ t ∈ texts, Unquoted t.toList) :
    Unquoted (Text.joinWith ", " texts).toList := by
  induction texts with
  | nil => decide
  | cons t rest ih =>
      have ht := h t List.mem_cons_self
      have hcomma : Unquoted ", ".toList := by decide
      cases rest with
      | nil => exact ht
      | cons u rest =>
          have hrest := ih fun v hv => h v (List.mem_cons_of_mem t hv)
          simpa [Text.joinWith] using ht.append (hcomma.append hrest)

/-- An instruction is printed without quotes, comments and line ends. -/
theorem unquoted_text {i : Instr String} (h : WritableInstr i) : Unquoted i.text.toList := by
  have hname : Unquoted i.op.name.toList := (plain_of_isName (isName_mnemonic i.op)).solid.unquoted
  have hspace : Unquoted [' '] := by decide
  have hoperands : Unquoted (operandText i) := unquoted_joinWith fun t ht => by
    obtain ⟨a, ha, rfl⟩ := List.mem_map.mp ht
    exact (solid_render (h a ha)).unquoted
  rw [toList_text]
  split
  · exact hname.append (by decide)
  · exact hname.append (hspace.append hoperands)

theorem Unquoted.noEnd {s : List Char} (h : Unquoted s) : ∀ c ∈ s, c ≠ '\n' ∧ c ≠ '\r' :=
  fun c hc => (h c hc).2.2.2

/-- A comment starts behind text without quotes and semicolons. -/
theorem dropComment_append {s : List Char} (h : Unquoted s) (rest : List Char) :
    dropComment none (s ++ rest) = s ++ dropComment none rest := by
  induction s with
  | nil => rfl
  | cons c s ih =>
      obtain ⟨hsingle, hdouble, hcomment, -⟩ := h c List.mem_cons_self
      rw [List.cons_append, dropComment, if_neg (by simp [hcomment]), nextQuote,
        if_neg (by simp [hsingle, hdouble]), ih fun d hd => h d (List.mem_cons_of_mem c hd)]
      rfl

theorem dropComment_eq_self {s : List Char} (h : Unquoted s) : dropComment none s = s := by
  simpa [dropComment] using dropComment_append h []

/-- The text of a line without label. -/
theorem readsAs_of_statement {source code : List Char} {statement : Option Statement}
    (hcode : Text.trim (dropComment none source) = code)
    (hlabel : Text.dropLast? ':' (code.takeWhile (!Text.isBlank ·)) = none)
    (hread : Statement.read code = pure statement) : ReadsAs source none statement := by
  intro number
  simp only [Line.read, hcode, Line.splitLabel, hlabel, hread]
  rfl

/-- The text of a line with a label. -/
theorem readsAs_of_label {source name rest : List Char} {statement : Option Statement}
    (hname : isName name = true)
    (hcode : Text.trim (dropComment none source) = name ++ ':' :: rest)
    (hrest : rest.takeWhile (!Text.isBlank ·) = [])
    (hread : Statement.read (Text.trim rest) = pure statement) :
    ReadsAs source (some (String.ofList name)) statement := by
  intro number
  have hblank : ∀ c ∈ name ++ [':'], (!Text.isBlank c) = true := by
    intro c hc
    rcases List.mem_append.mp hc with hc | hc
    · simp [isBlank_of_isNameChar (isNameChar_of_isName hname c hc)]
    · rw [List.mem_singleton.mp hc]
      decide
  have hword : (name ++ ':' :: rest).takeWhile (!Text.isBlank ·) = name ++ [':'] := by
    rw [show name ++ ':' :: rest = (name ++ [':']) ++ rest by simp,
      List.takeWhile_append_of_pos hblank, hrest, List.append_nil]
  have hdrop : (name ++ ':' :: rest).drop (name ++ [':']).length = rest := by
    rw [show name ++ ':' :: rest = (name ++ [':']) ++ rest by simp, List.drop_left]
  have hlabel : Text.dropLast? ':' (name ++ [':']) = some name := by
    simp [Text.dropLast?]
  have hfilter : (some name).filter isName = some name := by simp [hname]
  simp only [Line.read, hcode, Line.splitLabel, hword, hdrop, hlabel, hread, hfilter,
    Line.labelDiagnostics, hname, if_true]
  rfl

/-- A label is read as itself, in front of nothing. -/
theorem readsAs_label {name : String} (hname : isName name.toList = true) :
    ReadsAs (name.toList ++ [':']) (some name) none := by
  have hsolid : Solid (name.toList ++ [':']) := (plain_of_isName hname).solid.append (by
    intro c hc
    rw [List.mem_singleton.mp hc]
    decide)
  have hcode : Text.trim (dropComment none (name.toList ++ [':'])) = name.toList ++ [':'] := by
    rw [dropComment_eq_self hsolid.unquoted, hsolid.trimmed.trim]
  have hempty : Statement.read (Text.trim []) = pure none := rfl
  simpa only [String.ofList_toList] using readsAs_of_label hname hcode rfl hempty

/-- The code of a line with an instruction, without the blanks in front. -/
theorem code_instr {i : Instr String} (h : WritableInstr i) :
    Text.trim (dropComment none ("  ".toList ++ i.text.toList)) = i.text.toList ∧
      Text.dropLast? ':' (i.text.toList.takeWhile (!Text.isBlank ·)) = none := by
  have hspaces : Unquoted "  ".toList := by decide
  have hname := isName_mnemonic i.op
  have hnonempty : i.op.name.toList ≠ [] := by cases i.op <;> decide
  have hsolid := (plain_of_isName hname).solid
  have htrimmed : Text.Trimmed i.text.toList := by
    rw [toList_text]
    split
    next => simpa using hsolid.trimmed
    next hargs =>
      obtain ⟨htrimmed, hfull⟩ := trimmed_operandText h
      exact hsolid.trimmed.around hnonempty [' '] htrimmed (hfull (by simpa using hargs))
  refine ⟨?_, ?_⟩
  · rw [dropComment_eq_self (hspaces.append (unquoted_text h))]
    exact (Text.trim_cons_blank _ rfl).trans ((Text.trim_cons_blank _ rfl).trans htrimmed.trim)
  · rw [takeWhile_text]
    cases i.op <;> decide

/-- An indented instruction is read as itself, behind no label. -/
theorem readsAs_instr {i : Instr String} (h : ReadableInstr i) :
    ReadsAs ("  ".toList ++ i.text.toList) none (some (.instr i)) := by
  obtain ⟨hcode, hlabel⟩ := code_instr h.writable
  exact readsAs_of_statement hcode hlabel (read_statement h)

/-! ### Texts of several lines -/

/-- What the assembler makes of a line. -/
def Line.contents (line : Line) : Option String × Option Statement :=
  (line.label, line.statement)

/-- A line to be written, with what it stands for. -/
structure Written where
  text : List Char
  label : Option String
  statement : Option Statement
  readsAs : ReadsAs text label statement
  noEnd : ∀ c ∈ text, c ≠ '\n' ∧ c ≠ '\r'

/-- The text of some lines. -/
def writtenText (lines : List Written) : List Char :=
  lines.flatMap fun line => line.text ++ ['\n']

/-- Written lines are split as they were written. -/
theorem lines_writtenText (written : List Written) :
    Text.lines (writtenText written) = written.map Written.text := by
  induction written with
  | nil => rfl
  | cons w rest ih =>
      rw [writtenText, List.flatMap_cons, List.append_assoc]
      exact (Text.lines_append _ w.noEnd).trans (congrArg (w.text :: ·) ih)

/-- Written lines are read as what they were written from, without complaints. -/
theorem readFrom_written (number : Nat) (written : List Written) :
    ∃ lines, Line.readFrom number (written.map Written.text) = .ok (lines, []) ∧
      lines.map Line.contents = written.map fun w => (w.label, w.statement) := by
  induction written generalizing number with
  | nil => exact ⟨[], rfl, rfl⟩
  | cons w rest ih =>
      obtain ⟨lines, hlines, hcontents⟩ := ih (number + 1)
      refine ⟨⟨number, String.ofList w.text, w.label, w.statement⟩ :: lines, ?_, ?_⟩
      · rw [List.map_cons, Line.readFrom, w.readsAs number, hlines]
        rfl
      · rw [List.map_cons, List.map_cons, hcontents]
        rfl

theorem writtenText_append (first second : List Written) :
    writtenText (first ++ second) = writtenText first ++ writtenText second :=
  List.flatMap_append

/-- Things that can each be written on a line can be written on consecutive lines. -/
theorem exists_written_list {α : Type} {text : α → List Char}
    {contents : α → Option String × Option Statement} {xs : List α}
    (h : ∀ x ∈ xs, ∃ w : Written, text x = w.text ++ ['\n'] ∧ (w.label, w.statement) = contents x) :
    ∃ written : List Written, xs.flatMap text = writtenText written ∧
      written.map (fun w => (w.label, w.statement)) = xs.map contents := by
  induction xs with
  | nil => exact ⟨[], rfl, rfl⟩
  | cons x rest ih =>
      obtain ⟨w, htext, hcontents⟩ := h x List.mem_cons_self
      obtain ⟨written, hrest, hmap⟩ := ih fun y hy => h y (List.mem_cons_of_mem x hy)
      refine ⟨w :: written, ?_, ?_⟩
      · rw [List.flatMap_cons, htext, hrest]
        rfl
      · rw [List.map_cons, List.map_cons, hmap, hcontents]

/-- Written lines are read back without remarks. -/
theorem readAll_written {source : String} {written : List Written}
    (h : source.toList = writtenText written) :
    ∃ lines, Line.readAll source = .ok (lines, []) ∧
      lines.map Line.contents = written.map fun w => (w.label, w.statement) := by
  rw [Line.readAll, h, lines_writtenText]
  exact readFrom_written 1 written

end Ia32.Asm

import Ia32.Proofs.Asm.References
import Ia32.Proofs.C.Acceptance
import Ia32.Proofs.C.Unambiguous

/-!
# Where compiled code stands

The lines of a compilation are those of its string constants and those of its code, in
order. So a piece of code stands behind the bytes of the code in front of it, a label stands
for the place where it is written, and the data are the texts of the constants.
-/

namespace Ia32.Asm.Assembler

/-! ### Lines and bytes -/

/-- The bytes that a line stores. -/
def stored (line : Line) : Bytes :=
  match line.statement with
  | some (.bytes b) => b
  | _ => []

/-- The bytes that lines store in the data. -/
def storedIn : Section → List Line → Bytes
  | _, [] => []
  | sect, line :: rest =>
      (if sect = .data then stored line else []) ++ storedIn (nextSection sect line) rest

/-- What lines store is stored one after the other, each in its section. -/
theorem storedIn_append (sect : Section) (first second : List Line) :
    storedIn sect (first ++ second) =
      storedIn sect first ++ storedIn (sectionAfter sect first) second := by
  induction first generalizing sect with
  | nil => rfl
  | cons line rest ih =>
      simp only [List.cons_append, storedIn, ih, List.append_assoc]
      rfl

/-- A line of the data shows what it stores. -/
theorem Shows.stored {scope : Scope} {offset : Nat} {line : Line} {l : Listed}
    (h : Shows scope .data offset line l) : l.bytes = Assembler.stored line := by
  unfold Assembler.stored
  split
  next b hline => exact h.bytes b hline
  next hline =>
    -- an instruction among the data emits nothing
    refine h.silent ?_
    have hsize := h.size
    cases haddr : l.address with
    | none => rfl
    | some addr =>
        rw [haddr] at hsize
        cases hstatement : line.statement with
        | none => simp [extent?, measure, hstatement] at hsize
        | some statement =>
            cases statement with
            | select s => simp [extent?, measure, hstatement] at hsize
            | bytes b => exact absurd hstatement (hline b)
            | instr i => simp [extent?, measure, hstatement] at hsize

/-- The data of a program are the bytes that its lines store there. -/
theorem shownIn_data {sect : Section} {lines : List Line} {listing : List Listed}
    (hlength : listing.length = lines.length)
    (hbytes : ∀ k line l, lines[k]? = some line → listing[k]? = some l →
      sectionAfter sect (lines.take k) = .data → l.bytes = stored line) :
    shownIn .data sect (lines.zip listing) = storedIn sect lines := by
  induction lines generalizing sect listing with
  | nil => rfl
  | cons line rest ih =>
      obtain ⟨l, listing, rfl⟩ : ∃ l others, listing = l :: others :=
        List.exists_cons_of_length_eq_add_one hlength
      have hrest := @ih (nextSection sect line) listing (by simpa using hlength)
        fun k line' l' hline hl hsect => hbytes (k + 1) line' l' hline hl hsect
      simp only [List.zip_cons_cons, shownIn, storedIn, hrest]
      congr 1
      split
      next hsect => exact hbytes 0 line l rfl rfl hsect
      next => rfl

/-- The data is what the lines store. -/
theorem Described.data_eq {scope : Scope} {lines : List Line} {asm : Assembly}
    (h : Described scope lines asm) : asm.data = storedIn .text lines := by
  rw [← h.data]
  refine shownIn_data h.entries.1 fun k line l hline hl hsect => ?_
  have hshows := h.entries.2 k line l hline hl
  rw [hsect] at hshows
  exact hshows.stored

/-- What the description of a program says about an instruction among its lines. -/
theorem Described.instr {scope : Scope} {before after : List Line} {line : Line} {asm : Assembly}
    (h : Described scope (before ++ line :: after) asm) (hsect : sectionAfter .text before = .text)
    {i : Instr String} (hline : line.statement = some (.instr i)) {n : Nat}
    (hsize : i.size = .ok n) :
    ∃ bytes rest l, asm.listing[before.length]? = some l ∧
      l.address = some (scope.textBase + UInt32.ofNat (lengthIn .text .text before)) ∧
      (i.resolve scope.target).encode
        (scope.textBase + UInt32.ofNat (lengthIn .text .text before)) = .ok bytes ∧
      bytes.length = n ∧ asm.code.drop (lengthIn .text .text before) = bytes ++ rest := by
  have hget : (before ++ line :: after)[before.length]? = some line := by simp
  have htake : (before ++ line :: after).take before.length = before := by simp
  obtain ⟨l, hl⟩ := exists_entry h.entries.1 hget
  have hshows := h.entries.2 _ line l hget hl
  have hshown := h.entries.length_shownIn .text before.length
  rw [htake, hsect, Nat.zero_add] at hshows
  rw [htake] at hshown
  rw [hshown] at hshows
  have hextent : extent? .text line = some n := by simp [extent?, measure, hline, hsize]
  obtain ⟨addr, haddr⟩ : ∃ addr, l.address = some addr := by
    cases haddr : l.address with
    | none =>
        have := hshows.size
        rw [haddr, hextent] at this
        cases this
    | some addr => exact ⟨addr, rfl⟩
  obtain ⟨hroom, rfl⟩ := Word.offset_eq_ok (hshows.address addr haddr)
  obtain ⟨rest, hsplit⟩ := shownIn_split h.entries.1 hget hl .text
  rw [htake, hsect, h.code] at hsplit
  refine ⟨l.bytes, rest, l, hl, haddr, (hshows.instr i _ hline haddr).2, ?_, ?_⟩
  · rw [hshows.length, hextent, Option.getD_some]
  · rw [hsplit, ← hshown, List.drop_left]

/-- A program whose instructions refer to its own labels alone needs no library. -/
theorem Finished.needsLibrary_eq_false {a : Assembler} {lines : List Line} {externs : SymbolTable}
    {asm : Assembly} {scope : Scope} {e : Emission} (h : Finished a lines externs asm scope e)
    (hnames : ∀ line ∈ lines, ∀ i, line.statement = some (.instr i) → ∀ name ∈ i.labels,
      ∃ label, scope.labels.get? name = some label) : asm.needsLibrary = false := by
  have hnone : (lines.zip a.sizes.toList).any (refersOutside scope) = false := by
    refine List.any_eq_false.mpr fun entry hentry => ?_
    unfold refersOutside
    split
    next i _ hinstr _ =>
      refine Bool.not_eq_true _ ▸ List.any_eq_false.mpr fun name hname => ?_
      obtain ⟨label, hlabel⟩ := hnames entry.1 (List.of_mem_zip hentry).1 i hinstr name hname
      rw [isExternal_of_get? hlabel]
      exact Bool.false_ne_true
    next => exact Bool.false_ne_true
  have hlibrary := emitLines_needsLibrary h.emitted
  rw [hnone] at hlibrary
  rw [h.result]
  exact hlibrary

/-- A name is first defined in one line. -/
theorem FirstDefinition.unique {lines : List Line} {name : String} {k j : Nat} {line other : Line}
    (h : FirstDefinition lines name k line) (h' : FirstDefinition lines name j other) : k = j := by
  rcases Nat.lt_trichotomy k j with hlt | heq | hlt
  · exact absurd h.label (h'.first k hlt line h.found)
  · exact heq
  · exact absurd h'.label (h.first j hlt other h'.found)

/-- With the default configuration a program starts at its entry label. -/
theorem entryAddress_of_get? {lines : List Line} {a : Assembler} {externs : SymbolTable}
    {asm : Assembly} {scope : Scope} {e : Emission} {complaints : List Diagnostic}
    (hlayout : layout lines { ofConfig {} with diagnostics := complaints } = .ok () a)
    (h : Finished a lines externs asm scope e) {offset number : Nat}
    (hfound : asm.labels.get? Abi.entryLabel = some ⟨.text, offset, number⟩) :
    asm.entryAddress = .ok (scope.textBase + UInt32.ofNat offset) := by
  have hlaid := layout_eq_ok hlayout
  have hconfig : a.config = {} := hlaid.config
  obtain ⟨hcodeLimit, -, -, -⟩ := hlaid.withinLimits (withinLimits_ofConfig {} complaints)
  rw [hconfig] at hcodeLimit
  have hlabels : asm.labels = a.labels := by rw [h.result]
  have hentry : asm.entry = offset := by
    rw [hlabels] at hfound
    rw [h.result, hconfig]
    simp only [findEntry, hfound]
  have hle : offset ≤ a.codeLength := hlaid.offset_le rfl (mem_of_get? (hlabels ▸ hfound))
  have hnat : scope.textBase.toNat = 0x400000 + Abi.pageSize :=
    Word.toNat_offset (hconfig ▸ h.textBase)
  obtain ⟨addr, haddr, -⟩ := Word.exists_offset scope.textBase offset (by
    have hlimit : a.codeLength ≤ 1048576 := hcodeLimit
    rw [hnat, Abi.pageSize]
    omega)
  rw [Assembly.entryAddress, h.textBase_eq, ok_bind, hentry, haddr, (Word.offset_eq_ok haddr).2]

/-- A label that is defined once stands for the place of its line. -/
theorem Described.target {scope : Scope} {before after : List Line} {line : Line} {asm : Assembly}
    (h : Described scope (before ++ line :: after) asm) (hscope : scope.labels = asm.labels)
    {name : String} (hlabel : line.label = some name)
    (hfirst : ∀ other ∈ before, other.label ≠ some name) :
    asm.labels.get? name = some ⟨sectionAfter .text before,
        lengthIn (sectionAfter .text before) .text before, line.number⟩ ∧
      scope.target name = scope.base (sectionAfter .text before) +
        UInt32.ofNat (lengthIn (sectionAfter .text before) .text before) := by
  have hget : (before ++ line :: after)[before.length]? = some line := by simp
  have htake : (before ++ line :: after).take before.length = before := by simp
  have hdefinition : FirstDefinition (before ++ line :: after) name before.length line := by
    refine ⟨hget, hlabel, fun j hj other hother => hfirst other ?_⟩
    rw [List.getElem?_append_left hj] at hother
    exact List.mem_of_getElem? hother
  have hmem : (name, (⟨sectionAfter .text before,
      lengthIn (sectionAfter .text before) .text before, line.number⟩ : Label)) ∈
      asm.labels.entries := by
    refine (h.labels name _).mpr ⟨before.length, line, hdefinition, ?_, ?_, rfl⟩
    · rw [htake]
    · rw [h.entries.length_shownIn, htake]
  have hlookup : ∃ label, asm.labels.get? name = some label := by
    cases hfound : asm.labels.entries.lookup name with
    | none =>
        have hne := List.lookup_eq_none_iff.mp hfound _ hmem
        simp at hne
    | some label => exact ⟨label, hfound⟩
  obtain ⟨label, hfound⟩ := hlookup
  obtain ⟨k, other, hother, hsect, hoffset, hnumber⟩ :=
    (h.labels name label).mp (mem_of_get? hfound)
  obtain rfl := hdefinition.unique hother
  have hsame : label = ⟨sectionAfter .text before,
      lengthIn (sectionAfter .text before) .text before, line.number⟩ := by
    obtain ⟨sect, offset, number⟩ := label
    rw [h.entries.length_shownIn, htake] at hoffset
    rw [htake] at hsect
    have hline : other = line := Option.some.inj (hother.found.symm.trans hget)
    subst hline
    simp only at hsect hoffset hnumber
    subst hsect hoffset hnumber
    rfl
  subst hsame
  refine ⟨hfound, ?_⟩
  rw [Scope.target, hscope, hfound]

end Ia32.Asm.Assembler

namespace Ia32.C

open Asm Assembler

/-! ### Lines of code and of constants -/

/-- Bytes of an item. -/
def Item.size : Item → Nat
  | .label _ => 0
  | .instr i => i.size.toOption.getD 0

/-- Bytes of generated code. -/
def codeSize (items : List Item) : Nat :=
  (items.map Item.size).sum

@[simp]
theorem codeSize_nil : codeSize [] = 0 := rfl

@[simp]
theorem codeSize_cons (item : Item) (items : List Item) :
    codeSize (item :: items) = item.size + codeSize items := rfl

@[simp]
theorem codeSize_append (front back : List Item) :
    codeSize (front ++ back) = codeSize front + codeSize back := by
  simp [codeSize]

@[simp]
theorem Item.size_label (name : String) : (Item.label name).size = 0 := rfl

theorem Item.size_instr {i : Instr String} {n : Nat} (h : i.size = .ok n) :
    (Item.instr i).size = n := by
  simp [size, h, Except.toOption]

/-- Lines of code stay in the code and emit the bytes of the items. -/
theorem lines_of_items {lines : List Line} {items : List Item}
    (h : lines.map Line.contents = items.map Item.contents) :
    sectionAfter .text lines = .text ∧ lengthIn .text .text lines = codeSize items ∧
      storedIn .text lines = [] := by
  induction lines generalizing items with
  | nil =>
      cases items with
      | nil => exact ⟨rfl, rfl, rfl⟩
      | cons item others => cases h
  | cons line rest ih =>
      cases items with
      | nil => cases h
      | cons item others =>
          simp only [List.map_cons, List.cons.injEq] at h
          obtain ⟨hsect, hlength, hstored⟩ := ih h.2
          have hstatement : line.statement = item.contents.2 := congrArg Prod.snd h.1
          have hnext : nextSection .text line = .text := by
            cases item <;> simp [nextSection, hstatement, Item.contents]
          have hextent : (extent? .text line).getD 0 = item.size := by
            cases item with
            | label name => simp [extent?, Assembler.measure, hstatement, Item.contents]
            | instr i =>
                simp only [extent?, Assembler.measure, hstatement, Item.contents, Item.size]
                cases i.size <;> rfl
          refine ⟨?_, ?_, ?_⟩
          · rw [sectionAfter, List.foldl_cons, hnext]
            exact hsect
          · rw [lengthIn, hnext, if_pos rfl, hextent, hlength]
            rfl
          · rw [storedIn, hnext, hstored]
            rfl

/-- The data of string constants. -/
def dataOf (constants : List (String × String)) : Bytes :=
  constants.flatMap fun constant => utf8Bytes constant.2 ++ [0]

/-- Lines of string constants stay in the data and store their texts. -/
theorem lines_of_constants {lines : List Line} {constants : List (String × String)}
    (h : lines.map Line.contents = constants.map constantContents) :
    sectionAfter .data lines = .data ∧ lengthIn .text .data lines = 0 ∧
      lengthIn .data .data lines = (dataOf constants).length ∧
      storedIn .data lines = dataOf constants := by
  induction lines generalizing constants with
  | nil =>
      cases constants with
      | nil => exact ⟨rfl, rfl, rfl, rfl⟩
      | cons constant others => cases h
  | cons line rest ih =>
      cases constants with
      | nil => cases h
      | cons constant others =>
          simp only [List.map_cons, List.cons.injEq] at h
          obtain ⟨hsect, htext, hdata, hstored⟩ := ih h.2
          have hstatement : line.statement = some (.bytes (utf8Bytes constant.2 ++ [0])) :=
            congrArg Prod.snd h.1
          have hnext : nextSection .data line = .data := nextSection_of_bytes hstatement
          have hextent : extent? .data line = some (utf8Bytes constant.2 ++ [0]).length :=
            extent?_bytes .data hstatement
          refine ⟨?_, ?_, ?_, ?_⟩
          · rw [sectionAfter, List.foldl_cons, hnext]
            exact hsect
          · rw [lengthIn, hnext, htext]
            rfl
          · rw [lengthIn, hnext, if_pos rfl, hextent, hdata]
            exact List.length_append.symm
          · rw [storedIn, hnext, if_pos rfl, hstored, Assembler.stored, hstatement]
            rfl

/-- The lines of a compilation in front of its code store the constants and lead to the code. -/
theorem exists_code_lines {lines : List Line} {constants : List (String × String)} {code : Code}
    (h : lines.map Line.contents = assemblyContents constants code) :
    ∃ before items,
      lines = before ++ items ∧ items.map Line.contents = code.items.map Item.contents ∧
      sectionAfter .text before = .text ∧ lengthIn .text .text before = 0 ∧
      storedIn .text before = dataOf constants := by
  obtain ⟨data, text, rfl, hdata, htext⟩ := List.map_eq_append_iff.mp h
  obtain ⟨select, items, rfl, hselect, hitems⟩ := List.map_eq_cons_iff.mp htext
  have hstatement : select.statement = some (.select .text) := congrArg Prod.snd hselect
  have hfacts : lengthIn .text .text data = 0 ∧ storedIn .text data = dataOf constants := by
    split at hdata
    next hempty =>
      rw [List.map_eq_nil_iff.mp hdata, List.isEmpty_iff.mp hempty]
      exact ⟨rfl, rfl⟩
    next =>
      obtain ⟨line, rest, rfl, hline, hrest⟩ := List.map_eq_cons_iff.mp hdata
      have hline : line.statement = some (.select .data) := congrArg Prod.snd hline
      have hnext : nextSection .text line = .data := by simp [nextSection, hline]
      obtain ⟨-, hlength, -, hstored⟩ := lines_of_constants hrest
      refine ⟨?_, ?_⟩
      · rw [lengthIn, hnext, hlength]
        simp [extent?, Assembler.measure, hline]
      · rw [storedIn, hnext, hstored]
        rfl
  refine ⟨data ++ [select], items, by simp, hitems, ?_, ?_, ?_⟩
  · rw [sectionAfter, List.foldl_append]
    simp [nextSection, hstatement]
  · rw [lengthIn_append, hfacts.1]
    simp [lengthIn, extent?, Assembler.measure, hstatement]
  · rw [storedIn_append, hfacts.2]
    simp [storedIn, Assembler.stored, hstatement]

/-- The line of a constant stands in the data behind those of the constants in front. -/
theorem exists_constant_line {lines : List Line} {constants : List (String × String)} {code : Code}
    (h : lines.map Line.contents = assemblyContents constants code)
    {front back : List (String × String)} {constant : String × String}
    (hconstants : constants = front ++ constant :: back) :
    ∃ before line after, lines = before ++ line :: after ∧ line.label = some constant.1 ∧
      sectionAfter .text before = .data ∧
      lengthIn .data .text before = (dataOf front).length := by
  obtain ⟨data, text, rfl, hdata, -⟩ := List.map_eq_append_iff.mp h
  have hfull : constants.isEmpty = false := by simp [hconstants]
  rw [hfull, if_neg Bool.false_ne_true] at hdata
  obtain ⟨select, stores, rfl, hselect, hstores⟩ := List.map_eq_cons_iff.mp hdata
  rw [hconstants, List.map_append, List.map_cons] at hstores
  obtain ⟨before, rest, rfl, hbefore, hrest⟩ := List.map_eq_append_iff.mp hstores
  obtain ⟨line, after, rfl, hline, -⟩ := List.map_eq_cons_iff.mp hrest
  have hstatement : select.statement = some (.select .data) := congrArg Prod.snd hselect
  have hnext : nextSection .text select = .data := by simp [nextSection, hstatement]
  obtain ⟨hsect, -, hlength, -⟩ := lines_of_constants hbefore
  refine ⟨select :: before, line, after ++ text, by simp, congrArg Prod.fst hline, ?_, ?_⟩
  · rw [sectionAfter, List.foldl_cons, hnext]
    exact hsect
  · rw [lengthIn, hnext, hlength]
    simp

/-- The data of a compilation are the texts of its constants. -/
theorem data_of_contents {scope : Scope} {lines : List Line} {asm : Assembly}
    (h : Described scope lines asm) {constants : List (String × String)} {code : Code}
    (hcontents : lines.map Line.contents = assemblyContents constants code) :
    asm.data = dataOf constants := by
  obtain ⟨before, items, hlines, hitems, hsect, -, hstored⟩ := exists_code_lines hcontents
  rw [h.data_eq, hlines, storedIn_append, hstored, hsect, (lines_of_items hitems).2.2,
    List.append_nil]

/-! ### Programs -/

/-- Where the parts of assembled code stand: an instruction is encoded at its address, which
the listing shows, and a label stands for its address. -/
structure Placed (items : List Item) (lines : List Line) (asm : Assembly)
    (target : String → UInt32) (textBase : UInt32) : Prop where
  instr : ∀ {front back i}, items = front ++ .instr i :: back →
    ∃ bytes rest, (i.resolve target).encode (textBase + UInt32.ofNat (codeSize front)) = .ok bytes ∧
      bytes.length = (Item.instr i).size ∧ bytes.length ≤ maxInstructionLength ∧
      asm.code.drop (codeSize front) = bytes ++ rest
  listed : ∀ {front back i}, items = front ++ .instr i :: back →
    ∃ (k : Nat) (line : Line) (l : Listed), lines[k]? = some line ∧
      line.statement = some (.instr i) ∧ asm.listing[k]? = some l ∧
      l.address = some (textBase + UInt32.ofNat (codeSize front))
  label : ∀ {front back name}, items = front ++ .label name :: back →
    target name = textBase + UInt32.ofNat (codeSize front)

/-- An item of code has a line of its own, in the code behind the lines of the items in
front. -/
theorem exists_item_line {lines : List Line} {constants : List (String × String)} {code : Code}
    (h : lines.map Line.contents = assemblyContents constants code) {front back : List Item}
    {item : Item} (hitems : code.items = front ++ item :: back) :
    ∃ before line after, lines = before ++ line :: after ∧ line.contents = item.contents ∧
      sectionAfter .text before = .text ∧ lengthIn .text .text before = codeSize front := by
  obtain ⟨data, items, rfl, hcode, hsect, hlength, -⟩ := exists_code_lines h
  rw [hitems, List.map_append, List.map_cons] at hcode
  obtain ⟨before, rest, rfl, hbefore, hrest⟩ := List.map_eq_append_iff.mp hcode
  obtain ⟨line, after, rfl, hline, -⟩ := List.map_eq_cons_iff.mp hrest
  obtain ⟨hsect', hlength', -⟩ := lines_of_items hbefore
  refine ⟨data ++ before, line, after, by simp, hline, ?_, ?_⟩
  · rw [sectionAfter, List.foldl_append]
    exact (congrArg (fun sect => List.foldl nextSection sect before) hsect).trans hsect'
  · rw [lengthIn_append, hsect, hlength, hlength', Nat.zero_add]

/-- A label of a line is defined on no other. -/
theorem label_ne_of_nodup {before after : List Line} {line : Line} {name : String}
    (hnodup : (lineLabels (before ++ line :: after)).Nodup) (hlabel : line.label = some name) :
    ∀ other ∈ before, other.label ≠ some name := by
  intro other hother heq
  rw [lineLabels, List.filterMap_append, List.filterMap_cons, hlabel] at hnodup
  exact (List.nodup_append.mp hnodup).2.2 name (List.mem_filterMap.mpr ⟨other, hother, heq⟩) name
    List.mem_cons_self rfl

/-- Each item stands in the code at the length of what is in front of it. -/
theorem placed_of_described {scope : Scope} {lines : List Line} {asm : Assembly}
    (h : Described scope lines asm) (hscope : scope.labels = asm.labels)
    {constants : List (String × String)} {code : Code}
    (hcontents : lines.map Line.contents = assemblyContents constants code)
    (hnodup : (lineLabels lines).Nodup) {known : String → Prop} (hsound : code.Sound known) :
    Placed code.items lines asm scope.target scope.textBase where
  instr hitems := by
    obtain ⟨before, line, after, rfl, hline, hsect, hlength⟩ := exists_item_line hcontents hitems
    have hmem := hsound (.instr _) (hitems ▸ List.mem_append_right _ List.mem_cons_self)
    obtain ⟨n, hn⟩ := hmem.2.2
    obtain ⟨bytes, rest, l, -, -, hencode, hbytes, hcode⟩ :=
      h.instr hsect (congrArg Prod.snd hline) hn
    rw [hlength] at hencode hcode
    refine ⟨bytes, rest, hencode, ?_, ?_, hcode⟩
    · rw [hbytes, Item.size_instr hn]
    · rw [hbytes]
      exact (Instr.size_bounds hn).2
  listed hitems := by
    obtain ⟨before, line, after, rfl, hline, hsect, hlength⟩ := exists_item_line hcontents hitems
    have hmem := hsound (.instr _) (hitems ▸ List.mem_append_right _ List.mem_cons_self)
    obtain ⟨n, hn⟩ := hmem.2.2
    obtain ⟨bytes, rest, l, hl, haddr, -⟩ := h.instr hsect (congrArg Prod.snd hline) hn
    rw [hlength] at haddr
    exact ⟨before.length, line, l, by simp, congrArg Prod.snd hline, hl, haddr⟩
  label hitems := by
    obtain ⟨before, line, after, rfl, hline, hsect, hlength⟩ := exists_item_line hcontents hitems
    have hlabel : line.label = some _ := congrArg Prod.fst hline
    have htarget := (h.target hscope hlabel (label_ne_of_nodup hnodup hlabel)).2
    rwa [hsect, hlength] at htarget

/-- A program that calls only its own functions. -/
def Program.Local (p : Program) : Prop :=
  ∀ f ∈ p, ∀ call ∈ f.body.piece.calls, call.1 ∈ p.functions

/-- Such a program keeps the rules whatever the library has. -/
theorem Program.Local.legal {p : Program} (hlocal : p.Local) {options : Options}
    (h : p.Legal options) (externs : Option SymbolTable) :
    p.Legal { options with externs := externs } := by
  refine ⟨h.functions, h.constants, h.labels, fun r hr => ?_⟩
  obtain ⟨hint, hname, hcalls, hvariables, hlocals⟩ := h.routines r hr
  refine ⟨hint, hname, fun call hcall => ?_, hvariables, hlocals⟩
  have hmem := Program.mem_of_mem_routines hr
  have hown : p.functions.contains call.1 = true :=
    List.contains_iff_mem.mpr (hlocal r.function hmem call hcall)
  have hadmits := hcalls call hcall
  rw [Options.Admits, if_pos hown] at hadmits ⊢
  exact hadmits

/-- The code of a program with small enough frames encodes. -/
theorem Program.Local.sound {p : Program} (hlocal : p.Local) {options : Options}
    (h : p.Legal options) (hsymbols : options.limits.symbols < 2 ^ 29)
    (hlexical : ∀ kind ∈ p.tokens, kind.Lexical) : p.code.Sound (· ∈ p.labels) := by
  have hsound := (hlocal.legal h (some ⟨[]⟩)).sound hsymbols hlexical
  have hown : p.Refers { options with externs := some ⟨[]⟩ } = (· ∈ p.labels) := by
    funext name
    simp [Program.Refers, SymbolTable.contains, SymbolTable.lookup?]
  rwa [hown] at hsound

/-- The code of a function starts with its label. -/
theorem Routine.items_code (functions : List String) (r : Routine) :
    ∃ rest, (r.code functions).items = .label (functionLabel r.function.name) :: rest :=
  ⟨_, rfl⟩

/-- The code of a routine is a stretch of the code of its program. -/
theorem Program.exists_code_split {p : Program} {r : Routine} (hr : r ∈ p.routines) :
    ∃ before after, p.code.items = before ++ ((r.code p.functions).items ++ after) := by
  obtain ⟨front, back, hroutines⟩ := List.append_of_mem hr
  refine ⟨front.flatMap fun r => (r.code p.functions).items,
    back.flatMap fun r => (r.code p.functions).items, ?_⟩
  rw [code, codeOf, hroutines, List.flatMap_append, List.flatMap_cons]

/-- A program that calls only its own functions, after compiling and assembling it. -/
structure Built (p : Program) (lines : List Line) (asm : Assembly) (target : String → UInt32)
    (textBase dataBase : UInt32) : Prop where
  placed : Placed p.code.items lines asm target textBase
  textBase_eq : asm.textBase = .ok textBase
  dataBase_eq : asm.dataBase = .ok dataBase
  layout : asm.layout = {}
  codeLength : asm.code.length ≤ 1048576
  dataLength : asm.data.length ≤ 1048576
  data : asm.data = dataOf p.constants
  constant : ∀ {front constant back}, p.constants = front ++ constant :: back →
    target constant.1 = dataBase + UInt32.ofNat (dataOf front).length
  entry : asm.entryAddress = .ok (target Abi.entryLabel)
  needsLibrary : asm.needsLibrary = false

/-- Lines that spell a program which refers only to its own labels, and what the assembler makes of
them. -/
structure Assembled (p : Program) (lines : List Line) (a : Assembler) (externs : SymbolTable)
    (asm : Assembly) (scope : Scope) (e : Emission) : Prop where
  contents : lines.map Line.contents = assemblyContents p.constants p.code
  labels : lineLabels lines = p.labels
  nodup : (lineLabels lines).Nodup
  sound : p.code.Sound (· ∈ p.labels)
  layout : layout lines { ofConfig {} with diagnostics := [] } = .ok () a
  finished : Finished a lines externs asm scope e

namespace Assembled

variable {p : Program} {lines : List Line} {a : Assembler} {externs : SymbolTable} {asm : Assembly}
  {scope : Scope} {e : Emission}

theorem described (h : Assembled p lines a externs asm scope e) : Described scope lines asm :=
  h.finished.described h.layout

theorem config (h : Assembled p lines a externs asm scope e) : a.config = {} :=
  (layout_eq_ok h.layout).config

theorem length_code (h : Assembled p lines a externs asm scope e) :
    asm.code.length = a.codeLength := by
  rw [h.finished.result]
  simpa using h.finished.codeLength

theorem length_data (h : Assembled p lines a externs asm scope e) :
    asm.data.length = a.dataLength := by
  rw [h.finished.result]
  simpa using h.finished.dataLength h.layout

/-- Both sections are within the capacities of the assembler. -/
theorem length_le (h : Assembled p lines a externs asm scope e) :
    asm.code.length ≤ 1048576 ∧ asm.data.length ≤ 1048576 := by
  obtain ⟨hcode, hdata, -, -⟩ :=
    (layout_eq_ok h.layout).withinLimits (withinLimits_ofConfig {} [])
  rw [h.config] at hcode hdata
  rw [h.length_code, h.length_data]
  exact ⟨hcode, hdata⟩

theorem dataBase_eq (h : Assembled p lines a externs asm scope e) :
    asm.dataBase = .ok scope.dataBase := by
  rw [Assembly.dataBase, h.length_code, h.finished.result]
  exact h.finished.dataBase

/-- No label is defined twice, so each stands for the place of its line. -/
theorem label {before after : List Line} {line : Line}
    (h : Assembled p (before ++ line :: after) a externs asm scope e) {name : String}
    (hlabel : line.label = some name) :
    asm.labels.get? name = some ⟨sectionAfter .text before,
        lengthIn (sectionAfter .text before) .text before, line.number⟩ ∧
      scope.target name = scope.base (sectionAfter .text before) +
        UInt32.ofNat (lengthIn (sectionAfter .text before) .text before) :=
  h.described.target h.finished.scope_labels hlabel (label_ne_of_nodup h.nodup hlabel)

/-- Every name in an instruction is a label of some line. -/
theorem exists_label (h : Assembled p lines a externs asm scope e) {line : Line}
    (hline : line ∈ lines) {i : Instr String} (hinstr : line.statement = some (.instr i))
    {name : String} (hname : name ∈ i.labels) : ∃ label, scope.labels.get? name = some label := by
  have hmem := known_of_mem_labels h.sound h.contents hline hinstr name hname
  rw [← h.labels] at hmem
  obtain ⟨other, hother, hlabel⟩ := List.mem_filterMap.mp hmem
  obtain ⟨before, after, rfl⟩ := List.append_of_mem hother
  rw [h.finished.scope_labels]
  exact ⟨_, (h.label hlabel).1⟩

/-- A constant stands in the data behind those in front of it. -/
theorem constant (h : Assembled p lines a externs asm scope e) {front back : List (String × String)}
    {constant : String × String} (hconstants : p.constants = front ++ constant :: back) :
    scope.target constant.1 = scope.dataBase + UInt32.ofNat (dataOf front).length := by
  obtain ⟨before, line, after, rfl, hlabel, hsect, hlength⟩ :=
    exists_constant_line h.contents hconstants
  have htarget := (h.label hlabel).2
  rwa [hsect, hlength] at htarget

/-- A program with a main function starts there. -/
theorem entry (h : Assembled p lines a externs asm scope e) (hmain : "main" ∈ p.functions) :
    asm.entryAddress = .ok (scope.target Abi.entryLabel) := by
  obtain ⟨r, hr, hname⟩ := Program.exists_routine hmain
  obtain ⟨front, back, hitems⟩ := Program.exists_code_split hr
  obtain ⟨rest, hrest⟩ := r.items_code p.functions
  rw [hrest, hname, List.cons_append] at hitems
  obtain ⟨before, line, after, rfl, hline, hsect, hlength⟩ := exists_item_line h.contents hitems
  have hlabel : line.label = some Abi.entryLabel := congrArg Prod.fst hline
  obtain ⟨hfound, htarget⟩ := h.label hlabel
  rw [hsect] at hfound htarget
  rw [htarget]
  exact entryAddress_of_get? h.layout h.finished hfound

/-- An assembled program is built as the simulation asks for. -/
theorem built (h : Assembled p lines a externs asm scope e) (hmain : "main" ∈ p.functions) :
    Built p lines asm scope.target scope.textBase scope.dataBase where
  placed := placed_of_described h.described h.finished.scope_labels h.contents h.nodup h.sound
  textBase_eq := h.finished.textBase_eq
  dataBase_eq := h.dataBase_eq
  layout := by rw [h.finished.result, h.config]
  codeLength := h.length_le.1
  dataLength := h.length_le.2
  data := data_of_contents h.described h.contents
  constant := h.constant
  entry := h.entry hmain
  needsLibrary := h.finished.needsLibrary_eq_false fun _ hline _ hinstr _ hname =>
    h.exists_label hline hinstr hname

end Assembled

/-- What has been compiled without errors is assembled, and is built as the simulation asks for. -/
theorem exists_built {source : String} {options : Options}
    (hsymbols : options.limits.symbols < 2 ^ 29)
    (hcompile : (compile source options).hasError = false) {p : Program}
    (hp : p.tokens = (Scan.ofSource source).tokens.map Token.kind)
    (hmain : "main" ∈ (compile source options).functions) (hlocal : p.Local) {externs : SymbolTable}
    {asm : Assembly} (hasm : assemble (compile source options).asm {} externs = .ok asm) :
    p.Legal options ∧ "main" ∈ p.functions ∧ ∃ lines target textBase dataBase,
      Line.readAll (compile source options).asm = .ok (lines, []) ∧
      Built p lines asm target textBase dataBase := by
  obtain ⟨q, lines, hq, hlegal, hfunctions, hread, hcontents, hlabels⟩ :=
    exists_contents_of_compile hsymbols hcompile
  obtain rfl : p = q := Program.tokens_inj (hp.trans hq.symm)
  have hlexical : ∀ kind ∈ p.tokens, kind.Lexical := hp ▸ Scan.lexical_ofSource source
  rw [hfunctions] at hmain
  obtain ⟨a, scope, e, hlayout, hfinished⟩ := assemble_lines_eq_ok hread hasm
  have hassembled : Assembled p lines a externs asm scope e := {
    contents := hcontents
    labels := hlabels
    nodup := hlabels ▸ hlegal.nodup_labels
    sound := hlocal.sound hlegal hsymbols hlexical
    layout := hlayout
    finished := hfinished }
  exact ⟨hlegal, hmain, lines, _, _, _, hread, hassembled.built hmain⟩

end Ia32.C

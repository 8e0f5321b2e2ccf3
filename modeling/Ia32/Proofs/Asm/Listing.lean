import Ia32.Proofs.Asm.Acceptance
import Ia32.Proofs.Instruction.Decoding

/-!
# What the listing says about the bytes

The listing has an entry for every line. The entries show the bytes of both sections in
order, each at the address behind the bytes shown before it, and the table of labels tells
where in a section the first line with a name stands. Read back from the code, the bytes of
an instruction are that instruction, with every name replaced by what it stands for.
-/

namespace Ia32

/-- An offset that succeeds does not wrap around. -/
theorem Word.offset_eq_ok {base addr : UInt32} {n : Nat} (h : Word.offset base n = .ok addr) :
    base.toNat + n < 4294967296 ∧ addr = base + UInt32.ofNat n := by
  unfold Word.offset at h
  split at h
  next hroom =>
    cases h
    refine ⟨hroom, UInt32.toNat_inj.mp ?_⟩
    simp only [UInt32.toNat_add, UInt32.toNat_ofNat']
    omega
  next => cases h

theorem Word.toNat_offset {base addr : UInt32} {n : Nat} (h : Word.offset base n = .ok addr) :
    addr.toNat = base.toNat + n := by
  obtain ⟨hroom, rfl⟩ := Word.offset_eq_ok h
  simp only [UInt32.toNat_add, UInt32.toNat_ofNat']
  omega

namespace Asm.Assembler

/-! ### Names -/

/-- The address that a name in an instruction stands for: that of the label, else that of
the external symbol, else zero. -/
def Scope.target (scope : Scope) (name : String) : UInt32 :=
  match scope.labels.get? name with
  | some label => scope.base label.sect + UInt32.ofNat label.offset
  | none => (scope.externs.lookup? name).getD 0

/-- The address of a label is in the address space if the name can be resolved. -/
theorem Scope.lt_of_resolve {scope : Scope} {name : String} {resolution : Resolution}
    (h : scope.resolve name = .ok resolution) {label : Label}
    (hlabel : scope.labels.get? name = some label) :
    (scope.base label.sect).toNat + label.offset < 4294967296 := by
  refine Decidable.byContradiction fun hroom => ?_
  obtain ⟨sect, offset, line⟩ := label
  unfold resolve Labels.address? at h
  rw [hlabel] at h
  cases sect <;>
    · simp only [Scope.base] at hroom
      simp only [Word.offset, hroom, if_false] at h
      cases h

/-- A name that resolves has the address of its target. -/
theorem Scope.addressOf_eq_target {scope : Scope} {name : String} {resolution : Resolution}
    (h : scope.resolve name = .ok resolution) : scope.addressOf name = scope.target name := by
  unfold Scope.addressOf Scope.resolution Scope.target
  cases hlabel : scope.labels.get? name with
  | none =>
      rw [Scope.resolve_of_not_get? hlabel]
      cases scope.externs.lookup? name <;> rfl
  | some label =>
      have hroom := lt_of_resolve h hlabel
      obtain ⟨addr, haddr, hnat⟩ := Scope.resolve_of_get? hlabel hroom
      rw [haddr]
      apply UInt32.toNat_inj.mp
      simp only [Resolution.address, UInt32.toNat_add, UInt32.toNat_ofNat', hnat]
      omega

/-! ### One line -/

/-- An entry of the listing shows a line that stands in a section behind some bytes. -/
structure Shows (scope : Scope) (sect : Section) (offset : Nat) (line : Line) (l : Listed) :
    Prop where
  number : l.line = line.number
  source : l.source = line.source
  address : ∀ addr, l.address = some addr → Word.offset (scope.base sect) offset = .ok addr
  size : l.address.map (fun _ => l.bytes.length) = extent? sect line
  silent : l.address = none → l.bytes = []
  bytes : ∀ b, line.statement = some (.bytes b) → l.bytes = b
  instr : ∀ i addr, line.statement = some (.instr i) → l.address = some addr →
    sect = .text ∧ (i.resolve scope.target).encode addr = .ok l.bytes

/-- A listed line shows as many bytes as it was measured to have. -/
theorem Shows.length {scope : Scope} {sect : Section} {offset : Nat} {line : Line} {l : Listed}
    (h : Shows scope sect offset line l) : l.bytes.length = (extent? sect line).getD 0 := by
  rw [← h.size]
  cases haddr : l.address with
  | none => simp [h.silent haddr]
  | some addr => rfl

section

variable {scope : Scope} {sect : Section} {offset : Nat} {line : Line} {addr : UInt32}
  {bytes : Bytes}

/-- A line of bytes shows them. -/
theorem Shows.of_bytes (hline : line.statement = some (.bytes bytes))
    (haddr : Word.offset (scope.base sect) offset = .ok addr) :
    Shows scope sect offset line ⟨line.number, some addr, bytes, line.source⟩ where
  number := rfl
  source := rfl
  address := by
    rintro _ ⟨⟩
    exact haddr
  size := (extent?_bytes sect hline).symm
  silent := nofun
  bytes := by
    intro b hb
    rw [hline] at hb
    cases hb
    rfl
  instr := by
    intro i _ hi
    rw [hline] at hi
    cases hi

/-- A line with an instruction shows its encoding. -/
theorem Shows.of_instr {i : Instr String} (hline : line.statement = some (.instr i))
    (hsize : extent? .text line = some bytes.length)
    (haddr : Word.offset scope.textBase offset = .ok addr)
    (hbytes : (i.resolve scope.target).encode addr = .ok bytes) :
    Shows scope .text offset line ⟨line.number, some addr, bytes, line.source⟩ where
  number := rfl
  source := rfl
  address := by
    rintro _ ⟨⟩
    exact haddr
  size := hsize.symm
  silent := nofun
  bytes := by
    intro b hb
    rw [hline] at hb
    cases hb
  instr := by
    rintro j _ hj ⟨⟩
    rw [hline] at hj
    cases hj
    exact ⟨rfl, hbytes⟩

/-- A line without contents shows nothing. -/
theorem Shows.of_silent (hextent : extent? sect line = none) :
    Shows scope sect offset line ⟨line.number, none, [], line.source⟩ where
  number := rfl
  source := rfl
  address := nofun
  size := hextent.symm
  silent := fun _ => rfl
  bytes := by
    intro b hb
    rw [extent?_bytes sect hb] at hextent
    cases hextent
  instr := nofun

end

/-- The second pass adds an entry for a line and emits the bytes that it shows. -/
theorem emitLine_shows {scope : Scope} {e e' : Emission} {line : Line}
    (h : emitLine scope e line (extent? e.sect line) = .ok e') :
    ∃ l, Shows scope e.sect (e.bytesOf e.sect).length line l ∧
      e'.listing.toList = e.listing.toList ++ [l] ∧
      ∀ target,
        e'.bytesOf target = e.bytesOf target ++ if e.sect = target then l.bytes else [] := by
  generalize hsize : extent? e.sect line = size at h
  cases emits_of_emitLine h with
  | @bytes _ bytes addr hline haddr =>
      exact ⟨_, .of_bytes hline haddr, Array.toList_push,
        e.bytesOf_write e.sect line addr bytes⟩
  | @instr i bytes addr hline hnames haddr hbytes =>
      obtain ⟨hsect, -⟩ := extent?_instr hline hsize
      have hresolve : i.resolve scope.addressOf = i.resolve scope.target :=
        Instr.resolve_congr fun name hname =>
          Scope.addressOf_eq_target (hnames name hname).choose_spec
      rw [hsect] at hsize ⊢
      rw [hresolve] at hbytes
      rw [← e.length_bytesOf.1] at haddr
      exact ⟨_, .of_instr hline hsize haddr hbytes, Array.toList_push,
        e.bytesOf_write .text line addr bytes⟩
  | silent hbytes hinstr =>
      have hextent : extent? e.sect line = none :=
        extent?_eq_none (fun b n hline => hsize ▸ hbytes b n hline)
          fun i n hline => hsize ▸ hinstr i n hline
      refine ⟨_, .of_silent hextent, Array.toList_push, fun target => ?_⟩
      cases target <;> simp [Emission.bytesOf]

/-! ### All lines -/

/-- The bytes that entries of the listing show in a target section, when the first line
starts in a section. -/
def shownIn (target : Section) : Section → List (Line × Listed) → Bytes
  | _, [] => []
  | sect, (line, l) :: rest =>
      (if sect = target then l.bytes else []) ++ shownIn target (nextSection sect line) rest

/-- What lines show is shown one after the other, each in its section. -/
theorem shownIn_append (target sect : Section) (first second : List (Line × Listed)) :
    shownIn target sect (first ++ second) =
      shownIn target sect first ++
        shownIn target (sectionAfter sect (first.map Prod.fst)) second := by
  induction first generalizing sect with
  | nil => rfl
  | cons entry rest ih =>
      obtain ⟨line, l⟩ := entry
      simp only [List.cons_append, shownIn, ih, List.append_assoc]
      rfl

/-- A listing shows lines, the first of which starts in a section: every entry shows its
line behind the bytes that the entries in front of it show. -/
def ShowsAll (scope : Scope) (lengths : Section → Nat) (sect : Section) (lines : List Line)
    (listing : List Listed) : Prop :=
  listing.length = lines.length ∧
    ∀ k line l, lines[k]? = some line → listing[k]? = some l →
      Shows scope (sectionAfter sect (lines.take k))
        (lengths (sectionAfter sect (lines.take k)) +
          (shownIn (sectionAfter sect (lines.take k)) sect ((lines.zip listing).take k)).length)
        line l

/-- A listing shows its first line, and the others behind the bytes of that. -/
theorem ShowsAll.cons {scope : Scope} {lengths : Section → Nat} {sect : Section} {line : Line}
    {l : Listed} {lines : List Line} {listing : List Listed}
    (hfirst : Shows scope sect (lengths sect) line l)
    (hrest : ShowsAll scope
      (fun target => lengths target + (if sect = target then l.bytes else []).length)
      (nextSection sect line) lines listing) :
    ShowsAll scope lengths sect (line :: lines) (l :: listing) := by
  refine ⟨by simp [hrest.1], ?_⟩
  intro k line' l' hline hl
  cases k with
  | zero =>
      cases hline
      cases hl
      simpa [shownIn, sectionAfter] using hfirst
  | succ k =>
      have hshows := hrest.2 k line' l' hline hl
      simp only [List.take_succ_cons, List.zip_cons_cons, shownIn, List.length_append]
      rw [Nat.add_assoc] at hshows
      exact hshows

/-- The second pass adds an entry for every line and emits the bytes that they show. -/
theorem emitLines_shows {scope : Scope} {e e' : Emission} {lines : List Line}
    (h : emitLines scope e (lines.zip (extents e.sect lines)) = .ok e') :
    ∃ listing, ShowsAll scope (fun target => (e.bytesOf target).length) e.sect lines listing ∧
      e'.listing.toList = e.listing.toList ++ listing ∧
      ∀ target, e'.bytesOf target =
        e.bytesOf target ++ shownIn target e.sect (lines.zip listing) := by
  induction lines generalizing e with
  | nil =>
      cases h
      exact ⟨[], ⟨rfl, by simp⟩, by simp, fun target => by simp [shownIn]⟩
  | cons line rest ih =>
      simp only [extents, List.zip_cons_cons, emitLines] at h
      obtain ⟨next, hline, h⟩ := bind_eq_ok.mp h
      obtain ⟨l, hl, hlisted, hbytes⟩ := emitLine_shows hline
      have hsect : next.sect = nextSection e.sect line := (emitLine_eq_ok hline).sect
      rw [← hsect] at h
      obtain ⟨listing, hlisting, hlistedRest, hbytesRest⟩ := ih h
      rw [hsect] at hlisting hbytesRest
      refine ⟨l :: listing, ?_, ?_, ?_⟩
      · refine ShowsAll.cons hl ?_
        simpa only [hbytes, List.length_append] using hlisting
      · rw [hlistedRest, hlisted, List.append_assoc]
        rfl
      · intro target
        rw [hbytesRest, hbytes, List.append_assoc]
        rfl

/-! ### Labels -/

/-- The definition that counts for a name: the first line with the name as its label. -/
structure FirstDefinition (lines : List Line) (name : String) (k : Nat) (line : Line) : Prop where
  found : lines[k]? = some line
  label : line.label = some name
  first : ∀ j < k, ∀ other, lines[j]? = some other → other.label ≠ some name

theorem firstDefinition_zero {line line' : Line} {rest : List Line} {name : String} :
    FirstDefinition (line :: rest) name 0 line' ↔ line' = line ∧ line.label = some name := by
  constructor
  · rintro ⟨hline, hlabel, -⟩
    cases hline
    exact ⟨rfl, hlabel⟩
  · rintro ⟨rfl, hlabel⟩
    exact ⟨rfl, hlabel, fun j hj => absurd hj (Nat.not_lt_zero j)⟩

theorem firstDefinition_succ {line line' : Line} {rest : List Line} {name : String} {k : Nat} :
    FirstDefinition (line :: rest) name (k + 1) line' ↔
      line.label ≠ some name ∧ FirstDefinition rest name k line' := by
  constructor
  · rintro ⟨hline, hlabel, hfirst⟩
    exact ⟨hfirst 0 (Nat.succ_pos k) line rfl, hline, hlabel,
      fun j hj other hother => hfirst (j + 1) (Nat.succ_lt_succ hj) other hother⟩
  · rintro ⟨hne, hline, hlabel, hfirst⟩
    refine ⟨hline, hlabel, fun j hj other hother => ?_⟩
    cases j with
    | zero =>
        cases hother
        exact hne
    | succ j => exact hfirst j (Nat.lt_of_succ_lt_succ hj) other hother

/-- Of several definitions of a name the first one is entered. -/
theorem mem_enter_iff {entries definitions : List (String × Label)} {name : String}
    {label : Label} :
    (name, label) ∈ enter entries definitions ↔ (name, label) ∈ entries ∨
      entries.lookup name = none ∧ definitions.lookup name = some label := by
  induction definitions generalizing entries with
  | nil => simp [enter]
  | cons definition rest ih =>
      obtain ⟨other, label'⟩ := definition
      rw [enter]
      by_cases heq : name = other
      · subst heq
        cases hlookup : entries.lookup name with
        | none => simp [ih, List.lookup_append, hlookup, eq_comm]
        | some previous => simp [ih, hlookup]
      · have hbeq : (name == other) = false := beq_eq_false_iff_ne.mpr heq
        split
        · simp [ih, List.lookup_cons, hbeq]
        · simp [ih, List.lookup_append, List.lookup_cons, hbeq, heq]

/-- The definitions of lines give a name the place of the first line that defines it. -/
theorem lookup_definitions {lengths : Section → Nat} {sect : Section} {lines : List Line}
    {name : String} {label : Label} :
    (definitions lengths sect lines).lookup name = some label ↔
      ∃ k line, FirstDefinition lines name k line ∧
        label.sect = sectionAfter sect (lines.take k) ∧
        label.offset = lengths label.sect + lengthIn label.sect sect (lines.take k) ∧
        label.line = line.number := by
  induction lines generalizing lengths sect with
  | nil =>
      constructor
      · intro h
        cases h
      · rintro ⟨k, line, ⟨hline, -, -⟩, -⟩
        simp at hline
  | cons line rest ih =>
      have hrest : (∃ k line', FirstDefinition rest name k line' ∧
            label.sect = sectionAfter (nextSection sect line) (rest.take k) ∧
            label.offset = lengths label.sect + lengthIn label.sect sect [line] +
              lengthIn label.sect (nextSection sect line) (rest.take k) ∧
            label.line = line'.number) ↔
          ∃ k line', FirstDefinition rest name k line' ∧
            label.sect = sectionAfter sect ((line :: rest).take (k + 1)) ∧
            label.offset = lengths label.sect +
              lengthIn label.sect sect ((line :: rest).take (k + 1)) ∧
            label.line = line'.number := by
        simp only [List.take_succ_cons, lengthIn, Nat.add_assoc, Nat.zero_add]
        rfl
      by_cases hlabel : line.label = some name
      · simp only [definitions, hlabel, Option.map_some, Option.toList_some, List.cons_append,
          List.lookup_cons_self, Option.some.injEq]
        constructor
        · rintro rfl
          exact ⟨0, line, firstDefinition_zero.mpr ⟨rfl, hlabel⟩, rfl, rfl, rfl⟩
        · rintro ⟨k, line', hfirst, hsect, hoffset, hnumber⟩
          cases k with
          | succ k => exact absurd hlabel (firstDefinition_succ.mp hfirst).1
          | zero =>
              obtain ⟨rfl, -⟩ := firstDefinition_zero.mp hfirst
              obtain ⟨sect', offset, number⟩ := label
              simp only [List.take_zero, sectionAfter, List.foldl_nil, lengthIn, Nat.add_zero] at *
              subst hsect hoffset hnumber
              rfl
      · -- the line does not define the name, so it is left to the others
        have hskip : (definitions lengths sect (line :: rest)).lookup name =
            (definitions (fun target => lengths target + lengthIn target sect [line])
              (nextSection sect line) rest).lookup name := by
          rw [definitions, List.lookup_append]
          cases hother : line.label with
          | none => rfl
          | some other =>
              have hbeq : (name == other) = false := by
                refine beq_eq_false_iff_ne.mpr ?_
                rintro rfl
                exact hlabel hother
              simp [List.lookup_cons, hbeq]
        rw [hskip, ih, hrest]
        constructor
        · rintro ⟨k, line', hfirst, hplace⟩
          exact ⟨k + 1, line', firstDefinition_succ.mpr ⟨hlabel, hfirst⟩, hplace⟩
        · rintro ⟨k, line', hfirst, hplace⟩
          cases k with
          | zero => exact absurd (firstDefinition_zero.mp hfirst).2 hlabel
          | succ k => exact ⟨k, line', (firstDefinition_succ.mp hfirst).2, hplace⟩

/-! ### The program as a whole -/

/-- Entries show as many bytes as were laid out for their lines. -/
theorem length_shownIn {sect : Section} {lines : List Line} {listing : List Listed}
    (hlength : listing.length = lines.length)
    (hsize : ∀ k line l, lines[k]? = some line → listing[k]? = some l →
      l.bytes.length = (extent? (sectionAfter sect (lines.take k)) line).getD 0)
    (target : Section) (k : Nat) :
    (shownIn target sect ((lines.zip listing).take k)).length =
      lengthIn target sect (lines.take k) := by
  induction lines generalizing sect listing k with
  | nil => simp [shownIn, lengthIn]
  | cons line rest ih =>
      obtain ⟨l, listing, rfl⟩ : ∃ l others, listing = l :: others :=
        List.exists_cons_of_length_eq_add_one hlength
      cases k with
      | zero => rfl
      | succ k =>
          have hrest := @ih (nextSection sect line) listing (by simpa using hlength)
            (fun j line' l' hline hl => hsize (j + 1) line' l' hline hl) k
          have hfirst : l.bytes.length = (extent? sect line).getD 0 := hsize 0 line l rfl rfl
          simp only [List.zip_cons_cons, List.take_succ_cons, shownIn, lengthIn,
            List.length_append, hrest, ← hfirst]
          split <;> rfl

/-- The entries in front of a line show as many bytes as the lines were measured to have. -/
theorem ShowsAll.length_shownIn {scope : Scope} {lengths : Section → Nat} {sect : Section}
    {lines : List Line} {listing : List Listed} (h : ShowsAll scope lengths sect lines listing)
    (target : Section) (k : Nat) :
    (shownIn target sect ((lines.zip listing).take k)).length =
      lengthIn target sect (lines.take k) :=
  Assembler.length_shownIn h.1 (fun k line l hline hl => (h.2 k line l hline hl).length) target k

/-- Each line has an entry. -/
theorem exists_entry {lines : List Line} {listing : List Listed}
    (hlength : listing.length = lines.length) {k : Nat} {line : Line}
    (hline : lines[k]? = some line) :
    ∃ l, listing[k]? = some l := by
  obtain ⟨hk, -⟩ := List.getElem?_eq_some_iff.mp hline
  exact ⟨listing[k], List.getElem?_eq_getElem (hlength ▸ hk)⟩

/-- The bytes of an entry stand behind those of the entries in front of it. -/
theorem shownIn_split {lines : List Line} {listing : List Listed}
    (hlength : listing.length = lines.length) {k : Nat} {line : Line} {l : Listed}
    (hline : lines[k]? = some line) (hl : listing[k]? = some l) (sect : Section) :
    ∃ rest, shownIn (sectionAfter sect (lines.take k)) sect (lines.zip listing) =
      shownIn (sectionAfter sect (lines.take k)) sect ((lines.zip listing).take k) ++
        (l.bytes ++ rest) := by
  have hentry : (lines.zip listing)[k]? = some (line, l) := by
    simp [List.getElem?_zip_eq_some, hline, hl]
  obtain ⟨hk, hget⟩ := List.getElem?_eq_some_iff.mp hentry
  have hzip : lines.zip listing =
      (lines.zip listing).take k ++ (line, l) :: (lines.zip listing).drop (k + 1) := by
    rw [← hget, List.getElem_cons_drop, List.take_append_drop]
  have hfst : ((lines.zip listing).take k).map Prod.fst = lines.take k := by
    rw [List.map_take, List.map_fst_zip (by omega)]
  refine ⟨shownIn (sectionAfter sect (lines.take k))
    (nextSection (sectionAfter sect (lines.take k)) line) ((lines.zip listing).drop (k + 1)), ?_⟩
  refine (congrArg (shownIn _ sect) hzip).trans ?_
  rw [shownIn_append, hfst, shownIn, if_pos rfl]

/-- What the listing and the table of labels of a program say about its bytes, when names
stand for addresses as in a scope. -/
structure Described (scope : Scope) (lines : List Line) (asm : Assembly) : Prop where
  /-- The entries of lines in the code show the code. -/
  code : shownIn .text .text (lines.zip asm.listing) = asm.code
  /-- The entries of lines in the data show the data. -/
  data : shownIn .data .text (lines.zip asm.listing) = asm.data
  /-- Every line has an entry, whose address is that of the section plus the bytes shown
  before it in the section. -/
  entries : ShowsAll scope (fun _ => 0) .text lines asm.listing
  /-- The labels are those of the first lines that define a name, each at the bytes shown
  before it in its section. -/
  labels : ∀ name label, (name, label) ∈ asm.labels.entries ↔
    ∃ k line, FirstDefinition lines name k line ∧
      label.sect = sectionAfter .text (lines.take k) ∧
      label.offset = (shownIn label.sect .text ((lines.zip asm.listing).take k)).length ∧
      label.line = line.number
  /-- The bytes of an instruction in the code are decoded as the instruction. -/
  instructions : ∀ k line l i addr, lines[k]? = some line → asm.listing[k]? = some l →
    line.statement = some (.instr i) → l.address = some addr →
    decode (asm.code.drop (shownIn .text .text ((lines.zip asm.listing).take k)).length) addr =
      .ok ((i.resolve scope.target).normalize, l.bytes.length)

theorem Finished.scope_labels {a : Assembler} {lines : List Line} {externs : SymbolTable}
    {asm : Assembly} {scope : Scope} {e : Emission} (h : Finished a lines externs asm scope e) :
    scope.labels = asm.labels := by
  rw [h.result]
  exact h.labels

theorem Finished.textBase_eq {a : Assembler} {lines : List Line} {externs : SymbolTable}
    {asm : Assembly} {scope : Scope} {e : Emission} (h : Finished a lines externs asm scope e) :
    asm.textBase = .ok scope.textBase := by
  rw [h.result]
  exact h.textBase

/-- What a finished assembly lists is described by its lines. -/
theorem Finished.described {config : Config} {complaints : List Diagnostic} {lines : List Line}
    {a : Assembler} {externs : SymbolTable} {asm : Assembly} {scope : Scope} {e : Emission}
    (hlayout : layout lines { ofConfig config with diagnostics := complaints } = .ok () a)
    (hfinished : Finished a lines externs asm scope e) : Described scope lines asm := by
  have hlaid := layout_eq_ok hlayout
  obtain ⟨listing, hshows, hlisting, hbytes⟩ :=
    emitLines_shows (hfinished.emitted_extents hlayout)
  obtain rfl : asm.listing = listing := by
    rw [hfinished.result]
    simpa using hlisting
  have hcode : asm.code = shownIn .text .text (lines.zip asm.listing) := by
    have hshown := hbytes .text
    rw [hfinished.result] at hshown ⊢
    simpa [Emission.bytesOf] using hshown
  have hdata : asm.data = shownIn .data .text (lines.zip asm.listing) := by
    have hshown := hbytes .data
    rw [hfinished.result] at hshown ⊢
    simpa [Emission.bytesOf] using hshown
  have hshows : ShowsAll scope (fun _ => 0) .text lines asm.listing := by
    refine cast (congrArg (ShowsAll scope · .text lines asm.listing) (funext fun target => ?_))
      hshows
    cases target <;> rfl
  have hlabels : asm.labels.entries = enter [] (definitions (fun _ => 0) .text lines) := by
    have hlengths : lengthOf { ofConfig config with
        diagnostics := complaints, sizes := #[], codeLength := 0, dataLength := 0 } =
        fun _ => 0 := by
      funext target
      cases target <;> rfl
    rw [hfinished.result]
    exact hlaid.labels.trans (congrArg (fun l => enter [] (definitions l .text lines)) hlengths)
  refine ⟨hcode.symm, hdata.symm, hshows, ?_, ?_⟩
  · intro name label
    rw [hlabels, mem_enter_iff, lookup_definitions]
    simp only [List.not_mem_nil, List.lookup_nil, true_and, false_or, hshows.length_shownIn,
      Nat.zero_add]
  · intro k line l i addr hline hl hinstr haddr
    obtain ⟨hsect, hencode⟩ := (hshows.2 k line l hline hl).instr i addr hinstr haddr
    obtain ⟨rest, hsplit⟩ := shownIn_split hshows.1 hline hl .text
    rw [hsect] at hsplit
    rw [hcode, hsplit, List.drop_left]
    exact decode_of_instruction (Decoder.instruction_encode hencode rest)

end Asm.Assembler

namespace Asm

open Assembler

/-- Label addresses and the listing describe the emitted bytes. The scope in which names are
resolved has the labels of the program, the external symbols and the addresses of both
sections. -/
theorem assemble_described {source : String} {config : Config} {externs : SymbolTable}
    {asm : Assembly} (h : assemble source config externs = .ok asm) :
    ∃ lines complaints scope, Line.readAll source = .ok (lines, complaints) ∧
      scope.labels = asm.labels ∧ scope.externs = externs ∧
      asm.textBase = .ok scope.textBase ∧ asm.dataBase = .ok scope.dataBase ∧
      Described scope lines asm := by
  obtain ⟨lines, complaints, a, scope, e, hread, hlayout, hfinished⟩ := assemble_eq_ok h
  have hdescribed := hfinished.described hlayout
  have hcode : asm.code.length = a.codeLength := by
    rw [hfinished.result]
    simpa using hfinished.codeLength
  refine ⟨lines, complaints, scope, hread, ?_, hfinished.externs, ?_, ?_, hdescribed⟩
  · rw [hfinished.result]
    exact hfinished.labels
  · rw [hfinished.result]
    exact hfinished.textBase
  · rw [Assembly.dataBase, hcode, hfinished.result]
    exact hfinished.dataBase

/-- A name that is defined in both sections, first on the line that leaves the code. -/
theorem assemble_described_twice :
    ∃ asm, assemble "start: jmp x\nx: section .data\nx: db 'x'\nsection .text\nmov eax, x" {} {} =
        .ok asm ∧
      ∃ lines complaints scope, Line.readAll
          "start: jmp x\nx: section .data\nx: db 'x'\nsection .text\nmov eax, x" =
          .ok (lines, complaints) ∧
        scope.labels = asm.labels ∧ scope.externs = {} ∧
        asm.textBase = .ok scope.textBase ∧ asm.dataBase = .ok scope.dataBase ∧
        Described scope lines asm := by
  have hok : (assemble "start: jmp x\nx: section .data\nx: db 'x'\nsection .text\nmov eax, x" {}
      {}).isOk = true := by decide +kernel
  cases hasm : assemble "start: jmp x\nx: section .data\nx: db 'x'\nsection .text\nmov eax, x" {}
      {} with
  | error e => simp [hasm, Except.isOk, Except.toBool] at hok
  | ok asm => exact ⟨asm, rfl, assemble_described hasm⟩

end Asm

end Ia32

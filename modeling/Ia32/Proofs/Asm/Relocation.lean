import Ia32.Proofs.Asm.Footprint
import Ia32.Proofs.Asm.Linking

/-!
# Programs at two addresses

Where a program is loaded changes nothing but addresses. Two assemblies of one source for two
base addresses fail alike or have the same shape, and the bytes of a line differ only in the
address of a label that it holds: branches to labels keep their distance, and an address moves
by as much as the base.
-/

namespace Ia32

/-- Whether an operation goes to the place that its operand names. -/
def Mnemonic.Branches (op : Mnemonic) : Prop :=
  op = .jmp ∨ op = .call ∨ op.condition.isSome

/-! ### Instructions at two addresses -/

namespace Instr

open Encoding

/-- A distance is the same wherever both ends are moved together. -/
theorem relative_congr {target target' addr addr' : UInt32} (h : target' - addr' = target - addr)
    (length : UInt32) : relative target' addr' length = relative target addr length := by
  rw [relative, relative, ← sub_sub, ← sub_sub, h]

/-- A branch is encoded alike wherever its target is at the same distance. -/
theorem encode_branch {op : Mnemonic} (hop : op.Branches) {target target' addr addr' : UInt32}
    (h : target' - addr' = target - addr) :
    encode ⟨op, [.label target']⟩ addr' = encode ⟨op, [.label target]⟩ addr := by
  have hrelative := relative_congr h
  have hbranch : ∀ goal at', op.Branches → encode ⟨op, [.label goal]⟩ at' =
      encodeBranch ⟨op, [.label goal]⟩ goal at' := by
    intro goal at' hop
    cases op <;> first | rfl | simp [Mnemonic.Branches, Mnemonic.condition] at hop
  rw [hbranch _ _ hop, hbranch _ _ hop]
  unfold encodeBranch
  dsimp only
  split
  · rw [hrelative]
  · rw [hrelative]
  · split
    · rw [hrelative]
    · rfl

/-- The only operand of a branch to a label is the label. -/
theorem args_of_branch {i : Instr String} {n : Nat} (h : i.size = .ok n) (hop : i.op.Branches)
    {name : String} (hname : name ∈ i.labels) : i.args = [.label name] := by
  obtain ⟨op, args⟩ := i
  have hnone (a b : Operand String) (rest : List (Operand String)) : args ≠ a :: b :: rest := by
    rintro rfl
    cases op <;> cases a <;> first | cases h | simp [Mnemonic.Branches, Mnemonic.condition] at hop
  rcases args with _ | ⟨a, _ | ⟨b, rest⟩⟩
  · cases hname
  · cases a <;> simp_all [labels, Operand.label?]
  · exact absurd rfl (hnone a b rest)

/-- The address of a label is the last field of a `mov` or `push` that refers to it. -/
theorem encode_absolute {i : Instr String} {n : Nat} (h : i.size = .ok n)
    (hop : i.op = .mov ∨ i.op = .push) {name : String} (hname : name ∈ i.labels) :
    ∃ head, ∀ target addr,
      (i.resolve target).encode addr = .ok (head ++ Word.toBytes (target name)) := by
  obtain ⟨op, args⟩ := i
  rcases hop with hop | hop
  · obtain rfl : op = .mov := hop
    obtain ⟨a, rfl⟩ : ∃ a, args = [a, .label name] := by
      rcases args with _ | ⟨a, _ | ⟨b, _ | ⟨c, rest⟩⟩⟩
      · cases hname
      · cases a <;> cases h
      · cases a with
        | label l => cases h
        | _ => cases b <;> simp_all [labels, Operand.label?]
      · cases a <;> cases b <;> cases h
    cases a with
    | reg r => exact ⟨[UInt8.ofNat (0xB8 + r.code)], fun target addr => rfl⟩
    | mem m =>
        have hsize : (memWidth m >>= fun width => .ok (5 + width)) = .ok n := h
        obtain ⟨width, hwidth, -⟩ := bind_eq_ok.mp hsize
        have hagrees := memory_agrees 0 m
        rw [hwidth] at hagrees
        obtain ⟨place, hplace, -⟩ := hagrees.length
        refine ⟨0xC7 :: place, fun target addr => ?_⟩
        change (memory 0 m >>= fun place =>
          Except.ok (0xC7 :: (place ++ Word.toBytes (target name)))) = _
        rw [hplace]
        rfl
    | _ => cases h
  · obtain rfl : op = .push := hop
    obtain rfl : args = [.label name] := by
      rcases args with _ | ⟨a, _ | ⟨b, rest⟩⟩
      · cases hname
      · cases a <;> simp_all [labels, Operand.label?]
      · cases a <;> cases h
    exact ⟨[0x68], fun target addr => rfl⟩

/-- Only branches to a label or to a fixed place depend on where an instruction is. -/
theorem encode_congr {op : Mnemonic} {args : List (Operand UInt32)}
    (hlabel : ∀ goal, args ≠ [.label goal]) (himm : op.Branches → ∀ v, args ≠ [.imm v])
    (addr addr' : UInt32) : encode ⟨op, args⟩ addr' = encode ⟨op, args⟩ addr := by
  rcases args with _ | ⟨a, _ | ⟨b, rest⟩⟩
  · cases op <;> rfl
  · cases a with
    | label goal => exact absurd rfl (hlabel goal)
    | imm v =>
        have hop : ¬op.Branches := fun hop => himm hop v rfl
        cases op <;> first | rfl | simp [Mnemonic.Branches, Mnemonic.condition] at hop
    | _ => cases op <;> rfl
  · cases op <;> cases a <;> rfl

/-- Other operands than labels are encoded without regard to an address. -/
theorem encode_fixed {i : Instr String} (hlabels : i.labels = [])
    (hbranch : i.op.Branches → ∀ v, i.args ≠ [.imm v]) (target target' : String → UInt32)
    (addr addr' : UInt32) : (i.resolve target').encode addr' = (i.resolve target).encode addr := by
  have hresolve : i.resolve target' = i.resolve target :=
    resolve_congr fun name hname => absurd hname (hlabels ▸ List.not_mem_nil)
  rw [hresolve]
  obtain ⟨op, args⟩ := i
  refine encode_congr (fun goal hargs => ?_) (fun hop v hargs => ?_) addr addr'
  · obtain ⟨a, rfl, ha⟩ := List.map_eq_singleton_iff.mp hargs
    cases a with
    | label l => cases hlabels
    | _ => cases ha
  · obtain ⟨a, rfl, ha⟩ := List.map_eq_singleton_iff.mp hargs
    cases a with
    | imm w => exact hbranch hop w rfl
    | _ => cases ha

end Instr

namespace Asm

/-- The settings with another base address. -/
def Config.basedAt (config : Config) (base : UInt32) : Config :=
  { config with layout := { base := base } }

/-- An instruction whose bytes are the same wherever its program is: its labels are labels of the
program and it branches to them, or it has no label and does not branch to a fixed place. -/
def Steady (labels : Labels) (i : Instr String) : Prop :=
  i.op.Branches ∧ i.labels ≠ [] ∧ (∀ name ∈ i.labels, ∃ label, labels.get? name = some label) ∨
    i.labels = [] ∧ (i.op.Branches → ∀ v, i.args ≠ [.imm v])

/-- What the listings of two programs show for a line, when the second one lies further by a
shift. -/
structure MovedLine (lines : List Line) (externs : SymbolTable) (shift : UInt32)
    (asm asm' : Assembly) (line : Line) (l l' : Listed) : Prop where
  number : l'.line = l.line
  source : l'.source = l.source
  address : l'.address = l.address.map (· + shift)
  /-- Bytes that are written out, and no bytes, are the same. -/
  plain : (∀ i, line.statement ≠ some (.instr i)) → l'.bytes = l.bytes
  /-- Instructions that refer to labels by their distance, or not at all, are the same. -/
  steady : ∀ i, line.statement = some (.instr i) → Steady asm.labels i → l'.bytes = l.bytes
  /-- An address of a label moves, and the other bytes are the same. -/
  absolute : ∀ i name label, line.statement = some (.instr i) → l.address ≠ none →
    (i.op = .mov ∨ i.op = .push) → name ∈ i.labels → asm.labels.get? name = some label →
    ∃ head addr, StandsFor lines externs asm name addr ∧
      StandsFor lines externs asm' name (addr + shift) ∧
      l.bytes = head ++ Word.toBytes addr ∧ l'.bytes = head ++ Word.toBytes (addr + shift)

/-- Two programs of the same source, of which the second lies further by a shift. -/
structure Moved (lines : List Line) (externs : SymbolTable) (shift : UInt32)
    (asm asm' : Assembly) : Prop where
  data : asm'.data = asm.data
  labels : asm'.labels = asm.labels
  diagnostics : asm'.diagnostics = asm.diagnostics
  needsLibrary : asm'.needsLibrary = asm.needsLibrary
  entry : asm'.entry = asm.entry
  codeLength : asm'.code.length = asm.code.length
  listing : ∀ (k : Nat) line, lines[k]? = some line → ∃ l l', asm.listing[k]? = some l ∧
    asm'.listing[k]? = some l' ∧ MovedLine lines externs shift asm asm' line l l'

namespace Assembler

/-! ### The first pass does not read the base -/

/-- The state with another base address. -/
def rebase (base : UInt32) (a : Assembler) : Assembler :=
  { a with config := a.config.basedAt base }

/-- The result of a step, with another base address. -/
def rebased (base : UInt32) : EStateM.Result Error Assembler Unit →
    EStateM.Result Error Assembler Unit
  | .ok () a => .ok () (a.rebase base)
  | .error e a => .error e (a.rebase base)

variable {base : UInt32}

/-- A sequence moves with the base if both parts do. -/
theorem bind_rebase {x : LayoutM Unit} {f : Unit → LayoutM Unit} {a : Assembler}
    (hx : x (a.rebase base) = rebased base (x a))
    (hf : ∀ b, f () (b.rebase base) = rebased base (f () b)) :
    (x >>= f) (a.rebase base) = rebased base ((x >>= f) a) := by
  change EStateM.bind x f (a.rebase base) = rebased base (EStateM.bind x f a)
  unfold EStateM.bind
  rw [hx]
  cases x a with
  | ok result b => exact hf b
  | error e b => rfl

theorem lengthOf_rebase (a : Assembler) : (a.rebase base).lengthOf = a.lengthOf := by
  funext sect
  cases sect <;> rfl

/-- Labels are defined at offsets, so the base makes no difference to them. -/
theorem defineLabel_rebase (sect : Section) (line : Line) (a : Assembler) :
    defineLabel sect line (a.rebase base) = rebased base (defineLabel sect line a) := by
  unfold defineLabel
  cases line.label with
  | none => rfl
  | some name =>
      have hlabels : (a.rebase base).labels = a.labels := rfl
      dsimp only
      rw [get_bind, get_bind, lengthOf_rebase, hlabels]
      cases a.labels.define name ⟨sect, a.lengthOf sect, line.number⟩ with
      | error e => rfl
      | ok result =>
          obtain ⟨labels, previous?⟩ := result
          cases previous? <;> rfl

theorem lengthen_rebase (sect : Section) (size : Nat) (a : Assembler) :
    (a.rebase base).lengthen size sect = (a.lengthen size sect).rebase base := rfl

/-- A section grows up to the same limit at any base. -/
theorem extend_rebase (sect : Section) (size : Nat) (a : Assembler) :
    extend sect size (a.rebase base) = rebased base (extend sect size a) := by
  have hlimits : (a.rebase base).config.limits = a.config.limits := rfl
  rw [extend_eq, extend_eq, lengthOf_rebase, hlimits]
  by_cases hfull : a.config.limits.room sect < a.lengthOf sect + size
  · rw [if_pos hfull, if_pos hfull]
    rfl
  · rw [if_neg hfull, if_neg hfull]
    exact congrArg (EStateM.Result.ok ()) (lengthen_rebase sect size a)

/-- A line is laid out in the same way at any base. -/
theorem layoutLine_rebase (sect : Section) (line : Line) (a : Assembler) :
    layoutLine sect line (a.rebase base) = rebased base (layoutLine sect line a) := by
  refine bind_rebase (defineLabel_rebase sect line a) fun b => ?_
  cases measure sect line with
  | error complaint => rfl
  | ok size? =>
      cases size? with
      | none => rfl
      | some size => exact bind_rebase (extend_rebase sect size b) fun c => rfl

/-- Lines are laid out in the same way at any base. -/
theorem layoutLines_rebase (sect : Section) (lines : List Line) (a : Assembler) :
    layoutLines sect lines (a.rebase base) = rebased base (layoutLines sect lines a) := by
  induction lines generalizing sect a with
  | nil => rfl
  | cons line rest ih =>
      exact bind_rebase (layoutLine_rebase sect line a) fun b => ih (nextSection sect line) b

/-- The first pass lays out the same for every base address. -/
theorem layout_rebase (lines : List Line) (a : Assembler) :
    layout lines (a.rebase base) = rebased base (layout lines a) :=
  layoutLines_rebase .text lines { a with sizes := #[], codeLength := 0, dataLength := 0 }

/-! ### Addresses that move -/

/-- Two scopes with the same names, of which the second one lies further by a shift. -/
structure Scope.Apart (shift : UInt32) (scope scope' : Scope) : Prop where
  labels : scope'.labels = scope.labels
  externs : scope'.externs = scope.externs
  base : ∀ sect, scope'.base sect = scope.base sect + shift

/-- Addresses at one offset from two bases are as far apart as the bases. -/
theorem offset_apart {origin shift addr addr' : UInt32} {n : Nat}
    (h : Word.offset origin n = .ok addr) (h' : Word.offset (origin + shift) n = .ok addr') :
    addr' = addr + shift := by
  rw [(Word.offset_eq_ok h').2, (Word.offset_eq_ok h).2, add_right_comm]

/-- The scopes of one layout at two bases are as far apart as the bases. -/
theorem Finished.apart {a : Assembler} {lines : List Line} {externs : SymbolTable}
    {asm asm' : Assembly} {scope scope' : Scope} {e e' : Emission}
    (h : Finished a lines externs asm scope e)
    (h' : Finished (a.rebase base) lines externs asm' scope' e') :
    scope.Apart (base - a.config.layout.base) scope' := by
  have hbase : base = a.config.layout.base + (base - a.config.layout.base) := by
    rw [add_sub_cancel]
  have htext : scope'.textBase = scope.textBase + (base - a.config.layout.base) := by
    refine offset_apart h.textBase (Eq.trans ?_ h'.textBase)
    rw [← hbase]
    rfl
  refine ⟨h'.labels.trans h.labels.symm, h'.externs.trans h.externs.symm, fun sect => ?_⟩
  cases sect with
  | text => exact htext
  | data =>
      obtain ⟨text, hfirst, hrest⟩ := bind_eq_ok.mp h.dataBase
      obtain ⟨length, halign, hrest⟩ := bind_eq_ok.mp hrest
      obtain ⟨text', hfirst', hrest'⟩ := bind_eq_ok.mp h'.dataBase
      obtain ⟨length', halign', hrest'⟩ := bind_eq_ok.mp hrest'
      cases hfirst.symm.trans h.textBase
      cases hfirst'.symm.trans h'.textBase
      cases halign.symm.trans halign'
      rw [htext] at hrest'
      exact offset_apart hrest hrest'

namespace Scope.Apart

variable {shift : UInt32} {scope scope' : Scope} (h : scope.Apart shift scope')
include h

/-- A label moves with the base. -/
theorem target {name : String} {label : Label} (hlabel : scope.labels.get? name = some label) :
    scope'.target name = scope.target name + shift := by
  rw [Scope.target, Scope.target, h.labels, hlabel]
  dsimp only
  rw [h.base, add_right_comm]

/-- Names outside stay outside. -/
theorem refersOutside (entry : Line × Option Nat) :
    refersOutside scope' entry = refersOutside scope entry := by
  have hexternal (name : String) :
      (scope'.resolution name).isExternal = (scope.resolution name).isExternal := by
    rw [Bool.eq_iff_iff, isExternal_iff, isExternal_iff, h.labels, h.externs]
  simp only [Assembler.refersOutside, hexternal]

/-- Undefined names stay undefined. -/
theorem undefinedNames {entry : Line × Option Nat}
    (hresolves : ∀ name ∈ referred entry, ∃ resolution, scope.resolve name = .ok resolution)
    (hresolves' : ∀ name ∈ referred entry, ∃ resolution, scope'.resolve name = .ok resolution) :
    undefinedNames scope' entry = undefinedNames scope entry := by
  refine congrArg (List.map _) (List.filter_congr fun name hname => ?_)
  obtain ⟨resolution, hresolve⟩ := hresolves name hname
  obtain ⟨resolution', hresolve'⟩ := hresolves' name hname
  rw [Bool.eq_iff_iff, beq_iff_eq, beq_iff_eq, resolution_eq_undefined_iff hresolve,
    resolution_eq_undefined_iff hresolve', h.labels, h.externs]

end Scope.Apart

/-! ### One line -/

section

variable {shift : UInt32} {scope scope' : Scope} {sect : Section} {offset : Nat} {line : Line}
  {l l' : Listed}

/-- The listed addresses move with the base. -/
theorem Shows.address_apart (hapart : scope.Apart shift scope')
    (h : Shows scope sect offset line l) (h' : Shows scope' sect offset line l') :
    l'.address = l.address.map (· + shift) := by
  have hsize := h.size.trans h'.size.symm
  cases haddr : l.address with
  | none =>
      rw [haddr] at hsize
      exact Option.map_eq_none_iff.mp hsize.symm
  | some addr =>
      rw [haddr] at hsize
      obtain ⟨addr', haddr', -⟩ := Option.map_eq_some_iff.mp hsize.symm
      have hmoved := h'.address addr' haddr'
      rw [hapart.base] at hmoved
      rw [haddr', offset_apart (h.address addr haddr) hmoved]
      rfl

/-- A line of which nothing is emitted shows no bytes. -/
theorem Shows.bytes_eq_nil (h : Shows scope sect offset line l)
    (hextent : extent? sect line = none) : l.bytes = [] :=
  h.silent (Option.map_eq_none_iff.mp (h.size.trans hextent))

/-- Lines without an instruction show the same bytes. -/
theorem Shows.bytes_plain (h : Shows scope sect offset line l)
    (h' : Shows scope' sect offset line l') (hplain : ∀ i, line.statement ≠ some (.instr i)) :
    l'.bytes = l.bytes := by
  by_cases hbytes : ∃ b, line.statement = some (.bytes b)
  · obtain ⟨b, hb⟩ := hbytes
    rw [h.bytes b hb, h'.bytes b hb]
  · have hextent : extent? sect line = none :=
      extent?_eq_none (fun b n hb => absurd ⟨b, hb⟩ hbytes) fun i n hi => absurd hi (hplain i)
    rw [h.bytes_eq_nil hextent, h'.bytes_eq_nil hextent]

/-- An emitted instruction of two programs: its size, its addresses and its encodings. -/
theorem Shows.encode_apart (hapart : scope.Apart shift scope')
    (h : Shows scope sect offset line l) (h' : Shows scope' sect offset line l')
    {i : Instr String} (hinstr : line.statement = some (.instr i)) {addr : UInt32}
    (haddr : l.address = some addr) :
    i.size = .ok l.bytes.length ∧ (i.resolve scope.target).encode addr = .ok l.bytes ∧
      (i.resolve scope'.target).encode (addr + shift) = .ok l'.bytes := by
  have hsize := h.size
  rw [haddr, Option.map_some] at hsize
  have haddr' : l'.address = some (addr + shift) := by
    rw [h.address_apart hapart h', haddr]
    rfl
  exact ⟨(extent?_instr hinstr hsize.symm).2, (h.instr i addr hinstr haddr).2,
    (h'.instr i _ hinstr haddr').2⟩

/-- A steady instruction shows the same bytes. -/
theorem Shows.bytes_steady (hapart : scope.Apart shift scope')
    (h : Shows scope sect offset line l) (h' : Shows scope' sect offset line l')
    {i : Instr String} (hinstr : line.statement = some (.instr i))
    (hsteady : Steady scope.labels i) : l'.bytes = l.bytes := by
  cases haddr : l.address with
  | none =>
      have hextent : extent? sect line = none := by
        rw [← h.size, haddr]
        rfl
      rw [h.bytes_eq_nil hextent, h'.bytes_eq_nil hextent]
  | some addr =>
      obtain ⟨hsize, hencode, hencode'⟩ := h.encode_apart hapart h' hinstr haddr
      refine Except.ok.inj (hencode'.symm.trans (Eq.trans ?_ hencode))
      rcases hsteady with ⟨hop, hlabels, hlocal⟩ | ⟨hlabels, hbranch⟩
      · obtain ⟨name, hname⟩ := List.exists_mem_of_ne_nil _ hlabels
        obtain ⟨label, hlabel⟩ := hlocal name hname
        obtain ⟨op, args⟩ := i
        obtain rfl : args = [.label name] := Instr.args_of_branch hsize hop hname
        refine Instr.encode_branch hop ?_
        rw [hapart.target hlabel, add_sub_add_right_eq_sub]
      · exact Instr.encode_fixed hlabels hbranch _ _ _ _

/-- Otherwise the field of the address moves with the base, and no other byte. -/
theorem Shows.bytes_absolute (hapart : scope.Apart shift scope')
    (h : Shows scope sect offset line l) (h' : Shows scope' sect offset line l')
    {i : Instr String} (hinstr : line.statement = some (.instr i)) {addr : UInt32}
    (haddr : l.address = some addr) (hop : i.op = .mov ∨ i.op = .push) {name : String}
    (hname : name ∈ i.labels) {label : Label} (hlabel : scope.labels.get? name = some label) :
    ∃ head, l.bytes = head ++ Word.toBytes (scope.target name) ∧
      l'.bytes = head ++ Word.toBytes (scope.target name + shift) := by
  obtain ⟨hsize, hencode, hencode'⟩ := h.encode_apart hapart h' hinstr haddr
  obtain ⟨head, hhead⟩ := Instr.encode_absolute hsize hop hname
  refine ⟨head, ?_, ?_⟩
  · exact Except.ok.inj (hencode.symm.trans (hhead _ _))
  · rw [← hapart.target hlabel]
    exact Except.ok.inj (hencode'.symm.trans (hhead _ _))

end

/-! ### The whole program -/

/-- Listings that show the same bytes in a section show the same there altogether. -/
theorem shownIn_congr {target sect : Section} {lines : List Line} {listing listing' : List Listed}
    (hlength : listing.length = lines.length) (hlength' : listing'.length = lines.length)
    (h : ∀ (k : Nat) line l l', lines[k]? = some line → listing[k]? = some l →
      listing'[k]? = some l' → sectionAfter sect (lines.take k) = target → l'.bytes = l.bytes) :
    shownIn target sect (lines.zip listing') = shownIn target sect (lines.zip listing) := by
  induction lines generalizing sect listing listing' with
  | nil => rfl
  | cons line rest ih =>
      obtain ⟨l, listing, rfl⟩ := List.exists_cons_of_length_eq_add_one hlength
      obtain ⟨l', listing', rfl⟩ := List.exists_cons_of_length_eq_add_one hlength'
      have hfirst : (if sect = target then l'.bytes else []) =
          if sect = target then l.bytes else [] := by
        by_cases hsect : sect = target
        · rw [if_pos hsect, if_pos hsect]
          exact h 0 line l l' rfl rfl rfl hsect
        · rw [if_neg hsect, if_neg hsect]
      have hrest := @ih (nextSection sect line) listing listing' (by simpa using hlength)
        (by simpa using hlength') fun k line' m m' hline hm hm' hsect =>
          h (k + 1) line' m m' hline hm hm' hsect
      rw [List.zip_cons_cons, List.zip_cons_cons, shownIn, shownIn, hfirst, hrest]

/-- The place of a line is the same in two listings of the same lines. -/
theorem Described.shows {scope : Scope} {lines : List Line} {asm : Assembly}
    (h : Described scope lines asm) {k : Nat} {line : Line} {l : Listed}
    (hline : lines[k]? = some line) (hl : asm.listing[k]? = some l) :
    Shows scope (sectionAfter .text (lines.take k))
      (lengthIn (sectionAfter .text (lines.take k)) .text (lines.take k)) line l := by
  have hshows := h.entries.2 k line l hline hl
  rwa [Nat.zero_add, h.entries.length_shownIn] at hshows

theorem Described.length_code {scope : Scope} {lines : List Line} {asm : Assembly}
    (h : Described scope lines asm) : asm.code.length = lengthIn .text .text lines := by
  have hlength := h.entries.length_shownIn .text (lines.zip asm.listing).length
  have hzip : (lines.zip asm.listing).length = lines.length := by
    rw [List.length_zip, h.entries.1, Nat.min_self]
  rwa [List.take_length, h.code, hzip, List.take_length] at hlength

/-- The data is the same at any base. -/
theorem Described.data_apart {scope scope' : Scope} {lines : List Line}
    {asm asm' : Assembly} (h : Described scope lines asm) (h' : Described scope' lines asm') :
    asm'.data = asm.data := by
  rw [← h.data, ← h'.data]
  refine shownIn_congr h.entries.1 h'.entries.1 fun k line l l' hline hl hl' hsect => ?_
  have hshows := h.shows hline hl
  have hshows' := h'.shows hline hl'
  by_cases hinstr : ∃ i, line.statement = some (.instr i)
  · obtain ⟨i, hinstr⟩ := hinstr
    -- an instruction of the data is not emitted
    have hextent : extent? (sectionAfter .text (lines.take k)) line = none := by
      cases hextent : extent? (sectionAfter .text (lines.take k)) line with
      | none => rfl
      | some n =>
          obtain ⟨htext, -⟩ := extent?_instr hinstr hextent
          cases htext.symm.trans hsect
    rw [hshows.bytes_eq_nil hextent, hshows'.bytes_eq_nil hextent]
  · exact hshows.bytes_plain hshows' (not_exists.mp hinstr)

section

variable {config : Config} {complaints : List Diagnostic} {lines : List Line} {a : Assembler}
  {externs : SymbolTable} {asm asm' : Assembly} {scope scope' : Scope} {e e' : Emission}

/-- The first pass for another base address. -/
theorem layout_basedAt
    (hlayout : layout lines { ofConfig config with diagnostics := complaints } = .ok () a) :
    layout lines { ofConfig (config.basedAt base) with diagnostics := complaints } =
      .ok () (a.rebase base) := by
  refine (layout_rebase lines { ofConfig config with diagnostics := complaints }).trans ?_
  rw [hlayout]
  rfl

/-- A name in an emitted instruction stands for the address that it is encoded with. -/
theorem Finished.standsFor
    (hlayout : layout lines { ofConfig config with diagnostics := complaints } = .ok () a)
    (h : Finished a lines externs asm scope e) {k : Nat} {line : Line} {l : Listed}
    (hline : lines[k]? = some line) (hl : asm.listing[k]? = some l) {addr : UInt32}
    (haddr : l.address = some addr) {i : Instr String}
    (hinstr : line.statement = some (.instr i)) {name : String} (hname : name ∈ i.labels) :
    StandsFor lines externs asm name (scope.target name) := by
  have hdescribed := h.described hlayout
  obtain ⟨n, hsize⟩ : ∃ n, extent? (sectionAfter .text (lines.take k)) line = some n := by
    rw [← (hdescribed.shows hline hl).size, haddr]
    exact ⟨_, rfl⟩
  obtain ⟨resolution, hresolve⟩ := emitLines_resolves (h.emitted_extents hlayout) _
    (mem_zip_extents.mpr ⟨k, hline, rfl⟩) name (mem_referred.mpr ⟨i, n, hinstr, hsize, hname⟩)
  rw [← h.externs]
  exact hdescribed.standsFor h.scope_labels h.base_eq hresolve

/-- One layout that is emitted for two base addresses. -/
theorem Finished.moved
    (hlayout : layout lines { ofConfig config with diagnostics := complaints } = .ok () a)
    (h : Finished a lines externs asm scope e)
    (h' : Finished (a.rebase base) lines externs asm' scope' e') :
    Moved lines externs (base - config.layout.base) asm asm' := by
  have hlayout' : layout lines
      { ofConfig (config.basedAt base) with diagnostics := complaints } = .ok () (a.rebase base) :=
    layout_basedAt hlayout
  have hconfig : a.config = config := (layout_eq_ok hlayout).config
  have hapart : scope.Apart (base - config.layout.base) scope' := hconfig ▸ h.apart h'
  have hdescribed := h.described hlayout
  have hdescribed' := h'.described hlayout'
  have hemitted := h.emitted_extents hlayout
  have hemitted' := h'.emitted_extents hlayout'
  have hlabels : asm'.labels = asm.labels := by
    rw [h.result, h'.result]
    rfl
  refine { data := hdescribed.data_apart hdescribed', labels := hlabels,
           diagnostics := ?diagnostics, needsLibrary := ?needsLibrary, entry := ?entry,
           codeLength := ?codeLength, listing := ?listing }
  case diagnostics =>
    have hnames : (lines.zip (extents .text lines)).flatMap (undefinedNames scope') =
        (lines.zip (extents .text lines)).flatMap (undefinedNames scope) :=
      List.flatMap_congr fun entry hentry => hapart.undefinedNames
        (emitLines_resolves hemitted entry hentry) (emitLines_resolves hemitted' entry hentry)
    rw [h.result, h'.result]
    dsimp only
    rw [emitLines_diagnostics hemitted, emitLines_diagnostics hemitted', hnames]
    rfl
  case needsLibrary =>
    rw [h.result, h'.result]
    dsimp only
    rw [emitLines_needsLibrary hemitted, emitLines_needsLibrary hemitted',
      funext hapart.refersOutside]
  case entry =>
    rw [h.result, h'.result]
    rfl
  case codeLength => rw [hdescribed.length_code, hdescribed'.length_code]
  case listing =>
    intro k line hline
    obtain ⟨l, hl⟩ := exists_entry hdescribed.entries.1 hline
    obtain ⟨l', hl'⟩ := exists_entry hdescribed'.entries.1 hline
    have hshows := hdescribed.shows hline hl
    have hshows' := hdescribed'.shows hline hl'
    -- both entries show the line from one offset of its section
    refine ⟨l, l', hl, hl', hshows'.number.trans hshows.number.symm,
      hshows'.source.trans hshows.source.symm, hshows.address_apart hapart hshows',
      hshows.bytes_plain hshows', fun i hinstr hsteady => ?_,
      fun i name label hinstr hemits hop hname hlabel => ?_⟩
    · rw [← h.scope_labels] at hsteady
      exact hshows.bytes_steady hapart hshows' hinstr hsteady
    · rw [← h.scope_labels] at hlabel
      obtain ⟨addr, haddr⟩ := Option.ne_none_iff_exists'.mp hemits
      have haddr' : l'.address = some (addr + (base - config.layout.base)) := by
        rw [hshows.address_apart hapart hshows', haddr]
        rfl
      obtain ⟨head, hbytes, hbytes'⟩ :=
        hshows.bytes_absolute hapart hshows' hinstr haddr hop hname hlabel
      refine ⟨head, scope.target name, h.standsFor hlayout hline hl haddr hinstr hname, ?_,
        hbytes, hbytes'⟩
      rw [← hapart.target hlabel]
      exact h'.standsFor hlayout' hline hl' haddr' hinstr hname

/-- After a layout, emission that does not overflow gives a program. -/
theorem exists_finished {a a' : Assembler} (hlayout : layout lines a = .ok () a')
    (hfits : a'.emit lines externs ≠ .error .overflow) :
    ∃ asm scope e, a'.emit lines externs = .ok asm ∧ Finished a' lines externs asm scope e := by
  cases hemit : a'.emit lines externs with
  | error x =>
      rw [hemit, emit_eq_error hlayout hemit] at hfits
      exact absurd rfl hfits
  | ok asm =>
      obtain ⟨scope, e, hfinished⟩ := emit_eq_ok hemit
      exact ⟨asm, scope, e, rfl, hfinished⟩

end

end Assembler

open Assembler

/-- Assembling lines that have been read. -/
theorem assemble_eq {source : String} {lines : List Line} {complaints : List Diagnostic}
    (hread : Line.readAll source = .ok (lines, complaints)) (config : Config)
    (externs : SymbolTable) :
    assemble source config externs =
      match layout lines { ofConfig config with diagnostics := complaints } with
      | .error e _ => .error e
      | .ok () a => a.emit lines externs := by
  rw [assemble, hread]
  rfl

/-- The base address only moves addresses. For two base addresses whose addresses all exist, a
source fails with the same condition or gives programs of the same shape, in which the address
of a label that an instruction holds moves as the base does, and every other byte of data,
branches to labels and instructions without labels is the same. -/
theorem assemble_moved (source : String) (config : Config) (externs : SymbolTable)
    (base base' : UInt32)
    (hfits : assemble source (config.basedAt base) externs ≠ .error .overflow)
    (hfits' : assemble source (config.basedAt base') externs ≠ .error .overflow) :
    (∃ e, assemble source (config.basedAt base) externs = .error e ∧
        assemble source (config.basedAt base') externs = .error e) ∨
      ∃ asm asm' lines complaints, assemble source (config.basedAt base) externs = .ok asm ∧
        assemble source (config.basedAt base') externs = .ok asm' ∧
        Line.readAll source = .ok (lines, complaints) ∧
        Moved lines externs (base' - base) asm asm' := by
  cases hread : Line.readAll source with
  | error e =>
      cases e
      exact absurd (by rw [assemble, hread]; rfl) hfits
  | ok result =>
      obtain ⟨lines, complaints⟩ := result
      rw [assemble_eq hread] at hfits hfits'
      rw [assemble_eq hread, assemble_eq hread]
      have hrebase : layout lines
          { ofConfig (config.basedAt base') with diagnostics := complaints } =
            rebased base' (layout lines
              { ofConfig (config.basedAt base) with diagnostics := complaints }) :=
        layout_rebase lines { ofConfig (config.basedAt base) with diagnostics := complaints }
      rw [hrebase] at hfits' ⊢
      cases hlayout : layout lines
          { ofConfig (config.basedAt base) with diagnostics := complaints } with
      | error e a => exact .inl ⟨e, rfl, rfl⟩
      | ok u a =>
          rw [hlayout] at hfits hfits' hrebase
          obtain ⟨asm, scope, e, hemit, hfinished⟩ := exists_finished hlayout hfits
          obtain ⟨asm', scope', e', hemit', hfinished'⟩ := exists_finished hrebase hfits'
          exact .inr ⟨asm, asm', lines, complaints, hemit, hemit', rfl,
            hfinished.moved hlayout hfinished'⟩

/-- A program that refers forwards, backwards and to its data, by distance and by address. -/
def referringText : String :=
  "_start: mov eax, x\nf: push f\ncall g\njmp f\ng: mov [ebp-4], x\njne g\nsection .data\nx: db 7"

theorem assemble_moved_references :
    ∃ asm asm' lines complaints,
      assemble referringText (Config.basedAt {} 0x400000) {} = .ok asm ∧
        assemble referringText (Config.basedAt {} 0x10000000) {} = .ok asm' ∧
        Line.readAll referringText = .ok (lines, complaints) ∧
        Moved lines {} (0x10000000 - 0x400000) asm asm' := by
  have hok : (assemble referringText (Config.basedAt {} 0x400000) {}).isOk = true := by
    decide +kernel
  have hok' : (assemble referringText (Config.basedAt {} 0x10000000) {}).isOk = true := by
    decide +kernel
  have hnoError {x : Except Error Assembly} (h : x.isOk = true) (e : Error) : x ≠ .error e := by
    rintro rfl
    cases h
  rcases assemble_moved referringText {} {} 0x400000 0x10000000 (hnoError hok _)
    (hnoError hok' _) with ⟨e, herror, -⟩ | hmoved
  · exact absurd herror (hnoError hok e)
  · exact hmoved

end Asm

end Ia32

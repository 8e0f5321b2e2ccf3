import Ia32.Asm.SymbolMap
import Ia32.Proofs.Asm.Linking

/-!
# The symbol map tiles each section

Every label of a program has one entry in its symbol map, at the address that its references are
encoded with. In address order the extents of a section follow each other without a gap and
without an overlap, from its first label up to the end of its bytes. Labels at one place share
one extent.
-/

namespace Ia32.Asm

/-- The bytes of a section of a program. -/
def Assembly.bytesOf (asm : Assembly) : Section → Bytes
  | .text => asm.code
  | .data => asm.data

/-- The entries of a map for the labels of a section. -/
def SymbolMap.entriesOf (map : SymbolMap) : Section → List (String × SymbolEntry)
  | .text => map.code
  | .data => map.data

/-- Extents fill the addresses from a start up to a finish, one behind the other. -/
def Tiles : Nat → List SymbolEntry → Nat → Prop
  | start, [], finish => start = finish
  | start, entry :: rest, finish =>
      entry.address.toNat = start ∧ Tiles (start + entry.size) rest finish

/-- What a symbol map says about a program. -/
structure Mapped (lines : List Line) (externs : SymbolTable) (asm : Assembly) (map : SymbolMap) :
    Prop where
  /-- The entries of a section are those of its labels, in the order of their definitions. -/
  names : ∀ sect, (map.entriesOf sect).map Prod.fst =
    (asm.labels.entries.filter fun d => d.2.sect = sect).map Prod.fst
  /-- Every label has one entry. -/
  once : ∀ name label, (name, label) ∈ asm.labels.entries →
    ((map.code ++ map.data).map Prod.fst).count name = 1
  /-- The address of an entry is the one that its name stands for. -/
  address : ∀ sect name entry, (name, entry) ∈ map.entriesOf sect →
    StandsFor lines externs asm name entry.address
  /-- Every emitted instruction is encoded with these addresses. -/
  encoded : ∃ target : String → UInt32,
    (∀ sect name entry, (name, entry) ∈ map.entriesOf sect → target name = entry.address) ∧
      ∀ line i addr bytes, Emits lines asm line i addr bytes →
        (i.resolve target).encode addr = .ok bytes
  /-- Labels at the same place have the same entry. -/
  shared : ∀ name label other label', (name, label) ∈ asm.labels.entries →
    (other, label') ∈ asm.labels.entries → label.sect = label'.sect →
    label.offset = label'.offset →
    ∀ entry, (name, entry) ∈ map.entriesOf label.sect ↔ (other, entry) ∈ map.entriesOf label.sect
  /-- In the order of their addresses the extents of a section are disjoint, and they fill the
  section from its first label to its end. -/
  tiled : ∀ sect base, asm.base sect = .ok base → ∃ start tiles,
    (∀ entry, entry ∈ tiles ↔ ∃ name, (name, entry) ∈ map.entriesOf sect) ∧
      (tiles.Pairwise fun a b => a.address < b.address ∧
        a.address.toNat + a.size ≤ b.address.toNat) ∧
      Tiles start tiles (base.toNat + (asm.bytesOf sect).length)

/-! ### Tiles -/

theorem Tiles.start_le {start finish : Nat} {tiles : List SymbolEntry}
    (h : Tiles start tiles finish) : ∀ entry ∈ tiles, start ≤ entry.address.toNat := by
  induction tiles generalizing start with
  | nil => simp
  | cons first rest ih =>
      obtain ⟨hfirst, hrest⟩ := h
      refine List.forall_mem_cons.mpr ⟨Nat.le_of_eq hfirst.symm, fun entry hentry => ?_⟩
      exact (Nat.le_add_right start first.size).trans (ih hrest entry hentry)

/-- Extents of which each ends where the next one starts do not overlap. -/
theorem Tiles.pairwise {start finish : Nat} {tiles : List SymbolEntry}
    (h : Tiles start tiles finish) :
    tiles.Pairwise fun a b => a.address.toNat + a.size ≤ b.address.toNat := by
  induction tiles generalizing start with
  | nil => exact .nil
  | cons first rest ih =>
      obtain ⟨hfirst, hrest⟩ := h
      refine .cons (fun entry hentry => ?_) (ih hrest)
      rw [hfirst]
      exact hrest.start_le entry hentry

namespace Assembly

variable (asm : Assembly) (sect : Section)

/-! ### Offsets -/

/-- The distances of the labels of a section from its start. -/
def offsets : List Nat :=
  asm.labels.entries.filterMap fun d => if d.2.sect = sect then some d.2.offset else none

variable {asm sect}

/-- The offsets of a section are those of its labels. -/
theorem mem_offsets {offset : Nat} :
    offset ∈ asm.offsets sect ↔
      ∃ d ∈ asm.labels.entries, d.2.sect = sect ∧ d.2.offset = offset := by
  simp [offsets, List.mem_filterMap]

theorem nextOffset_eq (offset finish : Nat) :
    asm.nextOffset sect offset finish =
      ((asm.offsets sect).filter (offset < ·)).min?.getD finish := by
  rw [nextOffset, offsets, List.filter_filterMap]
  congr 3
  funext d
  by_cases hsect : d.2.sect = sect
  · simp [hsect, Option.filter_some]
  · simp [hsect]

/-- Behind the last label a section ends. -/
theorem nextOffset_last {offset : Nat} (h : ∀ other ∈ asm.offsets sect, other ≤ offset)
    (finish : Nat) : asm.nextOffset sect offset finish = finish := by
  have hnone : (asm.offsets sect).filter (offset < ·) = [] := by
    refine List.filter_eq_nil_iff.mpr fun other hother => ?_
    simpa using h other hother
  rw [nextOffset_eq, hnone]
  rfl

/-- Another label is followed by the nearest one above it. -/
theorem nextOffset_least {offset next : Nat} (hnext : next ∈ asm.offsets sect)
    (hlt : offset < next) (hleast : ∀ other ∈ asm.offsets sect, offset < other → next ≤ other)
    (finish : Nat) : asm.nextOffset sect offset finish = next := by
  have hmin : ((asm.offsets sect).filter (offset < ·)).min? = some next := by
    refine List.min?_eq_some_iff.mpr ⟨List.mem_filter.mpr ⟨hnext, by simpa using hlt⟩, ?_⟩
    intro other hother
    obtain ⟨hmem, hlt⟩ := List.mem_filter.mp hother
    exact hleast other hmem (by simpa using hlt)
  rw [nextOffset_eq, hmin]
  rfl

/-- The next label is never in front. -/
theorem le_nextOffset {offset finish : Nat} (h : offset ≤ finish) :
    offset ≤ asm.nextOffset sect offset finish := by
  rw [nextOffset_eq]
  cases hmin : ((asm.offsets sect).filter (offset < ·)).min? with
  | none => exact h
  | some next =>
      have hlt : offset < next := by simpa using (List.mem_filter.mp (List.min?_mem hmin)).2
      exact Nat.le_of_lt hlt

/-! ### Entries -/

/-- The entry of the labels at an offset of a section that starts at an address. -/
def entryAt (asm : Assembly) (sect : Section) (base : UInt32) (offset : Nat) : SymbolEntry where
  address := UInt32.ofNat (base.toNat + offset)
  size := asm.nextOffset sect offset (asm.bytesOf sect).length - offset

/-- The entries of the labels of a section that starts at an address. -/
def entriesAt (asm : Assembly) (sect : Section) (base : UInt32) : List (String × SymbolEntry) :=
  (asm.labels.entries.filter fun d => d.2.sect = sect).map
    fun d => (d.1, asm.entryAt sect base d.2.offset)

theorem mem_entriesAt {base : UInt32} {name : String} {entry : SymbolEntry} :
    (name, entry) ∈ asm.entriesAt sect base ↔ ∃ label, (name, label) ∈ asm.labels.entries ∧
      label.sect = sect ∧ entry = asm.entryAt sect base label.offset := by
  rw [entriesAt, List.mem_map]
  constructor
  · rintro ⟨⟨_, label⟩, hd, heq⟩
    cases heq
    obtain ⟨hd, hsect⟩ := List.mem_filter.mp hd
    exact ⟨label, hd, by simpa using hsect, rfl⟩
  · rintro ⟨label, hlabel, hsect, rfl⟩
    exact ⟨(name, label), List.mem_filter.mpr ⟨hlabel, by simpa using hsect⟩, rfl⟩

theorem names_entriesAt (base : UInt32) : (asm.entriesAt sect base).map Prod.fst =
    (asm.labels.entries.filter fun d => d.2.sect = sect).map Prod.fst := by
  rw [entriesAt, List.map_map]
  rfl

/-- A label has the entries of the other labels at its place. -/
theorem mem_entriesAt_of_mem (hdistinct : (asm.labels.entries.map Prod.fst).Nodup) {base : UInt32}
    {name other : String} {label label' : Label} (hlabel : (name, label) ∈ asm.labels.entries)
    (hlabel' : (other, label') ∈ asm.labels.entries) (hsect : label.sect = label'.sect)
    (hoffset : label.offset = label'.offset) {entry : SymbolEntry}
    (hentry : (name, entry) ∈ asm.entriesAt label.sect base) :
    (other, entry) ∈ asm.entriesAt label.sect base := by
  obtain ⟨found, hfound, -, rfl⟩ := mem_entriesAt.mp hentry
  have hsame := List.inj_on_of_nodup_map hdistinct hfound hlabel rfl
  cases hsame
  exact mem_entriesAt.mpr ⟨label', hlabel', hsect.symm, by rw [hoffset]⟩

/-- Every label is in one of the two sections, once. -/
theorem count_names_entriesAt (hdistinct : (asm.labels.entries.map Prod.fst).Nodup)
    (textBase dataBase : UInt32) {name : String} {label : Label}
    (hlabel : (name, label) ∈ asm.labels.entries) :
    ((asm.entriesAt .text textBase ++ asm.entriesAt .data dataBase).map Prod.fst).count name =
      1 := by
  have hdata : (fun d : String × Label => decide (d.2.sect = .data)) =
      fun d => !decide (d.2.sect = .text) := by
    funext d
    cases d.2.sect <;> rfl
  rw [List.map_append, names_entriesAt, names_entriesAt, hdata, ← List.map_append,
    ((List.filter_append_perm _ _).map Prod.fst).count_eq]
  exact List.count_eq_one_of_mem hdistinct (List.mem_map_of_mem hlabel)

/-- The labels of a section are inside it or at its end, and their addresses exist. -/
def Placed (asm : Assembly) (sect : Section) (base : UInt32) : Prop :=
  asm.base sect = .ok base ∧ ∀ d ∈ asm.labels.entries, d.2.sect = sect →
    d.2.offset ≤ (asm.bytesOf sect).length ∧ base.toNat + d.2.offset < 4294967296

theorem toNat_address_entryAt {base : UInt32} {offset : Nat}
    (h : base.toNat + offset < 4294967296) :
    (asm.entryAt sect base offset).address.toNat = base.toNat + offset := by
  rw [entryAt, UInt32.toNat_ofNat']
  exact Nat.mod_eq_of_lt h

/-- A label below the end of the address space has its entry. -/
theorem symbolEntry_eq {base : UInt32} (h : asm.Placed sect base) {d : String × Label}
    (hd : d ∈ asm.labels.entries) (hsect : d.2.sect = sect) :
    asm.symbolEntry d.2 = .ok (asm.entryAt sect base d.2.offset) := by
  obtain ⟨hbase, hplace⟩ := h
  obtain ⟨hle, hroom⟩ := hplace d hd hsect
  have hnext : d.2.offset ≤ asm.nextOffset sect d.2.offset (asm.bytesOf sect).length :=
    le_nextOffset hle
  subst hsect
  have haddress : Word.offset base d.2.offset = .ok (UInt32.ofNat (base.toNat + d.2.offset)) :=
    if_pos hroom
  have hsize : Word.difference
      (asm.nextOffset d.2.sect d.2.offset (asm.bytesOf d.2.sect).length) d.2.offset =
        .ok (asm.entryAt d.2.sect base d.2.offset).size := if_pos hnext
  cases hd : d.2.sect
  all_goals
    rw [hd] at hbase hsize
    simp only [Assembly.base] at hbase
    simp only [symbolEntry, hd, hbase, ok_bind, haddress]
    exact congrArg (· >>= _) hsize

theorem symbolEntries_eq {base : UInt32} (h : asm.Placed sect base)
    {labels : List (String × Label)} (hlabels : ∀ d ∈ labels, d ∈ asm.labels.entries) :
    asm.symbolEntries sect labels = .ok ((labels.filter fun d => d.2.sect = sect).map
      fun d => (d.1, asm.entryAt sect base d.2.offset)) := by
  induction labels with
  | nil => rfl
  | cons d rest ih =>
      obtain ⟨hd, hrest⟩ := List.forall_mem_cons.mp hlabels
      rw [symbolEntries]
      by_cases hsect : d.2.sect = sect
      · rw [if_pos hsect, symbolEntry_eq h hd hsect, ok_bind, ih hrest,
          List.filter_cons_of_pos (by simpa using hsect)]
        rfl
      · rw [if_neg hsect, ih hrest, List.filter_cons_of_neg (by simpa using hsect)]

/-! ### The extents of a section -/

/-- The extents of labels in increasing order, up to the end of the section. The labels above
the first one are all listed. -/
theorem tiles_entryAt {base : UInt32} (h : asm.Placed sect base) {offset : Nat}
    {rest : List Nat} (hsorted : (offset :: rest).Pairwise (· < ·))
    (hmem : ∀ o ∈ offset :: rest, o ∈ asm.offsets sect)
    (hall : ∀ other ∈ asm.offsets sect, offset < other → other ∈ rest) :
    Tiles (base.toNat + offset) ((offset :: rest).map (asm.entryAt sect base))
      (base.toNat + (asm.bytesOf sect).length) := by
  have hplace : ∀ o ∈ asm.offsets sect,
      o ≤ (asm.bytesOf sect).length ∧ base.toNat + o < 4294967296 := by
    intro o ho
    obtain ⟨d, hd, hsect, rfl⟩ := mem_offsets.mp ho
    exact h.2 d hd hsect
  induction rest generalizing offset with
  | nil =>
      -- the last label reaches to the end of the section
      obtain ⟨hle, hroom⟩ := hplace offset (hmem offset List.mem_cons_self)
      have hlast : asm.nextOffset sect offset (asm.bytesOf sect).length =
          (asm.bytesOf sect).length :=
        nextOffset_last (fun other hother => Nat.le_of_not_lt fun hlt => by
          cases hall other hother hlt) _
      refine ⟨toNat_address_entryAt hroom, ?_⟩
      change base.toNat + offset + (asm.nextOffset sect offset _ - offset) = _
      omega
  | cons next rest ih =>
      obtain ⟨-, hroom⟩ := hplace offset (hmem offset List.mem_cons_self)
      obtain ⟨habove, hrest⟩ := List.pairwise_cons.mp hsorted
      have hlt := habove next List.mem_cons_self
      have hnext : asm.nextOffset sect offset (asm.bytesOf sect).length = next := by
        refine nextOffset_least (hmem next (by simp)) hlt (fun other hother hlt => ?_) _
        rcases List.mem_cons.mp (hall other hother hlt) with rfl | hother
        · exact Nat.le_refl other
        · exact Nat.le_of_lt ((List.pairwise_cons.mp hrest).1 other hother)
      have htiles := ih hrest (fun o ho => hmem o (List.mem_cons_of_mem _ ho))
        fun other hother hgt => (List.mem_cons.mp (hall other hother (hlt.trans hgt))).resolve_left
          (Nat.ne_of_gt hgt)
      refine ⟨toNat_address_entryAt hroom, ?_⟩
      have hsize : (asm.entryAt sect base offset).size = next - offset :=
        congrArg (· - offset) hnext
      have hstart : base.toNat + offset + (asm.entryAt sect base offset).size =
          base.toNat + next := by omega
      exact hstart ▸ htiles

/-- The distinct extents of a section tile it. -/
theorem exists_tiles {base : UInt32} (h : asm.Placed sect base) :
    ∃ start tiles,
      (∀ entry, entry ∈ tiles ↔ ∃ offset ∈ asm.offsets sect,
        entry = asm.entryAt sect base offset) ∧
      (tiles.Pairwise fun a b => a.address < b.address ∧
        a.address.toNat + a.size ≤ b.address.toNat) ∧
      Tiles start tiles (base.toNat + (asm.bytesOf sect).length) := by
  -- the offsets in increasing order, each once
  obtain ⟨sorted, hmem, hsorted⟩ : ∃ sorted : List Nat,
      (∀ offset, offset ∈ sorted ↔ offset ∈ asm.offsets sect) ∧ sorted.Pairwise (· < ·) :=
    ⟨(asm.offsets sect).toFinset.sort (· ≤ ·), by simp,
      ((asm.offsets sect).toFinset.sortedLT_sort).pairwise⟩
  obtain ⟨start, htiles⟩ : ∃ start, Tiles start (sorted.map (asm.entryAt sect base))
      (base.toNat + (asm.bytesOf sect).length) := by
    cases sorted with
    | nil => exact ⟨_, rfl⟩
    | cons offset rest =>
        refine ⟨_, tiles_entryAt h hsorted (fun o ho => (hmem o).mp ho) fun other hother hlt => ?_⟩
        exact (List.mem_cons.mp ((hmem other).mpr hother)).resolve_left (Nat.ne_of_gt hlt)
  refine ⟨start, sorted.map (asm.entryAt sect base), fun entry => ?_, ?_, htiles⟩
  · simp only [List.mem_map, hmem, eq_comm]
  · have hroom : ∀ offset ∈ sorted, base.toNat + offset < 4294967296 := by
      intro offset hoffset
      obtain ⟨d, hd, hsect, rfl⟩ := mem_offsets.mp ((hmem offset).mp hoffset)
      exact (h.2 d hd hsect).2
    have haddresses : (sorted.map (asm.entryAt sect base)).Pairwise
        fun a b => a.address < b.address := by
      refine List.pairwise_map.mpr (hsorted.imp_of_mem fun ha hb hlt => ?_)
      rw [UInt32.lt_iff_toNat_lt, toNat_address_entryAt (hroom _ ha),
        toNat_address_entryAt (hroom _ hb)]
      omega
    exact haddresses.and htiles.pairwise

end Assembly

/-! ### Names -/

namespace Assembler

/-- A table into which definitions are entered has every name once. -/
theorem nodup_enter {entries definitions : List (String × Label)}
    (h : (entries.map Prod.fst).Nodup) : ((enter entries definitions).map Prod.fst).Nodup := by
  induction definitions generalizing entries with
  | nil => exact h
  | cons definition rest ih =>
      obtain ⟨name, label⟩ := definition
      rw [enter]
      split
      next => exact ih h
      next hlookup =>
        refine ih ?_
        rw [List.map_append, List.nodup_append]
        refine ⟨h, List.nodup_singleton _, fun other hother => ?_⟩
        obtain ⟨d, hd, rfl⟩ := List.mem_map.mp hother
        have hne := List.lookup_eq_none_iff.mp hlookup d hd
        intro _ hname heq
        rw [List.mem_singleton.mp hname] at heq
        exact absurd heq.symm (by simpa using hne)

/-- The layout enters no name twice. -/
theorem LaidOut.nodup_names {lines : List Line} {a a' : Assembler}
    (h : LaidOut .text lines a a') (hlabels : a.labels.entries = []) :
    (a'.labels.entries.map Prod.fst).Nodup := by
  rw [h.labels, hlabels]
  exact nodup_enter List.nodup_nil

end Assembler

/-- In a table that has every name once, an entry is what its name is looked up as. -/
theorem Labels.get?_of_mem {labels : Labels} (h : (labels.entries.map Prod.fst).Nodup)
    {name : String} {label : Label} (hmem : (name, label) ∈ labels.entries) :
    labels.get? name = some label := by
  cases hlookup : labels.get? name with
  | none =>
      have hne := List.lookup_eq_none_iff.mp hlookup _ hmem
      simp at hne
  | some other =>
      have heq := List.inj_on_of_nodup_map h (Assembler.mem_of_get? hlookup) hmem rfl
      cases heq
      rfl

namespace Assembler

variable {lines : List Line} {externs : SymbolTable} {asm : Assembly} {scope : Scope}

/-- The labels of a program are where its bytes are. -/
theorem Finished.placed {config : Config} {complaints : List Diagnostic} {a : Assembler}
    {e : Emission}
    (hlayout : layout lines { ofConfig config with diagnostics := complaints } = .ok () a)
    (h : Finished a lines externs asm scope e)
    (hroom : ∀ d ∈ asm.labels.entries, ∀ base, asm.base d.2.sect = .ok base →
      base.toNat + d.2.offset < 4294967296) (sect : Section) :
    asm.Placed sect (scope.base sect) := by
  have hlength : (asm.bytesOf sect).length = a.lengthOf sect := by
    have hcode := h.codeLength
    have hdata := h.dataLength hlayout
    rw [h.result]
    cases sect with
    | text => simpa [Assembly.bytesOf, lengthOf] using hcode
    | data => simpa [Assembly.bytesOf, lengthOf] using hdata
  have hlabels : asm.labels = a.labels := by rw [h.result]
  refine ⟨h.base_eq sect, fun d hd hsect => ?_⟩
  subst hsect
  rw [hlength]
  exact ⟨(layout_eq_ok hlayout).offset_le rfl (hlabels ▸ hd), hroom d hd _ (h.base_eq _)⟩

/-- The entry of a program is at the start of its code or at a label of it. -/
theorem Finished.exists_entryAddress {a : Assembler} {e : Emission}
    (h : Finished a lines externs asm scope e) (hplaced : asm.Placed .text scope.textBase) :
    ∃ addr, asm.entryAddress = .ok addr := by
  have hentry : asm.entry = (findEntry asm.labels a.config.entry lines.length).1 := by rw [h.result]
  have hroom : scope.textBase.toNat + asm.entry < 4294967296 := by
    rw [hentry]
    unfold findEntry
    split
    next offset line hlabel => exact (hplaced.2 _ (mem_of_get? hlabel) rfl).2
    all_goals exact scope.textBase.toNat_lt
  obtain ⟨addr, haddr, -⟩ := Word.exists_offset _ _ hroom
  refine ⟨addr, ?_⟩
  rw [Assembly.entryAddress, h.textBase_eq]
  exact haddr

end Assembler

open Assembler

/-- A map whose entries are those of the labels, when the labels are described by a scope. -/
theorem mapped_of_entries {lines : List Line} {asm : Assembly} {scope : Scope} {map : SymbolMap}
    (hdescribed : Described scope lines asm) (hlabels : scope.labels = asm.labels)
    (hdistinct : (asm.labels.entries.map Prod.fst).Nodup)
    (hplaced : ∀ sect, asm.Placed sect (scope.base sect))
    (hmap : ∀ sect, map.entriesOf sect = asm.entriesAt sect (scope.base sect)) :
    Mapped lines scope.externs asm map := by
  have hmem (sect : Section) (name : String) (entry : SymbolEntry) :
      (name, entry) ∈ map.entriesOf sect ↔ ∃ label, (name, label) ∈ asm.labels.entries ∧
        label.sect = sect ∧ entry = asm.entryAt sect (scope.base sect) label.offset := by
    rw [hmap]
    exact Assembly.mem_entriesAt
  refine { names := ?names, once := ?once, address := ?address, encoded := ?encoded,
           shared := ?shared, tiled := ?tiled }
  case names =>
    intro sect
    rw [hmap]
    exact Assembly.names_entriesAt _
  case once =>
    intro name label hlabel
    have hcode : map.code = asm.entriesAt .text scope.textBase := hmap .text
    have hdata : map.data = asm.entriesAt .data scope.dataBase := hmap .data
    rw [hcode, hdata]
    exact Assembly.count_names_entriesAt hdistinct _ _ hlabel
  case address =>
    intro sect name entry hentry
    obtain ⟨label, hlabel, rfl, rfl⟩ := (hmem sect name entry).mp hentry
    obtain ⟨hbase, hplace⟩ := hplaced label.sect
    obtain ⟨k, line, hfirst, hsect, hoffset, -⟩ := (hdescribed.labels name label).mp hlabel
    refine .label hfirst hsect hbase ?_
    rw [Assembly.toNat_address_entryAt (hplace _ hlabel rfl).2, hoffset]
  case encoded =>
    refine ⟨scope.target, fun sect name entry hentry => ?_, fun line i addr bytes hemits =>
      (hdescribed.encoded hemits).2⟩
    obtain ⟨label, hlabel, rfl, rfl⟩ := (hmem sect name entry).mp hentry
    have hget : scope.labels.get? name = some label :=
      hlabels ▸ Labels.get?_of_mem hdistinct hlabel
    rw [Scope.target, hget]
    apply UInt32.toNat_inj.mp
    have hroom : (scope.base label.sect).toNat + label.offset < 4294967296 :=
      ((hplaced label.sect).2 _ hlabel rfl).2
    rw [Assembly.toNat_address_entryAt hroom, UInt32.toNat_add, UInt32.toNat_ofNat']
    omega
  case shared =>
    intro name label other label' hlabel hlabel' hsect hoffset entry
    rw [hmap]
    refine ⟨Assembly.mem_entriesAt_of_mem hdistinct hlabel hlabel' hsect hoffset, ?_⟩
    rw [hsect]
    exact Assembly.mem_entriesAt_of_mem hdistinct hlabel' hlabel hsect.symm hoffset.symm
  case tiled =>
    intro sect base hbase
    cases hbase.symm.trans (hplaced sect).1
    obtain ⟨start, tiles, htiles, hapart, hfill⟩ := Assembly.exists_tiles (hplaced sect)
    refine ⟨start, tiles, fun entry => (htiles entry).trans ?_, hapart, hfill⟩
    simp only [hmem, Assembly.mem_offsets]
    constructor
    · rintro ⟨_, ⟨⟨name, label⟩, hlabel, hsect, rfl⟩, heq⟩
      exact ⟨name, label, hlabel, hsect, heq⟩
    · rintro ⟨name, label, hlabel, hsect, heq⟩
      exact ⟨label.offset, ⟨(name, label), hlabel, hsect, rfl⟩, heq⟩

/-- Whenever the addresses of its labels exist, a program has a symbol map: no extent is
negative. The map lists every label once, at the address that its references are encoded with,
and the extents of each section tile it from its first label to its end. -/
theorem assemble_symbolMap {source : String} {config : Config} {externs : SymbolTable}
    {asm : Assembly} (h : assemble source config externs = .ok asm)
    (hroom : ∀ d ∈ asm.labels.entries, ∀ base, asm.base d.2.sect = .ok base →
      base.toNat + d.2.offset < 4294967296) :
    ∃ lines complaints map, Line.readAll source = .ok (lines, complaints) ∧
      asm.symbolMap = .ok map ∧ Mapped lines externs asm map := by
  obtain ⟨lines, complaints, a, scope, e, hread, hlayout, hfinished⟩ := assemble_eq_ok h
  have hplaced := hfinished.placed hlayout hroom
  have hdistinct : (asm.labels.entries.map Prod.fst).Nodup := by
    rw [hfinished.result]
    exact (layout_eq_ok hlayout).nodup_names rfl
  have hentries (sect : Section) : asm.symbolEntries sect asm.labels.entries =
      .ok (asm.entriesAt sect (scope.base sect)) :=
    Assembly.symbolEntries_eq (hplaced sect) fun d hd => hd
  obtain ⟨entry, hentry⟩ := hfinished.exists_entryAddress (hplaced .text)
  have hmap : asm.symbolMap = .ok ⟨entry, asm.needsLibrary, asm.entriesAt .text scope.textBase,
      asm.entriesAt .data scope.dataBase⟩ := by
    rw [Assembly.symbolMap, hentries .text, hentries .data, hentry]
    rfl
  refine ⟨lines, complaints, _, hread, hmap, ?_⟩
  rw [← hfinished.externs]
  refine mapped_of_entries (hfinished.described hlayout) hfinished.scope_labels hdistinct hplaced
    fun sect => ?_
  cases sect <;> rfl

/-- A program that alternates between its sections, with labels that share a place and labels at
the end of both sections. -/
def alternatingText : String :=
  "_start: jmp f\nsection .data\nc: db 7\nsection .text\nf:\ng: mov eax, d\nsection .data\nd:\ne:"

theorem assemble_symbolMap_alternating :
    ∃ asm, assemble alternatingText {} {} = .ok asm ∧
      ∃ lines complaints map, Line.readAll alternatingText = .ok (lines, complaints) ∧
        asm.symbolMap = .ok map ∧ Mapped lines {} asm map := by
  have hroom : (assemble alternatingText {} {}).toOption.any (fun asm =>
      asm.labels.entries.all fun d => (asm.base d.2.sect).toOption.all fun base =>
        base.toNat + d.2.offset < 4294967296) = true := by decide +kernel
  cases hasm : assemble alternatingText {} {} with
  | error e =>
      rw [hasm] at hroom
      cases hroom
  | ok asm =>
      rw [hasm] at hroom
      refine ⟨asm, rfl, assemble_symbolMap hasm fun d hd base hbase => ?_⟩
      have hlabel := List.all_eq_true.mp hroom d hd
      rw [hbase] at hlabel
      simpa [Except.toOption] using hlabel

end Ia32.Asm

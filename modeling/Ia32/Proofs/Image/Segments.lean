import Ia32.Image.Reader
import Ia32.Image.Writer
import Ia32.Proofs.Machine.Memory

/-!
# Loading any file

Every index that loading a file uses is in range, whatever the bytes of the file are. If the
segments of the header fit the address space, they are all loaded: the mapped pages are those
that the segments and the stack meet, and where segments overlap, the last one has written its
bytes over those of the others.
-/

namespace Ia32

namespace Memory

/-! ### Checked places -/

variable {mem mem' : Memory} {addr other : UInt32}

/-- Stores bytes with checked indices: `none` is an address in front of its page, or an index
outside the page. -/
def writeChecked (mem : Memory) (addr : UInt32) : Bytes → Option (Memory × Except Fault Unit)
  | [] => some (mem, .ok ())
  | b :: rest =>
      match mem.pages[pageStart addr]? with
      | none => some (mem, .error (.unmapped addr))
      | some page => do
          guard (pageStart addr ≤ addr)
          let _ ← page[(addr - pageStart addr).toNat]?
          (mem.set addr b).writeChecked (addr + 1) rest

theorem pageStart_le (addr : UInt32) : pageStart addr ≤ addr := by
  rw [UInt32.le_iff_toNat_le, toNat_pageStart]
  exact Nat.div_mul_le_self addr.toNat 4096

/-- The index of an address in its page is its offset. -/
theorem toNat_sub_pageStart (addr : UInt32) : (addr - pageStart addr).toNat = offset addr := by
  rw [UInt32.toNat_sub_of_le _ _ (pageStart_le addr)]
  have hplace := toNat_pageStart_add_offset addr
  omega

/-- No index of a write is out of range. -/
theorem writeChecked_eq (mem : Memory) (addr : UInt32) (bytes : Bytes) :
    mem.writeChecked addr bytes = some (mem.write addr bytes) := by
  induction bytes generalizing mem addr with
  | nil => rfl
  | cons b rest ih =>
      rw [writeChecked, write, isMapped, ← Std.HashMap.isSome_getElem?_eq_contains]
      cases mem.pages[pageStart addr]? with
      | none => rfl
      | some page =>
          simp only [guard, if_pos (pageStart_le addr), toNat_sub_pageStart,
            Vector.getElem?_eq_getElem (offset addr).isLt, ih]
          rfl

end Memory

namespace Image

open Memory

/-! ### Checked indices -/

/-- The bytes of a file from one index up to another, if the file has them all. -/
def slice? (bytes : Bytes) (start stop : Nat) : Option Bytes :=
  if start ≤ stop ∧ stop ≤ bytes.length then some ((bytes.drop start).take (stop - start))
  else none

/-- A slice within the bytes is there. -/
theorem slice?_eq_some {bytes : Bytes} {start length : Nat} (h : start + length ≤ bytes.length) :
    slice? bytes start (start + length) = some ((bytes.drop start).take length) := by
  rw [slice?, if_pos ⟨Nat.le_add_right _ _, h⟩, Nat.add_sub_cancel_left]

/-- Reads the fields behind the first bytes of the header, and the segment table. -/
def parseFields (bytes : Bytes) : Except ImageError Image := do
  if (← half bytes 16) ≠ kindExecutable then throw .notExecutable
  if (← half bytes 18) ≠ machine386 then throw .wrongMachine
  let flags ← word bytes 36
  if flags &&& needsLibraryFlag ≠ 0 then throw .needsLibrary
  let table ← word bytes 28
  let size ← half bytes 42
  let count ← half bytes 44
  if 0 < count ∧ size ≠ segmentSize then throw .wrongSegmentSize
  let segments ← segmentsFrom bytes table.toNat count
  return ⟨← word bytes 24, flags, segments⟩

/-- Reads the header with checked indices: `none` is an index outside the file. -/
def parseChecked (bytes : Bytes) : Option (Except ImageError Image) := do
  if bytes.length < 4 then return .error .notImage
  if (← slice? bytes 0 4) ≠ magic then return .error .notImage
  if bytes.length < headerSize then return .error (.truncated bytes.length)
  if (← bytes[4]?) ≠ class32 then return .error .wrongClass
  if (← bytes[5]?) ≠ lowFirst then return .error .wrongByteOrder
  return parseFields bytes

theorem parse_eq_parseFields (bytes : Bytes) :
    parse bytes =
      if bytes.take 4 ≠ magic then .error .notImage
      else if bytes.length < headerSize then .error (.truncated bytes.length)
      else if bytes[4]? ≠ some class32 then .error .wrongClass
      else if bytes[5]? ≠ some lowFirst then .error .wrongByteOrder
      else parseFields bytes := by
  unfold parse
  repeat' split
  all_goals rfl

/-- No index of the header is out of range, since its length is checked first. -/
theorem parseChecked_eq (bytes : Bytes) : parseChecked bytes = some (parse bytes) := by
  rw [parse_eq_parseFields]
  unfold parseChecked
  by_cases hshort : bytes.length < 4
  · -- without the first bytes there is no index to check, and they are no magic number either
    have hmagic : bytes.take 4 ≠ magic := by
      intro h
      have hlength := congrArg List.length h
      rw [List.length_take] at hlength
      simp only [magic, List.length_cons, List.length_nil] at hlength
      omega
    rw [if_pos hshort, if_pos hmagic]
    rfl
  · have hslice : slice? bytes 0 4 = some (bytes.take 4) :=
      @slice?_eq_some bytes 0 4 (by omega)
    simp only [if_neg hshort, hslice, Option.bind_eq_bind, Option.bind_some, Option.pure_def]
    split
    · rfl
    split
    · rfl
    next hlength =>
      rw [headerSize] at hlength
      obtain ⟨fileClass, hclass⟩ : ∃ b, bytes[4]? = some b :=
        ⟨_, List.getElem?_eq_getElem (by omega)⟩
      obtain ⟨order, horder⟩ : ∃ b, bytes[5]? = some b := ⟨_, List.getElem?_eq_getElem (by omega)⟩
      simp only [hclass, horder, Option.bind_some, ne_eq, Option.some.injEq]
      split
      · rfl
      split <;> rfl

/-! ### Segments in memory -/

/-- Maps segments and copies their bytes with checked indices. -/
def loadSegmentsChecked (bytes : Bytes) (mem : Memory) :
    List Segment → Option (Except Fault Memory)
  | [] => return .ok mem
  | seg :: rest => do
      let size := max seg.memorySize.toNat seg.fileSize.toNat
      let contents ← slice? bytes seg.offset.toNat (seg.offset.toNat + seg.fileSize.toNat)
      match ← (mem.map seg.address size).writeChecked seg.address contents with
      | (mem, .ok ()) => loadSegmentsChecked bytes mem rest
      | (_, .error fault) => return .error fault

/-- Loads an image with checked indices: `none` is an index outside the file or outside a
page. -/
def loadChecked (bytes : Bytes) : Option (Except LoadError Machine) := do
  match ← parseChecked bytes with
  | .error e => return .error (.image e)
  | .ok image =>
      match ← loadSegmentsChecked bytes {} image.segments with
      | .error fault => return .error (.fault fault)
      | .ok mem => return .ok (Machine.start mem image.entry)

/-- Whether the bytes of a segment lie inside a file. -/
def Inside (bytes : Bytes) (seg : Segment) : Prop :=
  seg.offset.toNat + seg.fileSize.toNat ≤ bytes.length

/-- A segment that is read has its bytes inside of the file. -/
theorem inside_of_segmentAt {bytes : Bytes} {place : Nat} {seg : Segment}
    (h : segmentAt bytes place = .ok (some seg)) : Inside bytes seg := by
  obtain ⟨kind, -, h⟩ := bind_eq_ok.mp h
  split at h
  · cases h
  · simp only [bind_eq_ok] at h
    obtain ⟨offset, -, address, -, fileSize, -, memorySize, -, flags, -, h⟩ := h
    split at h
    · cases h
    next hinside =>
      cases h
      exact Nat.not_lt.mp hinside

theorem inside_of_segmentsFrom {bytes : Bytes} {place count : Nat} {segments : List Segment}
    (h : segmentsFrom bytes place count = .ok segments) : ∀ seg ∈ segments, Inside bytes seg := by
  induction count generalizing place segments with
  | zero =>
      cases h
      exact nofun
  | succ count ih =>
      obtain ⟨found, hfound, h⟩ := bind_eq_ok.mp h
      cases found with
      | none => exact ih h
      | some seg =>
          obtain ⟨rest, hrest, h⟩ := bind_eq_ok.mp h
          cases h
          exact List.forall_mem_cons.mpr ⟨inside_of_segmentAt hfound, ih hrest⟩

/-- The segments of an accepted file are those of its segment table. -/
theorem segmentsFrom_of_parse {bytes : Bytes} {image : Image} (h : parse bytes = .ok image) :
    ∃ place count, segmentsFrom bytes place count = .ok image.segments := by
  rw [parse_eq_parseFields] at h
  -- none of the four checks of the first bytes has failed, and no later one
  iterate 4
    split at h
    · cases h
  obtain ⟨kind, -, h⟩ := bind_eq_ok.mp h
  split at h
  · cases h
  obtain ⟨machine, -, h⟩ := bind_eq_ok.mp h
  split at h
  · cases h
  obtain ⟨flags, -, h⟩ := bind_eq_ok.mp h
  split at h
  · cases h
  obtain ⟨table, -, h⟩ := bind_eq_ok.mp h
  obtain ⟨size, -, h⟩ := bind_eq_ok.mp h
  obtain ⟨count, -, h⟩ := bind_eq_ok.mp h
  split at h
  · cases h
  obtain ⟨segments, hsegments, h⟩ := bind_eq_ok.mp h
  obtain ⟨entry, -, h⟩ := bind_eq_ok.mp h
  cases h
  exact ⟨_, _, hsegments⟩

/-- The header is accepted only if the bytes of every segment lie inside the file. -/
theorem inside_of_parse {bytes : Bytes} {image : Image} (h : parse bytes = .ok image) :
    ∀ seg ∈ image.segments, Inside bytes seg := by
  obtain ⟨place, count, hsegments⟩ := segmentsFrom_of_parse h
  exact inside_of_segmentsFrom hsegments

/-- No index is out of range when segments inside of the file are loaded. -/
theorem loadSegmentsChecked_eq {bytes : Bytes} {segments : List Segment}
    (h : ∀ seg ∈ segments, Inside bytes seg) (mem : Memory) :
    loadSegmentsChecked bytes mem segments = some (loadSegments bytes mem segments) := by
  induction segments generalizing mem with
  | nil => rfl
  | cons seg rest ih =>
      obtain ⟨hseg, hrest⟩ := List.forall_mem_cons.mp h
      rw [loadSegmentsChecked, loadSegments, slice?_eq_some hseg]
      simp only [writeChecked_eq, Option.bind_eq_bind, Option.bind_some]
      generalize (mem.map _ _).write _ _ = written
      obtain ⟨mem', ⟨⟩ | fault⟩ := written
      · rfl
      · exact ih hrest mem'

theorem loadChecked_eq (bytes : Bytes) : loadChecked bytes = some (load bytes) := by
  unfold loadChecked load
  rw [parseChecked_eq]
  cases hparse : parse bytes with
  | error e => rfl
  | ok image =>
      simp only [loadSegmentsChecked_eq (inside_of_parse hparse), Option.bind_eq_bind,
        Option.bind_some]
      cases loadSegments bytes {} image.segments <;> rfl

/-! ### Where the bytes end up -/

/-- Whether the file bytes of a segment cover an address. -/
def covers (addr : UInt32) (seg : Segment) : Bool :=
  decide (seg.address.toNat ≤ addr.toNat ∧ addr.toNat < seg.address.toNat + seg.fileSize.toNat)

/-- A segment covers the addresses of its bytes. -/
theorem covers_iff {addr : UInt32} {seg : Segment} :
    covers addr seg = true ↔
      seg.address.toNat ≤ addr.toNat ∧ addr.toNat < seg.address.toNat + seg.fileSize.toNat :=
  decide_eq_true_iff

/-- Whether the page of an address meets a segment, up to the end of the address space. -/
def Reaches (addr : UInt32) (seg : Segment) : Prop :=
  PageMeets addr seg.address.toNat
    (min (seg.address.toNat + max seg.memorySize.toNat seg.fileSize.toNat) 4294967296)

/-- The byte that the segments put at an address: that of the last segment whose file bytes
cover it, and `blank` where there is none. -/
def byteFrom (bytes : Bytes) (segments : List Segment) (blank : UInt8) (addr : UInt32) :
    Option UInt8 :=
  match segments.reverse.find? (covers addr) with
  | some seg => bytes[seg.offset.toNat + (addr.toNat - seg.address.toNat)]?
  | none => some blank

/-- The first segment gives the byte where no later one does. -/
theorem byteFrom_cons (bytes : Bytes) (seg : Segment) (rest : List Segment) (blank : UInt8)
    (addr : UInt32) {b : UInt8} (h : byteFrom bytes [seg] blank addr = some b) :
    byteFrom bytes (seg :: rest) blank addr = byteFrom bytes rest b addr := by
  unfold byteFrom at h ⊢
  rw [List.reverse_cons, List.find?_append]
  cases rest.reverse.find? (covers addr) with
  | some later => rfl
  | none => exact h

/-- Loading one segment whose bytes fit the address space: its pages are mapped, its bytes
stand at their addresses, and all other bytes are kept. -/
theorem write_segment {bytes : Bytes} {seg : Segment} (hinside : Inside bytes seg)
    (hfits : seg.address.toNat + seg.fileSize.toNat ≤ 4294967296) (mem : Memory) :
    ∃ mem', (mem.map seg.address (max seg.memorySize.toNat seg.fileSize.toNat)).write seg.address
        ((bytes.drop seg.offset.toNat).take seg.fileSize.toNat) = (mem', .ok ()) ∧
      (∀ addr, mem'.isMapped addr = true ↔ Reaches addr seg ∨ mem.isMapped addr = true) ∧
      ∀ addr, byteFrom bytes [seg] (mem.byteAt addr) addr = some (mem'.byteAt addr) := by
  unfold Inside at hinside
  have hlength : ((bytes.drop seg.offset.toNat).take seg.fileSize.toNat).length =
      seg.fileSize.toNat := by
    rw [List.length_take, List.length_drop]
    omega
  -- the bytes go where the segment has just been mapped
  have hmapped : (mem.map seg.address (max seg.memorySize.toNat seg.fileSize.toNat)).MappedFrom
      seg.address ((bytes.drop seg.offset.toNat).take seg.fileSize.toNat).length := by
    rw [hlength]
    exact mappedFrom_of_isMapped hfits fun a hlow hhigh => isMapped_map hlow (by omega)
  refine ⟨_, write_eq_ok.mpr ⟨hmapped, rfl⟩, fun addr => ?_, fun addr => ?_⟩
  · rw [isMapped_put]
    exact isMapped_map_iff
  · rw [byteAt_put (by rw [hlength]; exact hfits) hmapped, hlength, byteAt_map]
    unfold byteFrom
    rw [List.reverse_singleton, List.find?_singleton]
    by_cases hcover : seg.address.toNat ≤ addr.toNat ∧
        addr.toNat < seg.address.toNat + seg.fileSize.toNat
    · -- the byte in the file behind as many bytes as are in front of the address
      rw [if_pos hcover, if_pos (covers_iff.mpr hcover)]
      have hplace : seg.offset.toNat + (addr.toNat - seg.address.toNat) < bytes.length := by omega
      rw [List.getD_eq_getElem?_getD, List.getElem?_take_of_lt (by omega), List.getElem?_drop,
        List.getElem?_eq_getElem hplace]
      exact List.getElem?_eq_getElem hplace
    · rw [if_neg hcover, if_neg (mt covers_iff.mp hcover)]

/-- Segments below the end of the address space are loaded; their pages are mapped, and a later
segment overwrites an earlier one. The induction is on the segments, with the memory free. -/
theorem loadSegments_eq_ok {bytes : Bytes} {segments : List Segment}
    (hinside : ∀ seg ∈ segments, Inside bytes seg)
    (hfits : ∀ seg ∈ segments, seg.address.toNat + seg.fileSize.toNat ≤ 4294967296)
    (mem : Memory) :
    ∃ mem', loadSegments bytes mem segments = .ok mem' ∧
      (∀ addr, mem'.isMapped addr = true ↔
        (∃ seg ∈ segments, Reaches addr seg) ∨ mem.isMapped addr = true) ∧
      ∀ addr, byteFrom bytes segments (mem.byteAt addr) addr = some (mem'.byteAt addr) := by
  induction segments generalizing mem with
  | nil => exact ⟨mem, rfl, by simp, fun _ => rfl⟩
  | cons seg rest ih =>
      rw [List.forall_mem_cons] at hinside hfits
      obtain ⟨mem₁, hwrite, hmapped₁, hbytes₁⟩ := write_segment hinside.1 hfits.1 mem
      obtain ⟨mem₂, hload, hmapped₂, hbytes₂⟩ := ih hinside.2 hfits.2 mem₁
      refine ⟨mem₂, ?_, fun addr => ?_, fun addr => ?_⟩
      · rw [loadSegments]
        simp only [hwrite]
        exact hload
      · rw [hmapped₂, hmapped₁]
        simp only [List.mem_cons, exists_eq_or_imp, or_assoc, or_left_comm]
      · rw [byteFrom_cons _ _ _ _ _ (hbytes₁ addr), hbytes₂]

/-- Loading segments fails at a page that is not mapped only. -/
theorem loadSegments_eq_error {bytes : Bytes} {segments : List Segment} {mem : Memory}
    {fault : Fault} (h : loadSegments bytes mem segments = .error fault) :
    ∃ addr, fault = .unmapped addr := by
  induction segments generalizing mem with
  | nil => cases h
  | cons seg rest ih =>
      rw [loadSegments] at h
      split at h
      · exact ih h
      next hwrite =>
        cases h
        exact write_eq_error hwrite

/-- Loading a file reports what is wrong with its header, or an address that is not mapped, or
gives a machine. -/
theorem load_cases (bytes : Bytes) :
    (∃ m, load bytes = .ok m) ∨ (∃ e, load bytes = .error (.image e)) ∨
      ∃ addr, load bytes = .error (.fault (.unmapped addr)) := by
  unfold load
  split
  next e _ => exact .inr (.inl ⟨e, rfl⟩)
  next image _ =>
    split
    next fault hfault =>
      obtain ⟨addr, rfl⟩ := loadSegments_eq_error hfault
      exact .inr (.inr ⟨addr, rfl⟩)
    next mem _ => exact .inl ⟨_, rfl⟩

/-- A memory that holds the segments of a file and the stack, and nothing else. -/
structure HoldsSegments (bytes : Bytes) (segments : List Segment) (mem : Memory) : Prop where
  isMapped_iff : ∀ addr, mem.isMapped addr = true ↔
    (∃ seg ∈ segments, Reaches addr seg) ∨
      PageMeets addr (Machine.stackTop.toNat - Machine.stackSize) Machine.stackTop.toNat
  get? : ∀ addr, mem.isMapped addr = true → mem.get? addr = byteFrom bytes segments 0 addr

/-- The stack that is mapped for the start takes nothing away from the segments. -/
theorem holdsSegments_start {bytes : Bytes} {segments : List Segment} {mem : Memory}
    (hmapped : ∀ addr, mem.isMapped addr = true ↔ ∃ seg ∈ segments, Reaches addr seg)
    (hbytes : ∀ addr, byteFrom bytes segments 0 addr = some (mem.byteAt addr)) (entry : UInt32) :
    HoldsSegments bytes segments (Machine.start mem entry).memory where
  isMapped_iff addr := by
    have hlow : (Machine.stackTop - UInt32.ofNat Machine.stackSize).toNat =
        Machine.stackTop.toNat - Machine.stackSize := by decide
    have hhigh : min (Machine.stackTop.toNat - Machine.stackSize + Machine.stackSize) 4294967296 =
        Machine.stackTop.toNat := by decide
    rw [← hmapped, or_comm, Machine.start, isMapped_map_iff, hlow, hhigh]
  get? addr haddr := by
    rw [get?_of_isMapped haddr, hbytes, Machine.start, byteAt_map]

/-- Loading any file uses no index outside it, and ends with a machine or with one of the named
complaints. A file whose header is accepted and whose segments fit the address space is loaded,
and memory then holds its segments. -/
theorem load_safe (bytes : Bytes) :
    loadChecked bytes = some (load bytes) ∧
      ((∃ m, load bytes = .ok m) ∨ (∃ e, load bytes = .error (.image e)) ∨
        ∃ addr, load bytes = .error (.fault (.unmapped addr))) ∧
      ∀ image, parse bytes = .ok image →
        (∀ seg ∈ image.segments, seg.address.toNat + seg.fileSize.toNat ≤ 4294967296) →
        ∃ m, load bytes = .ok m ∧ HoldsSegments bytes image.segments m.memory := by
  refine ⟨loadChecked_eq bytes, load_cases bytes, fun image hparse hfits => ?_⟩
  obtain ⟨mem, hload, hmapped, hbytes⟩ :=
    loadSegments_eq_ok (inside_of_parse hparse) hfits {}
  refine ⟨Machine.start mem image.entry, by simp only [load, hparse, hload], ?_⟩
  refine holdsSegments_start (fun addr => ?_) (fun addr => ?_) image.entry
  · rw [hmapped]
    simp
  · rw [← hbytes, byteAt_empty]

/-- A file with two segments that overlap and one that ends with the address space. -/
def overlappingFile : Bytes :=
  header 0x1000 0 ++ segmentEntry 0 0x1000 8 canRead ++ segmentEntry 1 0x1002 2 canRead ++
    segmentEntry 0 0xFFFFFFFE 2 canRead

/-- The later of two segments wins where they overlap, and the rest of a page is zero. -/
theorem load_safe_overlapping :
    ∃ m, load overlappingFile = .ok m ∧
      m.memory.get? 0x1001 = some 0x45 ∧ m.memory.get? 0x1002 = some 0x45 ∧
      m.memory.get? 0x1003 = some 0x4C ∧ m.memory.get? 0x1008 = some 0 ∧
      m.memory.get? 0xFFFFFFFF = some 0x45 := by
  have hparse : parse overlappingFile = .ok ⟨0x1000, 0, [⟨0, 0x1000, 8, 8, canRead⟩,
      ⟨1, 0x1002, 2, 2, canRead⟩, ⟨0, 0xFFFFFFFE, 2, 2, canRead⟩]⟩ := by decide +kernel
  obtain ⟨m, hload, hholds⟩ := (load_safe overlappingFile).2.2 _ hparse (by decide +kernel)
  have hfirst (addr : UInt32) (hpage : pageOf addr = 1) : m.memory.isMapped addr = true :=
    (hholds.isMapped_iff addr).mpr
      (.inl ⟨⟨0, 0x1000, 8, 8, canRead⟩, .head _, 0x1000, by decide, by decide, hpage.symm⟩)
  have hlast : m.memory.isMapped 0xFFFFFFFF = true :=
    (hholds.isMapped_iff _).mpr (.inl ⟨⟨0, 0xFFFFFFFE, 2, 2, canRead⟩, by decide, 0xFFFFFFFF,
      by decide, by decide, by decide⟩)
  refine ⟨m, hload, ?_, ?_, ?_, ?_, ?_⟩
  · exact hholds.get? _ (hfirst _ rfl)
  · exact hholds.get? _ (hfirst _ rfl)
  · exact hholds.get? _ (hfirst _ rfl)
  · exact hholds.get? _ (hfirst _ rfl)
  · exact hholds.get? _ hlast

end Image

end Ia32

import Ia32.Image.Reader
import Ia32.Proofs.Asm.DataText
import Ia32.Proofs.Asm.Listing
import Ia32.Proofs.Machine.Memory

/-!
# Images are loaded as they were written

The writer puts the fields of an image one behind another, the reader takes them from
fixed places. Both agree: the image of a program is read as three consecutive segments,
and a machine that has loaded it holds the code and the data at their addresses, with zeros
up to the end of the last page of each.
-/

namespace Ia32

namespace Abi

/-- Bytes of the pages that hold some bytes. -/
def wholePages (n : Nat) : Nat :=
  (n + pageSize - 1) / pageSize * pageSize

theorem le_wholePages (n : Nat) : n ≤ wholePages n := by
  simp only [wholePages, pageSize]
  omega

theorem wholePages_mod (n : Nat) : wholePages n % pageSize = 0 :=
  Nat.mul_mod_left _ _

/-- Rounding up to whole pages works below the end of the address space. -/
theorem alignUp_eq_wholePages {n : Nat} (h : n + pageSize < 4294967296) :
    alignUp n pageSize = .ok (wholePages n) := by
  obtain ⟨k, hk, hmod, hle, hlt⟩ := alignUp_pageSize h
  rw [hk]
  refine congrArg Except.ok ?_
  simp only [wholePages, pageSize] at hmod hle hlt ⊢
  omega

/-- Rounding up succeeds nowhere else. -/
theorem alignUp_eq_ok {n k : Nat} (h : alignUp n pageSize = .ok k) :
    n + pageSize < 4294967296 ∧ k = wholePages n := by
  by_cases hroom : n + pageSize < 4294967296
  · rw [alignUp_eq_wholePages hroom] at h
    cases h
    exact ⟨hroom, rfl⟩
  · rw [alignUp, if_neg (by decide), if_neg hroom] at h
    cases h

/-- The data stand behind the header page and the pages of the code. -/
theorem Layout.dataBase_eq_ok {layout : Layout} {length : Nat} {dataBase : UInt32}
    (h : layout.dataBase length = .ok dataBase) :
    ∃ textBase, layout.textBase = .ok textBase ∧ textBase.toNat = layout.base.toNat + pageSize ∧
      length + pageSize < 4294967296 ∧ Word.offset textBase (wholePages length) = .ok dataBase ∧
      dataBase.toNat = textBase.toNat + wholePages length := by
  obtain ⟨textBase, htext, h⟩ := bind_eq_ok.mp h
  obtain ⟨size, hsize, h⟩ := bind_eq_ok.mp h
  obtain ⟨hroom, rfl⟩ := alignUp_eq_ok hsize
  exact ⟨textBase, htext, Word.toNat_offset htext, hroom, h, Word.toNat_offset h⟩

end Abi

theorem Machine.memory_start (mem : Memory) (entry : UInt32) :
    (Machine.start mem entry).memory =
      mem.map (Machine.stackTop - UInt32.ofNat Machine.stackSize) Machine.stackSize := rfl

namespace Image

/-! ### Fields -/

/-- Four bytes of a file are read as their word. -/
theorem word_of_drop {bytes rest : Bytes} {place : Nat} {w : UInt32}
    (h : bytes.drop place = Word.toBytes w ++ rest) : word bytes place = .ok w := by
  unfold word
  rw [h]
  simp only [Word.toBytes, List.cons_append, List.nil_append, Word.ofBytes_toBytes]

/-- The fields of a header behind its identification. -/
def fields (entry flags : UInt32) : Bytes :=
  Word.halfBytes kindExecutable ++ (Word.halfBytes machine386 ++
    (Word.toBytes version.toUInt32 ++ (Word.toBytes entry ++
    (Word.toBytes (UInt32.ofNat headerSize) ++ (Word.toBytes 0 ++ (Word.toBytes flags ++
    (Word.halfBytes headerSize ++ (Word.halfBytes segmentSize ++ (Word.halfBytes 3 ++
    (Word.halfBytes 0 ++ (Word.halfBytes 0 ++ Word.halfBytes 0)))))))))))

theorem header_eq (entry flags : UInt32) :
    header entry flags =
      [0x7F, 0x45, 0x4C, 0x46, 1, 1, 1, 0, 0, 0, 0, 0, 0, 0, 0, 0] ++ fields entry flags := by
  have hidentification : identification =
      [0x7F, 0x45, 0x4C, 0x46, 1, 1, 1, 0, 0, 0, 0, 0, 0, 0, 0, 0] := by decide
  simp only [header, fields, hidentification, List.append_assoc]

@[simp]
theorem length_header (entry flags : UInt32) : (header entry flags).length = headerSize := by
  rw [header_eq]
  rfl

@[simp]
theorem length_segmentEntry (offset address size flags : UInt32) :
    (segmentEntry offset address size flags).length = segmentSize := by
  simp only [segmentEntry, List.length_append, Word.length_toBytes, segmentSize]

/-- The entry of a segment whose bytes lie inside the file is read back. -/
theorem segmentAt_segmentEntry {front rest : Bytes} {offset address size flags : UInt32}
    (hfile : offset.toNat + size.toNat ≤
      (front ++ (segmentEntry offset address size flags ++ rest)).length) :
    segmentAt (front ++ (segmentEntry offset address size flags ++ rest)) front.length =
      .ok (some ⟨offset, address, size, size, flags⟩) := by
  have hword (k : Nat) (w : UInt32) (tail : Bytes)
      (h : (segmentEntry offset address size flags ++ rest).drop k = Word.toBytes w ++ tail) :
      word (front ++ (segmentEntry offset address size flags ++ rest)) (front.length + k) =
        .ok w := by
    have hdrop :
        (front ++ (segmentEntry offset address size flags ++ rest)).drop (front.length + k) =
          Word.toBytes w ++ tail := by
      rw [← h, List.drop_length_add_append]
    exact word_of_drop hdrop
  have hload := hword 0 loadable _ rfl
  have hoffset := hword 4 offset _ rfl
  have haddress := hword 8 address _ rfl
  have hsize := hword 16 size _ rfl
  have hmemory := hword 20 size _ rfl
  have hflags := hword 24 flags _ rfl
  generalize front ++ (segmentEntry offset address size flags ++ rest) = bytes at *
  simp only [Nat.add_zero] at hload
  simp only [segmentAt, hload, hoffset, haddress, hsize, hmemory, hflags, ok_bind, ne_eq,
    not_true_eq_false, if_false]
  rw [if_neg (by omega)]
  rfl

/-- The table of segments behind a header. -/
def table (segments : List Segment) : Bytes :=
  segments.flatMap fun s => segmentEntry s.offset s.address s.fileSize s.flags

/-- A table of program headers is read as the segments it was written from. -/
theorem segmentsFrom_table {front rest : Bytes} {segments : List Segment}
    (h : ∀ s ∈ segments, s.memorySize = s.fileSize ∧
      s.offset.toNat + s.fileSize.toNat ≤ (front ++ (table segments ++ rest)).length) :
    segmentsFrom (front ++ (table segments ++ rest)) front.length segments.length =
      .ok segments := by
  induction segments generalizing front with
  | nil => rfl
  | cons s others ih =>
      obtain ⟨hmemory, hfile⟩ := h s List.mem_cons_self
      have hsplit : front ++ (table (s :: others) ++ rest) =
          front ++ (segmentEntry s.offset s.address s.fileSize s.flags ++
            (table others ++ rest)) := by
        simp [table]
      have hassoc : front ++ (segmentEntry s.offset s.address s.fileSize s.flags ++
            (table others ++ rest)) =
          (front ++ segmentEntry s.offset s.address s.fileSize s.flags) ++
            (table others ++ rest) := by
        simp
      have hrest := @ih (front ++ segmentEntry s.offset s.address s.fileSize s.flags)
        fun other hother => by
          rw [← hassoc, ← hsplit]
          exact h other (List.mem_cons_of_mem s hother)
      rw [List.length_append, length_segmentEntry, ← hassoc] at hrest
      rw [hsplit] at hfile ⊢
      rw [List.length_cons, segmentsFrom, segmentAt_segmentEntry hfile, ok_bind]
      simp only [hrest, ok_bind]
      obtain ⟨offset, address, fileSize, memorySize, flags⟩ := s
      cases hmemory
      rfl

/-- What the header of an image says, field by field. -/
theorem parse_eq {entry flags : UInt32} {rest : Bytes} {segments : List Segment}
    (h : segmentsFrom (header entry flags ++ rest) headerSize 3 = .ok segments) :
    parse (header entry flags ++ rest) =
      if flags &&& needsLibraryFlag ≠ 0 then .error .needsLibrary
      else .ok ⟨entry, flags, segments⟩ := by
  have hlength : ¬(header entry flags ++ rest).length < headerSize := by simp
  rw [header_eq] at hlength h ⊢
  generalize hbytes : _ ++ fields entry flags ++ rest = bytes at hlength h ⊢
  have hmagic : bytes.take 4 = magic := by rw [← hbytes]; rfl
  have hclass : bytes[4]? = some class32 := by rw [← hbytes]; rfl
  have horder : bytes[5]? = some lowFirst := by rw [← hbytes]; rfl
  have hkind : half bytes 16 = .ok kindExecutable := by rw [← hbytes]; rfl
  have hmachine : half bytes 18 = .ok machine386 := by rw [← hbytes]; rfl
  have hentry : word bytes 24 = .ok entry := by rw [← hbytes]; exact word_of_drop rfl
  have htable : word bytes 28 = .ok (UInt32.ofNat headerSize) := by
    rw [← hbytes]
    exact word_of_drop rfl
  have hflags : word bytes 36 = .ok flags := by rw [← hbytes]; exact word_of_drop rfl
  have hsize : half bytes 42 = .ok segmentSize := by rw [← hbytes]; rfl
  have hcount : half bytes 44 = .ok 3 := by rw [← hbytes]; rfl
  have hplace : (UInt32.ofNat headerSize).toNat = headerSize := rfl
  simp only [parse, hmagic, hlength, hclass, horder, hkind, hmachine, hflags, htable, hsize, hcount,
    hplace, h, hentry, ok_bind, ne_eq, not_true_eq_false, and_false, if_false]
  split <;> rfl

/-! ### Segments in memory -/

/-- Segments one behind another in the file, each as long in memory as in the file, and as
far from the base in memory as from the start in the file. -/
def Consecutive (base : UInt32) : Nat → List Segment → Nat → Prop
  | start, [], finish => start = finish
  | start, s :: rest, finish =>
      s.offset.toNat = start ∧ s.address.toNat = base.toNat + start ∧
        s.memorySize = s.fileSize ∧ Consecutive base (start + s.fileSize.toNat) rest finish

/-- Segments in a row end behind their start. -/
theorem Consecutive.le {base : UInt32} {start finish : Nat} {segments : List Segment}
    (h : Consecutive base start segments finish) : start ≤ finish := by
  induction segments generalizing start with
  | nil => exact Nat.le_of_eq h
  | cons s rest ih =>
      obtain ⟨-, -, -, hrest⟩ := h
      have := ih hrest
      omega

/-- Consecutive segments lie inside the file. -/
theorem Consecutive.bounds {base : UInt32} {start finish : Nat} {segments : List Segment}
    (h : Consecutive base start segments finish) :
    ∀ s ∈ segments, s.memorySize = s.fileSize ∧ s.offset.toNat + s.fileSize.toNat ≤ finish := by
  induction segments generalizing start with
  | nil =>
      intro s hs
      cases hs
  | cons first rest ih =>
      obtain ⟨hoffset, -, hmemory, hrest⟩ := h
      intro s hs
      rcases List.mem_cons.mp hs with rfl | hs
      · exact ⟨hmemory, hoffset ▸ hrest.le⟩
      · exact ih hrest s hs

/-- A memory that holds the first bytes of a file from a base on, and nothing else; no page
is mapped beyond them. -/
structure Holds (file : Bytes) (base : UInt32) (length : Nat) (mem : Memory) : Prop where
  isMapped : ∀ a : UInt32, base.toNat ≤ a.toNat → a.toNat < base.toNat + length →
    mem.isMapped a = true
  isUnmapped : ∀ a : UInt32, base.toNat + length + Abi.pageSize ≤ a.toNat →
    mem.isMapped a = false
  byteAt : ∀ a : UInt32, mem.byteAt a =
    if base.toNat ≤ a.toNat ∧ a.toNat < base.toNat + length then file.getD (a.toNat - base.toNat) 0
    else 0

/-- Loading the next segment of a file extends what memory holds of it. -/
theorem Holds.extend {file : Bytes} {base : UInt32} {mem : Memory} {s : Segment}
    (h : Holds file base s.offset.toNat mem)
    (haddress : s.address.toNat = base.toNat + s.offset.toNat)
    (hfile : s.offset.toNat + s.fileSize.toNat ≤ file.length)
    (hroom : base.toNat + (s.offset.toNat + s.fileSize.toNat) ≤ 4294967296) :
    ∃ mem', (mem.map s.address s.fileSize.toNat).write s.address
        ((file.drop s.offset.toNat).take s.fileSize.toNat) = (mem', .ok ()) ∧
      Holds file base (s.offset.toNat + s.fileSize.toNat) mem' := by
  have hlength : ((file.drop s.offset.toNat).take s.fileSize.toNat).length = s.fileSize.toNat := by
    rw [List.length_take, List.length_drop]
    omega
  have hmapped : ∀ a : UInt32, base.toNat ≤ a.toNat →
      a.toNat < base.toNat + (s.offset.toNat + s.fileSize.toNat) →
      (mem.map s.address s.fileSize.toNat).isMapped a = true := by
    intro a hlow hhigh
    by_cases hold : a.toNat < base.toNat + s.offset.toNat
    · exact Memory.isMapped_map_of_isMapped (h.isMapped a hlow hold) _ _
    · exact Memory.isMapped_map (by omega) (by omega)
  have hplace : (mem.map s.address s.fileSize.toNat).MappedFrom s.address
      ((file.drop s.offset.toNat).take s.fileSize.toNat).length := by
    rw [hlength]
    exact Memory.mappedFrom_of_isMapped (by omega) fun a hlow hhigh =>
      hmapped a (by omega) (by omega)
  refine ⟨_, Memory.write_eq_ok.mpr ⟨hplace, rfl⟩, ?_, ?_, ?_⟩
  · intro a hlow hhigh
    rw [Memory.isMapped_put]
    exact hmapped a hlow hhigh
  · intro a hbeyond
    rw [Memory.isMapped_put]
    exact Memory.isMapped_map_eq_false (h.isUnmapped a (by omega)) (.inl (by omega))
  · intro a
    rw [Memory.byteAt_put (by rw [hlength]; omega) hplace, hlength, Memory.byteAt_map, h.byteAt]
    by_cases hnew : s.address.toNat ≤ a.toNat ∧ a.toNat < s.address.toNat + s.fileSize.toNat
    · rw [if_pos hnew, if_pos (by omega)]
      have hindex : a.toNat - base.toNat = s.offset.toNat + (a.toNat - s.address.toNat) := by omega
      rw [hindex, List.getD_eq_getElem?_getD, List.getD_eq_getElem?_getD,
        List.getElem?_take_of_lt (by omega), List.getElem?_drop]
    · rw [if_neg hnew]
      by_cases hold : base.toNat ≤ a.toNat ∧ a.toNat < base.toNat + s.offset.toNat
      · rw [if_pos hold, if_pos (by omega)]
      · rw [if_neg hold, if_neg (by omega)]

/-- Consecutive segments are loaded as one piece of the file. -/
theorem loadSegments_consecutive {file : Bytes} {base : UInt32} {start finish : Nat}
    {segments : List Segment} {mem : Memory} (h : Consecutive base start segments finish)
    (hfile : finish ≤ file.length) (hroom : base.toNat + finish ≤ 4294967296)
    (hmem : Holds file base start mem) :
    ∃ mem', loadSegments file mem segments = .ok mem' ∧ Holds file base finish mem' := by
  induction segments generalizing start mem with
  | nil =>
      cases h
      exact ⟨mem, rfl, hmem⟩
  | cons s rest ih =>
      obtain ⟨rfl, haddress, hmemory, hrest⟩ := h
      have hle := hrest.le
      obtain ⟨mem', hwrite, hmem'⟩ := hmem.extend haddress (by omega) (by omega)
      obtain ⟨mem'', hload, hholds⟩ := ih hrest hmem'
      refine ⟨mem'', ?_, hholds⟩
      rw [loadSegments, hmemory, Nat.max_self]
      simp only [hwrite]
      exact hload

/-- An image whose segments are consecutive from the start of the file on is loaded with
the whole file in memory. -/
theorem load_of_parse {file : Bytes} {image : Image} {base : UInt32} {finish : Nat}
    (hparse : parse file = .ok image) (h : Consecutive base 0 image.segments finish)
    (hfile : finish ≤ file.length) (hroom : base.toNat + finish ≤ 4294967296) :
    ∃ mem, load file = .ok (Machine.start mem image.entry) ∧ Holds file base finish mem := by
  have hempty : Holds file base 0 {} := by
    refine ⟨fun a _ hhigh => absurd hhigh (by omega), fun a _ => Memory.isMapped_empty a,
      fun a => ?_⟩
    rw [if_neg (by omega), Memory.byteAt_empty]
  obtain ⟨mem, hload, hholds⟩ := loadSegments_consecutive h hfile hroom hempty
  refine ⟨mem, ?_, hholds⟩
  simp only [load, hparse, hload]

/-! ### The image of a program -/

theorem getD_padTo (length : Nat) (bytes : Bytes) (i : Nat) :
    (padTo length bytes).getD i 0 = bytes.getD i 0 := by
  simp only [padTo, List.getD_eq_getElem?_getD, List.getElem?_append, List.getElem?_replicate]
  split
  · rfl
  · rw [List.getElem?_eq_none (by omega)]
    split <;> rfl

theorem length_padTo {length : Nat} {bytes : Bytes} (h : bytes.length ≤ length) :
    (padTo length bytes).length = length := by
  rw [padTo, List.length_append, List.length_replicate]
  omega

theorem getD_append_left {a b : Bytes} {i : Nat} (h : i < a.length) :
    (a ++ b).getD i 0 = a.getD i 0 := by
  rw [List.getD_eq_getElem?_getD, List.getD_eq_getElem?_getD, List.getElem?_append_left h]

theorem getD_append_right {a b : Bytes} (i : Nat) :
    (a ++ b).getD (a.length + i) 0 = b.getD i 0 := by
  rw [List.getD_eq_getElem?_getD, List.getD_eq_getElem?_getD,
    List.getElem?_append_right (Nat.le_add_right _ _), Nat.add_sub_cancel_left]

/-- The segments of a program: the header page, the code and the data. -/
def segmentsOf (base textBase dataBase : UInt32) (textSize dataSize : Nat) : List Segment :=
  [⟨0, base, UInt32.ofNat Abi.pageSize, UInt32.ofNat Abi.pageSize, canRead⟩,
    ⟨UInt32.ofNat Abi.pageSize, textBase, UInt32.ofNat textSize, UInt32.ofNat textSize,
      canRead ||| canExecute⟩,
    ⟨UInt32.ofNat (Abi.pageSize + textSize), dataBase, UInt32.ofNat dataSize, UInt32.ofNat dataSize,
      canRead ||| canWrite⟩]

/-- The file that starts with some bytes on its first page, with the code and the data behind
it, each filled up with zeros. -/
def fileWith (front code data : Bytes) : Bytes :=
  padTo (Abi.pageSize + Abi.wholePages code.length + Abi.wholePages data.length)
    (padTo (Abi.pageSize + Abi.wholePages code.length) (padTo Abi.pageSize front ++ code) ++ data)

section FileWith

variable {front code data : Bytes} (hfront : front.length ≤ Abi.pageSize)

include hfront

theorem length_padTo_code :
    (padTo (Abi.pageSize + Abi.wholePages code.length) (padTo Abi.pageSize front ++ code)).length =
      Abi.pageSize + Abi.wholePages code.length := by
  have hle := Abi.le_wholePages code.length
  refine length_padTo ?_
  rw [List.length_append, length_padTo hfront]
  omega

/-- A file is a page in front of the whole pages of code and data. -/
theorem length_fileWith : (fileWith front code data).length =
    Abi.pageSize + Abi.wholePages code.length + Abi.wholePages data.length := by
  have hle := Abi.le_wholePages data.length
  refine length_padTo ?_
  rw [List.length_append, length_padTo_code hfront]
  omega

/-- The code stands behind the first page. -/
theorem getD_fileWith_code {i : Nat} (hi : i < Abi.wholePages code.length) :
    (fileWith front code data).getD (Abi.pageSize + i) 0 = code.getD i 0 := by
  rw [fileWith, getD_padTo, getD_append_left (by rw [length_padTo_code hfront]; omega), getD_padTo]
  have hlength : Abi.pageSize = (padTo Abi.pageSize front).length := (length_padTo hfront).symm
  exact (congrArg (fun n => List.getD _ (n + i) 0) hlength).trans (getD_append_right i)

/-- The data stands behind the pages of the code. -/
theorem getD_fileWith_data (i : Nat) :
    (fileWith front code data).getD (Abi.pageSize + Abi.wholePages code.length + i) 0 =
      data.getD i 0 := by
  rw [fileWith, getD_padTo]
  exact (congrArg (fun n => List.getD _ (n + i) 0) (length_padTo_code hfront).symm).trans
    (getD_append_right i)

omit hfront in
theorem isPrefix_fileWith : front <+: fileWith front code data := by
  have hpage : front <+: padTo Abi.pageSize front := List.prefix_append ..
  have hcode : front <+: padTo Abi.pageSize front ++ code := hpage.trans (List.prefix_append ..)
  have hdata : front <+:
      padTo (Abi.pageSize + Abi.wholePages code.length) (padTo Abi.pageSize front ++ code) ++
        data :=
    (hcode.trans (List.prefix_append ..)).trans (List.prefix_append ..)
  exact hdata.trans (List.prefix_append ..)

end FileWith

/-- The header and the table of a program. -/
def frontOf (asm : Asm.Assembly) (textBase dataBase entry : UInt32) : Bytes :=
  header entry (if asm.needsLibrary then needsLibraryFlag else 0) ++
    table (segmentsOf asm.layout.base textBase dataBase (Abi.wholePages asm.code.length)
      (Abi.wholePages asm.data.length))

/-- All headers fit in the first page. -/
theorem length_frontOf (asm : Asm.Assembly) (textBase dataBase entry : UInt32) :
    (frontOf asm textBase dataBase entry).length ≤ Abi.pageSize := by
  simp [frontOf, table, segmentsOf, headerSize, segmentSize, Abi.pageSize]

/-- The image of a program can be formed if its code does not start like an image and the
file is shorter than the address space. -/
theorem ofAssembly_eq_fileWith {asm : Asm.Assembly} {dataBase : UInt32}
    (hmagic : asm.code.head? ≠ magic.head?) (hentry : asm.entry ≤ asm.code.length)
    (hdata : asm.dataBase = .ok dataBase)
    (hshort : Abi.pageSize + Abi.wholePages asm.code.length + Abi.wholePages asm.data.length <
      4294967296) :
    ∃ textBase entry, asm.textBase = .ok textBase ∧ asm.entryAddress = .ok entry ∧
      textBase.toNat = asm.layout.base.toNat + Abi.pageSize ∧
      dataBase.toNat = textBase.toNat + Abi.wholePages asm.code.length ∧
      ofAssembly asm = .ok (fileWith (frontOf asm textBase dataBase entry) asm.code asm.data) := by
  obtain ⟨textBase, htext, htextNat, hcodeRoom, -, hdataNat⟩ := Abi.Layout.dataBase_eq_ok hdata
  have hcodeLe := Abi.le_wholePages asm.code.length
  have hdataMod := Abi.wholePages_mod asm.data.length
  have hdataLe := Abi.le_wholePages asm.data.length
  have hdataLt := dataBase.toNat_lt
  have hpage : (UInt32.ofNat Abi.pageSize).toNat = Abi.pageSize := rfl
  have hdataRoom : asm.data.length + Abi.pageSize < 4294967296 := by
    simp only [Abi.pageSize] at hshort hdataMod ⊢
    omega
  obtain ⟨entry, hentryOk, -⟩ := Word.exists_offset textBase asm.entry (by omega)
  obtain ⟨dataOffset, hdataOffset, hdataOffsetNat⟩ :=
    Word.exists_offset (UInt32.ofNat Abi.pageSize) (Abi.wholePages asm.code.length) (by omega)
  obtain ⟨finish, hfinish, hfinishNat⟩ :=
    Word.exists_offset dataOffset (Abi.wholePages asm.data.length) (by omega)
  rw [hpage] at hdataOffsetNat
  rw [hdataOffsetNat] at hfinishNat
  have hdataOffsetEq : dataOffset =
      UInt32.ofNat (Abi.pageSize + Abi.wholePages asm.code.length) := by
    rw [← hdataOffsetNat, UInt32.ofNat_toNat]
  have hentryAddress : asm.entryAddress = .ok entry := by
    simp only [Asm.Assembly.entryAddress, Asm.Assembly.textBase, htext, ok_bind, hentryOk]
  have hfront : frontOf asm textBase dataBase entry =
      header entry (if asm.needsLibrary then needsLibraryFlag else 0) ++
        segmentEntry 0 asm.layout.base (UInt32.ofNat Abi.pageSize) canRead ++
        segmentEntry (UInt32.ofNat Abi.pageSize) textBase
          (UInt32.ofNat (Abi.wholePages asm.code.length)) (canRead ||| canExecute) ++
        segmentEntry dataOffset dataBase (UInt32.ofNat (Abi.wholePages asm.data.length))
          (canRead ||| canWrite) := by
    rw [hdataOffsetEq]
    simp only [frontOf, table, segmentsOf, List.flatMap_cons, List.flatMap_nil, List.append_nil,
      List.append_assoc]
  refine ⟨textBase, entry, htext, hentryAddress, htextNat, hdataNat, ?_⟩
  simp only [ofAssembly, if_neg hmagic, Abi.alignUp_eq_wholePages hcodeRoom,
    Abi.alignUp_eq_wholePages hdataRoom, hdataOffset, hfinish, hentryAddress, hdata,
    Asm.Assembly.textBase, htext, Asm.ofChecked, ok_bind]
  rw [← hfront, hdataOffsetNat, hfinishNat]
  rfl

/-- Headers, code and data are segments in a row. -/
theorem consecutive_segmentsOf {base textBase dataBase : UInt32} {textSize dataSize : Nat}
    (htext : textBase.toNat = base.toNat + Abi.pageSize)
    (hdata : dataBase.toNat = textBase.toNat + textSize)
    (hshort : Abi.pageSize + textSize + dataSize < 4294967296) :
    Consecutive base 0 (segmentsOf base textBase dataBase textSize dataSize)
      (Abi.pageSize + textSize + dataSize) := by
  have hpage : (UInt32.ofNat Abi.pageSize).toNat = Abi.pageSize := rfl
  have htextSize : (UInt32.ofNat textSize).toNat = textSize :=
    UInt32.toNat_ofNat_of_lt' (Nat.lt_of_le_of_lt (by omega) hshort)
  have hdataSize : (UInt32.ofNat dataSize).toNat = dataSize :=
    UInt32.toNat_ofNat_of_lt' (Nat.lt_of_le_of_lt (by omega) hshort)
  have hoffset : (UInt32.ofNat (Abi.pageSize + textSize)).toNat = Abi.pageSize + textSize :=
    UInt32.toNat_ofNat_of_lt' (Nat.lt_of_le_of_lt (by omega) hshort)
  refine ⟨rfl, rfl, rfl, ?_, ?_, rfl, ?_, ?_, rfl, ?_⟩
  · rw [hpage, Nat.zero_add]
  · rw [hpage, Nat.zero_add, htext]
  · rw [hpage, htextSize, Nat.zero_add, hoffset]
  · rw [hpage, htextSize, Nat.zero_add, hdata, htext, Nat.add_assoc]
  · rw [hpage, htextSize, hdataSize, Nat.zero_add]
    rfl

/-- A written file is read as the segments and the entry it was written with. -/
theorem parse_fileWith {asm : Asm.Assembly} {textBase dataBase entry : UInt32}
    (htext : textBase.toNat = asm.layout.base.toNat + Abi.pageSize)
    (hdata : dataBase.toNat = textBase.toNat + Abi.wholePages asm.code.length)
    (hshort : Abi.pageSize + Abi.wholePages asm.code.length + Abi.wholePages asm.data.length <
      4294967296) :
    parse (fileWith (frontOf asm textBase dataBase entry) asm.code asm.data) =
      if asm.needsLibrary then .error .needsLibrary
      else .ok ⟨entry, 0, segmentsOf asm.layout.base textBase dataBase
        (Abi.wholePages asm.code.length) (Abi.wholePages asm.data.length)⟩ := by
  have hlength := @length_fileWith _ asm.code asm.data (length_frontOf asm textBase dataBase entry)
  obtain ⟨rest, hfile⟩ := @isPrefix_fileWith (frontOf asm textBase dataBase entry) asm.code asm.data
  rw [← hfile] at hlength ⊢
  rw [frontOf, List.append_assoc] at hlength ⊢
  have hconsecutive := consecutive_segmentsOf htext hdata hshort
  have hsegments := @segmentsFrom_table
    (header entry (if asm.needsLibrary then needsLibraryFlag else 0)) rest _
    fun s hs => hlength ▸ hconsecutive.bounds s hs
  rw [length_header] at hsegments
  rw [parse_eq hsegments]
  cases asm.needsLibrary <;> rfl

/-- The bytes of a file in memory are found at their distance from the base. -/
theorem Holds.get? {file : Bytes} {base : UInt32} {length : Nat} {mem : Memory}
    (h : Holds file base length mem) (hroom : base.toNat + length ≤ 4294967296) {start : UInt32}
    {place i : Nat} (hstart : start.toNat = base.toNat + place) (hi : place + i < length) :
    mem.get? (start + UInt32.ofNat i) = some (file.getD (place + i) 0) := by
  have hnat : (start + UInt32.ofNat i).toNat = base.toNat + (place + i) := by
    rw [UInt32.toNat_add, UInt32.toNat_ofNat', hstart]
    omega
  rw [Memory.get?_of_isMapped (h.isMapped _ (by omega) (by omega)), h.byteAt,
    if_pos (by omega), hnat, Nat.add_sub_cancel_left]

/-- A program that does not need the library is loaded with its whole file in memory. -/
theorem load_fileWith {asm : Asm.Assembly} {textBase dataBase entry : UInt32}
    (hlibrary : asm.needsLibrary = false)
    (htext : textBase.toNat = asm.layout.base.toNat + Abi.pageSize)
    (hdata : dataBase.toNat = textBase.toNat + Abi.wholePages asm.code.length)
    (hshort : Abi.pageSize + Abi.wholePages asm.code.length + Abi.wholePages asm.data.length <
      4294967296)
    (hfits : dataBase.toNat + Abi.wholePages asm.data.length ≤ 4294967296) :
    ∃ mem, load (fileWith (frontOf asm textBase dataBase entry) asm.code asm.data) =
        .ok (Machine.start mem entry) ∧
      Holds (fileWith (frontOf asm textBase dataBase entry) asm.code asm.data) asm.layout.base
        (Abi.pageSize + Abi.wholePages asm.code.length + Abi.wholePages asm.data.length) mem := by
  have hparse := @parse_fileWith asm textBase dataBase entry htext hdata hshort
  rw [hlibrary, if_neg Bool.false_ne_true] at hparse
  have hlength := @length_fileWith _ asm.code asm.data (length_frontOf asm textBase dataBase entry)
  exact load_of_parse hparse (consecutive_segmentsOf htext hdata hshort) (Nat.le_of_eq hlength.symm)
    (by omega)

end Image

namespace Asm

open Assembler

/-- The entry is not behind the end of the code. -/
theorem entry_le_of_assemble {source : String} {config : Config} {externs : SymbolTable}
    {asm : Assembly} (h : assemble source config externs = .ok asm) :
    asm.entry ≤ asm.code.length := by
  obtain ⟨lines, complaints, a, scope, e, -, hlayout, hfinished⟩ := assemble_eq_ok h
  have hcode : asm.code.length = a.codeLength := by
    rw [hfinished.result]
    simpa using hfinished.codeLength
  rw [hcode, hfinished.result]
  refine findEntry_le _ _ _ _ fun d hd hsect => ?_
  have hle := (layout_eq_ok hlayout).offset_le rfl hd
  rwa [hsect] at hle

end Asm

namespace Image

/-- What a loader finds in a file: three consecutive segments for the header, the code and the
data of a program, and, once they are loaded, the program at its addresses. -/
structure ReadBack (asm : Asm.Assembly) (textBase dataBase entry : UInt32) (file : Bytes) :
    Prop where
  parsed : ∃ front text data, parse file = .ok ⟨entry, 0, [front, text, data]⟩ ∧
    Consecutive asm.layout.base 0 [front, text, data] file.length ∧
    front.flags = canRead ∧ text.flags = canRead ||| canExecute ∧
    data.flags = canRead ||| canWrite ∧
    text.address = textBase ∧ text.fileSize.toNat = Abi.wholePages asm.code.length ∧
    data.address = dataBase ∧ data.fileSize.toNat = Abi.wholePages asm.data.length
  loaded : ∃ m, load file = .ok m ∧ m.eip = entry ∧
    (∀ i < Abi.wholePages asm.code.length,
      m.memory.get? (textBase + UInt32.ofNat i) = some (asm.code.getD i 0)) ∧
    ∀ i < Abi.wholePages asm.data.length,
      m.memory.get? (dataBase + UInt32.ofNat i) = some (asm.data.getD i 0)

/-- The loader reads back what the writer wrote. The code must not start like an image, and
the file, from the base to the end of the data, must be shorter than the address space. -/
theorem load_ofAssembly {source : String} {config : Asm.Config} {externs : SymbolTable}
    {asm : Asm.Assembly} (h : Asm.assemble source config externs = .ok asm)
    (hmagic : asm.code.head? ≠ some 0x7F) {dataBase : UInt32} (hdata : asm.dataBase = .ok dataBase)
    (hfits : dataBase.toNat + Abi.wholePages asm.data.length ≤ 4294967296)
    (hshort : asm.layout.base = 0 →
      dataBase.toNat + Abi.wholePages asm.data.length < 4294967296) :
    ∃ file textBase entry, ofAssembly asm = .ok file ∧
      asm.textBase = .ok textBase ∧ asm.entryAddress = .ok entry ∧
      if asm.needsLibrary then parse file = .error .needsLibrary
      else ReadBack asm textBase dataBase entry file := by
  have hentry := Asm.entry_le_of_assemble h
  obtain ⟨textBase, -, htextNat, -, -, hdataNat⟩ := Abi.Layout.dataBase_eq_ok hdata
  have hlength : Abi.pageSize + Abi.wholePages asm.code.length + Abi.wholePages asm.data.length <
      4294967296 := by
    by_cases hbase : asm.layout.base = 0
    · have := hshort hbase
      omega
    · have : asm.layout.base.toNat ≠ 0 := fun hzero => hbase (UInt32.toNat_inj.mp hzero)
      omega
  obtain ⟨textBase, entry, htext, hentryAddress, htextNat, hdataNat, hfile⟩ :=
    ofAssembly_eq_fileWith hmagic hentry hdata hlength
  have hfront := length_frontOf asm textBase dataBase entry
  have hparse := @parse_fileWith asm textBase dataBase entry htextNat hdataNat hlength
  have hconsecutive := consecutive_segmentsOf htextNat hdataNat hlength
  refine ⟨_, textBase, entry, hfile, htext, hentryAddress, ?_⟩
  split
  next hlibrary => rw [hparse, if_pos hlibrary]
  next hlibrary =>
    rw [if_neg hlibrary] at hparse
    obtain ⟨mem, hload, hholds⟩ := load_fileWith (Bool.eq_false_iff.mpr hlibrary) htextNat hdataNat
      hlength hfits
    have hget {start : UInt32} {place i : Nat}
        (hstart : start.toNat = asm.layout.base.toNat + place)
        (hi : place + i < _) := hholds.get? (by omega) hstart hi
    -- three segments in a row with their sizes, and in memory the code and the data
    refine ⟨⟨_, _, _, hparse, ?_, rfl, rfl, rfl, rfl, ?_, rfl, ?_⟩, _, hload, rfl, ?_, ?_⟩
    · rw [length_fileWith hfront]
      exact hconsecutive
    · exact UInt32.toNat_ofNat_of_lt' (Nat.lt_of_le_of_lt (by omega) hlength)
    · exact UInt32.toNat_ofNat_of_lt' (Nat.lt_of_le_of_lt (by omega) hlength)
    · intro i hi
      rw [Machine.memory_start]
      refine Memory.get?_map_of_get? ?_ _ _
      rw [hget htextNat (by omega), getD_fileWith_code hfront hi]
    · intro i hi
      rw [Machine.memory_start]
      refine Memory.get?_map_of_get? ?_ _ _
      have hplace : dataBase.toNat = asm.layout.base.toNat +
          (Abi.pageSize + Abi.wholePages asm.code.length) := by omega
      rw [hget hplace (by omega), getD_fileWith_data hfront i]

/-- A program at a base that is not on a page boundary, with an entry behind its start. -/
theorem load_ofAssembly_unaligned :
    ∃ asm dataBase file textBase entry, Asm.assemble
        "section .data\nx: db 'text'\nsection .text\nf: ret\n_start: mov ecx, x\ncall f"
        { layout := ⟨0x1005⟩ } {} = .ok asm ∧ asm.dataBase = .ok dataBase ∧
      ofAssembly asm = .ok file ∧ asm.textBase = .ok textBase ∧ asm.entryAddress = .ok entry ∧
      ReadBack asm textBase dataBase entry file := by
  have hcheck : ((Asm.assemble
      "section .data\nx: db 'text'\nsection .text\nf: ret\n_start: mov ecx, x\ncall f"
      { layout := ⟨0x1005⟩ } {}).toOption.any fun asm =>
        asm.code.head? != some 0x7F && !asm.needsLibrary && asm.layout.base != 0 &&
          asm.dataBase.toOption.any fun dataBase =>
            decide (dataBase.toNat + Abi.wholePages asm.data.length ≤ 4294967296)) = true := by
    decide +kernel
  cases hasm : Asm.assemble
      "section .data\nx: db 'text'\nsection .text\nf: ret\n_start: mov ecx, x\ncall f"
      { layout := ⟨0x1005⟩ } {} with
  | error e =>
      rw [hasm] at hcheck
      cases hcheck
  | ok asm =>
      rw [hasm] at hcheck
      cases hbase : asm.dataBase with
      | error e => simp [hbase, Except.toOption] at hcheck
      | ok dataBase =>
          simp only [hbase, Except.toOption, Option.any_some, Bool.and_eq_true, bne_iff_ne,
            Bool.not_eq_true', decide_eq_true_eq] at hcheck
          obtain ⟨⟨⟨hmagic, hlibrary⟩, hzero⟩, hfits⟩ := hcheck
          obtain ⟨file, textBase, entry, hfile, htext, hentry, hread⟩ :=
            load_ofAssembly hasm hmagic hbase hfits fun h => absurd h hzero
          rw [hlibrary, if_neg Bool.false_ne_true] at hread
          exact ⟨asm, dataBase, file, textBase, entry, rfl, hbase, hfile, htext, hentry, hread⟩

end Image

namespace Asm

open Assembler

/-- The text of a program that has no code, and the given bytes as its data. -/
def dataSource (bytes : Bytes) : String :=
  "section .data\n" ++ "x: db " ++ Text.joinWith ", " (bytes.map fun b => toString b.toNat) ++ "\n"

/-- A source of one data line is read as that line behind its section. -/
theorem readAll_dataSource {bytes : Bytes} (h : bytes ≠ []) :
    ∃ lines, Line.readAll (dataSource bytes) = .ok (lines, []) ∧
      lines.map Line.contents =
        [(none, some (.select .data)), (some "x", some (.bytes bytes))] := by
  obtain ⟨htrimmed, hfull⟩ := trimmed_byteText bytes
  have hunquoted := unquoted_byteText bytes
  have hread := @readsAs_bytes "x" _ _ (by decide) htrimmed (hfull h)
    (dropComment_eq_self hunquoted) (readBytes_byteText h)
  have hfront : Unquoted "x: db ".toList := by decide
  have hsection : Unquoted "section .data".toList := by decide
  have hselect : ReadsAs "section .data".toList none (some (.select .data)) := fun _ => rfl
  have hsource : (dataSource bytes).toList = writtenText
      [⟨_, _, _, hselect, hsection.noEnd⟩, ⟨_, _, _, hread, (hfront.append hunquoted).noEnd⟩] := by
    have hfirst : "section .data\n".toList = "section .data".toList ++ ['\n'] := by decide
    have hsecond : "x: db ".toList = "x".toList ++ ": db ".toList := by decide
    have happend (a b c d : String) :
        (a ++ b ++ c ++ d).toList = a.toList ++ (b.toList ++ c.toList ++ d.toList) := by
      simp only [String.toList_append, List.append_assoc]
    -- put together by congruence: rewriting would compare the literals with each other
    have hline : "x: db ".toList ++ byteText bytes ++ "\n".toList =
        "x".toList ++ ": db ".toList ++ byteText bytes ++ ['\n'] ++ [] :=
      (congrArg (· ++ byteText bytes ++ ['\n']) hsecond).trans (List.append_nil _).symm
    exact (happend _ _ _ _).trans (congr (congrArg HAppend.hAppend hfirst) hline)
  exact readAll_written hsource

/-- Settings that leave the whole address space to the data. -/
def spacious : Config where
  layout := ⟨0⟩
  limits := { data := 4294967296 }

theorem dataBase_spacious : spacious.layout.dataBase 0 = .ok 4096 := by
  have htext : spacious.layout.textBase = .ok 4096 := by
    rw [Abi.Layout.textBase, Word.offset, if_pos (by decide)]
    rfl
  rw [Abi.Layout.dataBase, htext]
  rfl

/-- The layout of one data line is as long as its bytes. -/
theorem layout_data {bytes : Bytes} (h : bytes.length ≤ 4294967296) (number number' : Nat)
    (source source' : String) :
    ∃ a, layout [⟨number, source, none, some (.select .data)⟩,
        ⟨number', source', some "x", some (.bytes bytes)⟩] (ofConfig spacious) = .ok () a ∧
      a.config = spacious ∧ a.codeLength = 0 ∧ a.sizes = #[none, some bytes.length] := by
  let a : Assembler := { ofConfig spacious with
    labels := ⟨4096, [("x", ⟨.data, 0, number'⟩)]⟩
    sizes := #[none] }
  have hextend : extend .data bytes.length a = .ok () { a with dataLength := 0 + bytes.length } :=
    extend_eq_ok.mpr ⟨(Nat.zero_add bytes.length).symm ▸ h, rfl⟩
  have hstore : layoutLine .data ⟨number', source', some "x", some (.bytes bytes)⟩
      { ofConfig spacious with sizes := #[none] } =
      .ok () { a with dataLength := 0 + bytes.length, sizes := #[none, some bytes.length] } := by
    refine action_bind_eq_ok.mpr ⟨(), a, rfl, ?_⟩
    exact action_bind_eq_ok.mpr ⟨(), _, hextend, rfl⟩
  refine ⟨{ a with dataLength := 0 + bytes.length, sizes := #[none, some bytes.length] }, ?_, rfl,
    rfl, rfl⟩
  refine action_bind_eq_ok.mpr ⟨(), _, rfl, ?_⟩
  refine action_bind_eq_ok.mpr ⟨(), _, rfl, ?_⟩
  exact action_bind_eq_ok.mpr ⟨(), _, hstore, rfl⟩

/-- A source of one data line is assembled to its bytes and no code. -/
theorem assemble_dataSource {bytes : Bytes} (h : bytes ≠ []) (hlength : bytes.length ≤ 4294967296)
    (externs : SymbolTable) :
    ∃ asm, assemble (dataSource bytes) spacious externs = .ok asm ∧ asm.code = [] ∧
      asm.data = bytes ∧ asm.layout = spacious.layout := by
  obtain ⟨lines, hlines, hcontents⟩ := readAll_dataSource h
  obtain ⟨first, rest, rfl, hfirst, hrest⟩ := List.map_eq_cons_iff.mp hcontents
  obtain ⟨second, rest, rfl, hsecond, hrest⟩ := List.map_eq_cons_iff.mp hrest
  obtain rfl := List.map_eq_nil_iff.mp hrest
  obtain ⟨number, source, label, statement⟩ := first
  obtain ⟨number', source', label', statement'⟩ := second
  cases hfirst
  cases hsecond
  obtain ⟨a, hlayout, hconfig, hcode, hsizes⟩ := layout_data hlength number number' source source'
  have hassemble : assemble (dataSource bytes) spacious externs = a.emit
      [⟨number, source, none, some (.select .data)⟩,
        ⟨number', source', some "x", some (.bytes bytes)⟩] externs := by
    simp only [assemble, hlines, ofChecked, ok_bind]
    have hstart : ({ ofConfig spacious with diagnostics := [] } : Assembler) =
        ofConfig spacious := rfl
    rw [hstart, hlayout]
  obtain ⟨textBase, htext, -⟩ := Abi.Layout.dataBase_eq_ok dataBase_spacious
  have hstart : Word.offset 4096 0 = .ok 4096 := rfl
  rw [hassemble]
  simp only [emit, hconfig, hcode, hsizes, htext, dataBase_spacious, ofChecked, ok_bind,
    List.zip_cons_cons, emitLines, emitLine, nextSection, emitBytes, List.size_toArray,
    List.length_nil, hstart]
  refine ⟨_, rfl, rfl, ?_, rfl⟩
  simp

end Asm

namespace Image

/-- Data that fill the address space behind the header page fit it, but an image of that
length cannot be written. -/
theorem ofAssembly_full :
    ∃ asm, Asm.assemble (Asm.dataSource (List.replicate 4294963200 0)) Asm.spacious {} = .ok asm ∧
      asm.code.head? ≠ some 0x7F ∧ asm.dataBase = .ok 4096 ∧
      (4096 : UInt32).toNat + Abi.wholePages asm.data.length ≤ 4294967296 ∧
      ofAssembly asm = .error .overflow := by
  have hne : List.replicate 4294963200 (0 : UInt8) ≠ [] := by
    rw [ne_eq, List.replicate_eq_nil_iff]
    decide
  obtain ⟨asm, hasm, hcode, hdata, hlayout⟩ := Asm.assemble_dataSource hne
    (by rw [List.length_replicate]; decide) {}
  have hlength : asm.data.length = 4294963200 := by rw [hdata, List.length_replicate]
  refine ⟨asm, hasm, by rw [hcode]; decide, ?_, ?_, ?_⟩
  · rw [Asm.Assembly.dataBase, hcode, hlayout]
    exact Asm.dataBase_spacious
  · rw [hlength]
    decide
  · have halign : Abi.alignUp asm.data.length Abi.pageSize = .error .overflow := by
      rw [hlength]
      rfl
    simp only [ofAssembly, hcode, halign, Asm.ofChecked]
    rfl

end Image

end Ia32
